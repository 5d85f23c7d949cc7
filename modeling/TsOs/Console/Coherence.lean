import TsOs.Console.Screen

/-!
# Every call keeps the console coherent

One lemma for each call says that it keeps `Coherent`, with the characters it
writes added to the text. Output either extends the window by a character or
redraws it after scrolling; typing changes the input rows and redraws the window
when their number changes.
-/

namespace TsOs.Console

variable {con : State} {log : List UInt8} {c : UInt8}

/-! ## Output -/

theorem calcWindowDelta_le (ws : Nat) (c : UInt8) : calcWindowDelta ws c ≤ consoleMaxCol := by
  unfold calcWindowDelta
  dsimp only [consoleMaxCol]
  split <;> omega

theorem cellAt_lt {x y : Nat} (hx : x < consoleMaxCol) (hy : y < consoleMaxRow - statusBarLines)
    (hrow : inpwsToRn con.inputCnt < y) : cellAt con x y < maxWindowSize := by
  have hmax : maxWindowSize = 80 := by decide
  rw [hmax]
  unfold cellAt consoleMaxRow statusBarLines consoleMaxCol at *
  omega

/-- Writing the one cell that the screen does not show yet. -/
theorem InputShown.output {k : Nat} (hinput : InputShown con)
    (hwindow : ∀ x < consoleMaxCol, ∀ y < consoleMaxRow - statusBarLines,
      inpwsToRn con.inputCnt < y → cellAt con x y ≠ k →
        con.screen x y = shown (con.window (cellAt con x y)))
    (hk : shown (con.window k) = shown c) :
    Displayed ((con.outputWindowOneToVga k c).getD con) := by
  obtain ⟨screen, hrun, hdrawn⟩ := outputWindowOneToVga_redrawn con k c
  rw [hrun]
  constructor
  · intro x hx y hy
    exact (hdrawn.input x y hy).trans (hinput x hx y hy)
  · intro x hx y hy hrow
    change screen x y = shown (con.window (cellAt con x y))
    rw [hdrawn.window x hx y hy hrow]
    split
    next hcell => rw [hcell, hk]
    next hcell => exact hwindow x hx y hy hrow hcell

/-- `write_console_one` for a window that follows the output, when a row has to go. -/
theorem Coherent.write_scroll (h : Coherent con log) (hlog : log.length + 1 < 2 ^ 32)
    (hfollow : con.historyCnt = con.windowLastHistory)
    (hover : maxWindowSize < (con.recordChar c).windowSize) :
    ∃ con', con.appendChar c = con' ∧ con'.inputCnt = con.inputCnt ∧
      con'.inputBuf = con.inputBuf ∧ Coherent con' (log ++ [c]) ∧
      shown (con'.window (con'.windowSize - 1)) = shown c := by
  have hsize := h.windowed.size_of_follow hfollow
  have hfits := h.windowed.follow hfollow
  have hfirst := h.windowed.first_le
  have hlen := length_layout_append_one (log.drop con.windowFirstHistory) c
  have hchars : (log.drop con.windowFirstHistory).length ≤
      (layout (log.drop con.windowFirstHistory)).length := TextLayout.length_le_cells (by decide)
  have hroom : maxWindowSize + 1 ≤ consoleHistorySize := by decide
  have hdelta := calcWindowDelta_le con.windowSize c
  have hrec : Recorded (con.recordChar c) (log ++ [c]) := h.recorded.append hlog rfl rfl
  rw [← hsize] at hlen
  rw [List.length_drop] at hchars
  have hover' : maxWindowSize < con.windowSize + calcWindowDelta con.windowSize c := hover
  obtain ⟨con₁, hmove, hsame, hwin, hpos, hlast⟩ := hrec.scroll hfirst
    (by change log.length + 1 ≤ con.windowFirstHistory + consoleHistorySize; omega)
    (by change maxWindowSize < (layout (log.drop con.windowFirstHistory ++ [c])).length; omega)
    (by change (layout (log.drop con.windowFirstHistory ++ [c])).length ≤ _; omega)
  have happend : con.appendChar c = con₁.updateWindowBuffer.drawWindow := by
    rw [State.appendChar, if_pos hover, hmove, Option.getD_some]
  have hinput : InputShown con₁.updateWindowBuffer := by
    rw [hsame]
    exact h.displayed.input
  have hdisp := hinput.drawWindow
  obtain ⟨screen, hrun, -⟩ := drawWindow_redrawn con₁.updateWindowBuffer
  rw [hrun] at hdisp happend
  have hrec₁ : Recorded con₁.updateWindowBuffer (log ++ [c]) := by
    rw [hsame]
    exact ⟨hrec.count, hrec.ring⟩
  refine ⟨_, happend, ?_, ?_, ⟨hrec₁.screen screen, hwin.screen screen, hdisp, ?_⟩, hlast⟩
  · rw [hsame]
    rfl
  · rw [hsame]
    rfl
  · rw [hsame]
    exact h.input_le

/-- The row of the input that the last character stands in. -/
theorem inpwsToRn_eq {n : Nat} (h : n ≤ inputAreaMaxRow * consoleMaxCol) :
    inpwsToRn n = if n ≤ consoleMaxCol then 0 else 1 := by
  unfold inpwsToRn inputAreaMaxRow consoleMaxCol at *
  split
  next => rfl
  next => omega

/-- The state before the screen is touched, when the character fits. -/
theorem appendChar_of_room (hroom : (con.recordChar c).windowSize ≤ maxWindowSize) :
    con.appendChar c = { con.recordChar c with
      window := setByte (zeroBytes con.window ((con.recordChar c).windowSize - 1 - con.windowSize)
        con.windowSize) ((con.recordChar c).windowSize - 1) c } := by
  rw [State.appendChar, if_neg (Nat.not_lt.mpr hroom)]
  rfl

/-- `write_console_one` for a window that follows the output. -/
theorem Coherent.write_follow (h : Coherent con log) (c : UInt8) (hlog : log.length + 1 < 2 ^ 32)
    (hfollow : con.historyCnt = con.windowLastHistory) :
    ∃ con', con.appendChar c = con' ∧ con'.inputCnt = con.inputCnt ∧
      con'.inputBuf = con.inputBuf ∧ Recorded con' (log ++ [c]) ∧ Windowed con' (log ++ [c]) ∧
      Displayed ((con'.outputWindowOneToVga (con'.windowSize - 1) c).getD con') := by
  by_cases hover : maxWindowSize < (con.recordChar c).windowSize
  · obtain ⟨con', happend, hcnt, hbuf, hcoh, hlast⟩ := h.write_scroll hlog hfollow hover
    refine ⟨con', happend, hcnt, hbuf, hcoh.recorded, hcoh.windowed, ?_⟩
    apply hcoh.displayed.input.output _ hlast
    intro x hx y hy hrow _
    exact hcoh.displayed.window x hx y hy hrow
  · have hroom : con.windowSize + calcWindowDelta con.windowSize c ≤ maxWindowSize :=
      Nat.not_lt.mp hover
    have happend := appendChar_of_room hroom
    obtain ⟨hwin, hpos, hcell⟩ := h.windowed.append (con.appendChar c) hfollow hroom
      (by rw [happend]; rfl) (by rw [happend]; rfl) (by rw [happend])
    have hrec : Recorded (con.appendChar c) (log ++ [c]) := by
      rw [happend]
      exact h.recorded.append hlog rfl rfl
    have hsame : (con.appendChar c).inputCnt = con.inputCnt ∧
        (con.appendChar c).inputBuf = con.inputBuf ∧ (con.appendChar c).screen = con.screen := by
      rw [happend]
      exact ⟨rfl, rfl, rfl⟩
    obtain ⟨hcnt, hbuf, hscreen⟩ := hsame
    have hinput : InputShown (con.appendChar c) := by
      unfold InputShown
      rw [hcnt, hbuf, hscreen]
      exact h.displayed.input
    have hmax : (con.appendChar c).windowSize ≤ maxWindowSize := by
      rw [happend]
      exact hroom
    refine ⟨_, rfl, hcnt, hbuf, hrec, hwin, hinput.output ?_ ?_⟩
    · intro x hx y hy hrow hne
      rw [hcell _ (cellAt_lt hx hy hrow), if_neg hne, hscreen]
      unfold cellAt
      rw [hcnt] at hrow ⊢
      exact h.displayed.window x hx y hy hrow
    · rw [hcell _ (by omega), if_pos rfl]

/-- `write_console_one` adds its character to the text. -/
theorem Coherent.writeConsoleOne (h : Coherent con log) (c : UInt8) (hlog : log.length + 1 < 2 ^ 32) :
    Coherent (con.writeConsoleOne c) (log ++ [c]) ∧
      (con.writeConsoleOne c).inputCnt = con.inputCnt ∧
      (con.writeConsoleOne c).inputBuf = con.inputBuf := by
  rw [State.writeConsoleOne]
  split
  next hfollow =>
    obtain ⟨con', happend, hcnt, hbuf, hrec, hwin, hdisp⟩ := h.write_follow c hlog hfollow
    obtain ⟨screen, hrun, -⟩ := outputWindowOneToVga_redrawn con' (con'.windowSize - 1) c
    rw [happend]
    dsimp only
    rw [hrun] at hdisp ⊢
    exact ⟨⟨hrec.screen screen, hwin.screen screen, hdisp, by rw [hcnt]; exact h.input_le⟩,
      hcnt, hbuf⟩
  next hfollow =>
    -- the window starts anew at the character that is written
    obtain ⟨con₀, hcon₀⟩ : ∃ con₀ : State,
        con₀ = { con with windowSize := 0, windowFirstHistory := con.historyCnt } := ⟨_, rfl⟩
    have hroom : (con₀.recordChar c).windowSize ≤ maxWindowSize := by
      have hdelta := calcWindowDelta_le 0 c
      have hwidth : consoleMaxCol ≤ maxWindowSize := by decide
      rw [hcon₀]
      change 0 + calcWindowDelta 0 c ≤ maxWindowSize
      omega
    have hcount := h.recorded.count
    have happend := appendChar_of_room hroom
    have hrec : Recorded (con₀.appendChar c) (log ++ [c]) := by
      rw [happend, hcon₀]
      exact h.recorded.append hlog rfl rfl
    have hfirst : (con₀.appendChar c).windowFirstHistory = log.length := by
      rw [happend, hcon₀, ← hcount]
      rfl
    have hsame : (con₀.appendChar c).inputCnt = con.inputCnt ∧
        (con₀.appendChar c).inputBuf = con.inputBuf ∧ (con₀.appendChar c).screen = con.screen := by
      rw [happend, hcon₀]
      exact ⟨rfl, rfl, rfl⟩
    obtain ⟨hcnt, hbuf, hscreen⟩ := hsame
    have hinput : InputShown (con₀.appendChar c) := by
      unfold InputShown
      rw [hcnt, hbuf, hscreen]
      exact h.displayed.input
    have hkept := drawWindow_input (con₀.appendChar c).updateWindowBuffer
    rw [← hcon₀]
    refine ⟨hrec.redraw ?_ ?_ hinput (hcnt ▸ h.input_le), hkept.1.trans hcnt, hkept.2.trans hbuf⟩
    · rw [hfirst]
      simp
    · rw [hfirst]
      simp [consoleHistorySize]

/-! ## Scrolling and clearing -/

theorem Coherent.windowMoveUp (h : Coherent con log) : Coherent con.windowMoveUp log := by
  rw [State.windowMoveUp, State.moveUpWindowStartPosition]
  split
  next hnone => exact h
  next con' hsome =>
    split at hsome
    next => exact absurd hsome (by simp)
    next hmoved =>
      obtain rfl := Option.some.inj hsome
      have hcount := h.recorded.count
      have hfirst := h.windowed.first_le
      have hrecent := h.windowed.recent
      have hbounds := prevLineStart_bounds con (i := con.windowFirstHistory) (by omega)
      have hrec : Recorded { con with
          windowFirstHistory := con.prevLineStart con.windowFirstHistory } log :=
        ⟨hcount, h.recorded.ring⟩
      apply hrec.redraw
      · dsimp only
        omega
      · dsimp only
        omega
      · exact h.displayed.input
      · exact h.input_le

theorem Coherent.windowMoveDown (h : Coherent con log) : Coherent con.windowMoveDown log := by
  rw [State.windowMoveDown, State.moveDownWindowStartPosition]
  split
  next hnone => exact h
  next con' hsome =>
    split at hsome
    next => exact absurd hsome (by simp)
    next hmoved =>
      obtain rfl := Option.some.inj hsome
      have hfirst := h.windowed.first_le
      have hrecent := h.windowed.recent
      have hnext := h.recorded.nextLineStart hfirst hrecent
      have hrow : TextLayout.rowLength newline consoleMaxCol (log.drop con.windowFirstHistory) ≤
          (log.drop con.windowFirstHistory).length := TextLayout.rowLength_le _
      rw [List.length_drop] at hrow
      have hrec : Recorded { con with
          windowFirstHistory := con.nextLineStart con.windowFirstHistory } log :=
        ⟨h.recorded.count, h.recorded.ring⟩
      apply hrec.redraw
      · dsimp only
        omega
      · dsimp only
        omega
      · exact h.displayed.input
      · exact h.input_le

theorem Coherent.consoleClear (h : Coherent con log) : Coherent con.consoleClear log := by
  have hcount := h.recorded.count
  have hrec : Recorded { con with
      windowFirstHistory := con.historyCnt
      windowLastHistory := con.historyCnt } log := ⟨hcount, h.recorded.ring⟩
  rw [State.consoleClear]
  apply hrec.redraw
  · exact hcount.le
  · dsimp only
    omega
  · exact h.displayed.input
  · exact h.input_le

/-! ## The input area -/

/-- Cells written row by row from the left. -/
theorem writeInputCells_eq (con : State) (f : Nat → UInt8) (n i : Nat) :
    ∃ screen, con.writeInputCells f n i = { con with screen := screen } ∧
      ∀ x < consoleMaxCol, ∀ y < vgaMaxRow, screen x y =
        if i ≤ y * consoleMaxCol + x ∧ y * consoleMaxCol + x < i + n then
          f (y * consoleMaxCol + x) else con.screen x y := by
  induction n generalizing con i with
  | zero =>
      refine ⟨con.screen, rfl, fun x hx y hy => ?_⟩
      rw [if_neg (by omega)]
  | succ n ih =>
      rw [State.writeInputCells]
      obtain ⟨screen, hrun, hscreen⟩ := ih { con with
        screen := vgaWriteChar con.screen (f i) (i % consoleMaxCol) (i / consoleMaxCol) } (i + 1)
      refine ⟨screen, hrun, fun x hx y hy => ?_⟩
      rw [hscreen x hx y hy]
      dsimp only
      rw [vgaWriteChar_cell _ _ _ hx hy]
      by_cases hi : y * consoleMaxCol + x = i
      · rw [if_neg (by omega), if_pos hi, if_pos (by omega), hi]
      · rw [if_neg hi]
        congr 1
        apply propext
        omega

theorem validInputCnt_iff {n : Nat} :
    validInputCnt n = true ↔ n ≤ inputAreaMaxRow * consoleMaxCol := by
  unfold validInputCnt inpwsToRn inputAreaMaxRow consoleMaxCol
  rw [decide_eq_true_iff]
  split <;> omega

/-- The input rows are rows of the screen. -/
theorem row_lt {n y : Nat} (hn : n ≤ inputAreaMaxRow * consoleMaxCol) (hy : y ≤ inpwsToRn n) :
    y < vgaMaxRow := by
  rw [inpwsToRn_eq hn] at hy
  unfold vgaMaxRow
  split at hy <;> omega

/-- Shortening the input: the cells of the old input are written anew. -/
theorem Coherent.shorten (h : Coherent con log) {k : Nat} (hk : k < con.inputCnt) :
    ∃ screen, State.drawInputIfNeed { con with inputCnt := k } con.inputCnt =
        { con with inputCnt := k, screen := screen } ∧
      InputShown { con with inputCnt := k, screen := screen } ∧
      ∀ x < consoleMaxCol, ∀ y < vgaMaxRow, inpwsToRn con.inputCnt < y →
        screen x y = con.screen x y := by
  have hle := h.input_le
  obtain ⟨screen, hrun, hscreen⟩ := writeInputCells_eq { con with inputCnt := k }
    (fun i => if i < k then con.inputBuf i else 0) con.inputCnt 0
  refine ⟨screen, ?_, fun x hx y hy => ?_, fun x hx y hy hrow => ?_⟩
  · rw [State.drawInputIfNeed, if_neg (by dsimp only; omega)]
    exact hrun
  · dsimp only at hy ⊢
    rw [hscreen x hx y (row_lt (by omega) hy)]
    split
    next hin => rfl
    next hout =>
      -- past the old input the row was blank already
      have hrow : y ≤ inpwsToRn con.inputCnt := by
        rw [inpwsToRn_eq hle]
        rw [inpwsToRn_eq (by omega)] at hy
        unfold consoleMaxCol at *
        split at hy <;> split <;> omega
      have hold := h.displayed.input x hx y hrow
      rw [if_neg (by omega)] at hold ⊢
      exact hold
  · rw [hscreen x hx y hy, if_neg]
    rw [inpwsToRn_eq hle] at hrow
    unfold inputAreaMaxRow consoleMaxCol at *
    split at hrow <;> omega

theorem Recorded.input (h : Recorded con log) (k : Nat) (buf : Nat → UInt8)
    (screen : Nat → Nat → UInt8) :
    Recorded { con with inputCnt := k, inputBuf := buf, screen := screen } log :=
  ⟨h.count, h.ring⟩

theorem Windowed.input (h : Windowed con log) (k : Nat) (buf : Nat → UInt8)
    (screen : Nat → Nat → UInt8) :
    Windowed { con with inputCnt := k, inputBuf := buf, screen := screen } log :=
  ⟨h.first_le, h.recent, h.size_eq, h.cells_eq, h.follow⟩

/-- Drawing the window completes a console whose input rows are right. -/
theorem Coherent.drawWindow_of (h : Coherent con log) (k : Nat) (buf : Nat → UInt8)
    (screen : Nat → Nat → UInt8) (hk : k ≤ inputAreaMaxRow * consoleMaxCol)
    (hinput : InputShown { con with inputCnt := k, inputBuf := buf, screen := screen }) :
    Coherent (State.drawWindow { con with inputCnt := k, inputBuf := buf, screen := screen })
      log := by
  have hdisp := hinput.drawWindow
  obtain ⟨screen', hrun, -⟩ :=
    drawWindow_redrawn { con with inputCnt := k, inputBuf := buf, screen := screen }
  rw [hrun] at hdisp ⊢
  exact ⟨h.recorded.input k buf screen', h.windowed.input k buf screen', hdisp, hk⟩

/-- The row of the last input character is cleared and the character written. -/
theorem drawInputLast_eq (con : State) :
    ∃ screen, con.drawInputLast = { con with screen := screen } ∧
      ∀ x < consoleMaxCol, ∀ y < vgaMaxRow, screen x y =
        if y * consoleMaxCol + x = sub32 con.inputCnt 1 then con.inputBuf (sub32 con.inputCnt 1)
        else if y = con.inputCnt / consoleMaxCol then 0 else con.screen x y := by
  obtain ⟨screen, hrun, hscreen⟩ := writeInputCells_eq con (fun _ => 0) consoleMaxCol
    (con.inputCnt - con.inputCnt % consoleMaxCol)
  rw [State.drawInputLast, hrun]
  refine ⟨_, rfl, fun x hx y hy => ?_⟩
  have hrow : (con.inputCnt - con.inputCnt % consoleMaxCol ≤ y * consoleMaxCol + x ∧
      y * consoleMaxCol + x < con.inputCnt - con.inputCnt % consoleMaxCol + consoleMaxCol) ↔
      y = con.inputCnt / consoleMaxCol := by
    unfold consoleMaxCol at *
    omega
  rw [vgaWriteChar_cell _ _ _ hx hy]
  dsimp only
  rw [hscreen x hx y hy]
  simp only [hrow]

theorem Coherent.consoleClearInput (h : Coherent con log) : Coherent con.consoleClearInput log := by
  rw [State.consoleClearInput]
  by_cases hzero : con.inputCnt = 0
  · obtain ⟨screen, hrun, hscreen⟩ := drawInputLast_eq { con with inputCnt := 0 }
    have hdraw : State.drawInputIfNeed { con with inputCnt := 0 } con.inputCnt =
        { con with inputCnt := 0, screen := screen } := by
      rw [State.drawInputIfNeed, if_pos (by dsimp only; omega)]
      exact hrun
    rw [hdraw]
    apply h.drawWindow_of 0 con.inputBuf screen (by decide)
    intro x hx y hy
    obtain rfl : y = 0 := Nat.le_zero.mp hy
    have hoff : 0 * consoleMaxCol + x ≠ sub32 0 1 := by
      have hlast : sub32 0 1 = 2 ^ 32 - 1 := by decide
      rw [hlast]
      unfold consoleMaxCol at *
      omega
    dsimp only
    rw [hscreen x hx 0 (by decide)]
    dsimp only
    rw [if_neg hoff, if_pos (by decide), if_neg (by omega)]
  · obtain ⟨screen, hrun, hinput, -⟩ := h.shorten (k := 0) (Nat.pos_of_ne_zero hzero)
    rw [hrun]
    exact h.drawWindow_of 0 con.inputBuf screen (by decide) hinput

/-- `modify_input_cnt(-1)` takes back one character, or none of an empty input. -/
theorem Coherent.modifyInputCnt (h : Coherent con log) : Coherent con.modifyInputCnt log := by
  have hle := h.input_le
  rw [State.modifyInputCnt]
  by_cases hzero : con.inputCnt = 0
  · have hinvalid : validInputCnt (sub32 con.inputCnt 1) = false := by
      rw [hzero]
      decide
    rw [hinvalid]
    exact h
  · have hpos : 0 < con.inputCnt := Nat.pos_of_ne_zero hzero
    have hnew : sub32 con.inputCnt 1 = con.inputCnt - 1 := by
      apply sub32_of_le hpos
      unfold inputAreaMaxRow consoleMaxCol at hle
      omega
    have hvalid : validInputCnt (con.inputCnt - 1) = true := validInputCnt_iff.mpr (by omega)
    obtain ⟨screen, hrun, hinput, hframe⟩ := h.shorten (k := con.inputCnt - 1) (by omega)
    rw [hnew, hvalid]
    simp only [Bool.not_true, Bool.false_eq_true, if_false]
    rw [hrun]
    split
    next hresize => exact h.drawWindow_of _ con.inputBuf screen (by omega) hinput
    next hkeep =>
      have hrows : inpwsToRn con.inputCnt = inpwsToRn (con.inputCnt - 1) := by
        simpa [checkResizeLayout] using hkeep
      refine ⟨h.recorded.input _ con.inputBuf screen, h.windowed.input _ con.inputBuf screen,
        ⟨hinput, fun x hx y hy hrow => ?_⟩, by dsimp only; omega⟩
      dsimp only at hrow ⊢
      rw [← hrows] at hrow ⊢
      have hline : y < vgaMaxRow := Nat.lt_trans hy (by decide)
      rw [hframe x hx y hline hrow]
      exact h.displayed.window x hx y hy hrow

/-- One more character starts a new row exactly after a full first row. -/
theorem inpwsToRn_succ_iff {n : Nat} (hn : n + 1 ≤ inputAreaMaxRow * consoleMaxCol) :
    inpwsToRn n = inpwsToRn (n + 1) ↔ n ≠ consoleMaxCol := by
  rw [inpwsToRn_eq (by omega), inpwsToRn_eq hn]
  split <;> split <;> omega

/-- A typed character in a row that the input already has. -/
theorem Coherent.type (h : Coherent con log) (c : UInt8)
    (hroom : con.inputCnt + 1 ≤ inputAreaMaxRow * consoleMaxCol)
    (hrows : inpwsToRn con.inputCnt = inpwsToRn (con.inputCnt + 1)) :
    Coherent { con with
      inputBuf := setByte con.inputBuf con.inputCnt c
      inputCnt := con.inputCnt + 1
      screen := vgaWriteChar con.screen c (con.inputCnt % consoleMaxCol)
        (con.inputCnt / consoleMaxCol) } log := by
  refine ⟨h.recorded.input _ _ _, h.windowed.input _ _ _, ⟨fun x hx y hy => ?_,
    fun x hx y hy hrow => ?_⟩, hroom⟩
  · have hline := row_lt hroom hy
    dsimp only at hy ⊢
    rw [← hrows] at hy
    rw [vgaWriteChar_cell _ _ _ hx hline]
    by_cases hcell : y * consoleMaxCol + x = con.inputCnt
    · rw [if_pos hcell, if_pos (by omega), hcell, setByte_same]
    · rw [if_neg hcell, setByte_of_ne _ _ hcell, h.displayed.input x hx y hy]
      congr 1
      apply propext
      omega
  · have hline : y < vgaMaxRow := Nat.lt_trans hy (by decide)
    dsimp only at hrow ⊢
    rw [← hrows] at hrow ⊢
    rw [vgaWriteChar_cell _ _ _ hx hline, if_neg]
    · exact h.displayed.window x hx y hy hrow
    · rw [inpwsToRn_succ_iff hroom] at hrows
      rw [inpwsToRn_eq (by omega)] at hrow
      unfold inputAreaMaxRow consoleMaxCol at *
      split at hrow <;> omega

/-- A typed character that starts a new input row. -/
theorem Coherent.type_resize (h : Coherent con log) (c : UInt8)
    (hroom : con.inputCnt + 1 ≤ inputAreaMaxRow * consoleMaxCol)
    (hrows : inpwsToRn con.inputCnt ≠ inpwsToRn (con.inputCnt + 1)) :
    Coherent (State.drawWindow (State.drawInputIfNeed { con with
      inputBuf := setByte con.inputBuf con.inputCnt c
      inputCnt := con.inputCnt + 1 } con.inputCnt)) log := by
  have hfull : con.inputCnt = consoleMaxCol := by
    rw [ne_eq, inpwsToRn_succ_iff hroom] at hrows
    exact not_not.mp hrows
  obtain ⟨screen, hrun, hscreen⟩ := drawInputLast_eq { con with
    inputBuf := setByte con.inputBuf con.inputCnt c
    inputCnt := con.inputCnt + 1 }
  have hdraw : State.drawInputIfNeed { con with
      inputBuf := setByte con.inputBuf con.inputCnt c
      inputCnt := con.inputCnt + 1 } con.inputCnt = { con with
        inputBuf := setByte con.inputBuf con.inputCnt c
        inputCnt := con.inputCnt + 1
        screen := screen } := by
    rw [State.drawInputIfNeed, if_pos (by dsimp only; omega)]
    exact hrun
  rw [hdraw]
  apply h.drawWindow_of _ _ screen hroom
  intro x hx y hy
  have hline := row_lt hroom hy
  dsimp only at hy ⊢
  rw [hscreen x hx y hline]
  dsimp only
  have hlast : sub32 (con.inputCnt + 1) 1 = con.inputCnt := by
    rw [hfull]
    decide
  rw [hlast]
  rw [inpwsToRn_eq hroom, if_neg (by omega)] at hy
  by_cases hcell : y * consoleMaxCol + x = con.inputCnt
  · rw [if_pos hcell, if_pos (by omega), hcell]
  · rw [if_neg hcell, setByte_of_ne _ _ hcell, hfull]
    by_cases hrow : y = (consoleMaxCol + 1) / consoleMaxCol
    · rw [if_pos hrow, if_neg]
      rw [hfull] at hcell
      rw [hrow] at hcell ⊢
      unfold consoleMaxCol at *
      omega
    · have hy0 : y = 0 := by
        unfold consoleMaxCol at hrow
        omega
      rw [if_neg hrow, h.displayed.input x hx y (by omega), hfull, hy0, if_pos (by omega),
        if_pos (by omega)]

theorem Coherent.getInputChar (h : Coherent con log) (c : UInt8) :
    Coherent (con.getInputChar c) log := by
  have hle := h.input_le
  have hnew : u32 (con.inputCnt + 1) = con.inputCnt + 1 := by
    apply u32_of_lt
    unfold inputAreaMaxRow consoleMaxCol at hle
    omega
  rw [State.getInputChar, hnew]
  by_cases hvalid : validInputCnt (con.inputCnt + 1) = true
  · have hroom := validInputCnt_iff.mp hvalid
    simp only [hvalid, Bool.not_true, Bool.false_eq_true, if_false]
    split
    next hresize =>
      apply h.type_resize c hroom
      simpa [checkResizeLayout] using hresize
    next hkeep =>
      apply h.type c hroom
      simpa [checkResizeLayout] using hkeep
  · simp only [hvalid, Bool.not_false, if_true]
    exact h

/-! ## Whole runs -/

/-- The characters that a call writes to the console. -/
def Call.text (con : State) : Call → List UInt8
  | .writeConsoleOne c => [c]
  | .flushInputBuffer => (List.range con.inputCnt).map con.inputBuf ++ [newline]
  | _ => []

/-- The writing loop of `flush_input_buffer`. -/
theorem Coherent.write_list (h : Coherent con log) (l : List Nat)
    (hlog : log.length + l.length < 2 ^ 32) :
    Coherent (l.foldl (fun con i => con.writeConsoleOne (con.inputBuf i)) con)
      (log ++ l.map con.inputBuf) := by
  induction l generalizing con log with
  | nil =>
      rw [List.map_nil, List.append_nil]
      exact h
  | cons i l ih =>
      rw [List.length_cons] at hlog
      obtain ⟨hstep, -, hbuf⟩ := h.writeConsoleOne (con.inputBuf i) (by omega)
      have hrest := ih hstep (by rw [List.length_append, List.length_singleton]; omega)
      rw [hbuf, List.append_assoc] at hrest
      exact hrest

theorem Coherent.flushInputBuffer (h : Coherent con log)
    (hlog : log.length + (con.inputCnt + 1) < 2 ^ 32) :
    Coherent con.flushInputBuffer
      (log ++ ((List.range con.inputCnt).map con.inputBuf ++ [newline])) := by
  have hwritten := h.write_list (List.range con.inputCnt) (by rw [List.length_range]; omega)
  have hlen : (log ++ (List.range con.inputCnt).map con.inputBuf).length + 1 < 2 ^ 32 := by
    rw [List.length_append, List.length_map, List.length_range]
    omega
  have hline := (hwritten.writeConsoleOne newline hlen).1
  rw [List.append_assoc] at hline
  exact hline.consoleClearInput

/-- Every call keeps the console coherent with the text written so far. -/
theorem Coherent.step (h : Coherent con log) (call : Call)
    (hlog : (log ++ call.text con).length < 2 ^ 32) :
    Coherent (con.step call) (log ++ call.text con) := by
  have hsilent : ∀ con' : State, Coherent con' log → Coherent con' (log ++ []) := by
    intro con' h'
    rw [List.append_nil]
    exact h'
  rw [List.length_append] at hlog
  cases call with
  | writeConsoleOne c => exact (h.writeConsoleOne c hlog).1
  | flushInputBuffer =>
      have hlen : (Call.flushInputBuffer.text con).length = con.inputCnt + 1 := by
        change ((List.range con.inputCnt).map con.inputBuf ++ [newline]).length = _
        rw [List.length_append, List.length_map, List.length_range, List.length_singleton]
      rw [hlen] at hlog
      exact h.flushInputBuffer hlog
  | consoleClear => exact hsilent _ h.consoleClear
  | windowMoveUp => exact hsilent _ h.windowMoveUp
  | windowMoveDown => exact hsilent _ h.windowMoveDown
  | getInputChar c => exact hsilent _ (h.getInputChar c)
  | modifyInputCnt => exact hsilent _ h.modifyInputCnt
  | consoleClearInput => exact hsilent _ h.consoleClearInput

/-- The console and the text written to it, after a list of calls. -/
def runCalls : State × List UInt8 → List Call → State × List UInt8 :=
  List.foldl fun s call => (s.1.step call, s.2 ++ call.text s.1)

theorem coherent_init (inputBuf : Nat → UInt8) : Coherent (initConsole inputBuf) [] := by
  refine ⟨⟨rfl, fun i hi => absurd hi (Nat.not_lt_zero i)⟩,
    ⟨le_refl 0, Nat.zero_le _, rfl, fun i _ => rfl, fun _ => Nat.zero_le _⟩,
    ⟨fun x _ y _ => ?_, fun _ _ _ _ _ => rfl⟩, Nat.zero_le _⟩
  change 0 = if y * consoleMaxCol + x < 0 then inputBuf (y * consoleMaxCol + x) else 0
  rw [if_neg (Nat.not_lt_zero _)]

/-- The text only grows along a run. -/
theorem length_le_runCalls (s : State × List UInt8) (calls : List Call) :
    s.2.length ≤ (runCalls s calls).2.length := by
  induction calls generalizing s with
  | nil => exact le_refl _
  | cons call calls ih =>
      calc s.2.length ≤ (s.2 ++ call.text s.1).length := by simp
        _ ≤ _ := ih (s.1.step call, s.2 ++ call.text s.1)

theorem Coherent.run {s : State × List UInt8} (h : Coherent s.1 s.2) (calls : List Call)
    (hlog : (runCalls s calls).2.length < 2 ^ 32) :
    Coherent (runCalls s calls).1 (runCalls s calls).2 := by
  induction calls generalizing s with
  | nil => exact h
  | cons call calls ih =>
      apply ih (s := (s.1.step call, s.2 ++ call.text s.1)) _ hlog
      apply h.step call
      exact Nat.lt_of_le_of_lt
        (length_le_runCalls (s.1.step call, s.2 ++ call.text s.1) calls) hlog

/-- After every list of calls the window holds the layout of the text from the window's
first character on, and the screen shows the input and the window. -/
theorem console_coherent (inputBuf : Nat → UInt8) (calls : List Call)
    (hlog : (runCalls (initConsole inputBuf, []) calls).2.length < 2 ^ 32) :
    let (con, text) := runCalls (initConsole inputBuf, []) calls
    con.windowSize = (visible (text.drop con.windowFirstHistory)).length ∧
      (∀ i < maxWindowSize,
        shown (con.window i) = (visible (text.drop con.windowFirstHistory)).getD i 0) ∧
      con.windowFirstHistory ≤ text.length ∧ Displayed con := by
  have h := (coherent_init inputBuf).run (s := (initConsole inputBuf, [])) calls hlog
  exact ⟨h.windowed.size_eq, h.windowed.cells_eq, h.windowed.first_le, h.displayed⟩

/-- Forty characters typed, one taken back, a flush, output past the last row, scrolling. -/
def sampleCalls : List Call :=
  List.replicate 40 (.getInputChar 65) ++ [.modifyInputCnt, .flushInputBuffer] ++
    List.replicate 50 (.writeConsoleOne 66) ++ [.windowMoveUp, .writeConsoleOne 67, .consoleClear]

theorem console_coherent_sample :
    let (con, text) := runCalls (initConsole fun _ => 0, []) sampleCalls
    con.windowSize = (visible (text.drop con.windowFirstHistory)).length ∧
      (∀ i < maxWindowSize,
        shown (con.window i) = (visible (text.drop con.windowFirstHistory)).getD i 0) ∧
      con.windowFirstHistory ≤ text.length ∧ Displayed con :=
  console_coherent (fun _ => 0) sampleCalls (by decide +kernel)

end TsOs.Console
