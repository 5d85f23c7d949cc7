import TsOs.Console.Coherence

/-!
# Accesses to the buffers of the console

For each function of `console.c` the places of `history`, `window` and `input_buf` that it reads or
writes, in order, loop by loop. All indices of the history are remainders, those of the window stay below
its size in every state, and those of the input buffer depend on `input_cnt`.
-/

namespace TsOs.Console

/-- `INPUT_BUF_SIZE`. -/
def inputBufSize : Nat := 512

/-- A read or write of one byte of a buffer. -/
inductive Access
  | history (i : Nat)
  | window (i : Nat)
  | inputBuf (i : Nat)
  deriving DecidableEq

/-- The byte lies in its buffer. -/
def Access.Inside : Access → Prop
  | .history i => i < consoleHistorySize
  | .window i => i < maxWindowSize
  | .inputBuf i => i < inputBufSize

instance (a : Access) : Decidable a.Inside :=
  match a with
  | .history _ | .window _ | .inputBuf _ => inferInstanceAs (Decidable (_ < _))

def AllInside (l : List Access) : Prop := ∀ a ∈ l, a.Inside

variable {con con' : State} {a : Access} {l l' : List Access} {c : UInt8} {i k n size : Nat}

@[simp] theorem allInside_nil : AllInside [] := fun _ h => absurd h (List.not_mem_nil)

@[simp] theorem allInside_cons : AllInside (a :: l) ↔ a.Inside ∧ AllInside l := List.forall_mem_cons

@[simp] theorem allInside_append : AllInside (l ++ l') ↔ AllInside l ∧ AllInside l' := List.forall_mem_append

@[simp] theorem history_inside (i : Nat) : (Access.history (i % consoleHistorySize)).Inside :=
  Nat.mod_lt i (by decide)

@[simp] theorem window_inside : (Access.window i).Inside ↔ i < maxWindowSize := Iff.rfl

@[simp] theorem inputBuf_inside : (Access.inputBuf i).Inside ↔ i < inputBufSize := Iff.rfl

/-- The bytes of the window from `i` on. -/
def windowCells (i n : Nat) : List Access := (List.range n).map fun j => .window (i + j)

theorem windowCells_inside (h : 0 < n → i + n ≤ maxWindowSize) : AllInside (windowCells i n) := by
  intro a ha
  obtain ⟨j, hj, rfl⟩ := List.mem_map.mp ha
  have hlt := List.mem_range.mp hj
  rw [window_inside]
  omega

namespace State

/-! ## Rows and the window -/

def prevLineLoopAccesses (con : State) (historyMin nextStart : Nat) : Nat → Nat → List Access
  | 0, _ => []
  | n + 1, offset =>
      if historyMin < offset then
        .history ((offset - 1) % consoleHistorySize) ::
          if ¬(con.history ((offset - 1) % consoleHistorySize) = newline ∧ offset ≠ nextStart) then
            prevLineLoopAccesses con historyMin nextStart n (offset - 1)
          else []
      else []

def prevLineStartAccesses (con : State) (nextStart : Nat) : List Access :=
  let historyMin :=
    if consoleHistorySize < con.historyCnt then con.historyCnt - consoleHistorySize else 0
  prevLineLoopAccesses con historyMin nextStart consoleMaxCol nextStart

def nextLineLoopAccesses (con : State) : Nat → Nat → List Access
  | 0, _ => []
  | n + 1, offset =>
      if offset < con.historyCnt then
        .history (offset % consoleHistorySize) ::
          if con.history (offset % consoleHistorySize) = newline then []
          else nextLineLoopAccesses con n (offset + 1)
      else []

def nextLineStartAccesses (con : State) (lineStart : Nat) : List Access :=
  nextLineLoopAccesses con consoleMaxCol lineStart

def drawWindowLoopAccesses (con : State) : Nat → Nat → List Access
  | 0, _ => []
  | n + 1, widx =>
      .window widx ::
        match con.outputWindowOneToVga widx (con.window widx) with
        | none => []
        | some con => drawWindowLoopAccesses con n (widx + 1)

def drawWindowAccesses (con : State) : List Access := drawWindowLoopAccesses con maxWindowSize 0

end State

def padRowAccesses : Nat → Nat → List Access
  | 0, _ => []
  | n + 1, size =>
      if size % consoleMaxCol ≠ 0 ∧ size < maxWindowSize then .window size :: padRowAccesses n (size + 1)
      else []

namespace State

def fillWindowAccesses (con : State) : Nat → (Nat → UInt8) → Nat → Nat → List Access
  | 0, _, _, _ => []
  | n + 1, window, size, index =>
      if size < maxWindowSize ∧ index < con.historyCnt then
        let window := setByte window size (con.history (index % consoleHistorySize))
        -- the copy of the character and the comparison with a newline
        [.history (index % consoleHistorySize), .window size, .window size] ++
          if window size = newline then
            let (window', size') := padRow window consoleMaxCol (size + 1)
            padRowAccesses consoleMaxCol (size + 1) ++ fillWindowAccesses con n window' size' (index + 1)
          else fillWindowAccesses con n window (size + 1) (index + 1)
      else []

def updateWindowBufferAccesses (con : State) : List Access :=
  let size := (con.fillWindow maxWindowSize con.window 0 con.windowFirstHistory).2.1
  fillWindowAccesses con maxWindowSize con.window 0 con.windowFirstHistory ++
    windowCells size (maxWindowSize - size)

/-- `update_window_buffer` and `draw_window`. -/
def redrawAccesses (con : State) : List Access :=
  con.updateWindowBufferAccesses ++ con.updateWindowBuffer.drawWindowAccesses

def windowMoveUpAccesses (con : State) : List Access :=
  con.prevLineStartAccesses con.windowFirstHistory ++
    con.moveUpWindowStartPosition.elim [] redrawAccesses

def windowMoveDownAccesses (con : State) : List Access :=
  con.nextLineStartAccesses con.windowFirstHistory ++
    con.moveDownWindowStartPosition.elim [] redrawAccesses

/-! ## Output -/

/-- The accesses of `appendChar`. -/
def appendCharAccesses (con : State) (c : UInt8) : List Access :=
  let new := con.recordChar c
  .history (con.historyCnt % consoleHistorySize) ::
    if maxWindowSize < new.windowSize then
      new.nextLineStartAccesses new.windowFirstHistory ++
        (new.moveDownWindowStartPosition.getD new).redrawAccesses
    else
      windowCells con.windowSize (sub32 new.windowSize 1 - con.windowSize) ++
        [.window (sub32 new.windowSize 1)]

def writeConsoleOneAccesses (con : State) (c : UInt8) : List Access :=
  if con.historyCnt = con.windowLastHistory then con.appendCharAccesses c
  else
    let start := { con with windowSize := 0, windowFirstHistory := con.historyCnt }
    start.appendCharAccesses c ++ (start.appendChar c).redrawAccesses

def consoleClearAccesses (con : State) : List Access :=
  redrawAccesses { con with
    windowFirstHistory := con.historyCnt
    windowLastHistory := con.historyCnt }

/-! ## Input -/

def drawInputIfNeedAccesses (con : State) (oldInputCnt : Nat) : List Access :=
  if oldInputCnt ≤ con.inputCnt then [.inputBuf (sub32 con.inputCnt 1)]
  else ((List.range oldInputCnt).filter (· < con.inputCnt)).map .inputBuf

def consoleClearInputAccesses (con : State) : List Access :=
  let cleared := { con with inputCnt := 0 }
  cleared.drawInputIfNeedAccesses con.inputCnt ++ (cleared.drawInputIfNeed con.inputCnt).drawWindowAccesses

/-- The loop of `flush_input_buffer`. -/
def flushLoopAccesses : State → List Nat → List Access
  | _, [] => []
  | con, i :: is =>
      .inputBuf i :: con.writeConsoleOneAccesses (con.inputBuf i) ++
        flushLoopAccesses (con.writeConsoleOne (con.inputBuf i)) is

def flushInputBufferAccesses (con : State) : List Access :=
  let flushed := (List.range con.inputCnt).foldl (fun con i => con.writeConsoleOne (con.inputBuf i)) con
  flushLoopAccesses con (List.range con.inputCnt) ++ flushed.writeConsoleOneAccesses newline ++
    (flushed.writeConsoleOne newline).consoleClearInputAccesses

def getInputCharAccesses (con : State) (c : UInt8) : List Access :=
  let newCnt := u32 (con.inputCnt + 1)
  if !validInputCnt newCnt then []
  else
    let typed := { con with inputBuf := setByte con.inputBuf con.inputCnt c, inputCnt := newCnt }
    .inputBuf con.inputCnt ::
      if checkResizeLayout con.inputCnt newCnt then
        typed.drawInputIfNeedAccesses con.inputCnt ++ (typed.drawInputIfNeed con.inputCnt).drawWindowAccesses
      else []

def modifyInputCntAccesses (con : State) : List Access :=
  let newCnt := sub32 con.inputCnt 1
  if !validInputCnt newCnt then []
  else
    let erased := { con with inputCnt := newCnt }
    erased.drawInputIfNeedAccesses con.inputCnt ++
      if checkResizeLayout con.inputCnt newCnt then (erased.drawInputIfNeed con.inputCnt).drawWindowAccesses
      else []

/-! ## The history and the window -/

theorem prevLineLoopAccesses_inside (con : State) (historyMin nextStart n offset : Nat) :
    AllInside (con.prevLineLoopAccesses historyMin nextStart n offset) := by
  induction n generalizing offset with
  | zero => exact allInside_nil
  | succ n ih =>
      rw [prevLineLoopAccesses]
      split
      next =>
        rw [allInside_cons]
        refine ⟨history_inside _, ?_⟩
        split
        next => exact ih (offset - 1)
        next => exact allInside_nil
      next => exact allInside_nil

theorem nextLineLoopAccesses_inside (con : State) (n offset : Nat) :
    AllInside (con.nextLineLoopAccesses n offset) := by
  induction n generalizing offset with
  | zero => exact allInside_nil
  | succ n ih =>
      rw [nextLineLoopAccesses]
      split
      next =>
        rw [allInside_cons]
        refine ⟨history_inside _, ?_⟩
        split
        next => exact allInside_nil
        next => exact ih (offset + 1)
      next => exact allInside_nil

theorem drawWindowLoopAccesses_inside (con : State) (h : k + n ≤ maxWindowSize) :
    AllInside (con.drawWindowLoopAccesses n k) := by
  induction n generalizing con k with
  | zero => exact allInside_nil
  | succ n ih =>
      rw [drawWindowLoopAccesses, allInside_cons, window_inside]
      refine ⟨by omega, ?_⟩
      split
      next => exact allInside_nil
      next con' _ => exact ih con' (by omega)

theorem drawWindowAccesses_inside (con : State) : AllInside con.drawWindowAccesses :=
  drawWindowLoopAccesses_inside con (le_of_eq (Nat.zero_add _))

theorem padRowAccesses_inside (n size : Nat) : AllInside (padRowAccesses n size) := by
  induction n generalizing size with
  | zero => exact allInside_nil
  | succ n ih =>
      rw [padRowAccesses]
      split
      next hmore =>
        rw [allInside_cons]
        exact ⟨hmore.2, ih (size + 1)⟩
      next => exact allInside_nil

theorem fillWindowAccesses_inside (con : State) (n : Nat) (window : Nat → UInt8) (size index : Nat) :
    AllInside (con.fillWindowAccesses n window size index) := by
  induction n generalizing window size index with
  | zero => exact allInside_nil
  | succ n ih =>
      rw [fillWindowAccesses]
      split
      next hmore =>
        simp only [allInside_append, allInside_cons, history_inside, window_inside, allInside_nil, hmore.1,
          and_true, true_and]
        split
        next =>
          rw [allInside_append]
          exact ⟨padRowAccesses_inside _ _, ih _ _ _⟩
        next => exact ih _ _ _
      next => exact allInside_nil

theorem redrawAccesses_inside (con : State) : AllInside con.redrawAccesses := by
  have hcells : ∀ size, AllInside (windowCells size (maxWindowSize - size)) := fun size =>
    windowCells_inside fun hroom => by omega
  rw [redrawAccesses, updateWindowBufferAccesses]
  simp only [allInside_append]
  exact ⟨⟨fillWindowAccesses_inside _ _ _ _ _, hcells _⟩, drawWindowAccesses_inside _⟩

theorem elim_redrawAccesses_inside (moved : Option State) : AllInside (moved.elim [] redrawAccesses) := by
  cases moved with
  | none => exact allInside_nil
  | some con => exact redrawAccesses_inside con

theorem windowMoveUpAccesses_inside (con : State) : AllInside con.windowMoveUpAccesses :=
  allInside_append.mpr ⟨prevLineLoopAccesses_inside _ _ _ _ _, elim_redrawAccesses_inside _⟩

theorem windowMoveDownAccesses_inside (con : State) : AllInside con.windowMoveDownAccesses :=
  allInside_append.mpr ⟨nextLineLoopAccesses_inside _ _ _, elim_redrawAccesses_inside _⟩

/-- A character takes at least one cell. -/
theorem calcWindowDelta_pos (size : Nat) (c : UInt8) : 0 < calcWindowDelta size c := by
  unfold calcWindowDelta consoleMaxCol
  split
  next =>
    dsimp only
    omega
  next => exact Nat.one_pos

theorem appendCharAccesses_inside (con : State) (c : UInt8) : AllInside (con.appendCharAccesses c) := by
  have hsize : (con.recordChar c).windowSize = con.windowSize + calcWindowDelta con.windowSize c := rfl
  have hpos := calcWindowDelta_pos con.windowSize c
  rw [appendCharAccesses]
  refine allInside_cons.mpr ⟨history_inside _, ?_⟩
  split
  next => exact allInside_append.mpr ⟨nextLineLoopAccesses_inside _ _ _, redrawAccesses_inside _⟩
  next hroom =>
    have hmax : maxWindowSize < 2 ^ 32 := by decide
    have hlast : sub32 (con.recordChar c).windowSize 1 = (con.recordChar c).windowSize - 1 :=
      sub32_of_le (by omega) (by omega)
    rw [hlast]
    refine allInside_append.mpr ⟨windowCells_inside fun _ => by omega, ?_⟩
    rw [allInside_cons, window_inside]
    exact ⟨by omega, allInside_nil⟩

theorem writeConsoleOneAccesses_inside (con : State) (c : UInt8) : AllInside (con.writeConsoleOneAccesses c) := by
  rw [writeConsoleOneAccesses]
  split
  next => exact appendCharAccesses_inside con c
  next => exact allInside_append.mpr ⟨appendCharAccesses_inside _ c, redrawAccesses_inside _⟩

theorem consoleClearAccesses_inside (con : State) : AllInside con.consoleClearAccesses :=
  redrawAccesses_inside _

/-! ## The input buffer -/

theorem drawWindow_inputCnt (con : State) : con.drawWindow.inputCnt = con.inputCnt := (drawWindow_input con).1

theorem redraw_inputCnt (con : State) : con.updateWindowBuffer.drawWindow.inputCnt = con.inputCnt :=
  drawWindow_inputCnt con.updateWindowBuffer

theorem moveDown_inputCnt (h : con.moveDownWindowStartPosition = some con') : con'.inputCnt = con.inputCnt := by
  rw [moveDownWindowStartPosition] at h
  split at h
  next => exact absurd h (by simp)
  next =>
    obtain rfl := Option.some.inj h
    rfl

theorem moveUp_inputCnt (h : con.moveUpWindowStartPosition = some con') : con'.inputCnt = con.inputCnt := by
  rw [moveUpWindowStartPosition] at h
  split at h
  next => exact absurd h (by simp)
  next =>
    obtain rfl := Option.some.inj h
    rfl

theorem windowMoveUp_inputCnt (con : State) : con.windowMoveUp.inputCnt = con.inputCnt := by
  rw [windowMoveUp]
  split
  next => rfl
  next con' hmoved => exact (redraw_inputCnt con').trans (moveUp_inputCnt hmoved)

theorem windowMoveDown_inputCnt (con : State) : con.windowMoveDown.inputCnt = con.inputCnt := by
  rw [windowMoveDown]
  split
  next => rfl
  next con' hmoved => exact (redraw_inputCnt con').trans (moveDown_inputCnt hmoved)

theorem appendChar_inputCnt (con : State) (c : UInt8) : (con.appendChar c).inputCnt = con.inputCnt := by
  rw [appendChar]
  split
  next =>
    rw [redraw_inputCnt]
    cases hmoved : (con.recordChar c).moveDownWindowStartPosition with
    | none => rfl
    | some con' =>
        change con'.inputCnt = (con.recordChar c).inputCnt
        exact moveDown_inputCnt hmoved
  next => rfl

theorem writeConsoleOne_inputCnt (con : State) (c : UInt8) : (con.writeConsoleOne c).inputCnt = con.inputCnt := by
  rw [writeConsoleOne]
  split
  next =>
    obtain ⟨screen, hout, -⟩ := outputWindowOneToVga_redrawn (con.appendChar c) ((con.appendChar c).windowSize - 1) c
    rw [hout]
    exact appendChar_inputCnt con c
  next => exact (redraw_inputCnt _).trans (appendChar_inputCnt _ c)

theorem flushLoop_inputCnt (con : State) (l : List Nat) :
    (l.foldl (fun con i => con.writeConsoleOne (con.inputBuf i)) con).inputCnt = con.inputCnt := by
  induction l generalizing con with
  | nil => rfl
  | cons i l ih => exact (ih _).trans (writeConsoleOne_inputCnt con _)

theorem flushLoopAccesses_inside (con : State) {l : List Nat} (h : ∀ i ∈ l, i < inputBufSize) :
    AllInside (con.flushLoopAccesses l) := by
  induction l generalizing con with
  | nil => exact allInside_nil
  | cons i l ih =>
      rw [flushLoopAccesses, List.cons_append, allInside_cons, allInside_append]
      exact ⟨h i (List.mem_cons_self ..), writeConsoleOneAccesses_inside con _,
        ih _ fun j hj => h j (List.mem_cons_of_mem i hj)⟩

/-- Drawing a shorter input reads characters that are left. -/
theorem drawInputIfNeedAccesses_shorter (con : State) (h : con.inputCnt < n) (hn : n ≤ inputBufSize) :
    AllInside (con.drawInputIfNeedAccesses n) := by
  rw [drawInputIfNeedAccesses, if_neg (by omega)]
  intro a ha
  obtain ⟨i, hi, rfl⟩ := List.mem_map.mp ha
  have hlt := List.mem_range.mp (List.mem_filter.mp hi).1
  rw [inputBuf_inside]
  omega

/-- Drawing the end of a longer input reads its last character: with an empty input the index wraps. -/
theorem drawInputIfNeedAccesses_longer (con : State) (h : n ≤ con.inputCnt) (hcnt : con.inputCnt ≤ inputBufSize) :
    AllInside (con.drawInputIfNeedAccesses n) ↔ con.inputCnt ≠ 0 := by
  have hsize : inputBufSize = 512 := rfl
  rw [drawInputIfNeedAccesses, if_pos h, allInside_cons, inputBuf_inside]
  rcases Nat.eq_zero_or_pos con.inputCnt with hzero | hpos
  · rw [hzero]
    exact iff_of_false (fun hin => absurd hin.1 (by decide)) (fun hne => hne rfl)
  · rw [sub32_of_le hpos (by omega)]
    exact iff_of_true ⟨by omega, allInside_nil⟩ (by omega)

/-- A line of input fits in the input area. -/
def InputFits (con : State) : Prop := con.inputCnt ≤ inputAreaMaxRow * consoleMaxCol

theorem InputFits.lt (h : InputFits con) : con.inputCnt < inputBufSize :=
  Nat.lt_of_le_of_lt h (by decide)

theorem consoleClearInputAccesses_inside_iff (h : InputFits con) :
    AllInside con.consoleClearInputAccesses ↔ con.inputCnt ≠ 0 := by
  rw [consoleClearInputAccesses, allInside_append, and_iff_left (drawWindowAccesses_inside _)]
  rcases Nat.eq_zero_or_pos con.inputCnt with hzero | hpos
  · rw [hzero]
    exact drawInputIfNeedAccesses_longer { con with inputCnt := 0 } (le_refl 0) (Nat.zero_le _)
  · exact iff_of_true (drawInputIfNeedAccesses_shorter { con with inputCnt := 0 } hpos h.lt.le) (by omega)

/-- A flush stays inside the buffers unless there is nothing to flush. -/
theorem flushInputBufferAccesses_inside_iff (h : InputFits con) :
    AllInside con.flushInputBufferAccesses ↔ con.inputCnt ≠ 0 := by
  have hlt := h.lt
  have hcnt := flushLoop_inputCnt con (List.range con.inputCnt)
  have hlast := (writeConsoleOne_inputCnt _ newline).trans hcnt
  have hloop : AllInside (con.flushLoopAccesses (List.range con.inputCnt)) :=
    flushLoopAccesses_inside con fun i hi => (List.mem_range.mp hi).trans hlt
  have hfits : InputFits (((List.range con.inputCnt).foldl
      (fun con i => con.writeConsoleOne (con.inputBuf i)) con).writeConsoleOne newline) := by
    rw [InputFits, hlast]
    exact h
  rw [flushInputBufferAccesses]
  simp only [allInside_append]
  rw [and_iff_right hloop, and_iff_right (writeConsoleOneAccesses_inside _ newline),
    consoleClearInputAccesses_inside_iff hfits, hlast]

theorem getInputCharAccesses_inside (h : InputFits con) (c : UInt8) : AllInside (con.getInputCharAccesses c) := by
  have hlt := h.lt
  have hsize : inputBufSize = 512 := rfl
  have hsucc : u32 (con.inputCnt + 1) = con.inputCnt + 1 := u32_of_lt (by omega)
  rw [getInputCharAccesses]
  split
  next => exact allInside_nil
  next =>
    refine allInside_cons.mpr ⟨hlt, ?_⟩
    split
    next =>
      refine allInside_append.mpr ⟨?_, drawWindowAccesses_inside _⟩
      have hcnt : u32 (con.inputCnt + 1) ≤ inputBufSize := by omega
      exact (drawInputIfNeedAccesses_longer { con with
        inputBuf := setByte con.inputBuf con.inputCnt c, inputCnt := u32 (con.inputCnt + 1) }
        (by dsimp only; omega) hcnt).mpr (by dsimp only; omega)
    next => exact allInside_nil

theorem modifyInputCntAccesses_inside (h : InputFits con) : AllInside con.modifyInputCntAccesses := by
  have hlt := h.lt
  rw [modifyInputCntAccesses]
  split
  next => exact allInside_nil
  next hvalid =>
    have hnew : sub32 con.inputCnt 1 < con.inputCnt := by
      rcases Nat.eq_zero_or_pos con.inputCnt with hzero | hpos
      · rw [hzero] at hvalid
        exact absurd hvalid (by decide)
      · have hsize : inputBufSize = 512 := rfl
        rw [sub32_of_le hpos (by omega)]
        omega
    refine allInside_append.mpr ⟨drawInputIfNeedAccesses_shorter { con with
      inputCnt := sub32 con.inputCnt 1 } hnew hlt.le, ?_⟩
    split
    next => exact drawWindowAccesses_inside _
    next => exact allInside_nil

/-! ## The length of the input -/

theorem drawInputIfNeed_inputCnt (con : State) (n : Nat) : (con.drawInputIfNeed n).inputCnt = con.inputCnt := by
  rw [drawInputIfNeed]
  split
  next =>
    obtain ⟨screen, hrun, -⟩ := drawInputLast_eq con
    rw [hrun]
  next =>
    obtain ⟨screen, hrun, -⟩ := writeInputCells_eq con (fun i => if i < con.inputCnt then con.inputBuf i else 0) n 0
    rw [hrun]

theorem getInputChar_fits (h : InputFits con) (c : UInt8) : InputFits (con.getInputChar c) := by
  rw [getInputChar]
  dsimp only
  split
  next => exact h
  next hvalid =>
    have hnew : u32 (con.inputCnt + 1) ≤ inputAreaMaxRow * consoleMaxCol :=
      validInputCnt_iff.mp (by simpa using hvalid)
    split
    next =>
      rw [InputFits, drawWindow_inputCnt, drawInputIfNeed_inputCnt]
      exact hnew
    next => exact hnew

theorem modifyInputCnt_fits (h : InputFits con) : InputFits con.modifyInputCnt := by
  rw [modifyInputCnt]
  dsimp only
  split
  next => exact h
  next hvalid =>
    have hnew : sub32 con.inputCnt 1 ≤ inputAreaMaxRow * consoleMaxCol :=
      validInputCnt_iff.mp (by simpa using hvalid)
    split
    next =>
      rw [InputFits, drawWindow_inputCnt, drawInputIfNeed_inputCnt]
      exact hnew
    next =>
      rw [InputFits, drawInputIfNeed_inputCnt]
      exact hnew

theorem flushInputBuffer_fits (con : State) : InputFits con.flushInputBuffer := by
  rw [InputFits, flushInputBuffer, consoleClearInput, drawWindow_inputCnt, drawInputIfNeed_inputCnt]
  exact Nat.zero_le _

end State

end TsOs.Console
