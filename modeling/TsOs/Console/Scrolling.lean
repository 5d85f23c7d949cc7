import TsOs.Console.Coherence

/-!
# Scrolling there and back

`next_line_start` cuts a row from its start on and `prev_line_start` from its end back. Both stop
after twenty characters; the first one stops behind a newline or at the end of the text, and the second
one behind the newline of the row before or at the oldest character of the ring. They cut the same row
when it is bounded on both sides.
-/

namespace TsOs.Console

namespace State

variable {con con' : State} {i j k n offset nextStart : Nat}

/-- The character at a position of the history, as the ring has it. -/
def charAt (con : State) (i : Nat) : UInt8 := con.history (i % consoleHistorySize)

/-- The oldest position that is still in the ring, `histroy_min`. -/
def historyMin (con : State) : Nat :=
  if consoleHistorySize < con.historyCnt then con.historyCnt - consoleHistorySize else 0

/-- The text from `i` to `j` fits in a row of `n` columns: only its last character can be a newline. -/
structure Row (con : State) (n i j : Nat) : Prop where
  le : i ≤ j
  width : j ≤ i + n
  inner : ∀ k, i ≤ k → k + 1 < j → con.charAt k ≠ newline

/-- The row that starts at `i` ends at `j`. -/
structure RowFrom (con : State) (n i j : Nat) : Prop extends Row con n i j where
  count : i < j → j ≤ con.historyCnt
  stop : j = i + n ∨ con.historyCnt ≤ j ∨ (i < j ∧ con.charAt (j - 1) = newline)

/-- The row that ends at `j`, cut from its end, starts at `i`. -/
structure RowTo (con : State) (n i j : Nat) : Prop extends Row con n i j where
  kept : i < j → con.historyMin ≤ i
  stop : j = i + n ∨ i ≤ con.historyMin ∨ (i < j ∧ con.charAt (i - 1) = newline)

/-! ## The scan forwards -/

theorem nextLineLoop_row (con : State) (n i : Nat) : RowFrom con n i (con.nextLineLoop n i) := by
  induction n generalizing i with
  | zero => exact ⟨⟨le_refl i, le_refl i, fun k hik hk => absurd (show k + 1 < i from hk) (by omega)⟩,
      fun h => absurd h (lt_irrefl i), Or.inl rfl⟩
  | succ n ih =>
      rw [nextLineLoop]
      split
      next hmore =>
        split
        next hnl =>
          exact ⟨⟨Nat.le_succ i, by omega, fun k hik hk => by omega⟩, fun _ => hmore,
            Or.inr (Or.inr ⟨Nat.lt_succ_self i, hnl⟩)⟩
        next hchar =>
          have h := ih (i + 1)
          have hle := h.le
          have hwidth := h.width
          refine ⟨⟨by omega, by omega, fun k hik hk => ?_⟩, fun _ => ?_, ?_⟩
          · rcases Nat.eq_or_lt_of_le hik with rfl | hlt
            · exact hchar
            · exact h.inner k hlt hk
          · rcases Nat.eq_or_lt_of_le hle with heq | hlt
            · omega
            · exact h.count hlt
          · rcases h.stop with hfull | hend | ⟨hlt, hnl⟩
            · exact Or.inl (by omega)
            · exact Or.inr (Or.inl hend)
            · exact Or.inr (Or.inr ⟨by omega, hnl⟩)
      next hend => exact ⟨⟨le_refl i, by omega, fun k hik hk => by omega⟩,
          fun h => absurd h (lt_irrefl i), Or.inr (Or.inl (by omega))⟩

theorem RowFrom.not_lt (h : RowFrom con n i j) (h' : RowFrom con n i k) : ¬j < k := by
  intro hlt
  have hle := h.le
  have hwidth := h'.width
  have hcount := h'.count (by omega)
  rcases h.stop with hfull | hend | ⟨hpos, hnl⟩
  · omega
  · omega
  · exact h'.inner (j - 1) (by omega) (by omega) hnl

theorem nextLineStart_eq_iff : con.nextLineStart i = j ↔ RowFrom con consoleMaxCol i j := by
  have hrow := nextLineLoop_row con consoleMaxCol i
  constructor
  · rintro rfl
    exact hrow
  · intro h
    exact Nat.le_antisymm (Nat.not_lt.mp (h.not_lt hrow)) (Nat.not_lt.mp (hrow.not_lt h))

/-! ## The scan backwards -/

/-- The scan has gone back over `m` characters of the row. -/
theorem prevLineLoop_row {m : Nat} (hwidth : nextStart = offset + m)
    (hinner : ∀ k, offset ≤ k → k + 1 < nextStart → con.charAt k ≠ newline)
    (hkept : offset < nextStart → con.historyMin ≤ offset) (n : Nat) :
    RowTo con (m + n) (con.prevLineLoop con.historyMin nextStart n offset) nextStart := by
  induction n generalizing m offset with
  | zero => exact ⟨⟨by simp [prevLineLoop, hwidth], by simp [prevLineLoop, hwidth], hinner⟩, hkept, Or.inl hwidth⟩
  | succ n ih =>
      rw [prevLineLoop]
      split
      next hmore =>
        rw [Nat.add_comm n 1, ← Nat.add_assoc]
        refine ih (by omega) (fun k hk hlt => ?_) fun _ => by omega
        rcases Nat.eq_or_lt_of_le hk with rfl | hgt
        · exact fun hnl => hmore.2 ⟨hnl, by omega⟩
        · exact hinner k (by omega) hlt
      next hstop =>
        refine ⟨⟨by omega, by omega, hinner⟩, hkept, ?_⟩
        by_cases hlo : con.historyMin < offset
        · obtain ⟨hnl, hne⟩ := not_not.mp fun hno => hstop ⟨hlo, hno⟩
          exact Or.inr (Or.inr ⟨by omega, hnl⟩)
        · exact Or.inr (Or.inl (Nat.not_lt.mp hlo))

theorem RowTo.not_lt (h : RowTo con n i k) (h' : RowTo con n j k) : ¬i < j := by
  intro hlt
  have hle := h'.le
  have hwidth := h.width
  have hkept := h.kept (by omega)
  rcases h'.stop with hfull | hend | ⟨hpos, hnl⟩
  · omega
  · omega
  · exact h.inner (j - 1) (by omega) (by omega) hnl

theorem prevLineStart_eq_iff : con.prevLineStart j = i ↔ RowTo con consoleMaxCol i j := by
  have hrow : RowTo con consoleMaxCol (con.prevLineStart j) j := by
    have hscan := @prevLineLoop_row con j j 0 rfl (fun k hk hlt => by omega) (fun hlt => absurd hlt (lt_irrefl j))
      consoleMaxCol
    rwa [Nat.zero_add] at hscan
  constructor
  · rintro rfl
    exact hrow
  · intro h
    exact Nat.le_antisymm (Nat.not_lt.mp (h.not_lt hrow)) (Nat.not_lt.mp (hrow.not_lt h))

/-! ## Moves of the window -/

/-- Redrawing the window changes neither the text nor the window's first position. -/
theorem redraw_first (con : State) :
    con.updateWindowBuffer.drawWindow.history = con.history ∧
      con.updateWindowBuffer.drawWindow.historyCnt = con.historyCnt ∧
      con.updateWindowBuffer.drawWindow.windowFirstHistory = con.windowFirstHistory := by
  obtain ⟨screen, hrun, -⟩ := drawWindow_redrawn con.updateWindowBuffer
  rw [hrun]
  exact ⟨rfl, rfl, rfl⟩

/-- The state has the text of `con` and its window begins at `i`. -/
structure At (con con' : State) (i : Nat) : Prop where
  history : con'.history = con.history
  count : con'.historyCnt = con.historyCnt
  first : con'.windowFirstHistory = i

theorem windowMoveDown_at (con : State) :
    At con con.windowMoveDown (con.nextLineStart con.windowFirstHistory) := by
  have hle := (nextLineLoop_row con consoleMaxCol con.windowFirstHistory).le
  rw [windowMoveDown, moveDownWindowStartPosition]
  split
  next hnone =>
    split at hnone
    next hge => exact ⟨rfl, rfl, Nat.le_antisymm hle hge⟩
    next => exact absurd hnone (by simp)
  next con' hsome =>
    split at hsome
    next => exact absurd hsome (by simp)
    next =>
      obtain rfl := Option.some.inj hsome
      obtain ⟨hhist, hcount, hfirst⟩ := redraw_first { con with
        windowFirstHistory := con.nextLineStart con.windowFirstHistory }
      exact ⟨hhist, hcount, hfirst⟩

theorem windowMoveUp_at (con : State) : At con con.windowMoveUp (con.prevLineStart con.windowFirstHistory) := by
  have hle := (prevLineStart_eq_iff.mp (rfl : con.prevLineStart con.windowFirstHistory = _)).le
  rw [windowMoveUp, moveUpWindowStartPosition]
  split
  next hnone =>
    split at hnone
    next hge => exact ⟨rfl, rfl, Nat.le_antisymm hge hle⟩
    next => exact absurd hnone (by simp)
  next con' hsome =>
    split at hsome
    next => exact absurd hsome (by simp)
    next =>
      obtain rfl := Option.some.inj hsome
      obtain ⟨hhist, hcount, hfirst⟩ := redraw_first { con with
        windowFirstHistory := con.prevLineStart con.windowFirstHistory }
      exact ⟨hhist, hcount, hfirst⟩

theorem At.row (h : At con con' k) (hrow : Row con n i j) : Row con' n i j where
  le := hrow.le
  width := hrow.width
  inner := by
    intro k hik hkj
    rw [charAt, h.history]
    exact hrow.inner k hik hkj

/-- After a move the rows are the same. -/
theorem At.nextLineStart (h : At con con' k) (i : Nat) : con'.nextLineStart i = con.nextLineStart i := by
  have hrow := nextLineLoop_row con consoleMaxCol i
  refine nextLineStart_eq_iff.mpr ⟨h.row hrow.toRow, ?_, ?_⟩
  · rw [h.count]
    exact hrow.count
  · rw [h.count, charAt, h.history]
    exact hrow.stop

theorem At.prevLineStart (h : At con con' k) (j : Nat) : con'.prevLineStart j = con.prevLineStart j := by
  have hrow := prevLineStart_eq_iff.mp (rfl : con.prevLineStart j = _)
  have hmin : con'.historyMin = con.historyMin := by
    rw [historyMin, h.count, historyMin]
  refine prevLineStart_eq_iff.mpr ⟨h.row hrow.toRow, ?_, ?_⟩
  · rw [hmin]
    exact hrow.kept
  · rw [hmin, charAt, h.history]
    exact hrow.stop

/-! ## There and back -/

/-- A move down is taken back by a move up, unless the window's first character has left the ring, and a
move up by a move down. -/
def Reversible (con : State) : Prop :=
  (con.windowMoveDown.windowFirstHistory ≠ con.windowFirstHistory → con.historyMin ≤ con.windowFirstHistory →
    con.windowMoveDown.windowMoveUp.windowFirstHistory = con.windowFirstHistory) ∧
  (con.windowMoveUp.windowFirstHistory ≠ con.windowFirstHistory →
    con.windowMoveUp.windowMoveDown.windowFirstHistory = con.windowFirstHistory)

/-- The row below begins where a scan backwards stops: at the oldest character, behind a newline, or before
a row of full width. -/
def BoundedBelow (con : State) : Prop :=
  con.windowFirstHistory < con.historyCnt → con.historyMin ≤ con.windowFirstHistory →
    con.windowFirstHistory = con.historyMin ∨ con.charAt (con.windowFirstHistory - 1) = newline ∨
      (con.windowFirstHistory + consoleMaxCol ≤ con.historyCnt ∧
        Row con consoleMaxCol con.windowFirstHistory (con.windowFirstHistory + consoleMaxCol))

/-- The row above ends where a scan forwards stops: at the end of the text, behind a newline, or after a row
of full width. -/
def BoundedAbove (con : State) : Prop :=
  con.historyMin < con.windowFirstHistory → con.windowFirstHistory ≤ con.historyCnt ∧
    (con.windowFirstHistory = con.historyCnt ∨ con.charAt (con.windowFirstHistory - 1) = newline ∨
      (con.historyMin + consoleMaxCol ≤ con.windowFirstHistory ∧
        Row con consoleMaxCol (con.windowFirstHistory - consoleMaxCol) con.windowFirstHistory))

theorem RowFrom.full_iff (h : RowFrom con n i j) (hn : 0 < n) :
    j = i + n ↔ i + n ≤ con.historyCnt ∧ Row con n i (i + n) := by
  constructor
  · rintro rfl
    exact ⟨h.count (by omega), h.toRow⟩
  · rintro ⟨hcount, hrow⟩
    have hfull : RowFrom con n i (i + n) := ⟨hrow, fun _ => hcount, Or.inl rfl⟩
    exact Nat.le_antisymm (Nat.not_lt.mp (hfull.not_lt h)) (Nat.not_lt.mp (h.not_lt hfull))

theorem RowTo.full_iff (h : RowTo con n i j) (hn : 0 < n) :
    j = i + n ↔ con.historyMin + n ≤ j ∧ Row con n (j - n) j := by
  constructor
  · rintro rfl
    have hkept := h.kept (by omega)
    rw [Nat.add_sub_cancel]
    exact ⟨by omega, h.toRow⟩
  · rintro ⟨hkept, hrow⟩
    have hfull : RowTo con n (j - n) j := ⟨hrow, fun _ => by omega, Or.inl (by omega)⟩
    have heq := Nat.le_antisymm (Nat.not_lt.mp (hfull.not_lt h)) (Nat.not_lt.mp (h.not_lt hfull))
    omega

theorem down_up_iff (con : State) :
    (con.windowMoveDown.windowFirstHistory ≠ con.windowFirstHistory → con.historyMin ≤ con.windowFirstHistory →
      con.windowMoveDown.windowMoveUp.windowFirstHistory = con.windowFirstHistory) ↔ BoundedBelow con := by
  have hdown := windowMoveDown_at con
  have hrow := nextLineLoop_row con consoleMaxCol con.windowFirstHistory
  have hle := hrow.le
  have hcount := hrow.count
  have hstop := hrow.stop
  have hmoves : con.nextLineStart con.windowFirstHistory ≠ con.windowFirstHistory ↔
      con.windowFirstHistory < con.historyCnt := by
    have hpos : 0 < consoleMaxCol := by decide
    change con.nextLineLoop consoleMaxCol con.windowFirstHistory ≠ _ ↔ _
    omega
  rw [(windowMoveUp_at _).first, hdown.prevLineStart, hdown.first, hmoves, BoundedBelow]
  refine imp_congr_right fun hlt => imp_congr_right fun hmin => ?_
  rw [prevLineStart_eq_iff, ← hrow.full_iff (by decide)]
  have hmoved := hmoves.mpr hlt
  change RowTo con consoleMaxCol con.windowFirstHistory (con.nextLineLoop consoleMaxCol con.windowFirstHistory) ↔ _
  change con.nextLineLoop consoleMaxCol con.windowFirstHistory ≠ _ at hmoved
  constructor
  · intro h
    rcases h.stop with hfull | hold | ⟨-, hnl⟩
    · exact Or.inr (Or.inr hfull)
    · exact Or.inl (Nat.le_antisymm hold hmin)
    · exact Or.inr (Or.inl hnl)
  · rintro (hold | hnl | hfull)
    · exact ⟨hrow.toRow, fun _ => hmin, Or.inr (Or.inl hold.le)⟩
    · exact ⟨hrow.toRow, fun _ => hmin, Or.inr (Or.inr ⟨by omega, hnl⟩)⟩
    · exact ⟨hrow.toRow, fun _ => hmin, Or.inl hfull⟩

theorem up_down_iff (con : State) :
    (con.windowMoveUp.windowFirstHistory ≠ con.windowFirstHistory →
      con.windowMoveUp.windowMoveDown.windowFirstHistory = con.windowFirstHistory) ↔ BoundedAbove con := by
  have hup := windowMoveUp_at con
  have hrow := prevLineStart_eq_iff.mp (rfl : con.prevLineStart con.windowFirstHistory = _)
  have hle := hrow.le
  have hkept := hrow.kept
  have hstop := hrow.stop
  have hmoves : con.prevLineStart con.windowFirstHistory ≠ con.windowFirstHistory ↔
      con.historyMin < con.windowFirstHistory := by
    have hpos : 0 < consoleMaxCol := by decide
    omega
  rw [(windowMoveDown_at _).first, hup.nextLineStart, hup.first, hmoves, BoundedAbove]
  refine imp_congr_right fun hlt => ?_
  rw [nextLineStart_eq_iff, ← hrow.full_iff (by decide)]
  have hmoved := hmoves.mpr hlt
  constructor
  · intro h
    refine ⟨h.count (by omega), ?_⟩
    rcases h.stop with hfull | hend | ⟨-, hnl⟩
    · exact Or.inr (Or.inr hfull)
    · exact Or.inl (Nat.le_antisymm (h.count (by omega)) hend)
    · exact Or.inr (Or.inl hnl)
  · rintro ⟨hcount, hend | hnl | hfull⟩
    · exact ⟨hrow.toRow, fun _ => hcount, Or.inr (Or.inl hend.ge)⟩
    · exact ⟨hrow.toRow, fun _ => hcount, Or.inr (Or.inr ⟨by omega, hnl⟩)⟩
    · exact ⟨hrow.toRow, fun _ => hcount, Or.inl hfull⟩

end State

open State

/-- In every state that is reached, scrolling is reversible exactly when the two rows at the window's first
character are bounded. -/
theorem runCalls_reversible_iff (inputBuf : Nat → UInt8) (calls : List Call) :
    Reversible (runCalls (initConsole inputBuf, []) calls).1 ↔
      BoundedBelow (runCalls (initConsole inputBuf, []) calls).1 ∧
        BoundedAbove (runCalls (initConsole inputBuf, []) calls).1 :=
  and_congr (down_up_iff _) (up_down_iff _)

/-- A line of twenty-one characters, seen from its second row. -/
def longLine : List Call :=
  List.replicate 21 (.writeConsoleOne 65) ++ [.writeConsoleOne newline, .windowMoveDown]

/-- The move down leads to the end of the line, and the move up from there back over twenty characters. -/
theorem longLine_not_reversible : ¬∀ inputBuf calls, Reversible (runCalls (initConsole inputBuf, []) calls).1 := by
  intro h
  have hdown := (h (fun _ => 0) longLine).1 (by decide) (by decide)
  exact absurd hdown (by decide)

end TsOs.Console
