import Mathlib.Data.List.GetD
import TsOs.Library.TextLayout
import TsOs.Console.Model

/-!
# History and window

`Recorded` says that the ring holds the last characters of the text written so
far, and `Windowed` that the window holds the layout of that text from the
window's first character on. The redraw path computes the layout from the ring;
the incremental path appends one character to a window that shows the end of the
text. Both establish `Windowed`.
-/

namespace TsOs.Console
open TextLayout

/-- How the screen shows a character. -/
def shown (c : UInt8) : UInt8 := if c = newline then 0 else c

/-- The cells of a text in rows of the console's width. -/
def layout (text : List UInt8) : List UInt8 := cells newline 0 consoleMaxCol 0 text

/-- The part of a layout that the window has room for. -/
def visible (text : List UInt8) : List UInt8 := (layout text).take maxWindowSize

/-- The ring holds the last characters of the text `log`. -/
structure Recorded (con : State) (log : List UInt8) : Prop where
  count : con.historyCnt = log.length
  ring : ∀ i < log.length, log.length ≤ i + consoleHistorySize →
    con.history (i % consoleHistorySize) = log.getD i 0

/-- The window shows the text from its first character on. -/
structure Windowed (con : State) (log : List UInt8) : Prop where
  first_le : con.windowFirstHistory ≤ log.length
  recent : log.length ≤ con.windowFirstHistory + consoleHistorySize
  size_eq : con.windowSize = (visible (log.drop con.windowFirstHistory)).length
  cells_eq : ∀ i < maxWindowSize,
    shown (con.window i) = (visible (log.drop con.windowFirstHistory)).getD i 0
  follow : con.historyCnt = con.windowLastHistory →
    (layout (log.drop con.windowFirstHistory)).length ≤ maxWindowSize

variable {con : State} {log s t : List UInt8} {c : UInt8}

@[simp] theorem shown_newline : shown newline = 0 := rfl

@[simp] theorem shown_zero : shown 0 = 0 := rfl

theorem shown_of_ne (hc : c ≠ newline) : shown c = c := if_neg hc

/-! ## Layouts -/

theorem layout_append : layout (s ++ t) = layout s ++
    cells newline 0 consoleMaxCol ((layout s).length % consoleMaxCol) t := by
  unfold layout
  rw [cells_append (by decide), Nat.zero_add]

theorem layout_newline : layout (s ++ [newline]) = layout s ++
    List.replicate (consoleMaxCol - (layout s).length % consoleMaxCol) 0 := by
  rw [layout_append, cells_newline, cells_nil, List.append_nil]

theorem layout_char (hc : c ≠ newline) : layout (s ++ [c]) = layout s ++ [c] := by
  rw [layout_append, cells_cons hc, cells_nil]

/-- A character adds as many cells as `calc_window_delta` says. -/
theorem length_layout_append_one (s : List UInt8) (c : UInt8) : (layout (s ++ [c])).length =
    (layout s).length + calcWindowDelta (layout s).length c := by
  unfold calcWindowDelta
  split
  next hc =>
    subst hc
    rw [layout_newline, List.length_append, List.length_replicate]
    dsimp only [consoleMaxCol]
    omega
  next hc =>
    rw [layout_char hc, List.length_append, List.length_singleton]

/-- Blanks after a list of cells cannot be told from the list's end. -/
theorem getD_append_blanks (l : List UInt8) (n i : Nat) :
    (l ++ List.replicate n 0).getD i 0 = l.getD i 0 := by
  by_cases hin : i < l.length
  · rw [List.getD_append _ _ _ _ hin]
  · rw [List.getD_append_right _ _ _ _ (by omega), List.getD_eq_default l _ (by omega)]
    by_cases hpad : i - l.length < n
    · rw [List.getD_replicate _ hpad]
    · rw [List.getD_eq_default _ _ (by simpa using hpad)]

/-- One more character changes the last cell of the longer layout and no other. -/
theorem getD_layout_append_one (s : List UInt8) (c : UInt8) (i : Nat) :
    (layout (s ++ [c])).getD i 0 =
      if i = (layout (s ++ [c])).length - 1 then shown c else (layout s).getD i 0 := by
  by_cases hc : c = newline
  · subst hc
    rw [layout_newline, getD_append_blanks, List.length_append, List.length_replicate]
    split
    next hlast =>
      have hcol : (layout s).length % consoleMaxCol < consoleMaxCol := Nat.mod_lt _ (by decide)
      rw [List.getD_eq_default _ _ (by omega), shown_newline]
    next hlast => rfl
  · rw [layout_char hc, List.length_append, List.length_singleton, Nat.add_sub_cancel]
    split
    next hlast =>
      rw [hlast, List.getD_append_right _ _ _ _ (le_refl _), Nat.sub_self, shown_of_ne hc]
      rfl
    next hlast =>
      by_cases hin : i < (layout s).length
      · rw [List.getD_append _ _ _ _ hin]
      · have hout : (layout s ++ [c]).length ≤ i := by
          rw [List.length_append, List.length_singleton]
          omega
        rw [List.getD_eq_default _ _ hout, List.getD_eq_default _ _ (by omega)]

theorem visible_of_le (h : (layout t).length ≤ maxWindowSize) : visible t = layout t :=
  List.take_of_length_le h

/-- A full layout shows nothing of what follows. -/
theorem visible_append (h : (layout s).length = maxWindowSize) : visible (s ++ t) = layout s := by
  rw [visible, layout_append, List.take_left' h]

theorem layout_drop_row (h : consoleMaxCol ≤ (layout t).length) :
    layout (t.drop (rowLength newline consoleMaxCol t)) = (layout t).drop consoleMaxCol :=
  cells_drop_row 0 (by decide) h

/-! ## Buffers -/

theorem setByte_same (buf : Nat → UInt8) (i : Nat) (v : UInt8) : setByte buf i v i = v :=
  if_pos rfl

theorem setByte_of_ne (buf : Nat → UInt8) {i j : Nat} (v : UInt8) (h : j ≠ i) :
    setByte buf i v j = buf j :=
  if_neg h

theorem zeroBytes_eq (buf : Nat → UInt8) (n i j : Nat) :
    zeroBytes buf n i j = if i ≤ j ∧ j < i + n then 0 else buf j := by
  induction n generalizing buf i with
  | zero => simp [zeroBytes]
  | succ n ih =>
      rw [zeroBytes, ih]
      by_cases hj : j = i
      · subst hj
        simp [setByte_same]
      · rw [setByte_of_ne _ _ hj]
        congr 1
        apply propext
        omega

/-- The padding loop ends at the next multiple of the row's width. -/
theorem padRow_spec (window : Nat → UInt8) (n size : Nat) (hsize : size ≤ maxWindowSize)
    (hn : (consoleMaxCol - size % consoleMaxCol) % consoleMaxCol ≤ n) :
    padRow window n size =
      (zeroBytes window ((consoleMaxCol - size % consoleMaxCol) % consoleMaxCol) size,
        size + (consoleMaxCol - size % consoleMaxCol) % consoleMaxCol) := by
  induction n generalizing window size with
  | zero =>
      rw [Nat.le_zero.mp hn]
      rfl
  | succ n ih =>
      rw [padRow]
      split
      next hpad =>
        obtain ⟨k, hk⟩ : ∃ k, (consoleMaxCol - size % consoleMaxCol) % consoleMaxCol = k + 1 := by
          apply Nat.exists_eq_succ_of_ne_zero
          unfold consoleMaxCol at hpad ⊢
          omega
        have hnext : (consoleMaxCol - (size + 1) % consoleMaxCol) % consoleMaxCol = k := by
          unfold consoleMaxCol at hpad hk ⊢
          omega
        rw [ih _ _ hpad.2 (by rw [hnext]; omega), hnext, hk, zeroBytes]
        congr 1
        omega
      next hpad =>
        have hdone : (consoleMaxCol - size % consoleMaxCol) % consoleMaxCol = 0 := by
          have hlast : size % consoleMaxCol = 0 := by
            by_contra hne
            have hmax : size = maxWindowSize := by omega
            exact hne (by rw [hmax]; decide)
          rw [hlast]
          decide
        rw [hdone]
        rfl

/-! ## The redraw path -/

/-- The ring holds the characters of `t` from index `i` on. -/
def Reads (con : State) (i : Nat) (t : List UInt8) : Prop :=
  ∀ j < t.length, con.history ((i + j) % consoleHistorySize) = t.getD j 0

/-- The first cells of the window show the list. -/
def Shows (window : Nat → UInt8) (l : List UInt8) : Prop :=
  ∀ i < l.length, shown (window i) = l.getD i 0

theorem Reads.head {i : Nat} (h : Reads con i (c :: t)) :
    con.history (i % consoleHistorySize) = c :=
  h 0 (by simp)

theorem Reads.tail {i : Nat} (h : Reads con i (c :: t)) : Reads con (i + 1) t := by
  intro j hj
  have hnext := h (j + 1) (by simpa using hj)
  rw [← Nat.add_assoc, Nat.add_right_comm] at hnext
  exact hnext

/-- The recorded text can be read from the ring as far back as the ring reaches. -/
theorem Recorded.reads (h : Recorded con log) {i : Nat}
    (hrecent : log.length ≤ i + consoleHistorySize) : Reads con i (log.drop i) := by
  intro j hj
  rw [List.length_drop] at hj
  rw [h.ring (i + j) (by omega) (by omega)]
  simp [List.getD_eq_getElem?_getD]

theorem Shows.append {window window' : Nat → UInt8} {l l' : List UInt8} (h : Shows window l)
    (hold : ∀ i < l.length, window' i = window i)
    (hnew : ∀ i < l'.length, shown (window' (l.length + i)) = l'.getD i 0) :
    Shows window' (l ++ l') := by
  intro i hi
  by_cases hlt : i < l.length
  · rw [hold i hlt, h i hlt, List.getD_append _ _ _ _ hlt]
  · obtain ⟨k, rfl⟩ : ∃ k, i = l.length + k := ⟨i - l.length, by omega⟩
    rw [List.length_append] at hi
    rw [hnew k (by omega), List.getD_append_right _ _ _ _ (by omega), Nat.add_sub_cancel_left]

/-- A newline in the window together with its padding. -/
theorem Shows.append_newline {window : Nat → UInt8} (h : Shows window (layout s)) {size n : Nat}
    (hsize : size = (layout s).length)
    (hn : n = (consoleMaxCol - (size + 1) % consoleMaxCol) % consoleMaxCol) :
    Shows (zeroBytes (setByte window size newline) n (size + 1)) (layout (s ++ [newline])) ∧
      (layout (s ++ [newline])).length = size + 1 + n := by
  subst hsize
  have hcount : consoleMaxCol - (layout s).length % consoleMaxCol = n + 1 := by
    unfold consoleMaxCol at hn ⊢
    omega
  rw [layout_newline, hcount]
  constructor
  · apply h.append
    · intro i hi
      rw [zeroBytes_eq, if_neg (by omega), setByte_of_ne _ _ (by omega)]
    · intro i hi
      rw [List.length_replicate] at hi
      rw [List.getD_replicate _ hi, zeroBytes_eq]
      cases i with
      | zero => simp [setByte_same]
      | succ i => rw [if_pos (by omega), shown_zero]
  · rw [List.length_append, List.length_replicate]
    omega

theorem Shows.append_char {window : Nat → UInt8} (h : Shows window (layout s)) (hc : c ≠ newline) :
    Shows (setByte window (layout s).length c) (layout (s ++ [c])) := by
  rw [layout_char hc]
  apply h.append
  · intro i hi
    exact setByte_of_ne _ _ (by omega)
  · intro i hi
    obtain rfl : i = 0 := by simpa using hi
    rw [Nat.add_zero, setByte_same, shown_of_ne hc]
    rfl

/-- The filling loop lays out a prefix of the text that is left, up to a full window. -/
theorem fillWindow_spec (n : Nat) (window : Nat → UInt8) (index : Nat) (s t : List UInt8)
    (hle : (layout s).length ≤ maxWindowSize) (hn : maxWindowSize ≤ n + (layout s).length)
    (hcount : index + t.length = con.historyCnt) (hreads : Reads con index t)
    (hshows : Shows window (layout s)) :
    ∃ s' t' window', s ++ t = s' ++ t' ∧ (layout s').length ≤ maxWindowSize ∧
      ((layout s').length = maxWindowSize ∨ t' = []) ∧ Shows window' (layout s') ∧
      con.fillWindow n window (layout s).length index =
        (window', (layout s').length, con.historyCnt - t'.length) := by
  induction n generalizing window index s t with
  | zero =>
      have hindex : index = con.historyCnt - t.length := by omega
      exact ⟨s, t, window, rfl, hle, Or.inl (by omega), hshows, by rw [State.fillWindow, hindex]⟩
  | succ n ih =>
      rw [State.fillWindow]
      split
      next hmore =>
        cases t with
        | nil =>
            rw [List.length_nil] at hcount
            omega
        | cons c t =>
            have hlen : index + 1 + t.length = con.historyCnt := by
              rw [List.length_cons] at hcount
              omega
            have hsplit : s ++ c :: t = (s ++ [c]) ++ t := by simp
            rw [hsplit, hreads.head]
            simp only [setByte_same]
            split
            next hc =>
              -- the newline and its padding end at the end of the row
              subst hc
              obtain ⟨hshows', hsize'⟩ := hshows.append_newline rfl rfl
              have hroom : (layout s).length + 1 +
                  (consoleMaxCol - ((layout s).length + 1) % consoleMaxCol) % consoleMaxCol ≤
                    maxWindowSize := by
                have hmax : maxWindowSize = 80 := by decide
                rw [hmax] at hmore ⊢
                unfold consoleMaxCol
                omega
              have hfuel : (consoleMaxCol - ((layout s).length + 1) % consoleMaxCol) %
                  consoleMaxCol ≤ consoleMaxCol := Nat.le_of_lt (Nat.mod_lt _ (by decide))
              rw [padRow_spec _ _ _ hmore.1 hfuel, ← hsize']
              apply ih _ _ (s ++ [newline]) t (by omega) (by omega) hlen hreads.tail hshows'
            next hc =>
              have hsize' : (layout (s ++ [c])).length = (layout s).length + 1 := by
                rw [layout_char hc, List.length_append, List.length_singleton]
              rw [← hsize']
              apply ih _ _ (s ++ [c]) t (by omega) (by omega) hlen hreads.tail
                (hshows.append_char hc)
      next hmore =>
        have hindex : index = con.historyCnt - t.length := by omega
        refine ⟨s, t, window, rfl, hle, ?_, hshows, by rw [hindex]⟩
        by_cases hfull : (layout s).length = maxWindowSize
        · exact Or.inl hfull
        · apply Or.inr
          apply List.eq_nil_of_length_eq_zero
          omega

/-- `update_window_buffer` lays out the recorded text. -/
theorem Recorded.updateWindowBuffer (h : Recorded con log)
    (hfirst : con.windowFirstHistory ≤ log.length)
    (hrecent : log.length ≤ con.windowFirstHistory + consoleHistorySize) :
    Windowed con.updateWindowBuffer log := by
  have hcount : con.windowFirstHistory + (log.drop con.windowFirstHistory).length =
      con.historyCnt := by
    rw [List.length_drop, h.count]
    omega
  obtain ⟨s, t, window, hsplit, hle, hfull, hshows, hfill⟩ :=
    fillWindow_spec maxWindowSize con.window con.windowFirstHistory []
      (log.drop con.windowFirstHistory) (by decide) (by decide) hcount (h.reads hrecent)
      (fun i hi => absurd hi (Nat.not_lt_zero i))
  change con.fillWindow maxWindowSize con.window 0 con.windowFirstHistory = _ at hfill
  rw [List.nil_append] at hsplit
  have hvisible : visible (log.drop con.windowFirstHistory) = layout s := by
    rw [hsplit]
    rcases hfull with hfull | rfl
    · exact visible_append hfull
    · rw [List.append_nil]
      exact visible_of_le hle
  have hupdate : con.updateWindowBuffer = { con with
      windowSize := (layout s).length
      windowLastHistory := con.historyCnt - t.length
      window := zeroBytes window (maxWindowSize - (layout s).length) (layout s).length } := by
    rw [State.updateWindowBuffer, hfill]
  rw [hupdate]
  refine ⟨hfirst, hrecent, ?_, ?_, ?_⟩
  · rw [hvisible]
  · intro i hi
    rw [hvisible]
    dsimp only
    rw [zeroBytes_eq]
    by_cases hlt : i < (layout s).length
    · rw [if_neg (by omega), hshows i hlt]
    · rw [if_pos (by omega), shown_zero, List.getD_eq_default _ _ (by omega)]
  · intro hlast
    dsimp only at hlast ⊢
    have htail : t = [] := by
      apply List.eq_nil_of_length_eq_zero
      have hlen := congrArg List.length hsplit
      rw [List.length_append] at hlen
      omega
    rw [hsplit, htail, List.append_nil]
    exact hle

/-! ## Moving the window -/

/-- `next_line_start` steps over the first row of the text. -/
theorem nextLineLoop_eq (n i : Nat) (t : List UInt8) (hcount : i + t.length = con.historyCnt)
    (hreads : Reads con i t) : con.nextLineLoop n i = i + rowLength newline n t := by
  induction n generalizing i t with
  | zero => rfl
  | succ n ih =>
      rw [State.nextLineLoop]
      cases t with
      | nil =>
          rw [List.length_nil] at hcount
          rw [if_neg (by omega)]
          rfl
      | cons c t =>
          rw [List.length_cons] at hcount
          rw [if_pos (by omega), hreads.head, rowLength]
          split
          next hc => rfl
          next hc =>
            rw [ih (i + 1) t (by omega) hreads.tail]
            omega

theorem Recorded.nextLineStart (h : Recorded con log) {i : Nat} (hi : i ≤ log.length)
    (hrecent : log.length ≤ i + consoleHistorySize) :
    con.nextLineStart i = i + rowLength newline consoleMaxCol (log.drop i) := by
  apply nextLineLoop_eq
  · rw [List.length_drop, h.count]
    omega
  · exact h.reads hrecent

theorem prevLineLoop_bounds (con : State) (historyMin nextStart n offset : Nat) (h : historyMin ≤ offset) :
    historyMin ≤ con.prevLineLoop historyMin nextStart n offset ∧
      con.prevLineLoop historyMin nextStart n offset ≤ offset := by
  induction n generalizing offset with
  | zero => exact ⟨h, le_refl offset⟩
  | succ n ih =>
      rw [State.prevLineLoop]
      split
      next hmore =>
        have := ih (offset - 1) (by omega)
        omega
      next hmore => exact ⟨h, le_refl offset⟩

/-- `prev_line_start` stays inside the ring. -/
theorem prevLineStart_bounds (con : State) {i : Nat} (hrecent : con.historyCnt ≤ i + consoleHistorySize) :
    con.prevLineStart i ≤ i ∧ con.historyCnt ≤ con.prevLineStart i + consoleHistorySize := by
  rw [State.prevLineStart]
  have hmin : (if consoleHistorySize < con.historyCnt then con.historyCnt - consoleHistorySize
      else 0) = con.historyCnt - consoleHistorySize := by
    split <;> omega
  rw [hmin]
  have hbounds := prevLineLoop_bounds con (con.historyCnt - consoleHistorySize) i
    consoleMaxCol i (by omega)
  omega

/-! ## The incremental path -/

/-- The ring after one more character. -/
theorem Recorded.append {con' : State} (h : Recorded con log) (hlog : log.length + 1 < 2 ^ 32)
    (hhistory : con'.history = setByte con.history (con.historyCnt % consoleHistorySize) c)
    (hcount : con'.historyCnt = u32 (con.historyCnt + 1)) : Recorded con' (log ++ [c]) := by
  constructor
  · rw [hcount, h.count, u32_of_lt hlog, List.length_append, List.length_singleton]
  · intro i hi hrecent
    rw [List.length_append, List.length_singleton] at hi hrecent
    rw [hhistory, h.count]
    by_cases hlast : i = log.length
    · subst hlast
      rw [setByte_same, List.getD_append_right _ _ _ _ (le_refl _), Nat.sub_self]
      rfl
    · have hslot : i % consoleHistorySize ≠ log.length % consoleHistorySize := by
        unfold consoleHistorySize at hrecent ⊢
        omega
      rw [setByte_of_ne _ _ hslot, h.ring i (by omega) (by omega),
        List.getD_append _ _ _ _ (by omega)]

/-- A window that shows the end of the text holds its whole layout. -/
theorem Windowed.size_of_follow (h : Windowed con log)
    (hfollow : con.historyCnt = con.windowLastHistory) :
    con.windowSize = (layout (log.drop con.windowFirstHistory)).length := by
  rw [h.size_eq, visible_of_le (h.follow hfollow)]

/-- The text from the window's first character on, with one more character. -/
theorem Windowed.drop_append (h : Windowed con log) :
    (log ++ [c]).drop con.windowFirstHistory = log.drop con.windowFirstHistory ++ [c] :=
  List.drop_append_of_le_length h.first_le

/-- Appending a character that fits extends the layout by its cells. -/
theorem Windowed.append (h : Windowed con log) (con' : State)
    (hfollow : con.historyCnt = con.windowLastHistory)
    (hroom : con.windowSize + calcWindowDelta con.windowSize c ≤ maxWindowSize)
    (hfirst : con'.windowFirstHistory = con.windowFirstHistory)
    (hsize : con'.windowSize = con.windowSize + calcWindowDelta con.windowSize c)
    (hwindow : con'.window = setByte (zeroBytes con.window (con'.windowSize - 1 - con.windowSize)
      con.windowSize) (con'.windowSize - 1) c) :
    Windowed con' (log ++ [c]) ∧ 0 < con'.windowSize ∧
      ∀ i < maxWindowSize, shown (con'.window i) =
        if i = con'.windowSize - 1 then shown c else shown (con.window i) := by
  have hold := h.size_of_follow hfollow
  have hle := h.follow hfollow
  have hlen : (layout (log.drop con.windowFirstHistory ++ [c])).length = con'.windowSize := by
    rw [length_layout_append_one, hsize, hold]
  have hvisible : visible ((log ++ [c]).drop con'.windowFirstHistory) =
      layout (log.drop con.windowFirstHistory ++ [c]) := by
    rw [hfirst, h.drop_append]
    apply visible_of_le
    rw [hlen, hsize]
    exact hroom
  have hcell : ∀ i < maxWindowSize, shown (con'.window i) =
      if i = con'.windowSize - 1 then shown c else shown (con.window i) := by
    intro i hi
    rw [hwindow]
    split
    next hlast => rw [hlast, setByte_same]
    next hlast =>
      rw [setByte_of_ne _ _ hlast, zeroBytes_eq]
      split
      next hin =>
        -- the cells skipped by a newline were blank before
        rw [h.cells_eq i hi, shown_zero, List.getD_eq_default]
        rw [← h.size_eq]
        exact hin.1
      next hin => rfl
  have hgrow : 0 < con'.windowSize := by
    have hone : (log.drop con.windowFirstHistory ++ [c]).length ≤
        (layout (log.drop con.windowFirstHistory ++ [c])).length := length_le_cells (by decide)
    rw [List.length_append, List.length_singleton] at hone
    omega
  refine ⟨⟨?_, ?_, ?_, ?_, ?_⟩, hgrow, hcell⟩
  · rw [hfirst, List.length_append]
    exact Nat.le_add_right_of_le h.first_le
  · -- every character takes a cell, so the window holds at most its size of them
    have hchars : (log.drop con.windowFirstHistory).length ≤
        (layout (log.drop con.windowFirstHistory)).length := length_le_cells (by decide)
    have hmax : maxWindowSize + 1 ≤ consoleHistorySize := by decide
    rw [List.length_drop] at hchars
    rw [hfirst, List.length_append, List.length_singleton]
    omega
  · rw [hvisible, hlen]
  · intro i hi
    rw [hvisible, getD_layout_append_one, hlen, hcell i hi, h.cells_eq i hi, visible_of_le hle]
  · intro _
    rw [hfirst, h.drop_append, hlen, hsize]
    exact hroom

theorem rowLength_pos {n : Nat} (ht : t ≠ []) : 0 < rowLength newline (n + 1) t := by
  cases t with
  | nil => exact absurd rfl ht
  | cons c t =>
      rw [rowLength]
      split <;> omega

/-- When the new character does not fit, moving down one row makes room for it. -/
theorem Recorded.scroll (h : Recorded con (log ++ [c]))
    (hfirst : con.windowFirstHistory ≤ log.length)
    (hrecent : log.length + 1 ≤ con.windowFirstHistory + consoleHistorySize)
    (hover : maxWindowSize < (layout (log.drop con.windowFirstHistory ++ [c])).length)
    (hmost : (layout (log.drop con.windowFirstHistory ++ [c])).length ≤
      maxWindowSize + consoleMaxCol) :
    ∃ con', con.moveDownWindowStartPosition = some con' ∧
      con' = { con with windowFirstHistory := con'.windowFirstHistory } ∧
      Windowed con'.updateWindowBuffer (log ++ [c]) ∧ 0 < con'.updateWindowBuffer.windowSize ∧
      shown (con'.updateWindowBuffer.window (con'.updateWindowBuffer.windowSize - 1)) =
        shown c := by
  have hlen : (log ++ [c]).length = log.length + 1 := by simp
  have hdrop : (log ++ [c]).drop con.windowFirstHistory = log.drop con.windowFirstHistory ++ [c] :=
    List.drop_append_of_le_length hfirst
  have hnext := h.nextLineStart (i := con.windowFirstHistory) (by omega) (by omega)
  rw [hdrop] at hnext
  set row := rowLength newline consoleMaxCol (log.drop con.windowFirstHistory ++ [c]) with hrow
  have hpos : 0 < row := rowLength_pos (by simp)
  have hrowle : con.windowFirstHistory + row ≤ log.length + 1 := by
    have hle : row ≤ (log.drop con.windowFirstHistory ++ [c]).length := rowLength_le _
    rw [List.length_append, List.length_drop, List.length_singleton] at hle
    omega
  have hmove : con.moveDownWindowStartPosition =
      some { con with windowFirstHistory := con.windowFirstHistory + row } := by
    rw [State.moveDownWindowStartPosition, hnext, if_neg (by omega)]
  have hrec : Recorded { con with windowFirstHistory := con.windowFirstHistory + row }
      (log ++ [c]) := ⟨h.count, h.ring⟩
  have hwin := hrec.updateWindowBuffer (by dsimp only; omega) (by dsimp only; omega)
  set con' := State.updateWindowBuffer
    { con with windowFirstHistory := con.windowFirstHistory + row } with hcon'
  have hfirst' : con'.windowFirstHistory = con.windowFirstHistory + row := rfl
  have hcells : layout ((log ++ [c]).drop con'.windowFirstHistory) =
      (layout (log.drop con.windowFirstHistory ++ [c])).drop consoleMaxCol := by
    have hmax : consoleMaxCol ≤ maxWindowSize := by decide
    rw [hfirst', ← List.drop_drop, hdrop, hrow, layout_drop_row (by omega)]
  have hvisible : visible ((log ++ [c]).drop con'.windowFirstHistory) =
      (layout (log.drop con.windowFirstHistory ++ [c])).drop consoleMaxCol := by
    rw [visible_of_le, hcells]
    rw [hcells, List.length_drop]
    omega
  have hsize := hwin.size_eq
  have hwidth : consoleMaxCol < maxWindowSize := by decide
  rw [hvisible, List.length_drop] at hsize
  have hpos' : 0 < con'.windowSize := by omega
  have hlast : shown (con'.window (con'.windowSize - 1)) = shown c := by
    rw [hwin.cells_eq _ (by omega), hvisible, hsize, List.getD_eq_getElem?_getD,
      List.getElem?_drop, ← List.getD_eq_getElem?_getD, getD_layout_append_one,
      if_pos (by omega)]
  exact ⟨_, hmove, rfl, hwin, hpos', hlast⟩

end TsOs.Console
