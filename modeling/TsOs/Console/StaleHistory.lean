import TsOs.Console.Builds

/-!
# Reads of overwritten characters

The window keeps its first position until its cells are full. If it holds more cells than the ring has places,
a text of long lines can be longer than the ring by then, and the move to the next row and the redraw read
places that later characters have taken. A call reads only what it is meant to read when the text from the
window's first position on still fits in the ring as the window overflows.
-/

namespace TsOs.Console
open Transition

/-- The console, the position that was written last at each place of the ring, and the character that
was written at each position. -/
structure Written where
  con : State
  writer : Nat → Option Nat
  text : Nat → UInt8

/-- The calls for output. -/
inductive OutputCall
  | writeConsoleOne (c : UInt8)
  | consoleClear
  deriving DecidableEq

namespace Build

variable (b : Build)

/-! ## The positions that are read -/

def nextLineLoopReads (con : State) : Nat → Nat → List Nat
  | 0, _ => []
  | n + 1, offset =>
      if offset < con.historyCnt then
        offset ::
          if con.history (offset % b.historySize) = newline then [] else nextLineLoopReads con n (offset + 1)
      else []

def nextLineStartReads (con : State) (lineStart : Nat) : List Nat := b.nextLineLoopReads con b.maxCol lineStart

def fillWindowReads (con : State) : Nat → (Nat → UInt8) → Nat → Nat → List Nat
  | 0, _, _, _ => []
  | n + 1, window, size, index =>
      if size < b.maxWindowSize ∧ index < con.historyCnt then
        let window := setByte window size (con.history (index % b.historySize))
        index ::
          if window size = newline then
            let (window, size) := b.padRow window b.maxCol (size + 1)
            fillWindowReads con n window size (index + 1)
          else fillWindowReads con n window (size + 1) (index + 1)
      else []

def updateWindowBufferReads (con : State) : List Nat :=
  b.fillWindowReads con b.maxWindowSize con.window 0 con.windowFirstHistory

/-- The reads of `appendChar`. -/
def appendCharReads (con : State) (c : UInt8) : List Nat :=
  let new := b.recordChar con c
  if b.maxWindowSize < new.windowSize then
    b.nextLineStartReads new new.windowFirstHistory ++
      b.updateWindowBufferReads ((b.moveDownWindowStartPosition new).getD new)
  else []

/-- The positions for which a call reads the history. -/
def reads (con : State) : OutputCall → List Nat
  | .writeConsoleOne c =>
      if con.historyCnt = con.windowLastHistory then b.appendCharReads con c
      else
        b.appendCharReads (startAtEnd con) c ++ b.updateWindowBufferReads (b.appendChar (startAtEnd con) c)
  | .consoleClear =>
      b.updateWindowBufferReads { con with
        windowFirstHistory := con.historyCnt
        windowLastHistory := con.historyCnt }

def step (w : Written) : OutputCall → Written
  | .writeConsoleOne c =>
      { con := b.writeConsoleOne w.con c
        writer := Function.update w.writer (w.con.historyCnt % b.historySize) (some w.con.historyCnt)
        text := Function.update w.text w.con.historyCnt c }
  | .consoleClear => { w with con := b.consoleClear w.con }

/-- Every read of a call, all of which come after its write, finds the character of its position, and no
later one has been written there. -/
def NoStale (w : Written) (call : OutputCall) : Prop :=
  ∀ q ∈ b.reads w.con call, (b.step w call).writer (q % b.historySize) = some q ∧
    (b.step w call).con.history (q % b.historySize) = (b.step w call).text q

/-- When a character overflows the window, the text from the window's first position on fits in the ring. -/
def Fits (con : State) : OutputCall → Prop
  | .writeConsoleOne c =>
      con.historyCnt = con.windowLastHistory → b.maxWindowSize < con.windowSize + b.calcWindowDelta con.windowSize c →
        u32 (con.historyCnt + 1) ≤ con.windowFirstHistory + b.historySize
  | .consoleClear => True

variable {b} {con con' : State} {w : Written} {c : UInt8} {call : OutputCall} {i k n q size index : Nat}

theorem nextLineLoopReads_mem (h : q ∈ b.nextLineLoopReads con n i) : i ≤ q ∧ q < con.historyCnt := by
  induction n generalizing i with
  | zero => exact absurd h (List.not_mem_nil)
  | succ n ih =>
      rw [nextLineLoopReads] at h
      split at h
      next hlt =>
        rcases List.mem_cons.mp h with rfl | hrest
        · exact ⟨le_refl q, hlt⟩
        · split at hrest
          next => exact absurd hrest (List.not_mem_nil)
          next =>
            obtain ⟨hle, hcnt⟩ := ih hrest
            exact ⟨by omega, hcnt⟩
      next => exact absurd h (List.not_mem_nil)

/-- The scan of a row reads its first character. -/
theorem nextLineStartReads_first (h : i < con.historyCnt) : i ∈ b.nextLineStartReads con i := by
  obtain ⟨n, hn⟩ := Nat.exists_eq_succ_of_ne_zero (Nat.ne_of_gt b.col_pos)
  rw [nextLineStartReads, hn, nextLineLoopReads, if_pos h]
  exact List.mem_cons_self ..

theorem fillWindowReads_mem {window : Nat → UInt8} (h : q ∈ b.fillWindowReads con n window size index) :
    index ≤ q ∧ q < con.historyCnt := by
  induction n generalizing window size index with
  | zero => exact absurd h (List.not_mem_nil)
  | succ n ih =>
      rw [fillWindowReads] at h
      split at h
      next hmore =>
        rcases List.mem_cons.mp h with rfl | hrest
        · exact ⟨le_refl q, hmore.2⟩
        · have hlater : index + 1 ≤ q ∧ q < con.historyCnt := by
            split at hrest
            · exact ih hrest
            · exact ih hrest
          exact ⟨by omega, hlater.2⟩
      next => exact absurd h (List.not_mem_nil)

/-! ## What the calls do to the counters and the ring -/

/-- The same text, with the window at the same place. -/
structure Same (con con' : State) : Prop where
  history : con'.history = con.history
  count : con'.historyCnt = con.historyCnt
  first : con'.windowFirstHistory = con.windowFirstHistory

theorem Same.trans {con'' : State} (h : Same con con') (h' : Same con' con'') : Same con con'' :=
  ⟨h'.history.trans h.history, h'.count.trans h.count, h'.first.trans h.first⟩

theorem outputWindowOneToVga_same (h : b.outputWindowOneToVga con i c = some con') : Same con con' := by
  rw [outputWindowOneToVga] at h
  split at h
  next => exact absurd h (by simp)
  next =>
    obtain rfl := Option.some.inj h
    exact ⟨rfl, rfl, rfl⟩

theorem drawWindowLoop_same (b : Build) (con : State) (n i : Nat) : Same con (b.drawWindowLoop con n i) := by
  induction n generalizing con i with
  | zero => exact ⟨rfl, rfl, rfl⟩
  | succ n ih =>
      rw [drawWindowLoop]
      split
      next => exact ⟨rfl, rfl, rfl⟩
      next con' hout => exact (outputWindowOneToVga_same hout).trans (ih con' (i + 1))

theorem redraw_same (b : Build) (con : State) : Same con (b.drawWindow (b.updateWindowBuffer con)) := by
  have hupdate : Same con (b.updateWindowBuffer con) := ⟨rfl, rfl, rfl⟩
  exact hupdate.trans (drawWindowLoop_same b _ b.maxWindowSize 0)

theorem nextLineLoop_le (b : Build) (con : State) (n i : Nat) : i ≤ b.nextLineLoop con n i := by
  induction n generalizing i with
  | zero => exact le_refl i
  | succ n ih =>
      rw [nextLineLoop]
      split
      next =>
        split
        next => exact Nat.le_succ i
        next => exact (Nat.le_succ i).trans (ih (i + 1))
      next => exact le_refl i

/-- The same text, with the window at the same place or further on. -/
structure Onward (con con' : State) : Prop where
  history : con'.history = con.history
  count : con'.historyCnt = con.historyCnt
  first : con.windowFirstHistory ≤ con'.windowFirstHistory

theorem Onward.same {con'' : State} (h : Onward con con') (h' : Same con' con'') : Onward con con'' :=
  ⟨h'.history.trans h.history, h'.count.trans h.count, h.first.trans h'.first.ge⟩

theorem moveDown_onward (b : Build) (con : State) :
    Onward con ((b.moveDownWindowStartPosition con).getD con) := by
  rw [moveDownWindowStartPosition]
  split
  next => exact ⟨rfl, rfl, le_refl _⟩
  next => exact ⟨rfl, rfl, nextLineLoop_le b con b.maxCol con.windowFirstHistory⟩

theorem appendChar_onward (b : Build) (con : State) (c : UInt8) :
    Onward (b.recordChar con c) (b.appendChar con c) := by
  rw [appendChar]
  split
  next => exact (moveDown_onward b _).same (redraw_same b _)
  next => exact ⟨rfl, rfl, le_refl _⟩

/-- Where the window begins before a character is added: where it is, or at the end of the text if the
window does not follow the output. -/
def base (con : State) : State :=
  if con.historyCnt = con.windowLastHistory then con else startAtEnd con

theorem writeConsoleOne_onward (b : Build) (con : State) (c : UInt8) :
    Onward (b.recordChar (base con) c) (b.writeConsoleOne con c) := by
  rw [writeConsoleOne, base]
  split
  next =>
    have happend := appendChar_onward b con c
    dsimp only
    cases hout : b.outputWindowOneToVga (b.appendChar con c) ((b.appendChar con c).windowSize - 1) c with
    | none => exact happend
    | some con' => exact happend.same (outputWindowOneToVga_same hout)
  next => exact (appendChar_onward b _ c).same (redraw_same b _)

theorem base_count (con : State) : (base con).historyCnt = con.historyCnt := by
  rw [base]
  split <;> rfl

theorem base_history (con : State) : (base con).history = con.history := by
  rw [base]
  split <;> rfl

theorem base_first (con : State) : (base con).windowFirstHistory = con.windowFirstHistory ∨
    (base con).windowFirstHistory = con.historyCnt := by
  rw [base]
  split
  · exact Or.inl rfl
  · exact Or.inr rfl

/-! ## Who has written a place -/

/-- The places hold the characters of the positions that were written last there, and a position of the
window's text is such a one until the ring has gone around. -/
structure Tracked (b : Build) (w : Written) : Prop where
  count_lt : w.con.historyCnt < 2 ^ 32
  slot : ∀ i q, w.writer i = some q → i = q % b.historySize ∧ w.con.history i = w.text q
  fresh_iff : ∀ q, w.con.windowFirstHistory ≤ q → q < w.con.historyCnt →
    (w.writer (q % b.historySize) = some q ↔ w.con.historyCnt ≤ q + b.historySize)

/-- One more character takes the place of the position a ring before it. -/
theorem Tracked.fresh_after (h : Tracked b w) (hq : (base w.con).windowFirstHistory ≤ q)
    (hcnt : q < u32 (w.con.historyCnt + 1)) :
    Function.update w.writer (w.con.historyCnt % b.historySize) (some w.con.historyCnt) (q % b.historySize) =
      some q ↔ u32 (w.con.historyCnt + 1) ≤ q + b.historySize := by
  have hpos := b.history_pos
  have hlt := h.count_lt
  have hsucc : u32 (w.con.historyCnt + 1) = w.con.historyCnt + 1 := by
    refine u32_of_lt (Nat.lt_of_le_of_ne hlt fun hwrap => ?_)
    rw [show w.con.historyCnt + 1 = 2 ^ 32 from hwrap] at hcnt
    exact absurd hcnt (by simp [u32])
  rw [hsucc] at hcnt ⊢
  rcases Nat.eq_or_lt_of_le (Nat.lt_succ_iff.mp hcnt) with rfl | hold
  · rw [Function.update_self]
    exact iff_of_true rfl (by omega)
  · have hfirst : w.con.windowFirstHistory ≤ q := by
      rcases base_first w.con with hbase | hbase <;> omega
    by_cases hplace : q % b.historySize = w.con.historyCnt % b.historySize
    · rw [hplace, Function.update_self]
      refine iff_of_false (fun heq => absurd (Option.some.inj heq) (by omega)) ?_
      have hdvd : b.historySize ∣ w.con.historyCnt - q := (Nat.modEq_iff_dvd' hold.le).mp hplace
      have hring := Nat.le_of_dvd (Nat.sub_pos_of_lt hold) hdvd
      omega
    · rw [Function.update_of_ne hplace, h.fresh_iff q hfirst hold]
      refine ⟨fun hle => Nat.lt_of_le_of_ne hle fun heq => hplace ?_, fun hle => by omega⟩
      rw [heq, Nat.add_mod_right]

theorem Tracked.slot_after (h : Tracked b w) (c : UInt8) {i q : Nat}
    (hw : Function.update w.writer (w.con.historyCnt % b.historySize) (some w.con.historyCnt) i = some q) :
    i = q % b.historySize ∧
      setByte w.con.history (w.con.historyCnt % b.historySize) c i =
        Function.update w.text w.con.historyCnt c q := by
  by_cases hi : i = w.con.historyCnt % b.historySize
  · rw [hi, Function.update_self] at hw
    obtain rfl := Option.some.inj hw
    rw [hi, setByte, if_pos rfl, Function.update_self]
    exact ⟨rfl, rfl⟩
  · rw [Function.update_of_ne hi] at hw
    obtain ⟨hplace, hchar⟩ := h.slot i q hw
    have hq : q ≠ w.con.historyCnt := fun heq => hi (heq ▸ hplace)
    rw [setByte, if_neg hi, Function.update_of_ne hq]
    exact ⟨hplace, hchar⟩

theorem Tracked.write (h : Tracked b w) (c : UInt8) : Tracked b (b.step w (.writeConsoleOne c)) := by
  have ho := writeConsoleOne_onward b w.con c
  have hcount : (b.writeConsoleOne w.con c).historyCnt = u32 (w.con.historyCnt + 1) := by
    rw [ho.count, ← base_count w.con]
    rfl
  have hhistory : (b.writeConsoleOne w.con c).history =
      setByte w.con.history (w.con.historyCnt % b.historySize) c := by
    rw [ho.history, ← base_history w.con, ← base_count w.con]
    rfl
  constructor
  case count_lt =>
    rw [step, hcount]
    exact Nat.mod_lt _ (by decide)
  case slot =>
    intro i q hw
    rw [step, hhistory]
    exact h.slot_after c hw
  case fresh_iff =>
    intro q hq hcnt
    rw [step, hcount] at hcnt ⊢
    exact h.fresh_after (ho.first.trans hq) hcnt

theorem Tracked.clear (h : Tracked b w) : Tracked b (b.step w .consoleClear) := by
  have hs := redraw_same b { w.con with
    windowFirstHistory := w.con.historyCnt
    windowLastHistory := w.con.historyCnt }
  have hcount : (b.consoleClear w.con).historyCnt = w.con.historyCnt := hs.count
  have hhistory : (b.consoleClear w.con).history = w.con.history := hs.history
  have hfirst : (b.consoleClear w.con).windowFirstHistory = w.con.historyCnt := hs.first
  constructor
  case count_lt =>
    rw [step, hcount]
    exact h.count_lt
  case slot =>
    intro i q hw
    rw [step, hhistory]
    exact h.slot i q hw
  case fresh_iff =>
    intro q hq hcnt
    rw [step, hcount] at hcnt
    rw [step, hfirst] at hq
    omega

theorem Tracked.step (h : Tracked b w) (call : OutputCall) : Tracked b (b.step w call) := by
  cases call with
  | writeConsoleOne c => exact h.write c
  | consoleClear => exact h.clear

/-! ## What the calls read -/

theorem updateWindowBufferReads_mem (h : q ∈ b.updateWindowBufferReads con) :
    con.windowFirstHistory ≤ q ∧ q < con.historyCnt := fillWindowReads_mem h

/-- All reads lie between the window's first position and the end of the text. -/
theorem appendCharReads_mem (h : q ∈ b.appendCharReads con c) :
    con.windowFirstHistory ≤ q ∧ q < u32 (con.historyCnt + 1) := by
  have hmove := moveDown_onward b (b.recordChar con c)
  rw [appendCharReads] at h
  split at h
  next =>
    rcases List.mem_append.mp h with hscan | hfill
    · exact nextLineLoopReads_mem hscan
    · obtain ⟨hle, hlt⟩ := updateWindowBufferReads_mem hfill
      rw [hmove.count] at hlt
      exact ⟨hmove.first.trans hle, hlt⟩
  next => exact absurd h (List.not_mem_nil)

theorem reads_mem (h : q ∈ b.reads con (.writeConsoleOne c)) :
    (base con).windowFirstHistory ≤ q ∧ q < u32 (con.historyCnt + 1) := by
  rw [reads] at h
  rw [base]
  split at h
  next hfollow =>
    rw [if_pos hfollow]
    exact appendCharReads_mem h
  next hfollow =>
    rw [if_neg hfollow]
    rcases List.mem_append.mp h with happend | hfill
    · exact appendCharReads_mem happend
    · have ho := appendChar_onward b (startAtEnd con) c
      obtain ⟨hle, hlt⟩ := updateWindowBufferReads_mem hfill
      rw [ho.count] at hlt
      exact ⟨ho.first.trans hle, hlt⟩

/-- A write that fits reads nothing that is more than a ring before the end of the text. -/
theorem reads_recent (hfits : b.Fits con (.writeConsoleOne c)) (hq : q ∈ b.reads con (.writeConsoleOne c)) :
    u32 (con.historyCnt + 1) ≤ q + b.historySize := by
  obtain ⟨hle, -⟩ := reads_mem hq
  have hpos := b.history_pos
  have hsucc : u32 (con.historyCnt + 1) ≤ con.historyCnt + 1 := Nat.mod_le _ _
  rw [base] at hle
  split at hle
  next hfollow =>
    rw [reads, if_pos hfollow, appendCharReads] at hq
    split at hq
    next hover =>
      have hroom := hfits hfollow hover
      omega
    next => exact absurd hq (List.not_mem_nil)
  next =>
    have hstart : (startAtEnd con).windowFirstHistory = con.historyCnt := rfl
    omega

/-- A write that does not fit reads the window's first position. -/
theorem reads_first (hfollow : con.historyCnt = con.windowLastHistory)
    (hover : b.maxWindowSize < con.windowSize + b.calcWindowDelta con.windowSize c)
    (hfirst : con.windowFirstHistory < u32 (con.historyCnt + 1)) :
    con.windowFirstHistory ∈ b.reads con (.writeConsoleOne c) := by
  have hnew : b.maxWindowSize < (b.recordChar con c).windowSize := hover
  rw [reads, if_pos hfollow, appendCharReads, if_pos hnew]
  exact List.mem_append_left _ (nextLineStartReads_first hfirst)

/-- A call finds what it reads exactly when it fits. -/
theorem Tracked.noStale_iff (h : Tracked b w) (call : OutputCall) : b.NoStale w call ↔ b.Fits w.con call := by
  cases call with
  | writeConsoleOne c =>
      have hfresh : ∀ q ∈ b.reads w.con (.writeConsoleOne c),
          ((b.step w (.writeConsoleOne c)).writer (q % b.historySize) = some q ↔
            u32 (w.con.historyCnt + 1) ≤ q + b.historySize) := by
        intro q hq
        obtain ⟨hle, hlt⟩ := reads_mem hq
        exact h.fresh_after hle hlt
      constructor
      · intro hread hfollow hover
        by_contra hfar
        have hpos := b.history_pos
        have hfirst := reads_first hfollow hover (by omega)
        exact hfar ((hfresh _ hfirst).mp (hread _ hfirst).1)
      · intro hfits q hq
        have hwriter := (hfresh q hq).mpr (reads_recent hfits hq)
        exact ⟨hwriter, ((h.write c).slot _ q hwriter).2⟩
  | consoleClear =>
      refine iff_of_true (fun q hq => ?_) trivial
      obtain ⟨hle, hlt⟩ := updateWindowBufferReads_mem hq
      exact absurd hlt (Nat.not_lt.mpr hle)

/-! ## Sequences of calls -/

/-- The console after `init_console`, with nothing written. -/
def start (inputBuf : Nat → UInt8) : Written := ⟨initConsole inputBuf, fun _ => none, fun _ => 0⟩

theorem tracked_start (b : Build) (inputBuf : Nat → UInt8) : Tracked b (start inputBuf) where
  count_lt := Nat.two_pow_pos 32
  slot := fun i q hw => absurd hw (by simp [start])
  fresh_iff := fun q _ hq => absurd hq (Nat.not_lt_zero q)

/-- Along every sequence of calls a build reads no overwritten character exactly when every call fits. -/
theorem guarded_noStale_iff (b : Build) (inputBuf : Nat → UInt8) (calls : List OutputCall) :
    Guarded (fun w call => some (b.step w call)) b.NoStale (start inputBuf) calls ↔
      Guarded (fun w call => some (b.step w call)) (fun w call => b.Fits w.con call) (start inputBuf) calls := by
  have hall : Guarded (fun w call => some (b.step w call)) (fun _ _ => True) (start inputBuf) calls :=
    guarded_of_forall fun _ _ _ => trivial
  refine guarded_iff (fun w call h _ => Tracked.noStale_iff h call) ?_ (tracked_start b inputBuf) hall
  intro w call w' h _ _ hstep
  obtain rfl := Option.some.inj hstep
  exact h.step call

end Build

open Build

theorem earlyBuild_noStale_iff (inputBuf : Nat → UInt8) (calls : List OutputCall) :
    Guarded (fun w call => some (earlyBuild.step w call)) earlyBuild.NoStale (start inputBuf) calls ↔
      Guarded (fun w call => some (earlyBuild.step w call)) (fun w call => earlyBuild.Fits w.con call)
        (start inputBuf) calls :=
  guarded_noStale_iff earlyBuild inputBuf calls

/-- A write that does not overflow the window only adds to the counters. -/
theorem writeConsoleOne_room (b : Build) {con : State} {c : UInt8} (hfollow : con.historyCnt = con.windowLastHistory)
    (hroom : con.windowSize + b.calcWindowDelta con.windowSize c ≤ b.maxWindowSize) :
    ∃ window screen, b.writeConsoleOne con c = { b.recordChar con c with window := window, screen := screen } := by
  have hnew : ¬b.maxWindowSize < (b.recordChar con c).windowSize := Nat.not_lt.mpr hroom
  rw [writeConsoleOne, if_pos hfollow, appendChar, if_neg hnew]
  dsimp only
  rw [outputWindowOneToVga]
  split
  · exact ⟨_, _, rfl⟩
  · exact ⟨_, _, rfl⟩

/-- Characters fill the window cell by cell. -/
theorem run_chars (b : Build) (inputBuf : Nat → UInt8) {c : UInt8} (hc : c ≠ newline) (n : Nat)
    (hn : n ≤ b.maxWindowSize) (hlt : n < 2 ^ 32) :
    ∃ w, run (fun w call => some (b.step w call)) (start inputBuf) (List.replicate n (.writeConsoleOne c)) = some w ∧
      w.con.historyCnt = n ∧ w.con.windowLastHistory = n ∧ w.con.windowFirstHistory = 0 ∧ w.con.windowSize = n := by
  induction n with
  | zero => exact ⟨start inputBuf, rfl, rfl, rfl, rfl, rfl⟩
  | succ n ih =>
      obtain ⟨w, hrun, hcnt, hlast, hfirst, hsize⟩ := ih (by omega) (by omega)
      have hdelta : b.calcWindowDelta w.con.windowSize c = 1 := if_neg hc
      have hsucc : u32 (w.con.historyCnt + 1) = n + 1 := by
        rw [hcnt]
        exact u32_of_lt hlt
      have hroom : w.con.windowSize + b.calcWindowDelta w.con.windowSize c ≤ b.maxWindowSize := by omega
      obtain ⟨window, screen, hwrite⟩ := writeConsoleOne_room b (hcnt.trans hlast.symm) hroom
      refine ⟨b.step w (.writeConsoleOne c), ?_, ?_⟩
      · rw [List.replicate_succ', run_append, hrun]
        rfl
      · rw [step, hwrite]
        refine ⟨hsucc, hsucc, hfirst, ?_⟩
        change w.con.windowSize + b.calcWindowDelta w.con.windowSize c = n + 1
        rw [hdelta, hsize]

/-- If the window has at least as many cells as the ring has places, a text without newlines that overflows
the window is longer than the ring. -/
theorem not_noStale (b : Build) (hsmall : b.historySize ≤ b.maxWindowSize) (hlt : b.maxWindowSize + 1 < 2 ^ 32)
    (inputBuf : Nat → UInt8) :
    ¬Guarded (fun w call => some (b.step w call)) b.NoStale (start inputBuf)
      (List.replicate b.maxWindowSize (.writeConsoleOne 65) ++ [.writeConsoleOne 65]) := by
  intro h
  have hc : (65 : UInt8) ≠ newline := by decide
  obtain ⟨w, hrun, hcnt, hlast, hfirst, hsize⟩ := run_chars b inputBuf hc b.maxWindowSize (le_refl _) (by omega)
  have hall : Guarded (fun w call => some (b.step w call)) (fun _ _ => True) (start inputBuf)
      (List.replicate b.maxWindowSize (.writeConsoleOne 65)) := guarded_of_forall fun _ _ _ => trivial
  have htracked : Tracked b w := by
    refine inv_of_run (fun w call w' htracked _ hstep => ?_) (tracked_start b inputBuf) hall hrun
    obtain rfl := Option.some.inj hstep
    exact htracked.step call
  have hdelta : b.calcWindowDelta w.con.windowSize 65 = 1 := if_neg hc
  have hroom := (htracked.noStale_iff _).mp (guarded_append h hrun).1 (hcnt.trans hlast.symm) (by omega)
  rw [hcnt, hfirst, u32_of_lt hlt] at hroom
  omega

theorem earlyBuild_stale : ¬∀ inputBuf calls,
    Guarded (fun w call => some (earlyBuild.step w call)) earlyBuild.NoStale (start inputBuf) calls :=
  fun h => not_noStale earlyBuild (by decide) (by decide) (fun _ => 0) (h _ _)

end TsOs.Console
