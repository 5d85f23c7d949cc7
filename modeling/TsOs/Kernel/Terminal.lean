import TsOs.Kernel.Shell

/-!
# The terminal

What the keyboard, the shell and the console are together: a line of input with a key to take
back a character and a key to send it, and the text of all output. A byte of the keyboard comes
with each interrupt, and output may come between any two of them.
-/

namespace TsOs.Shell
open Keyboard Console

/-- The most characters of a line. -/
def lineMax : Nat := inputAreaMaxRow * consoleMaxCol

/-- A line of input and the text of the output. -/
structure Terminal where
  line : List UInt8
  output : List UInt8

namespace Terminal

def print (τ : Terminal) (text : List UInt8) : Terminal := ⟨τ.line, τ.output ++ text⟩

/-- What a key does. -/
def press (τ : Terminal) (keycode : KeyCode) : Terminal :=
  match keycode with
  | .enter => ⟨[], τ.output ++ (τ.line ++ [newline])⟩
  | .backspace => ⟨τ.line.dropLast, τ.output⟩
  | .printscr => τ.print (toBytes "printscr detected\n")
  | .printscrRelease => τ.print (toBytes "printscr_re detected\n")
  | .pause => τ.print (toBytes "pause detected\n")
  | keycode =>
      if Typed keycode ∧ τ.line.length < lineMax then ⟨τ.line ++ [UInt8.ofNat (code keycode)], τ.output⟩ else τ

def step (τ : Terminal) : Event → Terminal
  | .shellGetKeyCode keycode => τ.press keycode
  | .writeConsoleOne c => τ.print [c]

end Terminal

/-- The console has the line of the terminal and its output, and shows both. -/
structure Shows (con : State) (τ : Terminal) : Prop where
  coherent : Coherent con τ.output
  inputCnt : con.inputCnt = τ.line.length
  inputBuf : ∀ i (hi : i < τ.line.length), con.inputBuf i = τ.line[i]

variable {con con' : State} {τ : Terminal} {keycode : KeyCode}

theorem Shows.length_le (h : Shows con τ) : τ.line.length ≤ lineMax := h.inputCnt ▸ h.coherent.input_le

/-! ## One event -/

/-- Calls that leave the line alone. -/
theorem Shows.keep (h : Shows con τ) {output : List UInt8} (hcoherent : Coherent con' output)
    (hcnt : con'.inputCnt = con.inputCnt) (hbuf : con'.inputBuf = con.inputBuf) : Shows con' ⟨τ.line, output⟩ :=
  ⟨hcoherent, hcnt.trans h.inputCnt, fun i hi => (congrFun hbuf i).trans (h.inputBuf i hi)⟩

theorem Shows.writeConsoleOne (h : Shows con τ) (c : UInt8) (hlen : τ.output.length + 1 < 2 ^ 32) :
    Shows (con.writeConsoleOne c) (τ.print [c]) := by
  obtain ⟨hcoherent, hcnt, hbuf⟩ := h.coherent.writeConsoleOne c hlen
  exact h.keep hcoherent hcnt hbuf

theorem Shows.printf (h : Shows con τ) (text : List UInt8) (hlen : τ.output.length + text.length < 2 ^ 32) :
    Shows (printf con text) (τ.print text) := by
  induction text generalizing con τ with
  | nil =>
      rw [Terminal.print, List.append_nil]
      exact h
  | cons c text ih =>
      rw [List.length_cons] at hlen
      have hrest := ih (h.writeConsoleOne c (by omega)) (by
        change (τ.output ++ [c]).length + text.length < 2 ^ 32
        rw [List.length_append, List.length_singleton]
        omega)
      have happend : (τ.print [c]).print text = τ.print (c :: text) := by
        simp [Terminal.print]
      rw [← happend]
      exact hrest

theorem windowMoveUp_inputBuf (con : State) : con.windowMoveUp.inputBuf = con.inputBuf := by
  rw [State.windowMoveUp]
  split
  next => rfl
  next moved hmoved =>
    rw [State.moveUpWindowStartPosition] at hmoved
    split at hmoved
    next => exact absurd hmoved (by simp)
    next =>
      obtain rfl := Option.some.inj hmoved
      exact (drawWindow_input _).2

theorem windowMoveDown_inputBuf (con : State) : con.windowMoveDown.inputBuf = con.inputBuf := by
  rw [State.windowMoveDown]
  split
  next => rfl
  next moved hmoved =>
    rw [State.moveDownWindowStartPosition] at hmoved
    split at hmoved
    next => exact absurd hmoved (by simp)
    next =>
      obtain rfl := Option.some.inj hmoved
      exact (drawWindow_input _).2

theorem drawInputIfNeed_inputBuf (con : State) (n : Nat) : (con.drawInputIfNeed n).inputBuf = con.inputBuf := by
  rw [State.drawInputIfNeed]
  split
  next =>
    obtain ⟨screen, hrun, -⟩ := drawInputLast_eq con
    rw [hrun]
  next =>
    obtain ⟨screen, hrun, -⟩ := writeInputCells_eq con (fun i => if i < con.inputCnt then con.inputBuf i else 0) n 0
    rw [hrun]

/-- BACKSPACE takes back the last character, if there is one. -/
theorem modifyInputCnt_input (h : con.inputCnt ≤ lineMax) :
    con.modifyInputCnt.inputCnt = con.inputCnt - 1 ∧ con.modifyInputCnt.inputBuf = con.inputBuf := by
  have hmax : lineMax = 40 := rfl
  rw [State.modifyInputCnt]
  rcases Nat.eq_zero_or_pos con.inputCnt with hzero | hpos
  · have hinvalid : validInputCnt (sub32 con.inputCnt 1) = false := by
      rw [hzero]
      decide
    rw [hinvalid, hzero]
    exact ⟨hzero, rfl⟩
  · have hnew : sub32 con.inputCnt 1 = con.inputCnt - 1 := sub32_of_le hpos (by omega)
    have hvalid : validInputCnt (con.inputCnt - 1) = true :=
      validInputCnt_iff.mpr (by rw [lineMax] at h; omega)
    rw [hnew, hvalid]
    simp only [Bool.not_true, Bool.false_eq_true, if_false]
    split
    · exact ⟨(State.drawWindow_inputCnt _).trans (State.drawInputIfNeed_inputCnt _ _),
        (drawWindow_input _).2.trans (drawInputIfNeed_inputBuf _ _)⟩
    · exact ⟨State.drawInputIfNeed_inputCnt _ _, drawInputIfNeed_inputBuf _ _⟩

/-- A character is added while the line has room for it. -/
theorem getInputChar_input (h : con.inputCnt ≤ lineMax) (c : UInt8) :
    (con.inputCnt < lineMax → (con.getInputChar c).inputCnt = con.inputCnt + 1 ∧
      (con.getInputChar c).inputBuf = setByte con.inputBuf con.inputCnt c) ∧
    (¬con.inputCnt < lineMax → con.getInputChar c = con) := by
  have hmax : lineMax = 40 := rfl
  have hnew : u32 (con.inputCnt + 1) = con.inputCnt + 1 := u32_of_lt (by omega)
  rw [State.getInputChar, hnew]
  constructor
  · intro hroom
    have hvalid : validInputCnt (con.inputCnt + 1) = true := validInputCnt_iff.mpr (by rw [lineMax] at hroom; omega)
    rw [hvalid]
    simp only [Bool.not_true, Bool.false_eq_true, if_false]
    split
    · exact ⟨(State.drawWindow_inputCnt _).trans (State.drawInputIfNeed_inputCnt _ _),
        (drawWindow_input _).2.trans (drawInputIfNeed_inputBuf _ _)⟩
    · exact ⟨rfl, rfl⟩
  · intro hfull
    have hinvalid : validInputCnt (con.inputCnt + 1) = false := by
      rw [Bool.eq_false_iff, ne_eq, validInputCnt_iff]
      rw [lineMax] at hfull
      omega
    rw [hinvalid]
    rfl

theorem Shows.getInputChar (h : Shows con τ) (c : UInt8) :
    Shows (con.getInputChar c) (if τ.line.length < lineMax then ⟨τ.line ++ [c], τ.output⟩ else τ) := by
  obtain ⟨hadd, hfull⟩ := getInputChar_input (h.inputCnt.trans_le h.length_le) c
  rw [h.inputCnt] at hadd hfull
  split
  next hroom =>
    obtain ⟨hcnt, hbuf⟩ := hadd hroom
    refine ⟨h.coherent.getInputChar c, ?_, fun i hi => ?_⟩
    · rw [hcnt, List.length_append, List.length_singleton]
    · rw [List.length_append, List.length_singleton] at hi
      rw [hbuf]
      rcases Nat.lt_succ_iff_lt_or_eq.mp hi with hlt | rfl
      · rw [setByte_of_ne _ _ (Nat.ne_of_lt hlt), h.inputBuf i hlt, List.getElem_append_left hlt]
      · rw [setByte_same, List.getElem_append_right (le_refl _)]
        simp
  next hroom =>
    rw [hfull hroom]
    exact h

theorem Shows.modifyInputCnt (h : Shows con τ) : Shows con.modifyInputCnt ⟨τ.line.dropLast, τ.output⟩ := by
  obtain ⟨hcnt, hbuf⟩ := modifyInputCnt_input (h.inputCnt.trans_le h.length_le)
  refine ⟨h.coherent.modifyInputCnt, ?_, fun i hi => ?_⟩
  · rw [hcnt, h.inputCnt, List.length_dropLast]
  · rw [hbuf, List.getElem_dropLast]
    exact h.inputBuf i (Nat.lt_of_lt_of_le hi (by rw [List.length_dropLast]; omega))

theorem Shows.flushInputBuffer (h : Shows con τ) (hlen : τ.output.length + (τ.line.length + 1) < 2 ^ 32) :
    Shows con.flushInputBuffer ⟨[], τ.output ++ (τ.line ++ [newline])⟩ := by
  have hline : (List.range con.inputCnt).map con.inputBuf = τ.line := by
    refine List.ext_getElem (by rw [List.length_map, List.length_range, h.inputCnt]) fun i hi hi' => ?_
    rw [List.getElem_map, List.getElem_range]
    exact h.inputBuf i hi'
  have hcoherent := h.coherent.flushInputBuffer (by rw [h.inputCnt]; exact hlen)
  rw [hline] at hcoherent
  refine ⟨hcoherent, ?_, fun i hi => absurd hi (Nat.not_lt_zero i)⟩
  rw [State.flushInputBuffer, State.consoleClearInput, State.drawWindow_inputCnt, State.drawInputIfNeed_inputCnt]
  rfl

/-- Keys that are no characters. -/
theorem press_of_not_typed (h : ¬Typed keycode) (henter : keycode ≠ .enter) (hbackspace : keycode ≠ .backspace)
    (hprintscr : keycode ≠ .printscr) (hrelease : keycode ≠ .printscrRelease) (hpause : keycode ≠ .pause) :
    τ.press keycode = τ := by
  unfold Terminal.press
  split
  · exact absurd rfl henter
  · exact absurd rfl hbackspace
  · exact absurd rfl hprintscr
  · exact absurd rfl hrelease
  · exact absurd rfl hpause
  · exact if_neg fun htyped => h htyped.1

theorem press_of_typed (h : Typed keycode) : τ.press keycode =
    if τ.line.length < lineMax then ⟨τ.line ++ [UInt8.ofNat (code keycode)], τ.output⟩ else τ := by
  unfold Terminal.press
  split
  · exact absurd h (by decide)
  · exact absurd h (by decide)
  · exact absurd h (by decide)
  · exact absurd h (by decide)
  · exact absurd h (by decide)
  · simp only [h, true_and]

/-- Every key does on the console what it does on the terminal. -/
theorem Shows.shellGetKeyCode (h : Shows con τ) (keycode : KeyCode) (hlen : (τ.press keycode).output.length < 2 ^ 32) :
    Shows (shellGetKeyCode con keycode) (τ.press keycode) := by
  have hprint : ∀ text, (τ.print text).output.length < 2 ^ 32 → Shows (Shell.printf con text) (τ.print text) :=
    fun text htext => h.printf text ((List.length_append (α := UInt8)).symm.trans_lt htext)
  unfold Shell.shellGetKeyCode
  split
  case h_1 =>
    rw [press_of_not_typed (by decide) (by decide) (by decide) (by decide) (by decide) (by decide)]
    exact h
  case h_2 =>
    rw [press_of_not_typed (by decide) (by decide) (by decide) (by decide) (by decide) (by decide)]
    exact h.keep h.coherent.windowMoveUp (State.windowMoveUp_inputCnt con) (windowMoveUp_inputBuf con)
  case h_3 =>
    rw [press_of_not_typed (by decide) (by decide) (by decide) (by decide) (by decide) (by decide)]
    exact h.keep h.coherent.windowMoveDown (State.windowMoveDown_inputCnt con) (windowMoveDown_inputBuf con)
  case h_4 =>
    refine h.flushInputBuffer ?_
    change (τ.output ++ (τ.line ++ [newline])).length < 2 ^ 32 at hlen
    rwa [List.length_append, List.length_append, List.length_singleton] at hlen
  case h_5 => exact h.modifyInputCnt
  case h_6 => exact hprint _ hlen
  case h_7 => exact hprint _ hlen
  case h_8 => exact hprint _ hlen
  case h_9 hempty hup hdown henter hbackspace hprintscr hrelease hpause =>
    split
    next htyped =>
      rw [press_of_typed htyped]
      exact h.getInputChar _
    next htyped =>
      rw [press_of_not_typed htyped henter hbackspace hprintscr hrelease hpause]
      exact h

theorem Terminal.output_le (τ : Terminal) (e : Event) : τ.output.length ≤ (τ.step e).output.length := by
  have happend : ∀ text : List UInt8, τ.output.length ≤ (τ.output ++ text).length := fun text => by
    rw [List.length_append]
    omega
  cases e with
  | writeConsoleOne c => exact happend [c]
  | shellGetKeyCode keycode =>
      change τ.output.length ≤ (τ.press keycode).output.length
      unfold Terminal.press
      split
      · exact happend _
      · exact le_refl _
      · exact happend _
      · exact happend _
      · exact happend _
      · split
        · exact le_refl _
        · exact le_refl _

theorem Terminal.output_le_foldl (τ : Terminal) (events : List Event) :
    τ.output.length ≤ (events.foldl Terminal.step τ).output.length := by
  induction events generalizing τ with
  | nil => exact le_refl _
  | cons e events ih => exact (τ.output_le e).trans (ih (τ.step e))

theorem Shows.step (h : Shows con τ) (e : Event) (hlen : (τ.step e).output.length < 2 ^ 32) :
    Shows (step con e) (τ.step e) := by
  cases e with
  | shellGetKeyCode keycode => exact h.shellGetKeyCode keycode hlen
  | writeConsoleOne c =>
      refine h.writeConsoleOne c ?_
      change (τ.output ++ [c]).length < 2 ^ 32 at hlen
      rwa [List.length_append, List.length_singleton] at hlen

/-! ## Interrupts of the keyboard -/

/-- A byte from the keyboard, with its interrupt, or a character of output. -/
inductive Input
  | scan (b : UInt8)
  | output (c : UInt8)

/-- The state of the keyboard handler and of the console. -/
structure Session where
  kb : Kb
  con : State

def Session.step (s : Session) : Input → Option Session
  | .scan b => (kbHandler s.kb b).map fun (kb, key) => ⟨kb, key.elim s.con (shellGetKeyCode s.con)⟩
  | .output c => some ⟨s.kb, s.con.writeConsoleOne c⟩

/-- The bytes from the keyboard. -/
def scans : List Input → List UInt8
  | [] => []
  | .scan b :: es => b :: scans es
  | .output _ :: es => scans es

/-- The events that the shell gets if the keyboard sends the sequences, of the first of which `n` bytes have
come: the key of a sequence with its last byte. -/
def strokes : Nat → List ScanSequence → List Input → List Event
  | _, _, [] => []
  | n, qs, .output c :: es => .writeConsoleOne c :: strokes n qs es
  | n, [], .scan _ :: es => strokes n [] es
  | n, q :: qs, .scan _ :: es =>
      if n + 1 = q.bytes.length then .shellGetKeyCode q.key :: strokes 0 qs es else strokes (n + 1) (q :: qs) es

/-- The handler gives the key with the last of the bytes. -/
def Within (key : KeyCode) : Kb → List UInt8 → Prop
  | _, [] => False
  | k, [b] => ∃ history, kbHandler k b = some (⟨history, 0⟩, some key)
  | k, b :: b' :: bs => ∃ k', kbHandler k b = some (k', none) ∧ Within key k' (b' :: bs)

theorem within_sequence (q : ScanSequence) (history : Nat → UInt8) : Within q.key ⟨history, 0⟩ q.bytes := by
  cases q with
  | single b h => exact ⟨history, kbHandler_single h history⟩
  | extended x h =>
      exact ⟨_, kbHandler_start (.inl rfl) history, _, kbHandler_extended h (Function.update_self ..)⟩
  | printscr y z => exact ⟨_, kbHandler_start (.inl rfl) history, _, rfl, _, rfl, _, rfl⟩
  | printscrRelease y z => exact ⟨_, kbHandler_start (.inl rfl) history, _, rfl, _, rfl, _, rfl⟩
  | pause v w x y z => exact ⟨_, kbHandler_start (.inr rfl) history, _, rfl, _, rfl, _, rfl, _, rfl, _, rfl⟩

/-- The handler has read `n` bytes of the first sequence. -/
def Reading (k : Kb) (n : Nat) : List ScanSequence → Prop
  | [] => True
  | q :: _ => n < q.bytes.length ∧ Within q.key k (q.bytes.drop n)

theorem reading_start (qs : List ScanSequence) (history : Nat → UInt8) : Reading ⟨history, 0⟩ 0 qs := by
  cases qs with
  | nil => trivial
  | cons q qs => exact ⟨by cases q <;> exact Nat.succ_pos _, within_sequence q history⟩

/-- The bytes that are still to come. -/
def remaining (n : Nat) : List ScanSequence → List UInt8
  | [] => []
  | q :: qs => q.bytes.drop n ++ qs.flatMap ScanSequence.bytes

theorem remaining_zero (qs : List ScanSequence) : remaining 0 qs = qs.flatMap ScanSequence.bytes := by
  cases qs with
  | nil => rfl
  | cons q qs => rfl

/-- One byte: the handler goes on in the sequence, or it gives its key. -/
theorem Reading.scan {k : Kb} {n : Nat} {qs : List ScanSequence} {b : UInt8} {es : List Input} (h : Reading k n qs)
    (hpre : scans (.scan b :: es) <+: remaining n qs) :
    ∃ k' key n' qs', kbHandler k b = some (k', key) ∧ Reading k' n' qs' ∧ scans es <+: remaining n' qs' ∧
      strokes n qs (.scan b :: es) = (key.map Event.shellGetKeyCode).toList ++ strokes n' qs' es := by
  cases qs with
  | nil => exact absurd (List.prefix_nil.mp hpre) (List.cons_ne_nil _ _)
  | cons q qs =>
      obtain ⟨hn, hwithin⟩ := h
      have hlen : (q.bytes.drop n).length = q.bytes.length - n := List.length_drop
      rw [remaining] at hpre
      cases hdrop : q.bytes.drop n with
      | nil =>
          rw [hdrop, List.length_nil] at hlen
          omega
      | cons b₀ rest =>
          rw [hdrop] at hwithin hpre hlen
          obtain ⟨rfl, htail⟩ := List.cons_prefix_cons.mp hpre
          cases rest with
          | nil =>
              obtain ⟨history, hkey⟩ := hwithin
              have hlast : n + 1 = q.bytes.length := by
                rw [List.length_singleton] at hlen
                omega
              refine ⟨_, _, 0, qs, hkey, reading_start qs history, ?_, if_pos hlast⟩
              rw [remaining_zero]
              exact htail
          | cons b₁ rest =>
              obtain ⟨k', hmore, hwithin⟩ := hwithin
              have hnext : q.bytes.drop (n + 1) = b₁ :: rest := by
                rw [← List.tail_drop, hdrop, List.tail_cons]
              have hmid : ¬n + 1 = q.bytes.length := by
                rw [List.length_cons, List.length_cons] at hlen
                omega
              refine ⟨k', none, n + 1, q :: qs, hmore, ⟨by omega, ?_⟩, ?_, if_neg hmid⟩
              · rw [hnext]
                exact hwithin
              · rw [remaining, hnext]
                exact htail

/-- Whatever output comes in between, the console shows what the keys have done on the terminal. -/
theorem Shows.run {k : Kb} {n : Nat} {qs : List ScanSequence} {es : List Input} (hk : Reading k n qs)
    (hpre : scans es <+: remaining n qs) (h : Shows con τ)
    (hlen : ((strokes n qs es).foldl Terminal.step τ).output.length < 2 ^ 32) :
    ∃ s, Transition.run Session.step ⟨k, con⟩ es = some s ∧
      Shows s.con ((strokes n qs es).foldl Terminal.step τ) := by
  induction es generalizing k n qs con τ with
  | nil => exact ⟨_, rfl, by rw [strokes]; exact h⟩
  | cons e es ih =>
      cases e with
      | output c =>
          rw [strokes] at hlen ⊢
          have hnext := h.step (.writeConsoleOne c) (Nat.lt_of_le_of_lt (Terminal.output_le_foldl _ _) hlen)
          exact ih hk hpre hnext hlen
      | scan b =>
          obtain ⟨k', key, n', qs', hkey, hk', hpre', hstrokes⟩ := hk.scan hpre
          rw [hstrokes] at hlen ⊢
          have hstep : Session.step ⟨k, con⟩ (.scan b) = some ⟨k', key.elim con (Shell.shellGetKeyCode con)⟩ := by
            rw [Session.step, hkey]
            rfl
          rw [Transition.run_cons, hstep]
          cases key with
          | none => exact ih hk' hpre' h hlen
          | some keycode =>
              have hnext := h.step (.shellGetKeyCode keycode)
                (Nat.lt_of_le_of_lt (Terminal.output_le_foldl _ _) hlen)
              exact ih hk' hpre' hnext hlen

/-- The terminal after a list of events. -/
def terminalAfter (events : List Event) : Terminal := events.foldl Terminal.step ⟨[], []⟩

/-- At every point of a stream of scan codes, with any output in between, the console holds and shows the line
and the output of the terminal. -/
theorem session_shows (qs : List ScanSequence) (es : List Input) (history inputBuf : Nat → UInt8)
    (hscans : scans es <+: qs.flatMap ScanSequence.bytes)
    (hlen : (terminalAfter (strokes 0 qs es)).output.length < 2 ^ 32) :
    ∃ s, Transition.run Session.step ⟨⟨history, 0⟩, initConsole inputBuf⟩ es = some s ∧
      Shows s.con (terminalAfter (strokes 0 qs es)) := by
  have hinit : Shows (initConsole inputBuf) ⟨[], []⟩ :=
    ⟨coherent_init inputBuf, rfl, fun i hi => absurd hi (Nat.not_lt_zero i)⟩
  rw [← remaining_zero] at hscans
  exact hinit.run (reading_start qs history) hscans hlen

/-- `H` and `I`, output within the sequence of a key, a character taken back, ENTER and `X`. -/
def sampleInputs : List Input :=
  [.scan 0x23, .scan 0x17, .output 46, .scan 0xE0, .output 33, .scan 0xC8, .scan 0x0E, .scan 0x1C, .scan 0x2D]

theorem isSingle_of_lt {b : UInt8} (h : b.toNat < 86) : IsSingle b :=
  ⟨fun heq => by subst heq; exact absurd h (by decide), fun heq => by subst heq; exact absurd h (by decide),
    Nat.ne_of_lt h⟩

def sampleSequences : List ScanSequence :=
  [.single 0x23 (isSingle_of_lt (by decide)), .single 0x17 (isSingle_of_lt (by decide)),
    .extended 0xC8 ⟨by decide, by decide⟩, .single 0x0E (isSingle_of_lt (by decide)),
    .single 0x1C (isSingle_of_lt (by decide)), .single 0x2D (isSingle_of_lt (by decide))]

theorem session_shows_sample : ∃ s,
    Transition.run Session.step ⟨⟨fun _ => 0, 0⟩, initConsole fun _ => 0⟩ sampleInputs = some s ∧
      Shows s.con ⟨[88], [46, 33, 72, 10]⟩ :=
  session_shows sampleSequences sampleInputs (fun _ => 0) (fun _ => 0) (by decide) (by decide)

end TsOs.Shell
