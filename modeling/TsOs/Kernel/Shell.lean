import TsOs.Console.Accesses
import TsOs.Drivers.Keyboard
import TsOs.Library.Transition

/-!
# Keys for the shell

`shell_get_key_code` scrolls the window, edits the line of input or flushes it. The line holds at most
forty characters, and every byte of the console's buffers that a key or a character of output touches lies
in its buffer, unless ENTER finds the line empty.
-/

namespace TsOs.Shell
open Keyboard Console Transition

/-- The number of a key code: up to `ACUTE` the characters follow `SPACE`, and the rest follow
`LEFT_CURL`. -/
def code (keycode : KeyCode) : Nat :=
  if keycode = .empty then 0
  else if keycode.ctorIdx ≤ KeyCode.ctorIdx .acute then keycode.ctorIdx - KeyCode.ctorIdx .space + 32
  else keycode.ctorIdx - KeyCode.ctorIdx .leftCurl + 123

/-- The keys that are characters of the input. -/
def Typed (keycode : KeyCode) : Prop :=
  (code .a ≤ code keycode ∧ code keycode ≤ code .z) ∨
    (code .zero ≤ code keycode ∧ code keycode ≤ code .nine) ∨
    keycode ∈ [KeyCode.hyphen, .equ, .leftBracket, .rightBracket, .semicolon, .singleQuote, .acute, .backSlash,
      .comma, .dot, .slash, .wildcard, .space]

instance (keycode : KeyCode) : Decidable (Typed keycode) := inferInstanceAs (Decidable (_ ∨ _))

/-- `printf` of a text without formats. -/
def printf (con : State) (text : List UInt8) : State := text.foldl State.writeConsoleOne con

def toBytes (text : String) : List UInt8 := text.toList.map fun c => UInt8.ofNat c.toNat

/-- `shell_get_key_code`. The case of letters is never changed. -/
def shellGetKeyCode (con : State) (keycode : KeyCode) : State :=
  match keycode with
  | .empty => con
  | .upRelease => con.windowMoveUp
  | .downRelease => con.windowMoveDown
  | .enter => con.flushInputBuffer
  | .backspace => con.modifyInputCnt
  | .printscr => printf con (toBytes "printscr detected\n")
  | .printscrRelease => printf con (toBytes "printscr_re detected\n")
  | .pause => printf con (toBytes "pause detected\n")
  | keycode => if Typed keycode then con.getInputChar (UInt8.ofNat (code keycode)) else con

def printfAccesses : State → List UInt8 → List Access
  | _, [] => []
  | con, c :: text => con.writeConsoleOneAccesses c ++ printfAccesses (con.writeConsoleOne c) text

def shellGetKeyCodeAccesses (con : State) (keycode : KeyCode) : List Access :=
  match keycode with
  | .empty => []
  | .upRelease => con.windowMoveUpAccesses
  | .downRelease => con.windowMoveDownAccesses
  | .enter => con.flushInputBufferAccesses
  | .backspace => con.modifyInputCntAccesses
  | .printscr => printfAccesses con (toBytes "printscr detected\n")
  | .printscrRelease => printfAccesses con (toBytes "printscr_re detected\n")
  | .pause => printfAccesses con (toBytes "pause detected\n")
  | keycode => if Typed keycode then con.getInputCharAccesses (UInt8.ofNat (code keycode)) else []

/-- A key for the shell or a character of output. -/
inductive Event
  | shellGetKeyCode (keycode : KeyCode)
  | writeConsoleOne (c : UInt8)
  deriving DecidableEq

def step (con : State) : Event → State
  | .shellGetKeyCode keycode => shellGetKeyCode con keycode
  | .writeConsoleOne c => con.writeConsoleOne c

def accesses (con : State) : Event → List Access
  | .shellGetKeyCode keycode => shellGetKeyCodeAccesses con keycode
  | .writeConsoleOne c => con.writeConsoleOneAccesses c

example : code .a = 65 ∧ code .slash = 47 ∧ code .leftCurl = 123 ∧ ¬Typed .add := by decide

variable {con : State} {e : Event} {keycode : KeyCode}

/-- An event is handled inside the buffers, with at most forty characters of input before and after it. -/
structure InRange (con : State) (e : Event) : Prop where
  inputCnt_le : con.inputCnt ≤ 40
  inside : AllInside (accesses con e)
  inputCnt_after : (step con e).inputCnt ≤ 40

/-- ENTER finds no character of input. -/
def EmptyEnter (con : State) (e : Event) : Prop := e = .shellGetKeyCode .enter ∧ con.inputCnt = 0

/-! ## One event -/

theorem printf_inputCnt (con : State) (text : List UInt8) : (printf con text).inputCnt = con.inputCnt := by
  induction text generalizing con with
  | nil => rfl
  | cons c text ih => exact (ih (con.writeConsoleOne c)).trans (State.writeConsoleOne_inputCnt con c)

theorem printfAccesses_inside (con : State) (text : List UInt8) : AllInside (printfAccesses con text) := by
  induction text generalizing con with
  | nil => exact allInside_nil
  | cons c text ih =>
      rw [printfAccesses, allInside_append]
      exact ⟨State.writeConsoleOneAccesses_inside con c, ih _⟩

theorem shellGetKeyCode_fits (h : State.InputFits con) (keycode : KeyCode) :
    State.InputFits (shellGetKeyCode con keycode) := by
  have hsame : ∀ con' : State, con'.inputCnt = con.inputCnt → State.InputFits con' := fun con' heq =>
    heq.trans_le h
  unfold shellGetKeyCode
  split
  · exact h
  · exact hsame _ (State.windowMoveUp_inputCnt con)
  · exact hsame _ (State.windowMoveDown_inputCnt con)
  · exact State.flushInputBuffer_fits con
  · exact State.modifyInputCnt_fits h
  · exact hsame _ (printf_inputCnt con _)
  · exact hsame _ (printf_inputCnt con _)
  · exact hsame _ (printf_inputCnt con _)
  · split
    · exact State.getInputChar_fits h _
    · exact h

theorem step_fits (h : State.InputFits con) (e : Event) : State.InputFits (step con e) := by
  cases e with
  | shellGetKeyCode keycode => exact shellGetKeyCode_fits h keycode
  | writeConsoleOne c => exact (State.writeConsoleOne_inputCnt con c).trans_le h

theorem shellGetKeyCodeAccesses_inside (h : State.InputFits con) (hne : keycode ≠ .enter) :
    AllInside (shellGetKeyCodeAccesses con keycode) := by
  unfold shellGetKeyCodeAccesses
  split
  · exact allInside_nil
  · exact State.windowMoveUpAccesses_inside con
  · exact State.windowMoveDownAccesses_inside con
  · exact absurd rfl hne
  · exact State.modifyInputCntAccesses_inside h
  · exact printfAccesses_inside con _
  · exact printfAccesses_inside con _
  · exact printfAccesses_inside con _
  · split
    · exact State.getInputCharAccesses_inside h _
    · exact allInside_nil

/-- With a line that fits, only ENTER on an empty line leaves the buffers. -/
theorem inRange_iff (h : State.InputFits con) (e : Event) : InRange con e ↔ ¬EmptyEnter con e := by
  have hinside : AllInside (accesses con e) ↔ ¬EmptyEnter con e := by
    cases e with
    | writeConsoleOne c =>
        exact iff_of_true (State.writeConsoleOneAccesses_inside con c) fun hempty => by cases hempty.1
    | shellGetKeyCode keycode =>
        by_cases henter : keycode = .enter
        · subst henter
          refine (State.flushInputBufferAccesses_inside_iff h).trans (not_congr ?_)
          exact ⟨fun hzero => ⟨rfl, hzero⟩, fun hempty => hempty.2⟩
        · refine iff_of_true (shellGetKeyCodeAccesses_inside h henter) fun hempty => henter ?_
          exact Event.shellGetKeyCode.inj hempty.1
  rw [← hinside]
  exact ⟨fun hin => hin.inside, fun hall => ⟨h, hall, step_fits h e⟩⟩

/-! ## Sequences of events -/

/-- Along every sequence of keys and output the console stays inside its buffers exactly when ENTER never
finds an empty line. -/
theorem events_inRange_iff (inputBuf : Nat → UInt8) (events : List Event) :
    Guarded (fun con e => some (step con e)) InRange (initConsole inputBuf) events ↔
      Guarded (fun con e => some (step con e)) (fun con e => ¬EmptyEnter con e) (initConsole inputBuf) events := by
  have hinit : State.InputFits (initConsole inputBuf) := Nat.zero_le _
  have hall : Guarded (fun con e => some (step con e)) (fun _ _ => True) (initConsole inputBuf) events :=
    guarded_of_forall fun _ _ _ => trivial
  refine guarded_iff (fun con e h _ => inRange_iff h e) ?_ hinit hall
  intro con e con' h _ _ hstep
  obtain rfl := Option.some.inj hstep
  exact step_fits h e

/-- ENTER as the first key reads the byte before the input buffer. -/
theorem enter_not_inRange :
    ¬∀ inputBuf events, Guarded (fun con e => some (step con e)) InRange (initConsole inputBuf) events := by
  intro h
  have hin := (h (fun _ => 0) [.shellGetKeyCode .enter]).1
  exact (inRange_iff (Nat.zero_le _) _).mp hin ⟨rfl, rfl⟩

end TsOs.Shell
