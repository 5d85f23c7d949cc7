import TsOs.Console.Model
import TsOs.Library.Transition

/-!
# Two builds of the console

`console.c` is compiled twice: for the kernel, with a screen of its own size and no `EARLY_INIT`, and for the
setup code, which uses the whole text screen. The output half of the file is the same; it depends on
three sizes. Here it stands with the sizes as parameters. With the kernel's sizes it is the model of the kernel's
console.

## Implementation notes

`Written` adds to the console the position that was written last at each place of the ring, so that one can
say of a read whether it finds the character that it is meant for.
-/

namespace TsOs.Console

/-- The sizes that `init_console` and `console.h` fix. -/
structure Build where
  maxCol : Nat
  maxRow : Nat
  historySize : Nat
  col_pos : 0 < maxCol
  row_lt : 1 + statusBarLines < maxRow
  history_pos : 0 < historySize

def kernelBuild : Build := ⟨consoleMaxCol, consoleMaxRow, consoleHistorySize, by decide, by decide, by decide⟩

/-- With `EARLY_INIT` the columns and rows are those of the screen. -/
def earlyBuild : Build := ⟨vgaMaxCol, vgaMaxRow, 500, by decide, by decide, by decide⟩

namespace Build

variable (b : Build)

def maxWindowSize : Nat := (b.maxRow - 1 - statusBarLines) * b.maxCol

/-- The loop of `next_line_start`. -/
def nextLineLoop (con : State) : Nat → Nat → Nat
  | 0, offset => offset
  | n + 1, offset =>
      if offset < con.historyCnt then
        if con.history (offset % b.historySize) = newline then offset + 1
        else nextLineLoop con n (offset + 1)
      else offset

def nextLineStart (con : State) (lineStart : Nat) : Nat := b.nextLineLoop con b.maxCol lineStart

def inpwsToRn (inpWs : Nat) : Nat := if inpWs ≤ b.maxCol then 0 else (inpWs - 1) / b.maxCol

/-- `calc_window_delta`. -/
def calcWindowDelta (ws : Nat) (c : UInt8) : Nat :=
  if c = newline then
    let newWs := ws + b.maxCol - 1 + 1
    newWs - newWs % b.maxCol - ws
  else 1

/-- `output_window_one_to_vga`, with `none` for the result `-1`. -/
def outputWindowOneToVga (con : State) (widx : Nat) (c : UInt8) : Option State :=
  let row := widx / b.maxCol + b.inpwsToRn con.inputCnt + 1
  let col := widx % b.maxCol
  if b.maxRow - statusBarLines ≤ row then none
  else some { con with screen := vgaWriteChar con.screen (if c = newline then 0 else c) col row }

/-- The loop of `draw_window`. -/
def drawWindowLoop (con : State) : Nat → Nat → State
  | 0, _ => con
  | n + 1, widx =>
      match b.outputWindowOneToVga con widx (con.window widx) with
      | none => con
      | some con => drawWindowLoop con n (widx + 1)

def drawWindow (con : State) : State := b.drawWindowLoop con b.maxWindowSize 0

/-- The inner loop of `update_window_buffer`: blanks up to the end of the row. -/
def padRow (window : Nat → UInt8) : Nat → Nat → (Nat → UInt8) × Nat
  | 0, size => (window, size)
  | n + 1, size =>
      if size % b.maxCol ≠ 0 ∧ size < b.maxWindowSize then padRow (setByte window size 0) n (size + 1)
      else (window, size)

/-- The outer loop of `update_window_buffer`: window, size and history index after it. -/
def fillWindow (con : State) : Nat → (Nat → UInt8) → Nat → Nat → (Nat → UInt8) × Nat × Nat
  | 0, window, size, index => (window, size, index)
  | n + 1, window, size, index =>
      if size < b.maxWindowSize ∧ index < con.historyCnt then
        let window := setByte window size (con.history (index % b.historySize))
        if window size = newline then
          let (window, size) := b.padRow window b.maxCol (size + 1)
          fillWindow con n window size (index + 1)
        else fillWindow con n window (size + 1) (index + 1)
      else (window, size, index)

def updateWindowBuffer (con : State) : State :=
  let (window, size, index) := b.fillWindow con b.maxWindowSize con.window 0 con.windowFirstHistory
  { con with
    windowSize := size
    windowLastHistory := index
    window := zeroBytes window (b.maxWindowSize - size) size }

/-- `move_down_window_start_position`, with `none` for the result `-1`. -/
def moveDownWindowStartPosition (con : State) : Option State :=
  let nextStart := b.nextLineStart con con.windowFirstHistory
  if nextStart ≤ con.windowFirstHistory then none
  else some { con with windowFirstHistory := nextStart }

/-- `write_console_one`'s update of the counters and the ring. -/
def recordChar (con : State) (c : UInt8) : State :=
  { con with
    windowSize := con.windowSize + b.calcWindowDelta con.windowSize c
    history := setByte con.history (con.historyCnt % b.historySize) c
    historyCnt := u32 (con.historyCnt + 1)
    windowLastHistory := u32 (con.historyCnt + 1) }

/-- The part of `write_console_one` before the screen is touched on its own. -/
def appendChar (con : State) (c : UInt8) : State :=
  let new := b.recordChar con c
  if b.maxWindowSize < new.windowSize then
    b.drawWindow (b.updateWindowBuffer ((b.moveDownWindowStartPosition new).getD new))
  else
    let window := zeroBytes new.window (new.windowSize - 1 - con.windowSize) con.windowSize
    { new with window := setByte window (new.windowSize - 1) c }

/-- The window begins after the text written so far. -/
def startAtEnd (con : State) : State := { con with windowSize := 0, windowFirstHistory := con.historyCnt }

def writeConsoleOne (con : State) (c : UInt8) : State :=
  if con.historyCnt = con.windowLastHistory then
    let con := b.appendChar con c
    (b.outputWindowOneToVga con (con.windowSize - 1) c).getD con
  else b.drawWindow (b.updateWindowBuffer (b.appendChar (startAtEnd con) c))

def consoleClear (con : State) : State :=
  b.drawWindow (b.updateWindowBuffer { con with
    windowFirstHistory := con.historyCnt
    windowLastHistory := con.historyCnt })

end Build

/-! ## The kernel's build -/

theorem kernelBuild_nextLineLoop (con : State) (n offset : Nat) :
    kernelBuild.nextLineLoop con n offset = con.nextLineLoop n offset := by
  induction n generalizing offset with
  | zero => rfl
  | succ n ih =>
      rw [Build.nextLineLoop, State.nextLineLoop, ih]
      rfl

theorem kernelBuild_drawWindowLoop (con : State) (n widx : Nat) :
    kernelBuild.drawWindowLoop con n widx = con.drawWindowLoop n widx := by
  induction n generalizing con widx with
  | zero => rfl
  | succ n ih =>
      have hout : kernelBuild.outputWindowOneToVga con widx (con.window widx) =
          con.outputWindowOneToVga widx (con.window widx) := rfl
      rw [Build.drawWindowLoop, State.drawWindowLoop, hout]
      cases con.outputWindowOneToVga widx (con.window widx) with
      | none => rfl
      | some con' => exact ih con' (widx + 1)

theorem kernelBuild_padRow (window : Nat → UInt8) (n size : Nat) :
    kernelBuild.padRow window n size = Console.padRow window n size := by
  induction n generalizing window size with
  | zero => rfl
  | succ n ih =>
      rw [Build.padRow, Console.padRow, ih]
      rfl

theorem kernelBuild_fillWindow (con : State) (n : Nat) (window : Nat → UInt8) (size index : Nat) :
    kernelBuild.fillWindow con n window size index = con.fillWindow n window size index := by
  induction n generalizing window size index with
  | zero => rfl
  | succ n ih =>
      rw [Build.fillWindow, State.fillWindow]
      simp only [ih, kernelBuild_padRow]
      rfl

theorem kernelBuild_redraw (con : State) :
    kernelBuild.drawWindow (kernelBuild.updateWindowBuffer con) = con.updateWindowBuffer.drawWindow := by
  have hupdate : kernelBuild.updateWindowBuffer con = con.updateWindowBuffer := by
    rw [Build.updateWindowBuffer, State.updateWindowBuffer, kernelBuild_fillWindow]
    rfl
  rw [hupdate]
  exact kernelBuild_drawWindowLoop _ _ _

theorem kernelBuild_moveDownWindowStartPosition (con : State) :
    kernelBuild.moveDownWindowStartPosition con = con.moveDownWindowStartPosition := by
  rw [Build.moveDownWindowStartPosition, Build.nextLineStart, kernelBuild_nextLineLoop]
  rfl

theorem kernelBuild_appendChar (con : State) (c : UInt8) : kernelBuild.appendChar con c = con.appendChar c := by
  rw [Build.appendChar, State.appendChar, kernelBuild_redraw, kernelBuild_moveDownWindowStartPosition]
  rfl

/-- With the kernel's sizes the functions are those of the kernel's console. -/
theorem kernelBuild_writeConsoleOne (con : State) (c : UInt8) :
    kernelBuild.writeConsoleOne con c = con.writeConsoleOne c := by
  rw [Build.writeConsoleOne, State.writeConsoleOne, kernelBuild_redraw, kernelBuild_appendChar,
    kernelBuild_appendChar]
  rfl

theorem kernelBuild_consoleClear (con : State) : kernelBuild.consoleClear con = con.consoleClear :=
  kernelBuild_redraw _

end TsOs.Console
