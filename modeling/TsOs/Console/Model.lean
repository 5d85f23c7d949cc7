import TsOs.Machine

/-!
# The console

The console keeps the last hundred characters in a ring, shows a window of them
below an input area, and writes both to the text screen. Counters are the
source's thirty-two-bit ones; where the source lets one wrap, the model says so.
The constants are those of the kernel build.

## Implementation notes

Loops of the source become recursions on the number of rounds still possible:
the columns left in a row, or the cells left in the window. Buffers are
functions from positions to bytes, so a read outside a buffer gives some byte.
-/

namespace TsOs.Console

def consoleMaxCol : Nat := 20

def consoleMaxRow : Nat := 6

def statusBarLines : Nat := 1

def consoleHistorySize : Nat := 100

def inputAreaMaxRow : Nat := 2

def maxWindowSize : Nat := (consoleMaxRow - 1 - statusBarLines) * consoleMaxCol

def vgaMaxCol : Nat := 80

def vgaMaxRow : Nat := 25

/-- The character `'\n'`. -/
def newline : UInt8 := 10

/-- The globals of `console.c` and the characters on the screen, by column and row. -/
structure State where
  history : Nat → UInt8
  historyCnt : Nat
  windowFirstHistory : Nat
  windowLastHistory : Nat
  windowSize : Nat
  window : Nat → UInt8
  inputBuf : Nat → UInt8
  inputCnt : Nat
  screen : Nat → Nat → UInt8

/-- Assign one byte of a buffer. -/
def setByte (buf : Nat → UInt8) (i : Nat) (v : UInt8) : Nat → UInt8 :=
  fun j => if j = i then v else buf j

/-- Set `n` bytes of a buffer from `i` on to zero. -/
def zeroBytes (buf : Nat → UInt8) : Nat → Nat → Nat → UInt8
  | 0, _ => buf
  | n + 1, i => zeroBytes (setByte buf i 0) n (i + 1)

def vgaWriteChar (screen : Nat → Nat → UInt8) (c : UInt8) (x y : Nat) : Nat → Nat → UInt8 :=
  if x < vgaMaxCol ∧ y < vgaMaxRow then fun x' y' => if x' = x ∧ y' = y then c else screen x' y'
  else screen

/-- The console after `init_console` and the clearing of the screen. -/
def initConsole (inputBuf : Nat → UInt8) : State where
  history := fun _ => 0
  historyCnt := 0
  windowFirstHistory := 0
  windowLastHistory := 0
  windowSize := 0
  window := fun _ => 0
  inputBuf := inputBuf
  inputCnt := 0
  screen := fun _ _ => 0

namespace State

variable (con : State)

/-- The loop of `prev_line_start`. -/
def prevLineLoop (historyMin nextStart : Nat) : Nat → Nat → Nat
  | 0, offset => offset
  | n + 1, offset =>
      if historyMin < offset ∧
          ¬(con.history ((offset - 1) % consoleHistorySize) = newline ∧ offset ≠ nextStart) then
        prevLineLoop historyMin nextStart n (offset - 1)
      else offset

def prevLineStart (nextStart : Nat) : Nat :=
  let historyMin :=
    if consoleHistorySize < con.historyCnt then con.historyCnt - consoleHistorySize else 0
  prevLineLoop con historyMin nextStart consoleMaxCol nextStart

/-- The loop of `next_line_start`. -/
def nextLineLoop : Nat → Nat → Nat
  | 0, offset => offset
  | n + 1, offset =>
      if offset < con.historyCnt then
        if con.history (offset % consoleHistorySize) = newline then offset + 1
        else nextLineLoop n (offset + 1)
      else offset

def nextLineStart (lineStart : Nat) : Nat := nextLineLoop con consoleMaxCol lineStart

end State

def inpwsToRn (inpWs : Nat) : Nat :=
  if inpWs ≤ consoleMaxCol then 0 else (inpWs - 1) / consoleMaxCol

/-- `calc_window_delta`. -/
def calcWindowDelta (ws : Nat) (c : UInt8) : Nat :=
  if c = newline then
    let newWs := ws + consoleMaxCol - 1 + 1
    newWs - newWs % consoleMaxCol - ws
  else 1

namespace State

/-- `output_window_one_to_vga`, with `none` for the result `-1`. -/
def outputWindowOneToVga (con : State) (widx : Nat) (c : UInt8) : Option State :=
  let row := widx / consoleMaxCol + inpwsToRn con.inputCnt + 1
  let col := widx % consoleMaxCol
  if consoleMaxRow - statusBarLines ≤ row then none
  else some { con with screen := vgaWriteChar con.screen (if c = newline then 0 else c) col row }

/-- The loop of `draw_window`. -/
def drawWindowLoop (con : State) : Nat → Nat → State
  | 0, _ => con
  | n + 1, widx =>
      match con.outputWindowOneToVga widx (con.window widx) with
      | none => con
      | some con => drawWindowLoop con n (widx + 1)

def drawWindow (con : State) : State := drawWindowLoop con maxWindowSize 0

end State

/-- The inner loop of `update_window_buffer`: blanks up to the end of the row. -/
def padRow (window : Nat → UInt8) : Nat → Nat → (Nat → UInt8) × Nat
  | 0, size => (window, size)
  | n + 1, size =>
      if size % consoleMaxCol ≠ 0 ∧ size < maxWindowSize then
        padRow (setByte window size 0) n (size + 1)
      else (window, size)

namespace State

/-- The outer loop of `update_window_buffer`: window, size and history index after it. -/
def fillWindow (con : State) : Nat → (Nat → UInt8) → Nat → Nat → (Nat → UInt8) × Nat × Nat
  | 0, window, size, index => (window, size, index)
  | n + 1, window, size, index =>
      if size < maxWindowSize ∧ index < con.historyCnt then
        let window := setByte window size (con.history (index % consoleHistorySize))
        if window size = newline then
          let (window, size) := padRow window consoleMaxCol (size + 1)
          fillWindow con n window size (index + 1)
        else fillWindow con n window (size + 1) (index + 1)
      else (window, size, index)

def updateWindowBuffer (con : State) : State :=
  let (window, size, index) :=
    fillWindow con maxWindowSize con.window 0 con.windowFirstHistory
  { con with
    windowSize := size
    windowLastHistory := index
    window := zeroBytes window (maxWindowSize - size) size }

/-- `move_down_window_start_position`, with `none` for the result `-1`. -/
def moveDownWindowStartPosition (con : State) : Option State :=
  let nextStart := con.nextLineStart con.windowFirstHistory
  if nextStart ≤ con.windowFirstHistory then none
  else some { con with windowFirstHistory := nextStart }

/-- `move_up_window_start_position`, with `none` for the result `-1`. -/
def moveUpWindowStartPosition (con : State) : Option State :=
  let newStart := con.prevLineStart con.windowFirstHistory
  if con.windowFirstHistory ≤ newStart then none
  else some { con with windowFirstHistory := newStart }

def windowMoveUp (con : State) : State :=
  match con.moveUpWindowStartPosition with
  | none => con
  | some con => con.updateWindowBuffer.drawWindow

def windowMoveDown (con : State) : State :=
  match con.moveDownWindowStartPosition with
  | none => con
  | some con => con.updateWindowBuffer.drawWindow

/-- `write_console_one`'s update of the counters and the ring. -/
def recordChar (con : State) (c : UInt8) : State :=
  { con with
    windowSize := con.windowSize + calcWindowDelta con.windowSize c
    history := setByte con.history (con.historyCnt % consoleHistorySize) c
    historyCnt := u32 (con.historyCnt + 1)
    windowLastHistory := u32 (con.historyCnt + 1) }

/-- The part of `write_console_one` before the screen is touched on its own. -/
def appendChar (con : State) (c : UInt8) : State :=
  let new := con.recordChar c
  if maxWindowSize < new.windowSize then
    (new.moveDownWindowStartPosition.getD new).updateWindowBuffer.drawWindow
  else
    let window := zeroBytes new.window (new.windowSize - 1 - con.windowSize) con.windowSize
    { new with window := setByte window (new.windowSize - 1) c }

def writeConsoleOne (con : State) (c : UInt8) : State :=
  if con.historyCnt = con.windowLastHistory then
    let con := con.appendChar c
    (con.outputWindowOneToVga (con.windowSize - 1) c).getD con
  else
    let con := appendChar { con with windowSize := 0, windowFirstHistory := con.historyCnt } c
    con.updateWindowBuffer.drawWindow

def consoleClear (con : State) : State :=
  let con := { con with
    windowFirstHistory := con.historyCnt
    windowLastHistory := con.historyCnt }
  con.updateWindowBuffer.drawWindow

end State

/-- `valid_input_cnt` without its return codes. -/
def validInputCnt (newInputCnt : Nat) : Bool := decide (inpwsToRn newInputCnt < inputAreaMaxRow)

/-- `check_resize_layout`. -/
def checkResizeLayout (oldInputCnt newInputCnt : Nat) : Bool :=
  inpwsToRn oldInputCnt != inpwsToRn newInputCnt

namespace State

/-- Write `n` input cells from `i` on, given by `f`. -/
def writeInputCells (con : State) (f : Nat → UInt8) : Nat → Nat → State
  | 0, _ => con
  | n + 1, i =>
      writeInputCells { con with
        screen := vgaWriteChar con.screen (f i) (i % consoleMaxCol) (i / consoleMaxCol) } f n (i + 1)

/-- `draw_input_if_need` for a grown input: clear the row, write the last character. With
an empty input the last position wraps and is off the screen. -/
def drawInputLast (con : State) : State :=
  let cleared := con.writeInputCells (fun _ => 0) consoleMaxCol
    (con.inputCnt - con.inputCnt % consoleMaxCol)
  let last := sub32 con.inputCnt 1
  { cleared with
    screen := vgaWriteChar cleared.screen (con.inputBuf last) (last % consoleMaxCol)
      (last / consoleMaxCol) }

def drawInputIfNeed (con : State) (oldInputCnt : Nat) : State :=
  if oldInputCnt ≤ con.inputCnt then con.drawInputLast
  else con.writeInputCells (fun i => if i < con.inputCnt then con.inputBuf i else 0) oldInputCnt 0

def consoleClearInput (con : State) : State :=
  let tmp := con.inputCnt
  (drawInputIfNeed { con with inputCnt := 0 } tmp).drawWindow

def flushInputBuffer (con : State) : State :=
  let con := (List.range con.inputCnt).foldl (fun con i => con.writeConsoleOne (con.inputBuf i)) con
  (con.writeConsoleOne newline).consoleClearInput

def getInputChar (con : State) (c : UInt8) : State :=
  let oldCnt := con.inputCnt
  let newCnt := u32 (con.inputCnt + 1)
  if !validInputCnt newCnt then con
  else
    let con := { con with inputBuf := setByte con.inputBuf con.inputCnt c, inputCnt := newCnt }
    if checkResizeLayout oldCnt newCnt then (con.drawInputIfNeed oldCnt).drawWindow
    else
      { con with
        screen := vgaWriteChar con.screen c (oldCnt % consoleMaxCol) (oldCnt / consoleMaxCol) }

/-- `modify_input_cnt(-1)`. -/
def modifyInputCnt (con : State) : State :=
  let oldCnt := con.inputCnt
  let newCnt := sub32 con.inputCnt 1
  if !validInputCnt newCnt then con
  else
    let con := drawInputIfNeed { con with inputCnt := newCnt } oldCnt
    if checkResizeLayout oldCnt newCnt then con.drawWindow else con

end State

/-- The calls on the console. -/
inductive Call
  | writeConsoleOne (c : UInt8)
  | consoleClear
  | windowMoveUp
  | windowMoveDown
  | getInputChar (c : UInt8)
  | modifyInputCnt
  | consoleClearInput
  | flushInputBuffer
  deriving DecidableEq

def State.step (con : State) : Call → State
  | .writeConsoleOne c => con.writeConsoleOne c
  | .consoleClear => con.consoleClear
  | .windowMoveUp => con.windowMoveUp
  | .windowMoveDown => con.windowMoveDown
  | .getInputChar c => con.getInputChar c
  | .modifyInputCnt => con.modifyInputCnt
  | .consoleClearInput => con.consoleClearInput
  | .flushInputBuffer => con.flushInputBuffer

end TsOs.Console
