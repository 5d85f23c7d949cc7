import TsOs.Console.Window

/-!
# The screen

`Displayed` says that the screen shows the input in the input rows and the window
below them, down to the status row. The window is drawn cell by cell; the drawing
loop stops at the first cell that does not fit above the status row. `Coherent`
joins the three views of the console.
-/

namespace TsOs.Console

/-- The input rows show the input and are blank elsewhere. -/
def InputShown (con : State) : Prop :=
  ∀ x < consoleMaxCol, ∀ y ≤ inpwsToRn con.inputCnt, con.screen x y =
    if y * consoleMaxCol + x < con.inputCnt then con.inputBuf (y * consoleMaxCol + x) else 0

/-- The screen shows the input and below it the window cells that fit above the status row. -/
structure Displayed (con : State) : Prop where
  input : InputShown con
  window : ∀ x < consoleMaxCol, ∀ y < consoleMaxRow - statusBarLines,
    inpwsToRn con.inputCnt < y → con.screen x y =
      shown (con.window ((y - inpwsToRn con.inputCnt - 1) * consoleMaxCol + x))

/-- The console after the text `log` has been written to it. -/
structure Coherent (con : State) (log : List UInt8) : Prop where
  recorded : Recorded con log
  windowed : Windowed con log
  displayed : Displayed con
  input_le : con.inputCnt ≤ inputAreaMaxRow * consoleMaxCol

variable {con : State} {log : List UInt8} {c : UInt8}

/-- Writing cell number `k` of rows of the console's width, seen in the screen's rows. -/
theorem vgaWriteChar_cell (screen : Nat → Nat → UInt8) (c : UInt8) (k : Nat) {x y : Nat}
    (hx : x < consoleMaxCol) (hy : y < vgaMaxRow) :
    vgaWriteChar screen c (k % consoleMaxCol) (k / consoleMaxCol) x y =
      if y * consoleMaxCol + x = k then c else screen x y := by
  have hcol : k % consoleMaxCol < vgaMaxCol := by
    unfold consoleMaxCol vgaMaxCol
    omega
  have hiff : (x = k % consoleMaxCol ∧ y = k / consoleMaxCol) ↔ y * consoleMaxCol + x = k := by
    unfold consoleMaxCol at *
    omega
  rw [vgaWriteChar]
  split
  next hin => simp only [hiff]
  next hout =>
    rw [if_neg]
    intro hk
    exact hout ⟨hcol, (hiff.mpr hk).2 ▸ hy⟩

/-! ## Drawing the window -/

/-- A window cell is written in its place or lies below the rows of the window. -/
theorem outputWindowOneToVga_eq (con : State) (k : Nat) (c : UInt8) :
    con.outputWindowOneToVga k c =
      if consoleMaxRow - statusBarLines ≤ k / consoleMaxCol + inpwsToRn con.inputCnt + 1 then none
      else some { con with
        screen := fun x y =>
          if x = k % consoleMaxCol ∧ y = k / consoleMaxCol + inpwsToRn con.inputCnt + 1 then shown c
          else con.screen x y } := by
  rw [State.outputWindowOneToVga]
  split
  next hout => rfl
  next hin =>
    have hcol : k % consoleMaxCol < vgaMaxCol := by
      unfold consoleMaxCol vgaMaxCol
      omega
    have hline : k / consoleMaxCol + inpwsToRn con.inputCnt + 1 < vgaMaxRow := by
      unfold consoleMaxRow statusBarLines at hin
      unfold vgaMaxRow
      omega
    rw [vgaWriteChar, if_pos ⟨hcol, hline⟩]
    rfl

/-- The window cell in column `x` of the screen's row `y`. -/
def cellAt (con : State) (x y : Nat) : Nat := (y - inpwsToRn con.inputCnt - 1) * consoleMaxCol + x

/-- The screens agree in the input rows, and the window's rows show `f`. -/
structure Redrawn (con : State) (f : Nat → Nat → UInt8) (screen : Nat → Nat → UInt8) : Prop where
  input : ∀ x y, y ≤ inpwsToRn con.inputCnt → screen x y = con.screen x y
  window : ∀ x < consoleMaxCol, ∀ y < consoleMaxRow - statusBarLines,
    inpwsToRn con.inputCnt < y → screen x y = f x y

theorem cellAt_eq_iff {x y k : Nat} (hx : x < consoleMaxCol) (hy : inpwsToRn con.inputCnt < y) :
    (x = k % consoleMaxCol ∧ y = k / consoleMaxCol + inpwsToRn con.inputCnt + 1) ↔
      cellAt con x y = k := by
  unfold cellAt consoleMaxCol at *
  omega

theorem above_window {x y k : Nat} (hy : y ≤ inpwsToRn con.inputCnt) :
    ¬(x = k % consoleMaxCol ∧ y = k / consoleMaxCol + inpwsToRn con.inputCnt + 1) := by
  unfold consoleMaxCol
  omega

/-- Writing one window cell. -/
theorem outputWindowOneToVga_redrawn (con : State) (k : Nat) (c : UInt8) :
    ∃ screen, (con.outputWindowOneToVga k c).getD con = { con with screen := screen } ∧
      Redrawn con (fun x y => if cellAt con x y = k then shown c else con.screen x y) screen := by
  rw [outputWindowOneToVga_eq]
  split
  next hout =>
    refine ⟨con.screen, rfl, fun _ _ _ => rfl, fun x hx y hy hrow => ?_⟩
    rw [if_neg]
    intro hcell
    have hpos := (cellAt_eq_iff hx hrow).mpr hcell
    omega
  next hin =>
    refine ⟨_, rfl, fun x y hrow => ?_, fun x hx y hy hrow => ?_⟩
    · rw [if_neg (above_window hrow)]
    · simp only [cellAt_eq_iff hx hrow]

/-- The drawing loop writes the cells of its rounds that lie above the status row. -/
theorem drawWindowLoop_redrawn (con : State) (n k : Nat) :
    ∃ screen, con.drawWindowLoop n k = { con with screen := screen } ∧
      Redrawn con (fun x y => if k ≤ cellAt con x y ∧ cellAt con x y < k + n then
        shown (con.window (cellAt con x y)) else con.screen x y) screen := by
  induction n generalizing con k with
  | zero =>
      refine ⟨con.screen, rfl, fun _ _ _ => rfl, fun x hx y hy hrow => ?_⟩
      rw [if_neg (by omega)]
  | succ n ih =>
      rw [State.drawWindowLoop, outputWindowOneToVga_eq]
      split
      next hnone =>
        -- this row and all later ones lie below the window's rows
        split at hnone
        next hout =>
          refine ⟨con.screen, rfl, fun _ _ _ => rfl, fun x hx y hy hrow => ?_⟩
          rw [if_neg]
          unfold cellAt consoleMaxRow statusBarLines consoleMaxCol at *
          omega
        next hin => exact absurd hnone (by simp)
      next con' hsome =>
        split at hsome
        next hout => exact absurd hsome (by simp)
        next hin =>
          obtain rfl := Option.some.inj hsome
          obtain ⟨screen, hrun, hdrawn⟩ := ih { con with
            screen := fun x y =>
              if x = k % consoleMaxCol ∧ y = k / consoleMaxCol + inpwsToRn con.inputCnt + 1 then
                shown (con.window k)
              else con.screen x y } (k + 1)
          refine ⟨screen, hrun, fun x y hrow => ?_, fun x hx y hy hrow => ?_⟩
          · rw [hdrawn.input x y hrow]
            dsimp only
            rw [if_neg (above_window hrow)]
          · rw [hdrawn.window x hx y hy hrow]
            change (if k + 1 ≤ cellAt con x y ∧ cellAt con x y < k + 1 + n then
                shown (con.window (cellAt con x y))
              else if x = k % consoleMaxCol ∧
                  y = k / consoleMaxCol + inpwsToRn con.inputCnt + 1 then shown (con.window k)
              else con.screen x y) = _
            simp only [cellAt_eq_iff hx hrow]
            by_cases hk : cellAt con x y = k
            · rw [if_neg (by omega), if_pos hk, if_pos (by omega), hk]
            · rw [if_neg hk]
              congr 1
              apply propext
              omega

/-- `draw_window` writes the whole window and leaves the input rows alone. -/
theorem drawWindow_redrawn (con : State) :
    ∃ screen, con.drawWindow = { con with screen := screen } ∧
      Redrawn con (fun x y => shown (con.window (cellAt con x y))) screen := by
  obtain ⟨screen, hrun, hdrawn⟩ := drawWindowLoop_redrawn con maxWindowSize 0
  refine ⟨screen, hrun, hdrawn.input, fun x hx y hy hrow => ?_⟩
  rw [hdrawn.window x hx y hy hrow, if_pos]
  have hmax : maxWindowSize = 80 := by decide
  rw [hmax]
  unfold cellAt consoleMaxRow statusBarLines consoleMaxCol at *
  omega

/-- After `draw_window` only the input rows are left to check. -/
theorem InputShown.drawWindow (h : InputShown con) : Displayed con.drawWindow := by
  obtain ⟨screen, hrun, hdrawn⟩ := drawWindow_redrawn con
  rw [hrun]
  constructor
  · intro x hx y hy
    exact (hdrawn.input x y hy).trans (h x hx y hy)
  · intro x hx y hy hrow
    exact hdrawn.window x hx y hy hrow

theorem Recorded.screen (h : Recorded con log) (screen : Nat → Nat → UInt8) :
    Recorded { con with screen := screen } log :=
  ⟨h.count, h.ring⟩

theorem Windowed.screen (h : Windowed con log) (screen : Nat → Nat → UInt8) :
    Windowed { con with screen := screen } log :=
  ⟨h.first_le, h.recent, h.size_eq, h.cells_eq, h.follow⟩

theorem drawWindow_input (con : State) :
    con.drawWindow.inputCnt = con.inputCnt ∧ con.drawWindow.inputBuf = con.inputBuf := by
  obtain ⟨screen, hrun, -⟩ := drawWindow_redrawn con
  rw [hrun]
  exact ⟨rfl, rfl⟩

/-- Recomputing and drawing the window makes the console coherent. -/
theorem Recorded.redraw (h : Recorded con log) (hfirst : con.windowFirstHistory ≤ log.length)
    (hrecent : log.length ≤ con.windowFirstHistory + consoleHistorySize) (hinput : InputShown con)
    (hle : con.inputCnt ≤ inputAreaMaxRow * consoleMaxCol) :
    Coherent con.updateWindowBuffer.drawWindow log := by
  have hwin := h.updateWindowBuffer hfirst hrecent
  have hrec : Recorded con.updateWindowBuffer log := ⟨h.count, h.ring⟩
  have hshown : InputShown con.updateWindowBuffer := hinput
  have hdisp := hshown.drawWindow
  obtain ⟨screen, hrun, -⟩ := drawWindow_redrawn con.updateWindowBuffer
  rw [hrun] at hdisp ⊢
  exact ⟨hrec.screen screen, hwin.screen screen, hdisp, hle⟩

end TsOs.Console
