/-
# Which terminals show the whole screen

The size check asks for 25 lines of 80 columns, the size of the screen.  The output window is
then made eight lines shorter than the terminal, for the info panel, and it scrolls.  So it
takes 33 lines for a window of 25, and then one column more than 80, or the last cell drawn
scrolls the first row away.
-/
import Philix.Console.Screen

namespace Philix.Console

open Lts Loop Curses

/-! ## 1. Setting the screen up -/

def minTtyCols : Nat := 80
def minTtyRows : Nat := 25
def infoWinLines : Nat := 8

/-- `check_terminal_size`, on what `ioctl` reported. -/
def checkTerminalSize (ncols nrows : UInt16) : Int :=
  if ncols.toNat < minTtyCols ∨ nrows.toNat < minTtyRows then -1 else 0

/-- What a cleared cell shows. -/
def blankGlyph : Glyph := ⟨32, 0⟩

/-- `console_setup_window`: `scrollok`, and settings of the keyboard. -/
def consoleSetupWindow (w : Screen) : Screen := { w with scrollok := true }

/-- The output window `setup_screen` makes, without the debug window. -/
def setupScreen (maxy maxx : Nat) : Screen :=
  consoleSetupWindow (newwin (maxy - infoWinLines) maxx blankGlyph)

/-- The rows and columns of the screen show the rendering of the framebuffer. -/
def ShowsScreen (fb : Framebuffer) (w : Screen) : Prop :=
  ∀ y x, y < phiFbHeight → x < phiFbWidth → w.Shows y x (glyph (fb (y * phiFbWidth + x)))

section

variable {s : Cons} {w : Screen} {log : List DrawCall} {fb : Framebuffer}

/-! ## 2. A window that fits -/

theorem lineCell_fb {row x : Nat} (hx : x < phiFbWidth) :
    lineCell s (.fb row) x = some (glyph (s.fb (row * phiFbWidth + x))) := dif_pos hx

/-- **At the bottom, a window that fits the screen shows it.** -/
theorem showsScreen_of_fits (hf : FitsScreen w) (hidx : s.lineIdx = 0)
    (h : drawOutputWin s = .ok log) : ShowsScreen s.fb (paint s log w) := by
  intro y x hy hx
  have hframe := paint_sameFrame s log w
  refine ⟨?_, ?_, ?_⟩
  · rw [hframe.rows]
    exact Nat.lt_of_lt_of_le hy hf.rows
  · rw [hframe.cols]
    exact Nat.lt_of_lt_of_le hx hf.cols
  · rw [paint_cell hf (drawsLines_of_draw (Int.le_of_eq hidx.symm) h), rowShown_bottom hidx h,
      if_pos hy, Option.bind_some, lineCell_fb hx, Option.getD_some]

theorem not_showsScreen_of_rows (hrows : w.rows < phiFbHeight) :
    ¬ ShowsScreen fb (paint s log w) := by
  intro h
  have hlast := (h 24 0 (by decide) (by decide)).1
  rw [(paint_sameFrame s log w).rows] at hlast
  exact absurd hlast (Nat.not_lt.mpr (Nat.le_of_lt_succ hrows))

/-! ## 3. The window of exactly the size of the screen -/

/-- What the redraw leaves there: the rows from the second on, moved up, and a cleared one. -/
theorem paint_exact_cell (hidx : s.lineIdx = 0) (hrows : w.rows = phiFbHeight)
    (hcols : w.cols = phiFbWidth) (hs : w.scrollok = true) (h : drawOutputWin s = .ok log)
    {y x : Nat} (hy : y < phiFbHeight) (hx : x < phiFbWidth) :
    (paint s log w).cell y x =
      if y + 1 < phiFbHeight then glyph (s.fb ((y + 1) * phiFbWidth + x)) else w.bkgd := by
  obtain rfl := Except.ok.inj ((drawOutputWin_bottom hidx).symm.trans h)
  -- the first 24 rows are away from the corner
  have hfits : w.Fits 24 phiFbWidth :=
    ⟨by rw [hrows]; decide, Nat.le_of_eq hcols.symm, fun _ he => by
      rw [hrows] at he
      exact absurd he.1 (by decide)⟩
  have hlines : DrawsLines 24 (rowCalls (fun j => some (.fb j)) 24 0) := by
    intro c hc
    obtain ⟨j, hj, hcall⟩ := List.mem_filterMap.mp hc
    simp only [Option.map_some, Option.some.injEq, Nat.zero_add] at hcall
    exact ⟨.fb j, j, hcall.symm, List.mem_range.mp hj⟩
  have hframe := paint_sameFrame s (rowCalls (fun j => some (.fb j)) 24 0) w
  have hlen : (List.ofFn fun i => lineGlyph (bufLine s (.fb 24) i)).length = w.cols := by
    rw [List.length_ofFn, hcols]
  have hrow : 24 + 1 = (paint s (rowCalls (fun j => some (.fb j)) 24 0) w).rows := by
    rw [hframe.rows, hrows]
    rfl
  have hlast := Window.addLine_corner (hframe.scrollok.trans hs) (hlen.trans hframe.cols.symm)
    (by rw [hlen, hcols]; decide) hrow y x (by rwa [hframe.rows, hrows])
    (by rwa [hframe.cols, hcols])
  have hsplit : rowCalls (fun j => some (LineSrc.fb j)) phiFbHeight 0 =
      rowCalls (fun j => some (.fb j)) 24 0 ++ [.line (.fb 24) 24] := rowCalls_concat _ 24 0
  rw [hsplit, paint_append, paint_line, hlast, hframe.bkgd]
  have hrow : y < 25 := hy
  by_cases hup : y + 1 < 24
  · rw [if_pos hup, if_pos (by simp only [phiFbHeight]; omega), paint_cell hfits hlines,
      rowShown_rowCalls, if_pos (by omega), Nat.sub_zero, Option.bind_some, lineCell_fb hx,
      Option.getD_some]
  · rw [if_neg hup]
    by_cases hy24 : y + 1 = 24
    · rw [if_pos hy24, if_pos (by simp only [phiFbHeight]; omega), hy24, List.getElem?_ofFn,
        dif_pos hx, Option.getD_some, lineGlyph_eq]
      rfl
    · rw [if_neg hy24, if_neg (by simp only [phiFbHeight]; omega)]

/-- Moved up by one row the screen looks the same only if all of it is blank. -/
theorem showsScreen_exact_iff (hidx : s.lineIdx = 0) (hrows : w.rows = phiFbHeight)
    (hcols : w.cols = phiFbWidth) (hs : w.scrollok = true) (h : drawOutputWin s = .ok log) :
    ShowsScreen s.fb (paint s log w) ↔
      ∀ y x, y < phiFbHeight → x < phiFbWidth → glyph (s.fb (y * phiFbWidth + x)) = w.bkgd := by
  have hcell := @paint_exact_cell s w log hidx hrows hcols hs h
  constructor
  · intro hshows
    -- from the last row, which was cleared, upwards
    have hup : ∀ n y x, y + n + 1 = phiFbHeight → x < phiFbWidth →
        glyph (s.fb (y * phiFbWidth + x)) = w.bkgd := by
      intro n
      induction n with
      | zero =>
        intro y x hy hx
        have hlt : y < phiFbHeight := by omega
        rw [← (hshows y x hlt hx).2.2, hcell hlt hx, if_neg (by omega)]
      | succ n ih =>
        intro y x hy hx
        have hlt : y < phiFbHeight := by omega
        rw [← (hshows y x hlt hx).2.2, hcell hlt hx, if_pos (by omega)]
        exact ih (y + 1) x (by omega) hx
    intro y x hy hx
    exact hup (phiFbHeight - 1 - y) y x (by omega) hx
  · intro hblank y x hy hx
    have hframe := paint_sameFrame s log w
    refine ⟨by rwa [hframe.rows, hrows], by rwa [hframe.cols, hcols], ?_⟩
    rw [hcell hy hx, hblank y x hy hx]
    split
    · rename_i hlt
      exact hblank (y + 1) x hlt hx
    · rfl

end

/-! ## 4. Every accepted terminal -/

/-- The terminals that are accepted. -/
theorem checkTerminalSize_eq_zero_iff {ncols nrows : UInt16} :
    checkTerminalSize ncols nrows = 0 ↔ phiFbWidth ≤ ncols.toNat ∧ phiFbHeight ≤ nrows.toNat := by
  have hmin : minTtyCols = phiFbWidth ∧ minTtyRows = phiFbHeight := ⟨rfl, rfl⟩
  rw [checkTerminalSize, hmin.1, hmin.2]
  split
  case isTrue h => exact iff_of_false (by decide) (by omega)
  case isFalse h => exact iff_of_true rfl (by omega)

/-- The terminals whose output window fits the screen. -/
theorem fitsScreen_setupScreen {maxy maxx : Nat} (hcols : phiFbWidth ≤ maxx)
    (h : 34 ≤ maxy ∨ maxy = 33 ∧ 81 ≤ maxx) : FitsScreen (setupScreen maxy maxx) := by
  have hwindow : (setupScreen maxy maxx).rows = maxy - 8 ∧ (setupScreen maxy maxx).cols = maxx :=
    ⟨rfl, rfl⟩
  have hscreen : phiFbHeight = 25 ∧ phiFbWidth = 80 := ⟨rfl, rfl⟩
  refine ⟨?_, ?_, fun _ he => ?_⟩
  · omega
  · omega
  · omega

/-- **Which accepted terminals show the screen.**  After `setup_screen` and a redraw at the
bottom, the window shows the rendering of the framebuffer in a terminal of at least 34 lines,
in one of 33 lines with more than 80 columns, and, if there is nothing to see, in one of
33 lines and 80 columns; in no other. -/
theorem accepted_terminal_shows_screen_iff (ncols nrows : UInt16) (s : Cons)
    (hsize : checkTerminalSize ncols nrows = 0) (hidx : s.lineIdx = 0) :
    (∃ log, drawOutputWin s = .ok log ∧
      ShowsScreen s.fb (paint s log (setupScreen nrows.toNat ncols.toNat))) ↔
    (34 ≤ nrows.toNat ∨ nrows.toNat = 33 ∧ (81 ≤ ncols.toNat ∨
      ∀ y x, y < phiFbHeight → x < phiFbWidth →
        glyph (s.fb (y * phiFbWidth + x)) = blankGlyph)) := by
  have haccepted := checkTerminalSize_eq_zero_iff.mp hsize
  obtain ⟨log, hdraw⟩ : ∃ log, drawOutputWin s = .ok log := ⟨_, drawOutputWin_bottom hidx⟩
  have hlog : (∃ log', drawOutputWin s = .ok log' ∧
      ShowsScreen s.fb (paint s log' (setupScreen nrows.toNat ncols.toNat))) ↔
      ShowsScreen s.fb (paint s log (setupScreen nrows.toNat ncols.toNat)) := by
    rw [hdraw]
    constructor
    · rintro ⟨log', he, h⟩
      rwa [Except.ok.inj he]
    · exact fun h => ⟨log, rfl, h⟩
  have hrows : (setupScreen nrows.toNat ncols.toNat).rows = nrows.toNat - 8 := rfl
  have hcols : (setupScreen nrows.toNat ncols.toNat).cols = ncols.toNat := rfl
  rw [hlog]
  rcases Nat.lt_trichotomy nrows.toNat 33 with hlt | heq | hgt
  · -- the window has fewer lines than the screen
    have hshort : (setupScreen nrows.toNat ncols.toNat).rows < phiFbHeight := by
      simp only [hrows, phiFbHeight]
      omega
    constructor
    · exact fun h => absurd h (not_showsScreen_of_rows hshort)
    · rintro (h | ⟨h, -⟩) <;> omega
  · rcases Nat.lt_or_ge 80 ncols.toNat with hwide | hnarrow
    · have hfits := fitsScreen_setupScreen haccepted.1 (Or.inr ⟨heq, hwide⟩)
      exact ⟨fun _ => Or.inr ⟨heq, Or.inl hwide⟩, fun _ => showsScreen_of_fits hfits hidx hdraw⟩
    · have hexact : ncols.toNat = phiFbWidth := Nat.le_antisymm hnarrow haccepted.1
      rw [showsScreen_exact_iff hidx (by rw [hrows, heq]; rfl) (hcols.trans hexact) rfl hdraw]
      constructor
      · exact fun h => Or.inr ⟨heq, Or.inr h⟩
      · rintro (h | ⟨-, h | h⟩)
        · omega
        · omega
        · exact h
  · have hfits := fitsScreen_setupScreen haccepted.1 (Or.inl hgt)
    exact ⟨fun _ => Or.inl hgt, fun _ => showsScreen_of_fits hfits hidx hdraw⟩

theorem accepted_terminal_shows_screen_iff_40_lines :
    (∃ log, drawOutputWin (consoleInit fun _ => 0x741) = .ok log ∧
      ShowsScreen (fun _ => 0x741)
        (paint (consoleInit fun _ => 0x741) log (setupScreen 40 100))) ↔
    (34 ≤ 40 ∨ 40 = 33 ∧ (81 ≤ 100 ∨ ∀ y x, y < phiFbHeight → x < phiFbWidth →
      glyph 0x741 = blankGlyph)) :=
  accepted_terminal_shows_screen_iff 100 40 (consoleInit fun _ => 0x741) (by decide) rfl

/-- A terminal of exactly the size asked for, and one with a window of exactly the size of the
screen, with a screen full of `A`s. -/
theorem accepted_terminal_hides_rows :
    checkTerminalSize 80 25 = 0 ∧ checkTerminalSize 80 33 = 0 ∧
    ∀ nrows, nrows = 25 ∨ nrows = 33 →
      ¬ ∃ log, drawOutputWin (consoleInit fun _ => 0x741) = .ok log ∧
        ShowsScreen (fun _ => 0x741)
          (paint (consoleInit fun _ => 0x741) log (setupScreen nrows 80)) := by
  refine ⟨by decide, by decide, ?_⟩
  rintro nrows (rfl | rfl) ⟨log, hdraw, h⟩
  · exact not_showsScreen_of_rows (by decide) h
  · have hblank := (showsScreen_exact_iff (w := setupScreen 33 80)
      (s := consoleInit fun _ => 0x741) rfl rfl rfl rfl hdraw).mp h 0 0 (by decide) (by decide)
    exact absurd hblank (by decide)

end Philix.Console
