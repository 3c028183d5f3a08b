/-
# Curses windows

A window is a grid of cells with a size.  `mvwaddch` writes one cell: outside the window it
fails and changes nothing, and in the last column of the last line it goes on to scroll the
window up by one line, if `scrollok` is set.  Each call moves the cursor first, so the cursor
is not part of the model.

`Fits w h k` says that the first `h` lines and `k` columns of `w` can be written without
running into either case; then a call is a plain update (`mvwaddch_of_fits`) and a line is
written cell by cell (`addLine_of_fits`).
-/
import Mathlib.Tactic.Common
import Mathlib.Data.List.Basic

namespace Curses

/-- What the cells show, by line and column.  `bkgd` is what a cell shows after a scroll. -/
structure Window (γ : Type) where
  rows : Nat
  cols : Nat
  scrollok : Bool
  bkgd : γ
  cell : Nat → Nat → γ

variable {γ : Type}

/-- `newwin`. -/
def newwin (rows cols : Nat) (bkgd : γ) : Window γ := ⟨rows, cols, false, bkgd, fun _ _ => bkgd⟩

namespace Window

/-- One cell is written, and nothing else happens. -/
def put (w : Window γ) (y x : Nat) (g : γ) : Window γ :=
  { w with cell := fun y' x' => if y' = y ∧ x' = x then g else w.cell y' x' }

/-- All lines move up by one, and the last is cleared. -/
def scroll (w : Window γ) : Window γ :=
  { w with cell := fun y x =>
      if y + 1 < w.rows then w.cell (y + 1) x else if y < w.rows then w.bkgd else w.cell y x }

/-- The cell after which a window scrolls. -/
def IsCorner (w : Window γ) (y x : Nat) : Prop := y + 1 = w.rows ∧ x + 1 = w.cols

instance (w : Window γ) (y x : Nat) : Decidable (w.IsCorner y x) :=
  inferInstanceAs (Decidable (_ ∧ _))

def mvwaddch (w : Window γ) (y x : Nat) (g : γ) : Window γ :=
  if y < w.rows ∧ x < w.cols then
    if w.scrollok = true ∧ w.IsCorner y x then (w.put y x g).scroll else w.put y x g
  else w

/-- The cells `gs`, one after the other, from column `x` of line `y` on. -/
def addLine (y : Nat) : Nat → List γ → Window γ → Window γ
  | _, [], w => w
  | x, g :: gs, w => addLine y (x + 1) gs (w.mvwaddch y x g)

/-- The window has such a cell, and it shows `g`. -/
def Shows (w : Window γ) (y x : Nat) (g : γ) : Prop := y < w.rows ∧ x < w.cols ∧ w.cell y x = g

/-- The first `h` lines and `k` columns can all be written without the window scrolling. -/
structure Fits (w : Window γ) (h k : Nat) : Prop where
  rows : h ≤ w.rows
  cols : k ≤ w.cols
  corner : w.scrollok = true → ¬ (w.rows = h ∧ w.cols = k)

/-- The same size and settings; only cells differ. -/
structure SameFrame (w w' : Window γ) : Prop where
  rows : w'.rows = w.rows
  cols : w'.cols = w.cols
  scrollok : w'.scrollok = w.scrollok
  bkgd : w'.bkgd = w.bkgd

variable {w w' w'' : Window γ} {y x h k : Nat} {g : γ}

/-! ## 1. The frame -/

theorem SameFrame.refl (w : Window γ) : SameFrame w w := ⟨rfl, rfl, rfl, rfl⟩

theorem SameFrame.trans (h : SameFrame w w') (h' : SameFrame w' w'') : SameFrame w w'' :=
  ⟨h'.rows.trans h.rows, h'.cols.trans h.cols, h'.scrollok.trans h.scrollok, h'.bkgd.trans h.bkgd⟩

theorem Fits.of_sameFrame (hf : Fits w h k) (hs : SameFrame w w') : Fits w' h k :=
  ⟨hs.rows ▸ hf.rows, hs.cols ▸ hf.cols, by rw [hs.rows, hs.cols, hs.scrollok]; exact hf.corner⟩

theorem mvwaddch_sameFrame (w : Window γ) (y x : Nat) (g : γ) : SameFrame w (w.mvwaddch y x g) := by
  unfold mvwaddch
  split
  · split
    · exact ⟨rfl, rfl, rfl, rfl⟩
    · exact ⟨rfl, rfl, rfl, rfl⟩
  · exact SameFrame.refl w

theorem addLine_sameFrame (y : Nat) : ∀ (gs : List γ) (x : Nat) (w : Window γ),
    SameFrame w (addLine y x gs w)
  | [], _, w => SameFrame.refl w
  | g :: gs, x, w => (mvwaddch_sameFrame w y x g).trans (addLine_sameFrame y gs (x + 1) _)

/-- Two windows of one frame are the same if their cells are. -/
theorem SameFrame.ext (hs : SameFrame w w') (hc : ∀ y x, w'.cell y x = w.cell y x) : w' = w := by
  cases w
  cases w'
  obtain ⟨rfl, rfl, rfl, rfl⟩ := hs
  have : _ = _ := funext fun y => funext fun x => hc y x
  simp only [mk.injEq, true_and]
  exact this

/-! ## 2. Writing inside -/

theorem put_cell_self (w : Window γ) (y x : Nat) (g : γ) : (w.put y x g).cell y x = g :=
  if_pos ⟨rfl, rfl⟩

theorem put_cell_of_ne {y' x' : Nat} (hne : ¬ (y' = y ∧ x' = x)) :
    (w.put y x g).cell y' x' = w.cell y' x' := if_neg hne

theorem mvwaddch_corner (hs : w.scrollok = true) (hc : w.IsCorner y x) :
    w.mvwaddch y x g = (w.put y x g).scroll := by
  have hy : y < w.rows := hc.1 ▸ Nat.lt_succ_self y
  have hx : x < w.cols := hc.2 ▸ Nat.lt_succ_self x
  rw [mvwaddch, if_pos ⟨hy, hx⟩, if_pos ⟨hs, hc⟩]

theorem mvwaddch_of_fits (hf : Fits w h k) (hy : y < h) (hx : x < k) :
    w.mvwaddch y x g = w.put y x g := by
  have hrows := hf.rows
  have hcols := hf.cols
  rw [mvwaddch, if_pos ⟨Nat.lt_of_lt_of_le hy hrows, Nat.lt_of_lt_of_le hx hcols⟩, if_neg]
  rintro ⟨hs, hr, hc⟩
  exact hf.corner hs ⟨by omega, by omega⟩

/-- A line of cells, none of them the corner: each goes to its column, the rest stays. -/
theorem addLine_cell : ∀ (gs : List γ) (x : Nat) (w : Window γ), y < w.rows →
    x + gs.length ≤ w.cols → (w.scrollok = true → ¬ (y + 1 = w.rows ∧ x + gs.length = w.cols)) →
    ∀ y' x', (addLine y x gs w).cell y' x' =
      if y' = y ∧ x ≤ x' then (gs[x' - x]?).getD (w.cell y' x') else w.cell y' x'
  | [], x, w, _, _, _, y', x' => by simp [addLine]
  | g :: gs, x, w, hy, hx, hc, y', x' => by
    rw [List.length_cons] at hx hc
    have hput : w.mvwaddch y x g = w.put y x g := by
      rw [mvwaddch, if_pos ⟨hy, by omega⟩]
      split
      · rename_i hcorner
        -- the corner can only be the last cell of the line, which `hc` excludes
        obtain ⟨hs, hr, hcol⟩ := hcorner
        have hlen : gs.length = 0 := by omega
        exact absurd ⟨hr, by omega⟩ (hc hs)
      · rfl
    rw [addLine, hput, addLine_cell gs (x + 1) (w.put y x g) hy (by simp only [put]; omega)
      (fun hs he => hc hs ⟨he.1, by have := he.2; simp only [put] at this; omega⟩) y' x']
    by_cases hrow : y' = y
    · rcases Nat.lt_trichotomy x' x with hlt | rfl | hgt
      · rw [if_neg (by omega), if_neg (by omega), put_cell_of_ne (by omega)]
      · rw [if_neg (by omega), if_pos ⟨hrow, Nat.le_refl _⟩, hrow, put_cell_self, Nat.sub_self]
        rfl
      · rw [if_pos ⟨hrow, hgt⟩, if_pos ⟨hrow, Nat.le_of_lt hgt⟩, put_cell_of_ne (by omega),
          show x' - x = (x' - (x + 1)) + 1 by omega, List.getElem?_cons_succ]
    · rw [if_neg fun h => hrow h.1, if_neg fun h => hrow h.1, put_cell_of_ne fun h => hrow h.1]

theorem addLine_of_fits {gs : List γ} (hf : Fits w h gs.length) (hy : y < h) (y' x' : Nat) :
    (addLine y 0 gs w).cell y' x' =
      if y' = y then (gs[x']?).getD (w.cell y' x') else w.cell y' x' := by
  have hrows := hf.rows
  have hcols := hf.cols
  rw [addLine_cell gs 0 w (by omega) (by omega)
    (fun hs he => hf.corner hs ⟨by omega, by omega⟩) y' x']
  simp only [Nat.zero_le, and_true, Nat.sub_zero]

/-! ## 3. Writing to the corner -/

theorem addLine_concat (y : Nat) (g : γ) : ∀ (gs : List γ) (x : Nat) (w : Window γ),
    addLine y x (gs ++ [g]) w = (addLine y x gs w).mvwaddch y (x + gs.length) g
  | [], _, _ => rfl
  | g' :: gs, x, w => by
    rw [List.cons_append, addLine, addLine_concat y g gs, addLine, List.length_cons,
      Nat.add_right_comm, Nat.add_assoc]

/-- **A full last line scrolls the window**: every line moves up, and the last is cleared. -/
theorem addLine_corner {gs : List γ} (hs : w.scrollok = true) (hlen : gs.length = w.cols)
    (hpos : 0 < gs.length) (hy : y + 1 = w.rows) (y' x' : Nat) (hy' : y' < w.rows)
    (hx' : x' < w.cols) :
    (addLine y 0 gs w).cell y' x' =
      if y' + 1 < y then w.cell (y' + 1) x'
      else if y' + 1 = y then (gs[x']?).getD (w.cell y x') else w.bkgd := by
  obtain ⟨front, g, rfl⟩ : ∃ front g, gs = front ++ [g] :=
    (List.eq_nil_or_concat' gs).resolve_left (List.length_pos_iff.mp hpos)
  rw [List.length_append, List.length_singleton] at hlen
  have hframe := addLine_sameFrame y front 0 w
  have hcorner : (addLine y 0 front w).IsCorner y (0 + front.length) :=
    ⟨hframe.rows ▸ hy, by rw [hframe.cols]; omega⟩
  have hcells := addLine_cell (y := y) front 0 w (by omega) (by omega)
    (fun _ he => by have := he.2; omega)
  rw [addLine_concat, mvwaddch_corner (hframe.scrollok.trans hs) hcorner]
  simp only [scroll, put, hframe.rows, hframe.bkgd, hcells]
  by_cases hlast : y' + 1 < w.rows
  · rw [if_pos hlast]
    by_cases hup : y' + 1 < y
    · rw [if_pos hup, if_neg (by omega), if_neg (by omega)]
    · have hrow : y' + 1 = y := by omega
      rw [if_neg hup, if_pos hrow]
      by_cases hcol : x' = 0 + front.length
      · rw [if_pos ⟨hrow, hcol⟩, hcol, Nat.zero_add, List.getElem?_concat_length]
        rfl
      · rw [if_neg fun h => hcol h.2, if_pos ⟨hrow, Nat.zero_le _⟩, hrow, Nat.sub_zero,
          List.getElem?_append_left (by omega)]
  · rw [if_neg hlast, if_pos hy', if_neg (by omega), if_neg (by omega)]

end Window

end Curses
