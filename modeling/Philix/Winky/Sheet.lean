/-
# The reference rendering: an unbounded sheet

What a terminal of 80 columns is for: each byte goes to the cursor cell, and the cursor moves
on, to a fresh row after the last column and on a newline.  Nothing scrolls; the sheet grows.
`Window` says when a device terminal shows the last rows of a sheet and has scrolled off the
ones above, and printing keeps it.
-/
import Philix.Winky.Term
import Philix.Console.Dump

namespace Philix.Winky

open Philix.Console (Framebuffer Line fbLine cellChar)
open Philix.Mailbox (Post)
open Loop

/-! ## 1. The sheet -/

/-- The cells by row and column, and the cursor. -/
structure Sheet where
  cell : Nat → Nat → UInt8
  row : Nat
  col : Nat

namespace Sheet

def empty : Sheet := ⟨fun _ _ => 32, 0, 0⟩

def newline (S : Sheet) : Sheet := { S with row := S.row + 1, col := 0 }

def write (S : Sheet) (c : UInt8) : Sheet :=
  { S with cell := fun i j => if i = S.row ∧ j = S.col then c else S.cell i j }

def put (S : Sheet) (c : UInt8) : Sheet :=
  if c = 10 then S.newline
  else if S.col + 1 = 80 then (S.write c).newline
  else { S.write c with col := S.col + 1 }

/-- The rows the sheet has: those the cursor has reached, and at least a screen. -/
def height (S : Sheet) : Nat := max 25 (S.row + 1)

def line (S : Sheet) (i : Nat) : Fin 80 → UInt8 := fun j => S.cell i j

/-- The rows of the sheet, from the top. -/
def lines (S : Sheet) : List (Fin 80 → UInt8) := (List.range S.height).map S.line

/-- The rows above the last screen. -/
def above (S : Sheet) : Nat := S.height - 25

end Sheet

/-- The rendering of an output. -/
def render (cs : List UInt8) : Sheet := cs.foldl Sheet.put .empty

/-! ## 2. A terminal as a window on a sheet -/

/-- The characters of a line. -/
def lineChars (l : Line) : Fin 80 → UInt8 := fun j => cellChar (l j)

/-- The first rows at the moments a scroll was posted, oldest first. -/
def scrolledOff (posts : List (Post × Framebuffer)) : List (Fin 80 → UInt8) :=
  posts.filterMap fun x => if x.1 = .scrollup then some (lineChars (fbLine x.2 0)) else none

/-- What the terminal posts: no shutdown, and no row that is not on the screen. -/
def Printing : Post → Prop
  | .lineDraw row => row.toNat < vgaHeight
  | .shutdown => False
  | _ => True

/-- The terminal shows the last screen of the sheet, with the cursor in place, and the rows
above have been posted as they scrolled off. -/
structure Window (t : Term) (S : Sheet) : Prop where
  row : t.row + S.above = S.row
  row_lt : t.row < vgaHeight
  col : t.col = S.col
  col_lt : t.col < vgaWidth
  cells : ∀ i j, i < vgaHeight → j < vgaWidth →
    cellChar (t.buf (i * vgaWidth + j)) = S.cell (S.above + i) j
  below : ∀ i j, S.row < i → S.cell i j = 32
  scrolls : scrolledOff t.posts = (List.range S.above).map S.line
  printing : ∀ x ∈ t.posts, Printing x.1

/-! ## 3. Cells -/

/-- The character of an entry is the byte it was made from. -/
@[simp] theorem cellChar_makeVgaentry (c color : UInt8) : cellChar (makeVgaentry c color) = c := by
  apply UInt8.toBitVec_inj.mp
  have hchar : (c.toInt8.toInt16.toUInt16).toBitVec = c.toBitVec.signExtend 16 := rfl
  have hcolor : (color.toUInt16 <<< 8).toBitVec = color.toBitVec.setWidth 16 <<< 8 := rfl
  simp only [cellChar, makeVgaentry, UInt16.toBitVec_toUInt8, UInt16.toBitVec_or, hchar, hcolor]
  ext i hi
  have hi' : i < 16 := by omega
  simp [hi', BitVec.getElem_signExtend, hi]

theorem index_inj {i j i' j' : Nat} (hj : j < vgaWidth) (hj' : j' < vgaWidth)
    (h : i * vgaWidth + j = i' * vgaWidth + j') : i = i' ∧ j = j' := by
  simp only [vgaWidth] at *
  omega

/-- The cells of a scrolled framebuffer, row by row. -/
theorem scrolled_cell {buf : Framebuffer} {v : UInt16} {i j : Nat} (hi : i < vgaHeight)
    (hj : j < vgaWidth) :
    scrolled buf v (i * vgaWidth + j) =
      if i + 1 = vgaHeight then v else buf ((i + 1) * vgaWidth + j) := by
  have hi' : i < 25 := hi
  have hj' : j < 80 := hj
  rw [scrolled, show (vgaHeight - 1) * vgaWidth = 1920 from rfl,
    show vgaHeight * vgaWidth = 2000 from rfl, show i * vgaWidth = i * 80 from rfl]
  by_cases hlast : i + 1 = vgaHeight
  · have hlast' : i + 1 = 25 := hlast
    rw [if_neg (by omega), if_pos (by omega), if_pos hlast]
  · have hlast' : i + 1 ≠ 25 := hlast
    rw [if_pos (by omega), if_neg hlast, Nat.succ_mul, Nat.add_right_comm]
    rfl

theorem scrolledOff_append (ps qs : List (Post × Framebuffer)) :
    scrolledOff (ps ++ qs) = scrolledOff ps ++ scrolledOff qs := List.filterMap_append

namespace Sheet

variable {S : Sheet} {c : UInt8}

theorem height_eq (S : Sheet) : S.height = S.above + vgaHeight := by
  simp only [above, height, vgaHeight]
  omega

theorem above_eq (S : Sheet) : S.above = S.row + 1 - vgaHeight := by
  simp only [above, height, vgaHeight]
  omega

theorem above_le_row (S : Sheet) : S.above ≤ S.row := by
  simp only [above, height]
  omega

/-- The rows above the last screen are finished. -/
theorem line_write {i : Nat} (hi : i < S.above) : (S.write c).line i = S.line i := by
  have := S.above_le_row
  funext j
  simp only [line, write]
  rw [if_neg (by omega)]

end Sheet

/-! ## 4. Printing -/

section Print

variable {t : Term} {S : Sheet} {c : UInt8}

theorem Window.newline (W : Window t S) : ∃ t', endLine t = .ok t' ∧ Window t' S.newline := by
  have hrow := W.row
  have hlt := W.row_lt
  have hnew : S.newline.above = S.row + 2 - vgaHeight := by
    simp only [Sheet.above, Sheet.height, Sheet.newline, vgaHeight]
    omega
  have habove := S.above_eq
  have hpost : (UInt32.ofNat t.row).toNat < vgaHeight := by
    rw [UInt32.toNat_ofNat_of_lt' (by simp only [vgaHeight] at hlt; simp [UInt32.size]; omega)]
    exact hlt
  have hbelow : ∀ i j, S.newline.row < i → S.newline.cell i j = 32 := fun i j hi =>
    W.below i j (by simp only [Sheet.newline] at hi; omega)
  refine ⟨_, endLine_eq, ?_⟩
  by_cases hlast : t.row + 1 = vgaHeight
  · -- the cursor was on the last row: the sheet grows by a row, and the window moves down
    have hsucc : S.newline.above = S.above + 1 := by omega
    rw [if_pos hlast]
    refine ⟨?_, W.row_lt, rfl, by simp [vgaWidth], ?_, hbelow, ?_, ?_⟩
    · rw [hsucc, ← Nat.add_assoc, hrow]
      rfl
    · intro i j hi hj
      simp only
      rw [hsucc, scrolled_cell hi hj]
      by_cases hi' : i + 1 = vgaHeight
      · rw [if_pos hi', blank, cellChar_makeVgaentry]
        exact (W.below _ _ (by omega)).symm
      · rw [if_neg hi', W.cells (i + 1) j (by omega) hj, Nat.add_assoc, Nat.add_comm 1 i]
        rfl
    · -- the row that leaves the window is the one the scroll was posted with
      have htop : lineChars (fbLine t.buf 0) = S.line S.above := by
        funext j
        have := W.cells 0 j (by decide) j.isLt
        simpa [lineChars, fbLine, Sheet.line] using this
      rw [scrolledOff_append, W.scrolls, hsucc, List.range_succ, List.map_append]
      simp [scrolledOff, htop]
      exact ⟨fun _ _ => rfl, rfl⟩
    · intro x hx
      rcases List.mem_append.mp hx with hx | hx
      · exact W.printing x hx
      · simp only [List.mem_cons, List.not_mem_nil, or_false] at hx
        rcases hx with rfl | rfl | rfl
        · exact hpost
        · trivial
        · trivial
  · have hsame : S.newline.above = S.above := by omega
    rw [if_neg hlast]
    refine ⟨?_, by simp only; omega, rfl, by simp [vgaWidth], ?_, hbelow, ?_, ?_⟩
    · rw [hsame]
      simp only [Sheet.newline]
      omega
    · rw [hsame]
      exact W.cells
    · rw [scrolledOff_append, W.scrolls, hsame]
      simp [scrolledOff]
      exact fun _ _ => rfl
    · intro x hx
      rcases List.mem_append.mp hx with hx | hx
      · exact W.printing x hx
      · rw [List.mem_singleton] at hx
        rw [hx]
        exact hpost

/-- A byte written at the cursor; the cursor is still on it. -/
theorem Window.write (W : Window t S) (c : UInt8) :
    ∃ t', termPutc c t.color t.col t.row t = .ok t' ∧ Window t' (S.write c) ∧
      t' = { t with buf := t'.buf } := by
  refine ⟨_, termPutc_eq c W.row_lt W.col_lt, ⟨W.row, W.row_lt, W.col, W.col_lt, ?_, ?_, ?_,
    W.printing⟩, rfl⟩
  · intro i j hi hj
    simp only [Sheet.write]
    have hrow := W.row
    by_cases hat : i = t.row ∧ j = t.col
    · obtain ⟨rfl, rfl⟩ := hat
      have hat' : (S.write c).above + t.row = S.row := (Nat.add_comm _ _).trans hrow
      rw [Function.update_self, cellChar_makeVgaentry, if_pos ⟨hat', W.col⟩]
    · have hne : i * vgaWidth + j ≠ t.row * vgaWidth + t.col := fun e =>
        hat (index_inj hj W.col_lt e)
      rw [Function.update_of_ne hne, W.cells i j hi hj, if_neg]
      · rfl
      · rintro ⟨h1, h2⟩
        exact hat ⟨by change S.above + i = S.row at h1; omega, h2.trans W.col.symm⟩
  · intro i j hi
    have hi' : S.row < i := hi
    simp only [Sheet.write]
    rw [if_neg (by omega), W.below i j hi']
  · have hlines : (List.range (S.write c).above).map (S.write c).line =
        (List.range S.above).map S.line :=
      List.map_congr_left fun i hi => Sheet.line_write (List.mem_range.mp hi)
    rw [hlines]
    exact W.scrolls

/-- **The step lemma: one byte.** -/
theorem Window.put (W : Window t S) (c : UInt8) :
    ∃ t', putchar c t = .ok t' ∧ Window t' (S.put c) := by
  by_cases hc : c = 10
  · rw [putchar, if_pos hc, Sheet.put, if_pos hc]
    exact W.newline
  · obtain ⟨t₁, h₁, W₁, ht₁⟩ := W.write c
    have hcol : t₁.col = S.col := W₁.col
    simp only [putchar, if_neg hc, h₁, ok_bind]
    rw [Sheet.put, if_neg hc]
    by_cases hend : t₁.col + 1 = vgaWidth
    · rw [if_pos hend, if_pos (hcol ▸ hend), endLine_col]
      exact W₁.newline
    · rw [if_neg hend, if_neg (hcol ▸ hend)]
      have hlt := W₁.col_lt
      exact ⟨_, rfl, ⟨W₁.row, W₁.row_lt, congrArg (· + 1) hcol, by simp only; omega, W₁.cells,
        W₁.below, W₁.scrolls, W₁.printing⟩⟩

/-- **The run lemma: any output.** -/
theorem Window.puts (W : Window t S) (cs : List UInt8) :
    ∃ t', putchars cs t = .ok t' ∧ Window t' (cs.foldl Sheet.put S) := by
  induction cs generalizing t S with
  | nil => exact ⟨t, rfl, W⟩
  | cons c cs ih =>
    obtain ⟨t₁, h₁, W₁⟩ := W.put c
    obtain ⟨t₂, h₂, W₂⟩ := ih W₁
    exact ⟨t₂, by rw [putchars, h₁, ok_bind, h₂], W₂⟩

theorem Window.call (W : Window t S) (call : Call) :
    ∃ t', call.run t = .ok t' ∧ Window t' (call.bytes.foldl Sheet.put S) := by
  cases call with
  | putchar c => exact W.put c
  | termPrint data => exact W.puts _
  | puts s =>
    obtain ⟨t₁, h₁, W₁⟩ := W.puts (cString s)
    obtain ⟨t₂, h₂, W₂⟩ := W₁.put 10
    refine ⟨t₂, by simp only [Call.run, Winky.puts, h₁, ok_bind, h₂], ?_⟩
    rw [Call.bytes, List.foldl_append]
    exact W₂

theorem window_init (fb : Framebuffer) :
    ∃ t, termInit fb = .ok t ∧ Window t Sheet.empty := by
  refine ⟨_, termInit_eq fb, ⟨rfl, ?_, rfl, ?_, ?_, fun _ _ _ => rfl, rfl, ?_⟩⟩
  · simp [Term.notify, vgaHeight]
  · simp [Term.notify, vgaWidth]
  · intro i j hi hj
    have hin : i * vgaWidth + j < 0 + vgaHeight * vgaWidth := by
      simp only [vgaHeight, vgaWidth] at *
      omega
    simp only [Term.notify, fill]
    rw [if_pos ⟨Nat.zero_le _, hin⟩, blank, cellChar_makeVgaentry]
    rfl
  · intro x hx
    rw [List.mem_singleton.mp hx]
    trivial

theorem Window.calls (W : Window t S) (calls : List Call) :
    ∃ t', calls.foldlM (fun t call => call.run t) t = .ok t' ∧
      Window t' ((calls.flatMap Call.bytes).foldl Sheet.put S) := by
  induction calls generalizing t S with
  | nil => exact ⟨t, rfl, W⟩
  | cons call calls ih =>
    obtain ⟨t₁, h₁, W₁⟩ := W.call call
    obtain ⟨t₂, h₂, W₂⟩ := ih W₁
    refine ⟨t₂, by rw [List.foldlM_cons, h₁, ok_bind, h₂], ?_⟩
    rw [List.flatMap_cons, List.foldl_append]
    exact W₂

/-- **Any sequence of printing calls after `term_init` completes, and the terminal shows the
end of the rendering of what was printed.** -/
theorem deviceRun_window (fb : Framebuffer) (calls : List Call) :
    ∃ t, deviceRun fb calls = .ok t ∧ Window t (render (calls.flatMap Call.bytes)) := by
  obtain ⟨t₀, h₀, W₀⟩ := window_init fb
  obtain ⟨t, h, W⟩ := W₀.calls calls
  exact ⟨t, by rw [deviceRun, h₀, ok_bind, h], W⟩

end Print

end Philix.Winky
