/-
# What the output window shows

The drawing functions end in `mvwaddch`, once for each cell.  `paint` runs the calls a
drawing logged on a curses window.  In a window that fits the screen a cell shows the last
line drawn in its row, and so a redraw is determined by `rowShown`.
-/
import Philix.Console.ScrollSafe
import Philix.Lib.Curses

namespace Philix.Console

open HalfRing Lts Loop Curses

/-! ## 1. Cells -/

/-- A character and the colour pair it is drawn in. -/
structure Glyph where
  char : UInt8
  pair : UInt8
  deriving DecidableEq, Repr

/-- `isprint`, in the C locale. -/
def isprint (c : UInt8) : Bool := 32 ≤ c && c ≤ 126

/-- `COLOR_PAIR`, which keeps the low eight bits of its argument. -/
def colorPair (n : Int32) : UInt8 := n.toInt8.toUInt8

/-- `isprint(c) ? c : '@'`. -/
def shownChar (c : UInt8) : UInt8 := if isprint c then c else 64

/-- A cell as `draw_line_buf` draws it; its colour is a signed `char`. -/
def lineGlyph (entry : UInt16) : Glyph where
  char := shownChar (cellChar entry)
  pair := colorPair (entry >>> 8).toUInt8.toInt8.toInt32

/-- A cell as `handle_char_update` draws it; its colour is a `uint8_t`. -/
def charGlyph (entry : UInt16) : Glyph where
  char := shownChar (cellChar entry)
  pair := colorPair (entry >>> 8).toUInt8.toUInt32.toInt32

/-- The host's rendering of a cell. -/
def glyph (entry : UInt16) : Glyph := ⟨shownChar (cellChar entry), (entry >>> 8).toUInt8⟩

theorem lineGlyph_eq (entry : UInt16) : lineGlyph entry = glyph entry := by
  simp only [lineGlyph, glyph, colorPair, Int8.toInt8_toInt32, UInt8.toUInt8_toInt8]

theorem charGlyph_eq (entry : UInt16) : charGlyph entry = glyph entry := by
  have hpair : ∀ c : UInt8, colorPair c.toUInt32.toInt32 = c := by
    intro c
    apply UInt8.toBitVec_inj.mp
    show (c.toBitVec.setWidth 32).signExtend 8 = c.toBitVec
    rw [BitVec.signExtend_eq_setWidth_of_le _ (by decide)]
    simp
  simp only [charGlyph, glyph, hpair]

/-! ## 2. Painting -/

abbrev Screen := Window Glyph

/-- The line a call was passed. -/
def bufLine (s : Cons) : LineSrc → Line
  | .fb row => fbLine s.fb row
  | .hist node =>
    match s.heap node with
    | some e => e.val
    | none => fun _ => 0

/-- The `mvwaddch` calls of one drawing call. -/
def paintCall (s : Cons) (w : Screen) : DrawCall → Screen
  | .line buf row => w.addLine row 0 (List.ofFn fun i => lineGlyph (bufLine s buf i))
  | .cell x y => w.mvwaddch y x (charGlyph (s.fb (y * phiFbWidth + x)))

/-- Those of all of them, in order. -/
def paint (s : Cons) (log : List DrawCall) (w : Screen) : Screen := log.foldl (paintCall s) w

/-- The window has all cells of the screen, and none is its corner. -/
def FitsScreen (w : Screen) : Prop := w.Fits phiFbHeight phiFbWidth

/-- Drawing the output window completes and leaves the window as it is. -/
def Redrawn (s : Cons) (w : Screen) : Prop := ∃ log, drawOutputWin s = .ok log ∧ paint s log w = w

section Paint

variable {s : Cons} {w : Screen} {log : List DrawCall} {y x : Nat}

theorem paint_cons (s : Cons) (c : DrawCall) (log : List DrawCall) (w : Screen) :
    paint s (c :: log) w = paint s log (paintCall s w c) := rfl

theorem paint_line (s : Cons) (buf : LineSrc) (row : Nat) (w : Screen) :
    paint s [.line buf row] w =
      w.addLine row 0 (List.ofFn fun i => lineGlyph (bufLine s buf i)) := by
  simp only [paint, List.foldl_cons, List.foldl_nil, paintCall]

theorem paint_append (s : Cons) (log log' : List DrawCall) (w : Screen) :
    paint s (log ++ log') w = paint s log' (paint s log w) := List.foldl_append

theorem paintCall_sameFrame (s : Cons) (w : Screen) (c : DrawCall) :
    Window.SameFrame w (paintCall s w c) := by
  cases c with
  | line buf row => exact Window.addLine_sameFrame row _ 0 w
  | cell x y => exact Window.mvwaddch_sameFrame w y x _

theorem paint_sameFrame (s : Cons) (log : List DrawCall) (w : Screen) :
    Window.SameFrame w (paint s log w) := by
  induction log generalizing w with
  | nil => exact Window.SameFrame.refl w
  | cons c log ih => exact (paintCall_sameFrame s w c).trans (ih _)

/-- What column `x` of the window shows of a line. -/
def lineCell (s : Cons) (buf : LineSrc) (x : Nat) : Option Glyph :=
  if hx : x < phiFbWidth then some (glyph (bufLine s buf ⟨x, hx⟩)) else none

theorem paintCall_line_cell {buf : LineSrc} {row h : Nat} (hf : w.Fits h phiFbWidth)
    (hrow : row < h) (y x : Nat) :
    (paintCall s w (.line buf row)).cell y x =
      if y = row then (lineCell s buf x).getD (w.cell y x) else w.cell y x := by
  have hlen : (List.ofFn fun i => lineGlyph (bufLine s buf i)).length = phiFbWidth :=
    List.length_ofFn
  rw [paintCall, Window.addLine_of_fits (hlen.symm ▸ hf) hrow, List.getElem?_ofFn, lineCell]
  simp only [lineGlyph_eq]

/-- A drawing made of lines in the first `h` rows. -/
def DrawsLines (h : Nat) (log : List DrawCall) : Prop :=
  ∀ c ∈ log, ∃ buf row, c = .line buf row ∧ row < h

/-- **A cell shows the last line drawn in its row**, and a row that is not drawn is left. -/
theorem paint_cell {h : Nat} (hf : w.Fits h phiFbWidth) (hlog : DrawsLines h log) (y x : Nat) :
    (paint s log w).cell y x =
      ((rowShown log y).bind fun buf => lineCell s buf x).getD (w.cell y x) := by
  induction log generalizing w with
  | nil => rfl
  | cons c log ih =>
    obtain ⟨buf, row, rfl, hrow⟩ := hlog c List.mem_cons_self
    have hrest : DrawsLines h log := fun c hc => hlog c (List.mem_cons_of_mem _ hc)
    have hhead : rowShown (.line buf row :: log) y =
        (rowShown log y).or (if row = y then some buf else none) := by
      rw [← List.singleton_append, rowShown_append]
      by_cases hy : row = y
      · simp [rowShown, hy]
      · simp [rowShown, hy]
    rw [paint_cons, ih (hf.of_sameFrame (paintCall_sameFrame s w _)) hrest,
      paintCall_line_cell hf hrow, hhead]
    cases hshown : rowShown log y with
    | some b =>
      simp only [Option.some_or, Option.bind_some]
      cases hcell : lineCell s b x with
      | some g => rfl
      | none =>
        -- past the last column nothing is drawn, whatever the line
        have hx : ¬ x < phiFbWidth := by
          intro hx
          simp [lineCell, hx] at hcell
        simp [lineCell, hx]
    | none =>
      simp only [Option.none_or, Option.bind_none, Option.getD_none]
      by_cases hy : y = row
      · rw [if_pos hy, if_pos hy.symm, Option.bind_some]
      · rw [if_neg hy, if_neg (Ne.symm hy), Option.bind_none, Option.getD_none]

end Paint

/-! ## 3. The rows a redraw draws -/

section Rows

variable {s : Cons} {l : List (Addr × Line)} {w : Screen} {log : List DrawCall} {k p r : Nat}

/-- What row `r` shows with the offset at `k` and `win_ptr` at position `p`. -/
def shownAt (l : List (Addr × Line)) (p k r : Nat) : Option LineSrc :=
  if r < min (min k phiFbHeight) p then histLine l p r
  else if k ≤ r ∧ r < phiFbHeight then some (.fb (r - k)) else none

/-- Where `win_ptr` is in the list; nowhere counts as on the newest line, above which there
is nothing to draw. -/
def PtrAt (s : Cons) (l : List (Addr × Line)) (p : Nat) : Prop :=
  s.winPtr = none ∧ p = 0 ∨ p < l.length ∧ s.winPtr = addrAt l p

theorem rowShown_shownAt (l : List (Addr × Line)) (p k r : Nat) :
    rowShown (rowCalls (histLine l p) (min (min k phiFbHeight) p) 0 ++
      rowCalls (fun j => some (.fb j)) (phiFbHeight - k) k) r = shownAt l p k r := by
  rw [rowShown_append, rowShown_rowCalls, rowShown_rowCalls, shownAt]
  by_cases hhist : r < min (min k phiFbHeight) p
  · rw [if_neg (by omega), if_pos (by omega), if_pos hhist, Option.none_or, Nat.sub_zero]
  · rw [if_neg hhist, if_neg (by omega : ¬ (0 ≤ r ∧ r < 0 + min (min k phiFbHeight) p))]
    by_cases hfb : k ≤ r ∧ r < phiFbHeight
    · rw [if_pos (by omega), if_pos hfb]
      rfl
    · rw [if_neg (by omega), if_neg hfb]
      rfl

theorem drawHistBuf_ptrAt (H : Hist s l) (hp : PtrAt s l p) {n : Nat} (hn : n ≤ phiFbHeight) :
    drawHistBuf s s.winPtr 0 n = .ok (rowCalls (histLine l p) (min n p) 0) := by
  rcases hp with ⟨hw, rfl⟩ | ⟨hlt, hw⟩
  · have hpos : 0 < phiFbHeight := by decide
    simp only [drawHistBuf, hn, hpos, Nat.add_zero, decide_true, assert_true, ok_bind, hw,
      Nat.min_zero]
    cases n <;> rfl
  · rw [hw]
    exact drawHistBuf_eq H.ring hlt (by decide) hn

/-- A redraw that completes, scrolled back: `win_ptr` is on the list, or nowhere. -/
theorem ptrAt_of_draw (H : Hist s l) (hidx : s.lineIdx = k) (hpos : 0 < k)
    (h : drawOutputWin s = .ok log) : ∃ p, PtrAt s l p := by
  have hne : ¬ s.lineIdx = 0 := by rw [hidx]; omega
  -- whatever is drawn, the history part is walked for at least one round
  obtain ⟨n, d, hloop⟩ : ∃ n d, drawHistBufLoop s (n + 1) s.winPtr 0 = .ok d := by
    rw [drawOutputWin, if_neg hne] at h
    split at h
    · obtain ⟨-, -, h⟩ := bind_eq_ok_iff.mp h
      obtain ⟨-, -, h⟩ := bind_eq_ok_iff.mp h
      obtain ⟨-, -, h⟩ := bind_eq_ok_iff.mp h
      exact ⟨24, log, h⟩
    · rename_i hlt
      obtain ⟨d, hd, -⟩ := bind_eq_ok_iff.mp h
      have hmax : phiFbHeight ≤ maxHistLines := by decide
      rw [hidx, toUnsigned_natCast (by omega)] at hd
      obtain ⟨-, -, hd⟩ := bind_eq_ok_iff.mp hd
      obtain ⟨-, -, hd⟩ := bind_eq_ok_iff.mp hd
      obtain ⟨-, -, hd⟩ := bind_eq_ok_iff.mp hd
      exact ⟨k - 1, d, by rwa [Nat.sub_add_cancel hpos]⟩
  cases hw : s.winPtr with
  | none => exact ⟨0, Or.inl ⟨hw, rfl⟩⟩
  | some a =>
    rw [hw, drawHistBufLoop] at hloop
    split at hloop
    · rename_i hhead
      have hlive : a ∈ l.map Prod.fst := mem_of_addrAt (H.ring.head_eq ▸ hhead)
      obtain ⟨p, hp, hpa⟩ := exists_addrAt_of_mem hlive
      exact ⟨p, Or.inr ⟨hp, hw.trans hpa.symm⟩⟩
    · obtain ⟨e, he, -⟩ := bind_eq_ok_iff.mp hloop
      have hlive : s.heap a ≠ none := by
        intro hnone
        simp [Heap.load, hnone] at he
      obtain ⟨p, hp, hpa⟩ := exists_addrAt_of_mem (H.ring.live_iff.mp hlive)
      exact ⟨p, Or.inr ⟨hp, hw.trans hpa.symm⟩⟩

/-- The rows of a redraw, scrolled back. -/
theorem drawOutputWin_ptrAt (H : Hist s l) (hp : PtrAt s l p) (hidx : s.lineIdx = k)
    (hpos : 0 < k) :
    drawOutputWin s = .ok (rowCalls (histLine l p) (min (min k phiFbHeight) p) 0 ++
      rowCalls (fun j => some (.fb j)) (phiFbHeight - k) k) :=
  drawOutputWin_of_hist (fun _ hn => drawHistBuf_ptrAt H hp hn) hidx hpos

theorem rowShown_of_draw (H : Hist s l) (hp : PtrAt s l p) (hidx : s.lineIdx = k)
    (hpos : 0 < k) (h : drawOutputWin s = .ok log) (r : Nat) :
    rowShown log r = shownAt l p k r := by
  obtain rfl := Except.ok.inj ((drawOutputWin_ptrAt H hp hidx hpos).symm.trans h)
  exact rowShown_shownAt l p k r

theorem rowShown_bottom (hidx : s.lineIdx = 0) (h : drawOutputWin s = .ok log) (r : Nat) :
    rowShown log r = if r < phiFbHeight then some (.fb r) else none := by
  obtain rfl := Except.ok.inj ((drawOutputWin_bottom hidx).symm.trans h)
  rw [rowShown_rowCalls]
  simp

/-- A redraw is made of lines on the screen. -/
theorem drawsLines_of_draw (h0 : 0 ≤ s.lineIdx) (h : drawOutputWin s = .ok log) :
    DrawsLines phiFbHeight log := by
  have hrows := (drawOutputWin_rows h0).of_ok h
  intro c hc
  obtain ⟨buf, hbuf⟩ := hrows.lines c hc
  exact ⟨buf, c.row, hbuf, (hrows.inside c hc).2⟩

/-- A redraw reads the framebuffer only when it paints. -/
theorem drawOutputWin_fb (s : Cons) (fb : Framebuffer) :
    drawOutputWin { s with fb } = drawOutputWin s := by
  have hloop : ∀ n head offset,
      drawHistBufLoop { s with fb } n head offset = drawHistBufLoop s n head offset := by
    intro n
    induction n with
    | zero => intro head offset; rfl
    | succ n ih =>
      intro head offset
      cases head with
      | none => rfl
      | some a => simp only [drawHistBufLoop, ih]
  simp only [drawOutputWin, drawHistBuf, hloop]

end Rows

/-! ## 4. Windows over a run -/

/-- The console and its window after the events: each paints what it drew. -/
def showEvents (o : Opts) : List Event → Cons × Screen → Except Stop (Cons × Screen)
  | [], q => .ok q
  | e :: es, (s, w) => do
    let (s, d) ← step o s e
    showEvents o es (s, paint s d w)

section Show

variable {o : Opts} {s s' : Cons} {w : Screen} {d log : List DrawCall} {e : Event}
  {es : List Event}

theorem showEvents_cons_ok (h : step o s e = .ok (s', d)) :
    showEvents o (e :: es) (s, w) = showEvents o es (s', paint s' d w) := by
  simp only [showEvents, h, ok_bind]

/-- **What a redraw would not change**: a window that shows, in every row drawn, the line drawn
there. -/
theorem redrawn_iff (hf : FitsScreen w) (h0 : 0 ≤ s.lineIdx) :
    Redrawn s w ↔ ∃ log, drawOutputWin s = .ok log ∧
      ∀ y x buf g, rowShown log y = some buf → lineCell s buf x = some g → w.cell y x = g := by
  refine exists_congr fun log => and_congr_right fun hdraw => ?_
  have hlines := drawsLines_of_draw h0 hdraw
  constructor
  · intro hsame y x buf g hbuf hg
    have hcell := paint_cell (s := s) hf hlines y x
    rw [hsame, hbuf, Option.bind_some, hg, Option.getD_some] at hcell
    exact hcell
  · intro hshow
    refine (paint_sameFrame s log w).ext fun y x => ?_
    rw [paint_cell hf hlines]
    cases hbuf : rowShown log y with
    | none => rfl
    | some buf =>
      rw [Option.bind_some]
      cases hg : lineCell s buf x with
      | none => rfl
      | some g => exact (hshow y x buf g hbuf hg).symm

/-- A redraw over a redraw changes nothing. -/
theorem redrawn_paint (hf : FitsScreen w) (h0 : 0 ≤ s.lineIdx) (h : drawOutputWin s = .ok log) :
    Redrawn s (paint s log w) := by
  have hlines := drawsLines_of_draw h0 h
  refine (redrawn_iff (hf.of_sameFrame (paint_sameFrame s log w)) h0).mpr ⟨log, h, ?_⟩
  intro y x buf g hbuf hg
  rw [paint_cell hf hlines, hbuf, Option.bind_some, hg, Option.getD_some]

end Show

end Philix.Console
