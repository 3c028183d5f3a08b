/-
# The single-character path and the full redraw

`handle_char_update` puts the changed cell where the framebuffer has it.  With the window
scrolled back by `k` lines a redraw puts it `k` rows further down, if that is still on the
screen, and something else, if anything, where the update put it.
-/
import Philix.Console.Screen
import Philix.Transcript

namespace Philix.Console

open HalfRing Lts Loop Curses
open Mailbox (Post)

/-- The framebuffer after the device has written `entry` to a cell. -/
def writeCell (fb : Framebuffer) (x y : Nat) (entry : UInt16) : Framebuffer :=
  Function.update fb (y * phiFbWidth + x) entry

/-- The console once the device has. -/
def Cons.write (s : Cons) (x y : Nat) (entry : UInt16) : Cons :=
  { s with fb := writeCell s.fb x y entry }

/-- The device writes a cell and posts it, and the host, with its curses loop, handles the
update; a redraw would then leave the window as it is. -/
def CharUpdateAgrees (o : Opts) (s : Cons) (w : Screen) (x y : UInt16) (entry : UInt16)
    (env : Env) : Prop :=
  ∃ s' w', showEvents o [.device (writeCell s.fb x.toNat y.toNat entry),
      .update .charDrawn (Post.charWrite x y).reg env] (s, w) = .ok (s', w') ∧ Redrawn s' w'

/-- At the bottom, or when the two places where a redraw could differ do not: the row that
shows the cell `k` rows down is off the screen or the cell looks as before, and the row the
update wrote to is not drawn or showed this very picture. -/
def CharUpdateOk (s : Cons) (l : List (Addr × Line)) (w : Screen) (x y : Nat)
    (entry : UInt16) : Prop :=
  s.lineIdx = 0 ∨
  ((y + s.lineIdx < phiFbHeight → glyph entry = glyph (s.fb (y * phiFbWidth + x))) ∧
    ((y < s.lineIdx ∧ ∀ p, p < l.length → s.winPtr = addrAt l p → p ≤ y) ∨
      w.cell y x = glyph entry))

section

variable {o : Opts} {s : Cons} {l : List (Addr × Line)} {w : Screen} {x y k p : Nat}
  {entry : UInt16} {env : Env} {g : Glyph}

/-! ## 1. The update -/

/-- The low half of a character update's parameter, and its high half. -/
theorem charReg_low {x y : UInt16} (hx : x.toNat < 256) :
    (x.toUInt32 ||| y.toUInt32 <<< 16) &&& 0xff = x.toUInt32 := by
  apply UInt32.toNat_inj.mp
  have hmask : (255 : Nat) = 2 ^ 8 - 1 := rfl
  have hy : (y.toNat <<< 16 % 4294967296) % 2 ^ 8 = 0 := by
    rw [Nat.shiftLeft_eq]
    omega
  simp only [UInt32.toNat_and, UInt32.toNat_or, UInt32.toNat_shiftLeft, UInt16.toNat_toUInt32,
    UInt32.reduceToNat, Nat.reduceMod, Nat.reducePow]
  rw [hmask, Nat.and_two_pow_sub_one_eq_mod, Nat.or_mod_two_pow, hy, Nat.or_zero]
  exact Nat.mod_eq_of_lt hx

theorem charReg_high (x y : UInt16) :
    (x.toUInt32 ||| y.toUInt32 <<< 16) >>> 16 = y.toUInt32 := by
  apply UInt32.toNat_inj.mp
  have hx := x.toNat_lt
  have hy := y.toNat_lt
  simp only [UInt32.toNat_or, UInt32.toNat_shiftLeft, UInt32.toNat_shiftRight,
    UInt16.toNat_toUInt32, UInt32.reduceToNat, Nat.reduceMod, Nat.reducePow]
  rw [Nat.shiftRight_or_distrib, Nat.shiftRight_eq_div_pow, Nat.shiftLeft_eq,
    Nat.shiftRight_eq_div_pow, Nat.div_eq_of_lt hx, Nat.zero_or]
  omega

/-- The handler reads back the coordinates the device posted. -/
theorem handleCharUpdate_reg {x y : UInt16} (hx : x.toNat < phiFbWidth) :
    handleCharUpdate (Post.charWrite x y).reg = [.cell x.toNat y.toNat] := by
  have hreg : (Post.charWrite x y).reg = x.toUInt32 ||| y.toUInt32 <<< 16 := rfl
  have hx' : x.toNat < 256 := Nat.lt_trans hx (by decide)
  rw [handleCharUpdate, hreg, charReg_low hx', charReg_high, UInt16.toNat_toUInt32,
    UInt16.toNat_toUInt32]

/-- The window after the update: one cell is put. -/
theorem charUpdateAgrees_iff (hc : o.nocurses = false) {x y : UInt16} (hf : FitsScreen w)
    (hx : x.toNat < phiFbWidth) (hy : y.toNat < phiFbHeight) :
    CharUpdateAgrees o s w x y entry env ↔
      Redrawn (s.write x.toNat y.toNat entry) (w.put y.toNat x.toNat (glyph entry)) := by
  let s₁ : Cons := s.write x.toNat y.toNat entry
  have hcell : s₁.fb (y.toNat * phiFbWidth + x.toNat) = entry := Function.update_self _ _ _
  have hput : paint s₁ [.cell x.toNat y.toNat] w = w.put y.toNat x.toNat (glyph entry) := by
    show w.mvwaddch y.toNat x.toNat (charGlyph (s₁.fb (y.toNat * phiFbWidth + x.toNat))) = _
    rw [Window.mvwaddch_of_fits hf hy hx, charGlyph_eq, hcell]
  have hstep : step o s₁ (.update .charDrawn (Post.charWrite x y).reg env) =
      .ok (s₁, [.cell x.toNat y.toNat]) := by
    simp only [step, hc, cursesUpdate, handleCharUpdate_reg hx, Bool.false_eq_true, if_false]
  have hshow : showEvents o [.device (writeCell s.fb x.toNat y.toNat entry),
      .update .charDrawn (Post.charWrite x y).reg env] (s, w) =
      .ok (s₁, w.put y.toNat x.toNat (glyph entry)) := by
    have hdev : step o s (.device (writeCell s.fb x.toNat y.toNat entry)) = .ok (s₁, []) := rfl
    rw [showEvents_cons_ok hdev, showEvents_cons_ok hstep]
    exact congrArg (fun w => Except.ok (s₁, w)) hput
  rw [CharUpdateAgrees, hshow]
  constructor
  · rintro ⟨s', w', he, hr⟩
    obtain ⟨rfl, rfl⟩ := Prod.mk.inj (Except.ok.inj he)
    exact hr
  · exact fun hr => ⟨_, _, rfl, hr⟩

/-! ## 2. The redraw -/

theorem FitsScreen.put (hf : FitsScreen w) : FitsScreen (w.put y x g) :=
  ⟨hf.rows, hf.cols, hf.corner⟩

/-- The lines of the history look as before, and of the framebuffer all but the one cell. -/
theorem lineCell_writeCell (hx : x < phiFbWidth) (buf : LineSrc) (c : Nat) :
    lineCell (s.write x y entry) buf c =
      if buf = .fb y ∧ c = x then some (glyph entry) else lineCell s buf c := by
  by_cases hc : c < phiFbWidth
  · simp only [lineCell, dif_pos hc]
    cases buf with
    | hist a => rw [if_neg (fun h => by cases h.1)]; rfl
    | fb row =>
      simp only [bufLine, fbLine, Cons.write, writeCell, LineSrc.fb.injEq]
      by_cases hat : row = y ∧ c = x
      · rw [if_pos hat, hat.1, hat.2, Function.update_self]
      · have hne : row * phiFbWidth + c ≠ y * phiFbWidth + x := fun e =>
          hat (Winky.index_inj hc hx e)
        rw [if_neg hat, Function.update_of_ne hne]
  · have hne : c ≠ x := by omega
    simp only [lineCell, dif_neg hc, if_neg fun h : buf = .fb y ∧ c = x => hne h.2]

theorem redrawn_put_bottom (hf : FitsScreen w) (hidx : s.lineIdx = 0) (hx : x < phiFbWidth)
    (hw : Redrawn s w) :
    Redrawn (s.write x y entry) (w.put y x (glyph entry)) := by
  obtain ⟨log, hdraw, hshow⟩ := (redrawn_iff hf (by omega)).mp hw
  refine (redrawn_iff (s := s.write x y entry) hf.put (Int.le_of_eq hidx.symm)).mpr
    ⟨log, (drawOutputWin_fb s _).trans hdraw, ?_⟩
  intro r c buf g hbuf hg
  have hrow := rowShown_bottom hidx hdraw r
  rw [hbuf] at hrow
  rw [lineCell_writeCell hx] at hg
  split at hrow
  · obtain rfl := Option.some.inj hrow
    by_cases hat : r = y ∧ c = x
    · obtain ⟨rfl, rfl⟩ := hat
      rw [if_pos ⟨rfl, rfl⟩] at hg
      rw [Window.put_cell_self]
      exact Option.some.inj hg
    · rw [if_neg fun h => hat ⟨LineSrc.fb.inj h.1, h.2⟩] at hg
      rw [Window.put_cell_of_ne hat]
      exact hshow r c _ g hbuf hg
  · cases hrow

/-- **Scrolled back**, a redraw differs from the window in at most two cells: the one `k` rows
down, and the one the update wrote. -/
theorem redrawn_put_scrolled (hf : FitsScreen w) (hidx : s.lineIdx = k) (hpos : 0 < k)
    (hx : x < phiFbWidth) {log : List DrawCall} (hdraw : drawOutputWin s = .ok log)
    (hshow : ∀ y x buf g, rowShown log y = some buf → lineCell s buf x = some g →
      w.cell y x = g)
    (hfb : ∀ r, rowShown log r = some (.fb y) ↔ r = y + k ∧ r < phiFbHeight) :
    Redrawn (s.write x y entry) (w.put y x (glyph entry)) ↔
      (y + k < phiFbHeight → glyph entry = glyph (s.fb (y * phiFbWidth + x))) ∧
      (rowShown log y = none ∨ w.cell y x = glyph entry) := by
  have hold : lineCell s (.fb y) x = some (glyph (s.fb (y * phiFbWidth + x))) := by
    rw [lineCell, dif_pos hx]
    rfl
  have hmoved : ∀ {buf}, rowShown log y = some buf → buf ≠ .fb y := by
    rintro _ hrow rfl
    have hk := ((hfb y).mp hrow).1
    omega
  have h0 : 0 ≤ s.lineIdx := by omega
  have hdraw' : drawOutputWin (s.write x y entry) = .ok log := (drawOutputWin_fb s _).trans hdraw
  rw [redrawn_iff (s := s.write x y entry) hf.put h0]
  simp only [hdraw', Except.ok.injEq]
  constructor
  · rintro ⟨_, rfl, hnew⟩
    refine ⟨fun hlt => ?_, ?_⟩
    · have hrow := (hfb (y + k)).mpr ⟨rfl, hlt⟩
      have hcell := hnew (y + k) x _ (glyph entry) hrow
        (by rw [lineCell_writeCell hx, if_pos ⟨rfl, rfl⟩])
      rw [Window.put_cell_of_ne (by omega)] at hcell
      exact hcell.symm.trans (hshow _ _ _ _ hrow hold)
    · cases hrow : rowShown log y with
      | none => exact Or.inl rfl
      | some buf =>
        right
        have hbuf : lineCell s buf x = some (glyph (bufLine s buf ⟨x, hx⟩)) := dif_pos hx
        have hcell := hnew y x buf _ hrow
          ((lineCell_writeCell hx buf x).trans ((if_neg fun h => hmoved hrow h.1).trans hbuf))
        rw [Window.put_cell_self] at hcell
        rw [hcell]
        exact hshow y x buf _ hrow hbuf
  · rintro ⟨hdown, hat⟩
    refine ⟨log, rfl, ?_⟩
    intro r c buf g hrow hg
    rw [lineCell_writeCell hx] at hg
    by_cases hput : r = y ∧ c = x
    · obtain ⟨rfl, rfl⟩ := hput
      rw [if_neg fun h => hmoved hrow h.1] at hg
      rw [Window.put_cell_self, ← hat.resolve_left (by simp [hrow])]
      exact hshow r c buf g hrow hg
    · rw [Window.put_cell_of_ne hput]
      by_cases hcell : buf = .fb y ∧ c = x
      · obtain ⟨rfl, rfl⟩ := hcell
        obtain ⟨rfl, hlt⟩ := (hfb r).mp hrow
        rw [if_pos ⟨rfl, rfl⟩] at hg
        rw [← Option.some.inj hg, hdown hlt]
        exact hshow _ _ _ _ hrow hold
      · rw [if_neg hcell] at hg
        exact hshow r c buf g hrow hg

/-! ## 3. Which rows show what -/

theorem shownAt_fb_iff {r : Nat} :
    shownAt l p k r = some (.fb y) ↔ r = y + k ∧ r < phiFbHeight := by
  rw [shownAt]
  by_cases hhist : r < min (min k phiFbHeight) p
  · rw [if_pos hhist, histLine]
    constructor
    · intro h
      obtain ⟨a, -, ha⟩ := Option.map_eq_some_iff.mp h
      cases ha
    · rintro ⟨rfl, -⟩
      omega
  · rw [if_neg hhist]
    by_cases hfb : k ≤ r ∧ r < phiFbHeight
    · rw [if_pos hfb, Option.some.injEq, LineSrc.fb.injEq]
      omega
    · rw [if_neg hfb]
      constructor
      · intro h
        cases h
      · rintro ⟨rfl, hlt⟩
        omega

/-- The row is below the last history line drawn and above the framebuffer part. -/
theorem shownAt_none_iff (H : Hist s l) (hp : PtrAt s l p) (hy : y < phiFbHeight) :
    shownAt l p k y = none ↔
      y < k ∧ ∀ p, p < l.length → s.winPtr = addrAt l p → p ≤ y := by
  have hptr : (∀ q, q < l.length → s.winPtr = addrAt l q → q ≤ y) ↔ p ≤ y := by
    rcases hp with ⟨hw, rfl⟩ | ⟨hlt, hw⟩
    · refine ⟨fun _ => Nat.zero_le y, fun _ q hq he => ?_⟩
      rw [hw, addrAt_of_lt hq] at he
      cases he
    · refine ⟨fun h => h p hlt hw, fun hle q hq he => ?_⟩
      rw [hw, addrAt_of_lt hlt] at he
      rwa [← addrAt_inj H.ring.nodup (addrAt_of_lt hlt) he.symm]
  rw [hptr, shownAt]
  by_cases hhist : y < min (min k phiFbHeight) p
  · have hsome : histLine l p y ≠ none := by
      rcases hp with ⟨-, rfl⟩ | ⟨hlt, -⟩
      · omega
      · rw [histLine, addrAt_of_lt (by omega)]
        simp
    rw [if_pos hhist]
    exact ⟨fun h => absurd h hsome, fun h => by omega⟩
  · rw [if_neg hhist]
    by_cases hfb : k ≤ y ∧ y < phiFbHeight
    · rw [if_pos hfb]
      exact ⟨fun h => (Option.some_ne_none _ h).elim, fun h => by omega⟩
    · rw [if_neg hfb]
      exact ⟨fun _ => by omega, fun _ => rfl⟩

/-! ## 4. When the two agree -/

theorem agrees_iff_ok {x y : UInt16} (hc : o.nocurses = false) (H : Hist s l)
    (h0 : 0 ≤ s.lineIdx) (hf : FitsScreen w) (hx : x.toNat < phiFbWidth)
    (hy : y.toNat < phiFbHeight) (hw : Redrawn s w) :
    CharUpdateAgrees o s w x y entry env ↔ CharUpdateOk s l w x.toNat y.toNat entry := by
  obtain ⟨k, hidx⟩ := Int.eq_ofNat_of_zero_le h0
  rw [charUpdateAgrees_iff hc hf hx hy, CharUpdateOk]
  rcases Nat.eq_zero_or_pos k with rfl | hpos
  · exact ⟨fun _ => Or.inl hidx, fun _ => redrawn_put_bottom hf hidx hx hw⟩
  · obtain ⟨log, hdraw, hshow⟩ := (redrawn_iff hf h0).mp hw
    obtain ⟨p, hp⟩ := ptrAt_of_draw H hidx hpos hdraw
    have hrow : ∀ r, rowShown log r = shownAt l p k r := rowShown_of_draw H hp hidx hpos hdraw
    have hput : Redrawn (s.write x.toNat y.toNat entry) (w.put y.toNat x.toNat (glyph entry)) ↔ _ :=
      redrawn_put_scrolled hf hidx hpos hx hdraw hshow fun r => by rw [hrow r]; exact shownAt_fb_iff
    rw [hput, hrow, shownAt_none_iff H hp hy, hidx]
    norm_cast
    simp only [Nat.ne_of_gt hpos, false_or]

end

/-- **When the single-character path agrees with the full redraw.**  In every reachable
console, with a window that fits the screen and that a redraw would not change: after a cell
has changed and its update has been handled, a redraw would again not change the window, if
and only if the view is at the bottom or neither of the two cells that could differ does. -/
theorem char_update_agrees_iff (o : Opts) (fb₀ : Framebuffer) (es : List Event) (s : Cons)
    (w : Screen) (x y : UInt16) (entry : UInt16) (env : Env) (hc : o.nocurses = false)
    (h : Run (Step o) (consoleInit fb₀) es s) (hf : FitsScreen w) (hx : x.toNat < phiFbWidth)
    (hy : y.toNat < phiFbHeight) (hw : Redrawn s w) :
    ∃ l, Path s.heap s.lineHist l ∧
      (CharUpdateAgrees o s w x y entry env ↔ CharUpdateOk s l w x.toNat y.toNat entry) := by
  obtain ⟨l, H, h0, -⟩ := sane_of_run h
  exact ⟨l, H.ring.path, agrees_iff_ok hc H h0 hf hx hy hw⟩

/-- Two lines saved, the view up by one, and a window with that view on it. -/
theorem up_on_two_lines : ∃ s l w, Run (Step ⟨false, false⟩) (consoleInit fun _ => 0)
      (scrollups 2 ++ [.key .up {}, .device fun _ => 0]) s ∧ Hist s l ∧ s.lineIdx = 1 ∧
    s.fb = (fun _ => 0) ∧ FitsScreen w ∧ Redrawn s w := by
  obtain ⟨s, l, hrun, H, hlen, -, hw, hi⟩ :=
    run_scrollups ⟨false, false⟩ (fun _ => 0) 2 (by decide)
  have V := ViewAt.bottom H (List.length_pos_iff.mp (by omega)) hw hi
  obtain ⟨s₁, d, hup, V₁⟩ := V.press (rfl : Key.up.movesView = true) {}
  rw [hlen] at V₁
  obtain ⟨log, hdraw⟩ := V₁.draw
  have H₁ := V₁.hist
  have hidx : s₁.lineIdx = 1 := V₁.off
  have hf : FitsScreen (newwin 25 81 ⟨32, 0⟩) := ⟨by decide, by decide, by decide⟩
  refine ⟨{ s₁ with fb := fun _ => 0 }, l, _, hrun.append (Run.cons ⟨d, hup⟩
    (Run.cons ⟨[], rfl⟩ (Run.refl _))), ⟨H₁.ring, H₁.cnt, H₁.le⟩, hidx, rfl,
    hf.of_sameFrame (paint_sameFrame _ log _), redrawn_paint hf ?_ ?_⟩
  · show 0 ≤ s₁.lineIdx
    omega
  · exact (drawOutputWin_fb s₁ _).trans hdraw

theorem char_update_agrees_iff_scrolled :
    ∃ s l w, s.lineIdx = 1 ∧ Path s.heap s.lineHist l ∧
      (CharUpdateAgrees ⟨false, false⟩ s w 3 4 0x741 {} ↔ CharUpdateOk s l w 3 4 0x741) := by
  obtain ⟨s, -, w, hrun, -, hidx, -, hf, hw⟩ := up_on_two_lines
  obtain ⟨l, hl⟩ := char_update_agrees_iff ⟨false, false⟩ _ _ s w 3 4 0x741 {} rfl hrun hf
    (by decide) (by decide) hw
  exact ⟨s, l, w, hidx, hl⟩

/-- The view is up by one line and the device writes an `A` to the top left cell.  The host
draws it in the top row, which shows history; a redraw puts it in the row below. -/
theorem char_update_misplaced :
    ∃ s w, Run (Step ⟨false, false⟩) (consoleInit fun _ => 0)
        (scrollups 2 ++ [.key .up {}, .device fun _ => 0]) s ∧
      s.histCnt ≠ 0 ∧ s.lineIdx = 1 ∧ FitsScreen w ∧ Redrawn s w ∧
      ¬ CharUpdateAgrees ⟨false, false⟩ s w 0 0 0x741 {} := by
  obtain ⟨s, l, w, hrun, H, hidx, hfb, hf, hw⟩ := up_on_two_lines
  have hcnt : s.histCnt ≠ 0 := by
    have := (sane_of_run hrun)
    obtain ⟨l', H', -, hle⟩ := this
    rw [H'.cnt]
    omega
  refine ⟨s, w, hrun, hcnt, hidx, hf, hw, ?_⟩
  rw [agrees_iff_ok rfl H (by omega) hf (by decide) (by decide) hw]
  rintro (h0 | ⟨hdown, -⟩)
  · omega
  · have hsame := hdown (by rw [hidx]; decide)
    rw [hfb] at hsame
    exact absurd hsame (by decide)

end Philix.Console
