/-
# The scrolled view: which lines `draw_output_win` shows

The transcript is the history, oldest line first, followed by the framebuffer.  With an
offset of `k` lines the window should show the 25 lines from `h - k` on, `h` the number of
history lines.  `scroll_output_win` leaves the first step of a scroll on the line after the
newest one, and `draw_hist_buf` never draws the newest line, so the window does this only at
the bottom, or when `win_ptr` happens to be the `k`-th newest line and more than a window of
history lies below it.
-/
import Philix.Console.Reach

namespace Philix.Console

open HalfRing Lts Loop

/-! ## 1. The view functions, by position -/

/-- The line a scroll starts from. -/
def viewLine (s : Cons) : Ptr := if s.winPtr = none then s.lineHist else s.winPtr

section Move

variable {s : Cons} {l : List (Addr × Line)} {n p k : Nat}

theorem scrollOutputWin_back (H : Hist s l) (hn : 0 < n) (hp : p < l.length) (hk : k ≤ l.length)
    (hline : viewLine s = addrAt l p) (hidx : s.lineIdx = k) (hnone : s.winPtr = none → k = 0) :
    scrollOutputWin n s = .ok { s with
      winPtr := addrAt l (min (p + min n (l.length - k)) (l.length - 1))
      lineIdx := ((k + min (min n (l.length - k)) (l.length - p) : Nat) : Int) } := by
  have hle := H.le
  have hpos : (0 : Int) < (n : Int) := by omega
  rw [viewLine] at hline
  simp only [scrollOutputWin, hline, addrAt_of_lt hp, Option.isSome_some, assert_true, ok_bind,
    if_pos hpos, hidx]
  by_cases hfull : (maxHistLines : Int) ≤ k
  · -- a full history, scrolled to its end: `win_ptr` is set, and nothing is left to scroll
    have hk0 : k ≠ 0 := by
      rintro rfl
      simp [maxHistLines] at hfull
    have hwin : s.winPtr ≠ none := fun e => hk0 (hnone e)
    rw [if_neg hwin] at hline
    have h1 : min (p + min n (l.length - k)) (l.length - 1) = p := by omega
    have h2 : min (min n (l.length - k)) (l.length - p) = 0 := by omega
    rw [if_pos hfull, h1, h2, Nat.add_zero, ← hline, ← hidx]
  · rw [if_neg hfull, ← addrAt_of_lt hp, H.cnt, Int.toNat_natCast,
      scrollBackLoop_spec H.ring hle n p k hp hk]
    rfl

theorem scrollOutputWin_forward (H : Hist s l) (hn : 0 < n) (hp : p < l.length) (hk : k ≤ p + 1)
    (hline : viewLine s = addrAt l p) (hidx : s.lineIdx = k) :
    scrollOutputWin (-(n : Int)) s = .ok { s with
      winPtr := if k = 0 then s.winPtr
        else if min n k ≤ p then addrAt l (p - min n k) else lastAddr l
      lineIdx := ((k - min n k : Nat) : Int) } := by
  have hneg : ¬ (0 : Int) < -(n : Int) := by omega
  have hneg' : -(n : Int) < 0 := by omega
  rw [viewLine] at hline
  simp only [scrollOutputWin, hline, addrAt_of_lt hp, Option.isSome_some, assert_true, ok_bind,
    if_neg hneg, if_pos hneg', hidx]
  by_cases hk0 : k = 0
  · have hidx0 : s.lineIdx = 0 := by rw [hidx, hk0]; rfl
    simp [hk0, ← hidx0]
  · have hk0' : ¬ (k : Int) = 0 := by omega
    have hnn : (- -(n : Int)).toNat = n := by omega
    rw [if_neg hk0', ← addrAt_of_lt hp, hnn, scrollForwardLoop_spec H.ring n p k hp hk, if_neg hk0]
    rfl

/-- With no history there is no line to scroll from. -/
theorem scrollOutputWin_empty (hh : s.lineHist = none) (hw : s.winPtr = none) (m : Int) :
    scrollOutputWin m s = .error .assertFailed := by
  simp [scrollOutputWin, hh, hw]

theorem scrollTop_eq (H : Hist s l) :
    scrollTop s = .ok (if l = [] then s
      else { s with winPtr := lastAddr l, lineIdx := l.length }) := by
  by_cases hl : l = []
  · have hh : s.lineHist = none := H.ring.head_none_iff.mpr hl
    simp [scrollTop, hh, hl]
  · have hpos : 0 < l.length := List.length_pos_iff.mpr hl
    have hlast : lastAddr l = some l[l.length - 1].1 := by
      rw [lastAddr_eq, addrAt_of_lt (by omega)]
    have hhead : s.lineHist = some l[0].1 := H.ring.head_eq.trans (addrAt_of_lt hpos)
    simp only [scrollTop, hhead, Option.isSome_some, if_true, load_some (H.ring.cell 0 hpos),
      ok_bind, prevAt, hlast, if_neg hl, H.cnt, pure_eq_ok]

theorem drawOutputWin_bottom (hidx : s.lineIdx = 0) :
    drawOutputWin s = .ok (rowCalls (fun j => some (.fb j)) phiFbHeight 0) := by
  rw [drawOutputWin, if_pos hidx, drawFb_eq (by decide) (by decide)]

/-- What is drawn, scrolled back by `k` lines, when the history part draws the lines `g`, at
most `m` of them. -/
theorem drawOutputWin_of_hist {g : Nat → Option LineSrc} {m : Nat}
    (hhist : ∀ n, n ≤ phiFbHeight → drawHistBuf s s.winPtr 0 n = .ok (rowCalls g (min n m) 0))
    (hidx : s.lineIdx = k) (hpos : 0 < k) :
    drawOutputWin s = .ok (rowCalls g (min (min k phiFbHeight) m) 0 ++
      rowCalls (fun j => some (.fb j)) (phiFbHeight - k) k) := by
  have hne : ¬ s.lineIdx = 0 := by rw [hidx]; omega
  rw [drawOutputWin, if_neg hne, hidx]
  by_cases hge : phiFbHeight ≤ k
  · have hnone : phiFbHeight - k = 0 := by omega
    rw [if_pos (by omega), hhist _ (Nat.le_refl _), hnone, Nat.min_eq_right hge]
    simp [rowCalls]
  · have hmax : phiFbHeight ≤ maxHistLines := by decide
    have hrest : (phiFbHeight : Int) - k = ((phiFbHeight - k : Nat) : Int) := by omega
    rw [if_neg (by omega), hrest, toUnsigned_natCast (by omega), toUnsigned_natCast (by omega),
      hhist _ (by omega), drawFb_eq (by omega) (by omega),
      Nat.min_eq_left (by omega : k ≤ phiFbHeight)]
    rfl

/-- What is drawn with `win_ptr` at position `p` and an offset of `k` lines. -/
theorem drawOutputWin_eq (H : Hist s l) (hp : p < l.length) (hpos : 0 < k)
    (hwin : s.winPtr = addrAt l p) (hidx : s.lineIdx = k) :
    drawOutputWin s = .ok (rowCalls (histLine l p) (min (min k phiFbHeight) p) 0 ++
      rowCalls (fun j => some (.fb j)) (phiFbHeight - k) k) := by
  refine drawOutputWin_of_hist (fun n hn => ?_) hidx hpos
  rw [hwin]
  exact drawHistBuf_eq H.ring hp (by decide) hn

end Move

/-! ## 2. The transcript, and the slice of it in the window -/

/-- The history, oldest line first, followed by the framebuffer. -/
def transcript (l : List (Addr × Line)) : List LineSrc :=
  l.reverse.map (fun x => .hist x.1) ++ (List.range phiFbHeight).map .fb

/-- The drawing completes, and afterwards each of the 25 window rows has been drawn and shows
its line of the transcript, from line `h - line_idx` on. -/
def ShowsSlice (s : Cons) (l : List (Addr × Line)) : Prop :=
  ∃ log, drawOutputWin s = .ok log ∧ ∀ r < phiFbHeight,
    ∃ b, (transcript l)[l.length - s.lineIdx.toNat + r]? = some b ∧ rowShown log r = some b

/-- The states in which the view is right. -/
def ViewAligned (s : Cons) (l : List (Addr × Line)) : Prop :=
  s.lineIdx = 0 ∨ (phiFbHeight : Int) < s.lineIdx ∧ s.winPtr = addrAt l (s.lineIdx.toNat - 1)

section Slice

variable {s : Cons} {l : List (Addr × Line)} {k r : Nat}

theorem transcript_hist (hk : k ≤ l.length) (hr : r < k) :
    (transcript l)[l.length - k + r]? = histLine l (k - 1) r := by
  have hlt : l.length - k + r < l.reverse.length := by rw [List.length_reverse]; omega
  rw [transcript, List.getElem?_append_left (by simpa using hlt), List.getElem?_map,
    List.getElem?_reverse (by simpa using hlt), histLine, addrAt, Option.map_map,
    show l.length - 1 - (l.length - k + r) = k - 1 - r by omega]
  rfl

theorem transcript_fb (hr : r < phiFbHeight) :
    (transcript l)[l.length + r]? = some (.fb r) := by
  rw [transcript, List.getElem?_append_right (by simp)]
  simp [hr]

/-- At the bottom the window is the framebuffer. -/
theorem showsSlice_bottom (hidx : s.lineIdx = 0) : ShowsSlice s l := by
  refine ⟨_, drawOutputWin_bottom hidx, fun r hr => ?_⟩
  refine ⟨.fb r, ?_, ?_⟩
  · rw [hidx]
    exact transcript_fb hr
  · rw [rowShown_rowCalls, if_pos ⟨Nat.zero_le r, by omega⟩, Nat.sub_zero]

/-- With more than a window of lines below `win_ptr`, the window is history only. -/
theorem showsSlice_hist (H : Hist s l) (hk : k ≤ l.length) (hidx : s.lineIdx = k)
    (hbig : phiFbHeight < k) (hwin : s.winPtr = addrAt l (k - 1)) : ShowsSlice s l := by
  have hne : ¬ s.lineIdx = 0 := by rw [hidx]; omega
  have hge : (phiFbHeight : Int) ≤ s.lineIdx := by rw [hidx]; omega
  have hdraw := drawHistBuf_eq H.ring (n := phiFbHeight) (p := k - 1) (o := 0) (by omega)
    (by decide) (by decide)
  refine ⟨_, by rw [drawOutputWin, if_neg hne, if_pos hge, hwin, hdraw], ?_⟩
  intro r hr
  rw [hidx, Int.toNat_natCast, transcript_hist hk (by omega), rowShown_rowCalls,
    if_pos ⟨Nat.zero_le r, by omega⟩, Nat.sub_zero]
  refine ⟨.hist l[k - 1 - r].1, ?_, ?_⟩ <;>
    rw [histLine, addrAt_of_lt (by omega), Option.map_some]

/-- Scrolled back by at most a window, the newest line should be in the window, and is not. -/
theorem not_showsSlice_mixed (H : Hist s l) (hk : k ≤ l.length) (hidx : s.lineIdx = k)
    (hpos : 0 < k) (hsmall : k ≤ phiFbHeight) : ¬ ShowsSlice s l := by
  rintro ⟨log, hdraw, hrows⟩
  have hne : ¬ s.lineIdx = 0 := by rw [hidx]; omega
  obtain ⟨b, hb, hshown⟩ := hrows (k - 1) (by omega)
  rw [hidx, Int.toNat_natCast, transcript_hist hk (by omega), histLine, Nat.sub_self,
    ← H.ring.head_eq, Option.map_eq_some_iff] at hb
  obtain ⟨a, ha, rfl⟩ := hb
  have hmem := mem_of_rowShown hshown
  rw [drawOutputWin, if_neg hne] at hdraw
  split at hdraw
  · obtain ⟨a', r, hcall, hna, -, -⟩ := mem_drawHistBuf hdraw hmem
    cases hcall
    exact hna ha
  · obtain ⟨d, hd, h1⟩ := bind_eq_ok_iff.mp hdraw
    obtain ⟨d', hd', h2⟩ := bind_eq_ok_iff.mp h1
    obtain rfl := Except.ok.inj h2
    rcases List.mem_append.mp hmem with hm | hm
    · obtain ⟨a', r, hcall, hna, -, -⟩ := mem_drawHistBuf hd hm
      cases hcall
      exact hna ha
    · have hlt : k < phiFbHeight := by omega
      have hrest : (phiFbHeight : Int) - k = ((phiFbHeight - k : Nat) : Int) := by omega
      rw [hidx, hrest, toUnsigned_natCast (by have := H.le; omega),
        toUnsigned_natCast (by simp only [phiFbHeight, maxHistLines]; omega),
        drawFb_eq hlt (by omega)] at hd'
      obtain rfl := Except.ok.inj hd'
      obtain ⟨j, hj⟩ := line_of_mem_rowCalls hm
      cases hj

/-- Whatever is drawn, the first row of a history drawing is `win_ptr`. -/
theorem winPtr_of_showsSlice (hk : k ≤ l.length) (hidx : s.lineIdx = k)
    (hbig : phiFbHeight < k) (h : ShowsSlice s l) : s.winPtr = addrAt l (k - 1) := by
  obtain ⟨log, hdraw, hrows⟩ := h
  have hne : ¬ s.lineIdx = 0 := by rw [hidx]; omega
  have hge : (phiFbHeight : Int) ≤ s.lineIdx := by rw [hidx]; omega
  obtain ⟨b, hb, hshown⟩ := hrows 0 (by decide)
  rw [hidx, Int.toNat_natCast, transcript_hist hk (by omega), histLine, Nat.sub_zero,
    Option.map_eq_some_iff] at hb
  obtain ⟨a, ha, rfl⟩ := hb
  rw [drawOutputWin, if_neg hne, if_pos hge] at hdraw
  obtain ⟨a', r, hcall, -, -, hfirst⟩ := mem_drawHistBuf hdraw (mem_of_rowShown hshown)
  cases hcall
  rw [hfirst rfl, ha]

theorem showsSlice_iff (H : Hist s l) (hlo : 0 ≤ s.lineIdx) (hhi : s.lineIdx ≤ l.length) :
    ShowsSlice s l ↔ ViewAligned s l := by
  obtain ⟨k, hidx⟩ := Int.eq_ofNat_of_zero_le hlo
  have hk : k ≤ l.length := by omega
  constructor
  · intro h
    rcases Nat.eq_zero_or_pos k with rfl | hpos
    · exact Or.inl hidx
    rcases Nat.lt_or_ge phiFbHeight k with hbig | hsmall
    · refine Or.inr ⟨by omega, ?_⟩
      rw [winPtr_of_showsSlice hk hidx hbig h, hidx, Int.toNat_natCast]
    · exact absurd h (not_showsSlice_mixed H hk hidx hpos hsmall)
  · rintro (h | ⟨hbig, hwin⟩)
    · exact showsSlice_bottom h
    · rw [hidx, Int.toNat_natCast] at hwin
      exact showsSlice_hist H hk hidx (by omega) hwin

end Slice

/-! ## 3. Every reachable view -/

/-- **When the view is right.**  In every console reachable from `console_init` the offset
counts lines of the history, and drawing the window shows the 25 transcript lines from
`h - line_idx` on exactly when the view is at the bottom, or more than a window of lines back
with `win_ptr` on the `line_idx`-th newest line. -/
theorem view_shows_slice_iff (o : Opts) (fb₀ : Framebuffer) (es : List Event) (s : Cons)
    (h : Run (Step o) (consoleInit fb₀) es s) :
    ∃ l, Path s.heap s.lineHist l ∧ l.length = s.histCnt ∧
      0 ≤ s.lineIdx ∧ s.lineIdx ≤ l.length ∧ (ShowsSlice s l ↔ ViewAligned s l) := by
  obtain ⟨l, H, hlo, hhi⟩ := sane_of_run h
  exact ⟨l, H.ring.path, H.cnt.symm, hlo, hhi, showsSlice_iff H hlo hhi⟩

theorem view_shows_slice_iff_one_scrollup :
    ∃ s, Run (Step ⟨false, false⟩) (consoleInit fun _ => 0)
        [.update .scrollup 0 { malloc := some 1 }] s ∧
      ∃ l, Path s.heap s.lineHist l ∧ l.length = s.histCnt ∧
        0 ≤ s.lineIdx ∧ s.lineIdx ≤ l.length ∧ (ShowsSlice s l ↔ ViewAligned s l) := by
  obtain ⟨s, hstep, -⟩ := (consoleInit_hist fun _ => 0).step_scrollup ⟨false, false⟩ (a := 1) rfl
  have hrun := Run.cons hstep (Run.refl s)
  exact ⟨s, hrun, view_shows_slice_iff _ _ _ s hrun⟩

/-- The history after the row `1, 1, ..` and then the row `2, 2, ..` were saved. -/
def twoLines : List (Addr × Line) := [(2, fun _ => 2), (1, fun _ => 1)]

/-- Two lines are saved, and the view goes up by one.  The top row should show the newer line
and shows the older one. -/
theorem view_skips_the_newest_line :
    ∃ s log, Run (Step ⟨false, false⟩) (consoleInit fun _ => 1)
        [.update .scrollup 0 { malloc := some 1 }, .device fun _ => 2,
          .update .scrollup 0 { malloc := some 2 }, .key .up {}] s ∧
      Path s.heap s.lineHist twoLines ∧ s.lineIdx = 1 ∧
      drawOutputWin s = .ok log ∧ rowShown log 0 = some (.hist 1) ∧
      (transcript twoLines)[2 - 1 + 0]? = some (.hist 2) ∧
      ¬ ShowsSlice s twoLines := by
  obtain ⟨s₁, h₁, H₁, hfb₁, hw₁, hi₁⟩ :=
    (consoleInit_hist fun _ => 1).step_scrollup ⟨false, false⟩ (a := 1) rfl
  have H₁' : Hist { s₁ with fb := fun _ => 2 } _ := ⟨H₁.ring, H₁.cnt, H₁.le⟩
  have hfree : s₁.heap 2 = none := H₁.ring.frame 2 (by simp [pushed])
  obtain ⟨s₂, h₂, H₂, -, hw₂, hi₂⟩ := H₁'.step_scrollup ⟨false, false⟩ hfree
  have hl : pushed (fun _ => 2) 2 (pushed (consoleInit fun _ => 1).fb 1 []) =
      twoLines := rfl
  rw [hl] at H₂
  have hwin : s₂.winPtr = none := hw₂.trans hw₁
  have hidx : s₂.lineIdx = (0 : Nat) := hi₂.trans hi₁
  have hline : viewLine s₂ = addrAt twoLines 0 := by
    rw [viewLine, if_pos hwin, H₂.ring.head_eq]
  have hup : scrollOutputWin 1 s₂ = .ok { s₂ with winPtr := some 1, lineIdx := 1 } :=
    scrollOutputWin_back H₂ (n := 1) (p := 0) (k := 0) (by decide) (by decide) (by decide) hline
      hidx fun _ => rfl
  have H₃ : Hist { s₂ with winPtr := some 1, lineIdx := 1 } twoLines := ⟨H₂.ring, H₂.cnt, H₂.le⟩
  have hdraw := drawOutputWin_eq H₃ (p := 1) (k := 1) (by decide) (by decide) rfl rfl
  have h₃ : Step ⟨false, false⟩ s₂ (.key .up {}) _ := ⟨_, viewKey_of_ok hup hdraw⟩
  exact ⟨_, _, Run.cons h₁ (Run.cons ⟨[], rfl⟩ (Run.cons h₂ (Run.cons h₃ (Run.refl _)))),
    H₃.ring.path, rfl, hdraw, by decide, rfl,
    not_showsSlice_mixed H₃ (k := 1) (by decide) rfl (by decide) (by decide)⟩

end Philix.Console
