/-
# Whether the offset alone determines the view

On a history of `h` lines that nothing is added to, a view key moves a position of the list
and an offset.  `moveAt` is that motion, without a heap; the console does the same.

Scrolling back leaves the position at the offset, except at the oldest line: there the offset
goes on to `h` and the position stays at `h - 1`.  Scrolling forward from there takes both
back by one, so the position is one short of the offset from then on, until the next `g` or
`G`, or until scrolling back runs into the oldest line again.  That is the only way apart.
-/
import Philix.Console.ViewLive

namespace Philix.Console

open HalfRing Lts Loop

/-! ## 1. The keys, on positions -/

/-- The keys that move the view. -/
def Key.movesView : Key → Bool
  | .up | .down | .npage | .ppage | .g | .shiftG => true
  | .o | .other => false

/-- The position `win_ptr` has in the list, or that of the line a scroll starts from, and the
offset. -/
structure ViewPos where
  pos : Nat
  off : Nat

/-- Back by `n` lines on a history of `h`. -/
def ViewPos.back (h n : Nat) (v : ViewPos) : ViewPos where
  pos := min (v.pos + min n (h - v.off)) (h - 1)
  off := v.off + min (min n (h - v.off)) (h - v.pos)

/-- Forward by `n` lines; a step from the newest line goes round to the oldest. -/
def ViewPos.forward (h n : Nat) (v : ViewPos) : ViewPos where
  pos := if v.off = 0 then v.pos else if min n v.off ≤ v.pos then v.pos - min n v.off else h - 1
  off := v.off - min n v.off

/-- What a view key does on a history of `h` lines. -/
def moveAt (h : Nat) : Key → ViewPos → ViewPos
  | .up => ViewPos.back h 1
  | .ppage => ViewPos.back h phiFbHeight
  | .down => ViewPos.forward h 1
  | .npage => ViewPos.forward h phiFbHeight
  | .g => fun _ => ⟨h - 1, h⟩
  | .shiftG => fun _ => ⟨0, 0⟩
  | .o | .other => id

/-- The key goes forward from the very top.  With two lines a whole page ends at the bottom,
from where every scroll back ends on the older line, as it should. -/
def ForwardFromTop (h off : Nat) (key : Key) : Prop :=
  off = h ∧ (key = .down ∧ 2 ≤ h ∨ key = .npage ∧ 3 ≤ h)

/-- Scrolled back by `off` lines, the position is `off`, or the oldest line if there is no
such position. -/
structure Settled (h : Nat) (v : ViewPos) : Prop where
  off_le : v.off ≤ h
  scrolled : 0 < v.off → v.pos = min v.off (h - 1)
  bottom : v.off = 0 → v.pos = 0 ∨ v.pos = 1 ∧ h = 2

section Positions

variable {h n : Nat} {v : ViewPos} {key : Key}

theorem Settled.pos_lt (hs : Settled h v) (hh : 0 < h) : v.pos < h := by
  rcases Nat.eq_zero_or_pos v.off with h0 | hpos
  · rcases hs.bottom h0 with hv | ⟨hv, h2⟩
    · rwa [hv]
    · rw [hv, h2]
      decide
  · rw [hs.scrolled hpos]
    exact Nat.lt_of_le_of_lt (Nat.min_le_right _ _) (Nat.sub_lt hh Nat.one_pos)

theorem Settled.back (hs : Settled h v) (hn : 0 < n) (hh : 0 < h) : Settled h (v.back h n) := by
  have hle := hs.off_le
  have hlt := hs.pos_lt hh
  refine ⟨?_, fun _ => ?_, ?_⟩
  · simp only [ViewPos.back]
    omega
  · simp only [ViewPos.back]
    rcases Nat.eq_zero_or_pos v.off with h0 | hpos
    · rcases hs.bottom h0 with hv | ⟨hv, h2⟩ <;> omega
    · have hv := hs.scrolled hpos
      omega
  · intro h0
    simp only [ViewPos.back] at h0
    omega

theorem Settled.forward (hs : Settled h v) (hh : 0 < h)
    (htop : v.off = h → h = 1 ∨ h = 2 ∧ 2 ≤ n) : Settled h (v.forward h n) := by
  have hle := hs.off_le
  by_cases h0 : v.off = 0
  · refine ⟨?_, ?_, ?_⟩ <;> simp only [ViewPos.forward, h0, Nat.min_zero, if_true]
    · exact Nat.zero_le h
    · intro hlt
      exact absurd hlt (Nat.lt_irrefl 0)
    · exact fun _ => hs.bottom h0
  · have hv := hs.scrolled (Nat.pos_of_ne_zero h0)
    refine ⟨?_, ?_, ?_⟩ <;> simp only [ViewPos.forward, if_neg h0]
    · omega
    · intro hlt
      rw [if_pos (by omega)]
      omega
    · intro hz
      split <;> omega

/-- **The step lemma, on positions.**  A view key other than a forward scroll from the top
leaves the position at the offset. -/
theorem Settled.moveAt (hs : Settled h v) (hh : 0 < h) (hkey : ¬ ForwardFromTop h v.off key) :
    Settled h (moveAt h key v) := by
  cases key with
  | up => exact hs.back Nat.one_pos hh
  | ppage => exact hs.back (by decide) hh
  | down =>
    refine hs.forward hh fun htop => Or.inl ?_
    have h2 : ¬ 2 ≤ h := fun h2 => hkey ⟨htop, Or.inl ⟨rfl, h2⟩⟩
    omega
  | npage =>
    refine hs.forward hh fun htop => ?_
    have h3 : ¬ 3 ≤ h := fun h3 => hkey ⟨htop, Or.inr ⟨rfl, h3⟩⟩
    simp only [phiFbHeight]
    omega
  | g => exact ⟨Nat.le_refl h, fun _ => (Nat.min_eq_right (Nat.sub_le h 1)).symm, fun h0 => by
      simp only [Console.moveAt] at h0
      omega⟩
  | shiftG => exact ⟨Nat.zero_le h, fun hlt => absurd hlt (Nat.lt_irrefl 0), fun _ => Or.inl rfl⟩
  | o => exact hs
  | other => exact hs

/-- A forward scroll from the top leaves the position short of the offset, or at the bottom on
the oldest line; back up by one, it is short of the offset all the same. -/
theorem Settled.forwardFromTop (hs : Settled h v) (hkey : ForwardFromTop h v.off key) :
    ∃ w, (w = Console.moveAt h key v ∨ w = Console.moveAt h .up (Console.moveAt h key v)) ∧
      0 < w.off ∧ w.off ≤ h ∧ w.pos < h ∧ w.pos ≠ min w.off (h - 1) := by
  obtain ⟨htop, hkeys⟩ := hkey
  have hh : 2 ≤ h := by
    rcases hkeys with ⟨-, h2⟩ | ⟨-, h3⟩
    · exact h2
    · exact Nat.le_of_succ_le h3
  have hoff : ¬ h = 0 := by omega
  have hpos : v.pos = h - 1 := by
    rw [hs.scrolled (by omega), htop, Nat.min_eq_right (Nat.sub_le h 1)]
  rcases hkeys with ⟨rfl, -⟩ | ⟨rfl, h3⟩
  · refine ⟨_, Or.inl rfl, ?_⟩
    have hmin : min 1 h = 1 := Nat.min_eq_left (by omega)
    simp only [Console.moveAt, ViewPos.forward, htop, hpos, if_neg hoff, hmin]
    clear hmin
    rw [if_pos (by omega)]
    omega
  · refine ⟨_, Or.inr rfl, ?_⟩
    -- a page goes `m` lines forward, and there is a line to go back to
    obtain ⟨m, hm, hm2, hmh⟩ : ∃ m, min phiFbHeight h = m ∧ 2 ≤ m ∧ m ≤ h :=
      ⟨_, rfl, Nat.le_min.mpr ⟨by decide, hh⟩, Nat.min_le_right _ _⟩
    have hback : min 1 (h - (h - m)) = 1 := by
      rw [Nat.sub_sub_self hmh]
      exact Nat.min_eq_left (by omega)
    simp only [Console.moveAt, ViewPos.forward, ViewPos.back, htop, hpos, if_neg hoff, hm, hback]
    clear hm hback
    by_cases hle : m ≤ h - 1
    · have hone : min 1 (h - (h - 1 - m)) = 1 := Nat.min_eq_left (by omega)
      rw [if_pos hle, hone]
      omega
    · have hone : min 1 (h - (h - 1)) = 1 := Nat.min_eq_left (by omega)
      rw [if_neg hle, hone]
      omega

end Positions

/-! ## 2. The keys, on a console -/

/-- The console's view is at these positions of its history. -/
structure ViewAt (s : Cons) (l : List (Addr × Line)) (v : ViewPos) : Prop where
  hist : Hist s l
  pos_lt : v.pos < l.length
  off_le : v.off ≤ v.pos + 1
  line : viewLine s = addrAt l v.pos
  off : s.lineIdx = v.off
  null : s.winPtr = none → v.off = 0

/-- A view key is pressed. -/
def ViewStep (o : Opts) (s : Cons) (key : Key) (s' : Cons) : Prop :=
  key.movesView = true ∧ ∃ env, Step o s (.key key env) s'

section Console

variable {o : Opts} {s s' : Cons} {l : List (Addr × Line)} {v w : ViewPos} {key : Key} {n : Nat}

/-- Scrolled back, the node the view is on is `win_ptr`. -/
theorem ViewAt.winPtr (V : ViewAt s l v) (hpos : 0 < v.off) : s.winPtr = addrAt l v.pos := by
  have hne : s.winPtr ≠ none := fun e => Nat.ne_of_gt hpos (V.null e)
  rw [← V.line, viewLine, if_neg hne]

/-- The view after a move to position `p`, with `win_ptr` set. -/
theorem ViewAt.of_pos (V : ViewAt s l v) (hp : w.pos < l.length) (ho : w.off ≤ w.pos + 1) :
    ViewAt { s with winPtr := addrAt l w.pos, lineIdx := w.off } l w := by
  have hne : addrAt l w.pos ≠ none := by
    rw [addrAt_of_lt hp]
    simp
  exact ⟨⟨V.hist.ring, V.hist.cnt, V.hist.le⟩, hp, ho, by rw [viewLine, if_neg hne], rfl,
    fun e => absurd e hne⟩

theorem ViewAt.draw (V : ViewAt s l v) : ∃ d, drawOutputWin s = .ok d := by
  rcases Nat.eq_zero_or_pos v.off with h0 | hpos
  · exact ⟨_, drawOutputWin_bottom (by rw [V.off, h0]; rfl)⟩
  · exact ⟨_, drawOutputWin_eq V.hist V.pos_lt hpos (V.winPtr hpos) V.off⟩

theorem ViewAt.scrollBack (V : ViewAt s l v) (hn : 0 < n) :
    ∃ s', scrollOutputWin n s = .ok s' ∧ ViewAt s' l (v.back l.length n) := by
  have hlt := V.pos_lt
  have hle := V.off_le
  refine ⟨_, scrollOutputWin_back V.hist hn hlt (by omega) V.line V.off V.null, ?_⟩
  refine V.of_pos (w := v.back l.length n) ?_ ?_ <;> simp only [ViewPos.back] <;> omega

theorem ViewAt.scrollForward (V : ViewAt s l v) (hn : 0 < n) :
    ∃ s', scrollOutputWin (-(n : Int)) s = .ok s' ∧ ViewAt s' l (v.forward l.length n) := by
  have hlt := V.pos_lt
  have hle := V.off_le
  refine ⟨_, scrollOutputWin_forward V.hist hn hlt hle V.line V.off, ?_⟩
  by_cases h0 : v.off = 0
  · -- at the bottom nothing moves
    have hfwd : v.forward l.length n = v := by
      simp only [ViewPos.forward, h0, if_true, Nat.min_zero, Nat.sub_zero]
      rw [← h0]
    rw [hfwd, if_pos h0, h0, Nat.min_zero, Nat.sub_zero, ← h0, ← V.off]
    exact V
  · have hto := V.of_pos (w := v.forward l.length n)
      (by simp only [ViewPos.forward, if_neg h0]; split <;> omega)
      (by simp only [ViewPos.forward, if_neg h0]; split <;> omega)
    simp only [ViewPos.forward, if_neg h0] at hto ⊢
    by_cases hm : min n v.off ≤ v.pos
    · simpa only [if_pos hm] using hto
    · simpa only [if_neg hm, lastAddr_eq] using hto

/-- **The console does what `moveAt` does.** -/
theorem ViewAt.press (V : ViewAt s l v) (hkey : key.movesView = true) (env : Env) :
    ∃ s' d, handleKey key env s = .ok (s', d) ∧ ViewAt s' l (moveAt l.length key v) := by
  have hlt := V.pos_lt
  have hdraw : ∀ (move : Cons → Except Stop Cons) {s' : Cons} {w : ViewPos}, move s = .ok s' →
      ViewAt s' l w → ∃ t d, viewKey move s = .ok (t, d) ∧ ViewAt t l w := by
    intro move s' w hmove V'
    obtain ⟨d, hd⟩ := V'.draw
    exact ⟨s', d, viewKey_of_ok hmove hd, V'⟩
  cases key with
  | up =>
    obtain ⟨s', hmove, V'⟩ := V.scrollBack (n := 1) Nat.one_pos
    exact hdraw _ hmove V'
  | ppage =>
    obtain ⟨s', hmove, V'⟩ := V.scrollBack (n := phiFbHeight) (by decide)
    exact hdraw _ hmove V'
  | down =>
    obtain ⟨s', hmove, V'⟩ := V.scrollForward (n := 1) Nat.one_pos
    exact hdraw _ hmove V'
  | npage =>
    obtain ⟨s', hmove, V'⟩ := V.scrollForward (n := phiFbHeight) (by decide)
    exact hdraw _ hmove V'
  | g =>
    have hl : l ≠ [] := List.length_pos_iff.mp (by omega)
    have hmove := scrollTop_eq V.hist
    rw [if_neg hl, lastAddr_eq] at hmove
    exact hdraw _ hmove (V.of_pos (w := ⟨l.length - 1, l.length⟩) (by simp only; omega)
      (by simp only; omega))
  | shiftG =>
    refine hdraw (fun s => .ok (scrollBottom s)) rfl ?_
    refine ⟨⟨V.hist.ring, V.hist.cnt, V.hist.le⟩, Nat.lt_of_le_of_lt (Nat.zero_le _) hlt,
      Nat.zero_le _, ?_, rfl, fun _ => rfl⟩
    rw [viewLine, scrollBottom, if_pos rfl]
    exact V.hist.ring.head_eq
  | o => cases hkey
  | other => cases hkey

theorem ViewAt.viewStep (V : ViewAt s l v) (hc : o.nocurses = false)
    (hkey : key.movesView = true) :
    ∃ s', ViewStep o s key s' ∧ ViewAt s' l (moveAt l.length key v) := by
  obtain ⟨s', d, hk, V'⟩ := V.press hkey {}
  exact ⟨s', ⟨hkey, {}, d, by simp only [step, hc]; exact hk⟩, V'⟩

theorem ViewAt.of_viewStep (V : ViewAt s l v) (hc : o.nocurses = false)
    (h : ViewStep o s key s') : ViewAt s' l (moveAt l.length key v) := by
  obtain ⟨hkey, env, d, hstep⟩ := h
  obtain ⟨t, d', hk, V'⟩ := V.press hkey env
  simp only [step, hc] at hstep
  obtain ⟨rfl, -⟩ := Prod.mk.inj (Except.ok.inj (hstep.symm.trans hk))
  exact V'

/-! ## 3. Runs of view keys -/

/-- The key does not go forward from the very top. -/
def NotFromTop (s : Cons) (key : Key) : Prop := ¬ ∃ off : Nat, s.lineIdx = off ∧
  ForwardFromTop s.histCnt off key

theorem ViewAt.notFromTop_iff (V : ViewAt s l v) :
    NotFromTop s key ↔ ¬ ForwardFromTop l.length v.off key := by
  rw [NotFromTop, V.hist.cnt]
  refine not_congr ⟨?_, fun h => ⟨v.off, V.off, h⟩⟩
  rintro ⟨off, hoff, h⟩
  have : v.off = off := by
    have := V.off
    omega
  rwa [this]

theorem ViewAt.bottom (H : Hist s l) (hl : l ≠ []) (hw : s.winPtr = none) (hi : s.lineIdx = 0) :
    ViewAt s l ⟨0, 0⟩ :=
  ⟨H, List.length_pos_iff.mpr hl, Nat.zero_le _, by rw [viewLine, if_pos hw, H.ring.head_eq], hi,
    fun _ => rfl⟩

theorem settled_bottom (h : Nat) : Settled h ⟨0, 0⟩ :=
  ⟨Nat.zero_le h, fun hlt => absurd hlt (Nat.lt_irrefl 0), fun _ => Or.inl rfl⟩

/-- The run lemma. -/
theorem settled_of_run {keys : List Key} (hc : o.nocurses = false)
    (h : Run (Restrict (ViewStep o) NotFromTop) s keys s')
    (V : ViewAt s l v) (hs : Settled l.length v) : ∃ w, ViewAt s' l w ∧ Settled l.length w := by
  refine h.preserves (I := fun s => ∃ w, ViewAt s l w ∧ Settled l.length w) ?_ ⟨v, V, hs⟩
  rintro s key s' ⟨w, W, hw⟩ ⟨hstep, hguard⟩
  have hpos : 0 < l.length := Nat.lt_of_le_of_lt (Nat.zero_le _) W.pos_lt
  exact ⟨_, W.of_viewStep hc hstep, hw.moveAt hpos (W.notFromTop_iff.mp hguard)⟩

/-- Every offset is reached by going back one line at a time. -/
theorem run_up (hc : o.nocurses = false) (V : ViewAt s l ⟨0, 0⟩) : ∀ k, k ≤ l.length →
    ∃ keys t, Run (Restrict (ViewStep o) NotFromTop) s keys t ∧
      ViewAt t l ⟨min k (l.length - 1), k⟩
  | 0, _ => ⟨[], s, Run.refl s, by simpa using V⟩
  | k + 1, hk => by
    obtain ⟨keys, t, hrun, T⟩ := run_up hc V k (by omega)
    obtain ⟨t', hstep, T'⟩ := T.viewStep hc (rfl : Key.up.movesView = true)
    have hguard : NotFromTop t .up := by
      rintro ⟨off, -, -, ⟨hdown, -⟩ | ⟨hpage, -⟩⟩
      · cases hdown
      · cases hpage
    refine ⟨_, t', hrun.snoc ⟨hstep, hguard⟩, ?_⟩
    have hto : moveAt l.length .up ⟨min k (l.length - 1), k⟩ =
        ⟨min (k + 1) (l.length - 1), k + 1⟩ := by
      simp only [moveAt, ViewPos.back, ViewPos.mk.injEq]
      omega
    rwa [hto] at T'

/-- Off its position, the view is on another node than one scrolled back as far by `Up`
alone. -/
theorem ViewAt.differs (W : ViewAt s' l w) (hpos : 0 < w.off)
    (hne : w.pos ≠ min w.off (l.length - 1)) (hc : o.nocurses = false) (V : ViewAt s l ⟨0, 0⟩) :
    ∃ keys t, Run (Restrict (ViewStep o) NotFromTop) s keys t ∧ s'.lineIdx = t.lineIdx ∧
      0 < t.lineIdx ∧ s'.winPtr ≠ t.winPtr := by
  have hlt := W.pos_lt
  have hle := W.off_le
  obtain ⟨keys, t, hrun, T⟩ := run_up hc V w.off (by omega)
  refine ⟨keys, t, hrun, W.off.trans T.off.symm, by rw [T.off]; simp only; omega, ?_⟩
  rw [W.winPtr hpos, T.winPtr hpos, addrAt_of_lt hlt]
  intro e
  exact hne (addrAt_inj W.hist.ring.nodup (addrAt_of_lt hlt) e.symm)

end Console

/-- **When the offset determines the view.**  From the bottom of a history of any length: two
runs of view keys, neither going forward from the very top, that end scrolled back by the
same number of lines end on the same node.  And after such a run, a key that does go forward
from the very top leads, at once or with one more `Up`, to a view on another node than a run
without such a key that ends with the same offset. -/
theorem win_ptr_determined_unless_forward_from_top (o : Opts) (s₀ : Cons) (l : List (Addr × Line))
    (hc : o.nocurses = false) (H : Hist s₀ l) (hl : l ≠ []) (hw : s₀.winPtr = none)
    (hi : s₀.lineIdx = 0) :
    (∀ keys₁ keys₂ s₁ s₂, Run (Restrict (ViewStep o) NotFromTop) s₀ keys₁ s₁ →
      Run (Restrict (ViewStep o) NotFromTop) s₀ keys₂ s₂ → s₁.lineIdx = s₂.lineIdx →
      0 < s₁.lineIdx → s₁.winPtr = s₂.winPtr) ∧
    (∀ keys s key s', Run (Restrict (ViewStep o) NotFromTop) s₀ keys s → ViewStep o s key s' →
      ¬ NotFromTop s key →
      ∃ more keys₂ s₁ s₂, Run (ViewStep o) s' more s₁ ∧
        Run (Restrict (ViewStep o) NotFromTop) s₀ keys₂ s₂ ∧ s₁.lineIdx = s₂.lineIdx ∧
        0 < s₂.lineIdx ∧ s₁.winPtr ≠ s₂.winPtr) := by
  have V₀ := ViewAt.bottom H hl hw hi
  constructor
  · intro keys₁ keys₂ s₁ s₂ h₁ h₂ heq hpos
    obtain ⟨v₁, V₁, S₁⟩ := settled_of_run hc h₁ V₀ (settled_bottom _)
    obtain ⟨v₂, V₂, S₂⟩ := settled_of_run hc h₂ V₀ (settled_bottom _)
    have hoff : v₁.off = v₂.off := by
      have := V₁.off
      have := V₂.off
      omega
    have hpos₁ : 0 < v₁.off := by
      have := V₁.off
      omega
    have hpos₂ : 0 < v₂.off := hoff ▸ hpos₁
    rw [V₁.winPtr hpos₁, V₂.winPtr hpos₂, S₁.scrolled hpos₁, S₂.scrolled hpos₂, hoff]
  · intro keys s key s' hrun hstep hguard
    obtain ⟨v, V, S⟩ := settled_of_run hc hrun V₀ (settled_bottom _)
    have V' := V.of_viewStep hc hstep
    have hkey : ForwardFromTop l.length v.off key := not_not.mp (mt V.notFromTop_iff.mpr hguard)
    obtain ⟨w, rfl | rfl, hpos, -, -, hne⟩ := S.forwardFromTop hkey
    · obtain ⟨keys₂, t, hrun₂, hidx, hpos₂, hdiff⟩ := V'.differs hpos hne hc V₀
      exact ⟨[], keys₂, s', t, Run.refl s', hrun₂, hidx, hpos₂, hdiff⟩
    · obtain ⟨s₁, hup, V₁⟩ := V'.viewStep hc (rfl : Key.up.movesView = true)
      obtain ⟨keys₂, t, hrun₂, hidx, hpos₂, hdiff⟩ := V₁.differs hpos hne hc V₀
      exact ⟨[.up], keys₂, s₁, t, Run.cons hup (Run.refl s₁), hrun₂, hidx, hpos₂, hdiff⟩

theorem win_ptr_determined_three_lines :
    ∃ s₀ l, l.length = 3 ∧ Path s₀.heap s₀.lineHist l ∧
      (∀ keys₁ keys₂ s₁ s₂, Run (Restrict (ViewStep ⟨false, false⟩) NotFromTop) s₀ keys₁ s₁ →
        Run (Restrict (ViewStep ⟨false, false⟩) NotFromTop) s₀ keys₂ s₂ →
        s₁.lineIdx = s₂.lineIdx → 0 < s₁.lineIdx → s₁.winPtr = s₂.winPtr) ∧
      (∀ keys s key s', Run (Restrict (ViewStep ⟨false, false⟩) NotFromTop) s₀ keys s →
        ViewStep ⟨false, false⟩ s key s' → ¬ NotFromTop s key →
        ∃ more keys₂ s₁ s₂, Run (ViewStep ⟨false, false⟩) s' more s₁ ∧
          Run (Restrict (ViewStep ⟨false, false⟩) NotFromTop) s₀ keys₂ s₂ ∧
          s₁.lineIdx = s₂.lineIdx ∧ 0 < s₂.lineIdx ∧ s₁.winPtr ≠ s₂.winPtr) := by
  obtain ⟨s, l, -, H, hlen, -, hw, hi⟩ := run_scrollups ⟨false, false⟩ (fun _ => 0) 3 (by decide)
  have hl : l ≠ [] := List.length_pos_iff.mp (by omega)
  exact ⟨s, l, hlen, H.ring.path,
    win_ptr_determined_unless_forward_from_top ⟨false, false⟩ s l rfl H hl hw hi⟩

/-- Two lines are saved.  `g` and `Down` leave the view scrolled back by one line on the newer
line; `Up` leaves it scrolled back by one line on the older. -/
theorem down_from_top_differs_from_up :
    ∃ s₀ s₁ s₂, Run (Step ⟨false, false⟩) (consoleInit fun _ => 0) (scrollups 2) s₀ ∧
      s₀.histCnt = 2 ∧ s₀.winPtr = none ∧ s₀.lineIdx = 0 ∧
      Run (ViewStep ⟨false, false⟩) s₀ [.g, .down] s₁ ∧
      Run (ViewStep ⟨false, false⟩) s₀ [.up] s₂ ∧
      s₁.lineIdx = 1 ∧ s₂.lineIdx = 1 ∧ s₁.winPtr ≠ s₂.winPtr := by
  obtain ⟨s, l, hrun, H, hlen, -, hw, hi⟩ := run_scrollups ⟨false, false⟩ (fun _ => 0) 2 (by decide)
  have V := ViewAt.bottom H (List.length_pos_iff.mp (by omega)) hw hi
  obtain ⟨s₁, hg, V₁⟩ := V.viewStep (o := ⟨false, false⟩) rfl (rfl : Key.g.movesView = true)
  obtain ⟨s₂, hdown, V₂⟩ := V₁.viewStep (o := ⟨false, false⟩) rfl (rfl : Key.down.movesView = true)
  obtain ⟨s₃, hup, V₃⟩ := V.viewStep (o := ⟨false, false⟩) rfl (rfl : Key.up.movesView = true)
  rw [hlen] at V₂ V₃
  refine ⟨s, s₂, s₃, hrun, H.cnt.trans hlen, hw, hi, Run.cons hg (Run.cons hdown (Run.refl _)),
    Run.cons hup (Run.refl _), V₂.off, V₃.off, ?_⟩
  rw [V₂.winPtr (by decide), V₃.winPtr (by decide)]
  intro e
  have hpos : addrAt l 0 = some l[0].1 := addrAt_of_lt (by omega)
  have : (0 : Nat) = 1 := addrAt_inj H.ring.nodup hpos (e.symm.trans hpos)
  cases this

end Philix.Console
