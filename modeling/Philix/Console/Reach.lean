/-
# What an event can do to the console, and what every reachable console satisfies

`step_cases` says once what an event leaves of the console: only a `SCROLLUP` update touches
the history, only a view key moves the view, and nothing else moves anything but the
framebuffer.  The invariants of the later modules are read off from it.
-/
import Philix.Console.MainLoop
import Philix.Console.History

namespace Philix.Console

open HalfRing Lts Loop

/-! ## 1. One event -/

/-- The view functions touch nothing but the view. -/
def MovesView (s s' : Cons) : Prop := ∃ w i, s' = { s with winPtr := w, lineIdx := i }

/-- What a view key does before it draws. -/
def ViewMove (s s' : Cons) : Prop :=
  (∃ n, scrollOutputWin n s = .ok s') ∨ scrollTop s = .ok s' ∨ s' = scrollBottom s

theorem scrollupCase_eq_ok_iff {env : Env} {s s' : Cons} :
    scrollupCase env s = .ok s' ↔ handleScrollup env.malloc s = .ok (0, s') := by
  rw [scrollupCase, bind_eq_ok_iff]
  constructor
  · rintro ⟨⟨r, t⟩, h1, h2⟩
    by_cases hr : r = 0
    · subst hr
      simp only [ne_eq, not_true_eq_false, if_false, pure_eq_ok, Except.ok.injEq] at h2
      rw [h1, h2]
    · simp [hr] at h2
  · intro h
    exact ⟨(0, s'), h, by simp⟩

theorem viewKey_eq_ok {move : Cons → Except Stop Cons} {s s' : Cons} {d : List DrawCall}
    (h : viewKey move s = .ok (s', d)) : move s = .ok s' := by
  obtain ⟨t, h1, h2⟩ := bind_eq_ok_iff.mp h
  obtain ⟨d', -, h3⟩ := bind_eq_ok_iff.mp h2
  simp only [pure_eq_ok, Except.ok.injEq, Prod.mk.injEq] at h3
  rw [h1, h3.1]

theorem viewKey_of_ok {move : Cons → Except Stop Cons} {s s' : Cons} {d : List DrawCall}
    (hm : move s = .ok s') (hd : drawOutputWin s' = .ok d) : viewKey move s = .ok (s', d) := by
  simp [viewKey, hm, hd]

theorem handleKey_cases {k : Key} {env : Env} {s s' : Cons} {d : List DrawCall}
    (h : handleKey k env s = .ok (s', d)) : s' = s ∨ ViewMove s s' := by
  cases k with
  | up => exact Or.inr (Or.inl ⟨_, viewKey_eq_ok h⟩)
  | down => exact Or.inr (Or.inl ⟨_, viewKey_eq_ok h⟩)
  | npage => exact Or.inr (Or.inl ⟨_, viewKey_eq_ok h⟩)
  | ppage => exact Or.inr (Or.inl ⟨_, viewKey_eq_ok h⟩)
  | g => exact Or.inr (Or.inr (Or.inl (viewKey_eq_ok h)))
  | shiftG =>
    have h' := viewKey_eq_ok h
    simp only [Except.ok.injEq] at h'
    exact Or.inr (Or.inr (Or.inr h'.symm))
  | o =>
    obtain ⟨b, -, h2⟩ := bind_eq_ok_iff.mp h
    simp only [pure_eq_ok, Except.ok.injEq, Prod.mk.injEq] at h2
    exact Or.inl h2.1.symm
  | other =>
    simp only [handleKey, Except.ok.injEq, Prod.mk.injEq] at h
    exact Or.inl h.1.symm

theorem handleUpdate_cases {o : Opts} {u : UpdateType} {reg : UInt32} {env : Env} {s s' : Cons}
    {d : List DrawCall} (h : step o s (.update u reg env) = .ok (s', d)) :
    u ≠ .scrollup ∧ s' = s ∨ u = .scrollup ∧ handleScrollup env.malloc s = .ok (0, s') := by
  have hscroll : ∀ {d : List DrawCall},
      (do pure (← scrollupCase env s, []) : Except Stop (Cons × List DrawCall)) = .ok (s', d) →
        handleScrollup env.malloc s = .ok (0, s') := by
    intro d h
    obtain ⟨t, h1, h2⟩ := bind_eq_ok_iff.mp h
    simp only [pure_eq_ok, Except.ok.injEq, Prod.mk.injEq] at h2
    rw [← scrollupCase_eq_ok_iff, h1, h2.1]
  simp only [step] at h
  split at h
  · cases u with
    | scrollup => exact Or.inr ⟨rfl, hscroll h⟩
    | consoleShutdown =>
      obtain ⟨b, -, h2⟩ := bind_eq_ok_iff.mp h
      exact absurd h2 (by simp)
    | inval => simp [nocursesUpdate] at h
    | _ =>
      simp only [nocursesUpdate, Except.ok.injEq, Prod.mk.injEq] at h
      exact Or.inl ⟨by simp, h.1.symm⟩
  · cases u with
    | scrollup => exact Or.inr ⟨rfl, hscroll h⟩
    | consoleShutdown =>
      simp only [cursesUpdate] at h
      split at h
      · obtain ⟨b, -, h2⟩ := bind_eq_ok_iff.mp h
        exact absurd h2 (by simp)
      · simp at h
    | inval => simp [cursesUpdate] at h
    | lineDrawn =>
      obtain ⟨d', -, h2⟩ := bind_eq_ok_iff.mp h
      simp only [pure_eq_ok, Except.ok.injEq, Prod.mk.injEq] at h2
      exact Or.inl ⟨by simp, h2.1.symm⟩
    | screenRedraw =>
      obtain ⟨d', -, h2⟩ := bind_eq_ok_iff.mp h
      simp only [pure_eq_ok, Except.ok.injEq, Prod.mk.injEq] at h2
      exact Or.inl ⟨by simp, h2.1.symm⟩
    | _ =>
      simp only [cursesUpdate, Except.ok.injEq, Prod.mk.injEq] at h
      exact Or.inl ⟨by simp, h.1.symm⟩

/-- **What one event does.**  The console is left alone, gets new framebuffer contents, saves
a line, or has its view moved by a key. -/
theorem step_cases {o : Opts} {s s' : Cons} {e : Event} (h : Step o s e s') :
    (∀ reg env, e ≠ .update .scrollup reg env) ∧ s' = s ∨
    (∃ fb, e = .device fb ∧ s' = { s with fb }) ∨
    (∃ reg env, e = .update .scrollup reg env ∧ handleScrollup env.malloc s = .ok (0, s')) ∨
    (∃ k env, e = .key k env ∧ ViewMove s s') := by
  obtain ⟨d, h⟩ := h
  cases e with
  | device fb =>
    simp only [step, Except.ok.injEq, Prod.mk.injEq] at h
    exact Or.inr (Or.inl ⟨fb, rfl, h.1.symm⟩)
  | update u reg env =>
    rcases handleUpdate_cases h with ⟨hu, rfl⟩ | ⟨rfl, hs⟩
    · exact Or.inl ⟨fun _ _ he => hu (Event.update.inj he).1, rfl⟩
    · exact Or.inr (Or.inr (Or.inl ⟨reg, env, rfl, hs⟩))
  | key k env =>
    simp only [step] at h
    split at h
    · simp only [Except.ok.injEq, Prod.mk.injEq] at h
      exact Or.inl ⟨by simp, h.1.symm⟩
    · rcases handleKey_cases h with rfl | hm
      · exact Or.inl ⟨by simp, rfl⟩
      · exact Or.inr (Or.inr (Or.inr ⟨k, env, rfl, hm⟩))

/-- What a `SCROLLUP` that saved a line did. -/
theorem Hist.scrollup_of_ok {s s' : Cons} {l : List (Addr × Line)} (H : Hist s l) {choice : Ptr}
    (hr : handleScrollup choice s = .ok (0, s')) :
    ∃ a, s.heap a = none ∧ Hist s' (pushed s.fb a l) ∧ s'.winPtr = s.winPtr ∧
      s'.lineIdx = s.lineIdx := by
  rcases handleScrollup_spec H choice with ⟨-, hr'⟩ | ⟨a, t, -, ha, hr', H', -, -, hw, hi⟩
  · rw [hr', Except.ok.injEq, Prod.mk.injEq] at hr
    exact absurd hr.1 (by decide)
  · rw [hr', Except.ok.injEq, Prod.mk.injEq] at hr
    obtain ⟨-, rfl⟩ := hr
    exact ⟨a, ha, H', hw, hi⟩

/-- A `SCROLLUP` for which the allocator has a block saves the first row. -/
theorem Hist.step_malloc {s : Cons} {l : List (Addr × Line)} (H : Hist s l) (o : Opts)
    (reg : UInt32) (env : Env) {a : Addr} (ha : Heap.malloc s.heap env.malloc = some a) :
    ∃ s', step o s (.update .scrollup reg env) = .ok (s', []) ∧ Hist s' (pushed s.fb a l) ∧
      s'.fb = s.fb ∧ s'.winPtr = s.winPtr ∧ s'.lineIdx = s.lineIdx := by
  rcases handleScrollup_spec H env.malloc with ⟨hm, -⟩ | ⟨b, s', hb, -, hr, H', -, hrest⟩
  · rw [ha] at hm
    cases hm
  · obtain rfl := Option.some.inj ((malloc_eq_some_iff.mp ha).1.symm.trans hb)
    have hcase := scrollupCase_eq_ok_iff.mpr hr
    refine ⟨s', ?_, H', hrest⟩
    simp only [step]
    split
    · simp [nocursesUpdate, hcase]
    · simp [cursesUpdate, hcase]

theorem Hist.step_scrollup {s : Cons} {l : List (Addr × Line)} (H : Hist s l) (o : Opts)
    {a : Addr} (ha : s.heap a = none) :
    ∃ s', Step o s (.update .scrollup 0 { malloc := some a }) s' ∧ Hist s' (pushed s.fb a l) ∧
      s'.fb = s.fb ∧ s'.winPtr = s.winPtr ∧ s'.lineIdx = s.lineIdx := by
  obtain ⟨s', hstep, H', hrest⟩ :=
    H.step_malloc o 0 { malloc := some a } (malloc_eq_some_iff.mpr ⟨rfl, ha⟩)
  exact ⟨s', ⟨[], hstep⟩, H', hrest⟩

/-! ## 2. Moving the view -/

theorem scrollBackLoop_bounds {h : Heap} {cnt : Nat} :
    ∀ {n : Nat} {line line' : Ptr} {idx idx' : Int},
    scrollBackLoop h cnt n line idx = .ok (line', idx') → 0 ≤ idx → idx ≤ cnt →
      cnt ≤ maxHistLines → 0 ≤ idx' ∧ idx' ≤ cnt
  | 0, line, line', idx, idx', h0, hlo, hhi, _ => by
    simp only [scrollBackLoop, Except.ok.injEq, Prod.mk.injEq] at h0
    omega
  | n + 1, line, line', idx, idx', h0, hlo, hhi, hc => by
    obtain ⟨k, rfl⟩ := Int.eq_ofNat_of_zero_le hlo
    rw [scrollBackLoop, toUnsigned_natCast (by omega)] at h0
    split at h0
    · rename_i hk
      obtain ⟨e, -, h1⟩ := bind_eq_ok_iff.mp h0
      split at h1
      · exact scrollBackLoop_bounds h1 (by omega) (by omega) hc
      · simp only [Except.ok.injEq, Prod.mk.injEq] at h1
        omega
    · simp only [Except.ok.injEq, Prod.mk.injEq] at h0
      omega

theorem scrollForwardLoop_bounds {h : Heap} : ∀ {n : Nat} {line line' : Ptr} {idx idx' : Int},
    scrollForwardLoop h n line idx = .ok (line', idx') → 0 ≤ idx → 0 ≤ idx' ∧ idx' ≤ idx
  | 0, line, line', idx, idx', h0, hlo => by
    simp only [scrollForwardLoop, Except.ok.injEq, Prod.mk.injEq] at h0
    omega
  | n + 1, line, line', idx, idx', h0, hlo => by
    rw [scrollForwardLoop] at h0
    split at h0
    · obtain ⟨e, -, h1⟩ := bind_eq_ok_iff.mp h0
      have := scrollForwardLoop_bounds h1 (by omega)
      omega
    · simp only [Except.ok.injEq, Prod.mk.injEq] at h0
      omega

/-- A view move leaves the rest of the console alone and keeps the offset between `0` and the
number of lines. -/
theorem viewMove_bounds {s s' : Cons} (h : ViewMove s s') (hlo : 0 ≤ s.lineIdx)
    (hhi : s.lineIdx ≤ s.histCnt) (hc : s.histCnt ≤ maxHistLines) :
    MovesView s s' ∧ 0 ≤ s'.lineIdx ∧ s'.lineIdx ≤ s.histCnt := by
  have hself : MovesView s s ∧ 0 ≤ s.lineIdx ∧ s.lineIdx ≤ s.histCnt := ⟨⟨_, _, rfl⟩, hlo, hhi⟩
  rcases h with ⟨n, h⟩ | h | rfl
  · rw [scrollOutputWin] at h
    obtain ⟨-, -, h⟩ := bind_eq_ok_iff.mp h
    split at h
    · split at h
      · obtain rfl := Except.ok.inj h
        exact hself
      · obtain ⟨⟨line, idx⟩, h1, h2⟩ := bind_eq_ok_iff.mp h
        obtain rfl := Except.ok.inj h2
        exact ⟨⟨_, _, rfl⟩, scrollBackLoop_bounds h1 hlo hhi hc⟩
    · split at h
      · split at h
        · obtain rfl := Except.ok.inj h
          exact hself
        · obtain ⟨⟨line, idx⟩, h1, h2⟩ := bind_eq_ok_iff.mp h
          obtain rfl := Except.ok.inj h2
          have := scrollForwardLoop_bounds h1 hlo
          exact ⟨⟨_, _, rfl⟩, this.1, by simp only; omega⟩
      · obtain rfl := Except.ok.inj h
        exact hself
  · rw [scrollTop] at h
    split at h
    · obtain ⟨e, -, h⟩ := bind_eq_ok_iff.mp h
      simp only at h
      split at h
      · obtain rfl := Except.ok.inj h
        exact ⟨⟨_, _, rfl⟩, by simp, by simp⟩
      · obtain rfl := Except.ok.inj h
        exact hself
    · obtain rfl := Except.ok.inj h
      exact hself
  · exact ⟨⟨_, _, rfl⟩, by simp [scrollBottom], by simp [scrollBottom]⟩

/-! ## 3. Every reachable console -/

/-- What holds of a console in every run: its heap is a history list, and the view offset
counts lines of it. -/
def Sane (s : Cons) : Prop := ∃ l, Hist s l ∧ 0 ≤ s.lineIdx ∧ s.lineIdx ≤ l.length

theorem Sane.step {o : Opts} {s s' : Cons} {e : Event} (hs : Sane s) (h : Step o s e s') :
    Sane s' := by
  obtain ⟨l, H, hlo, hhi⟩ := hs
  rcases step_cases h with ⟨-, rfl⟩ | ⟨fb, -, rfl⟩ | ⟨reg, env, rfl, hr⟩ | ⟨k, env, rfl, hm⟩
  · exact ⟨l, H, hlo, hhi⟩
  · exact ⟨l, ⟨H.ring, H.cnt, H.le⟩, hlo, hhi⟩
  · obtain ⟨a, -, H', -, hi⟩ := H.scrollup_of_ok hr
    have hle := H.le
    refine ⟨_, H', by rw [hi]; exact hlo, ?_⟩
    rw [hi]
    simp only [pushed, List.length_cons, List.length_take]
    omega
  · rw [← H.cnt] at hhi
    obtain ⟨⟨w, i, rfl⟩, hlo', hhi'⟩ := viewMove_bounds hm hlo hhi (by rw [H.cnt]; exact H.le)
    exact ⟨l, ⟨H.ring, H.cnt, H.le⟩, hlo', by rw [← H.cnt]; exact hhi'⟩

/-- **Run invariant.**  Every console reachable from `console_init` is sane. -/
theorem sane_of_run {o : Opts} {fb₀ : Framebuffer} {es : List Event} {s : Cons}
    (h : Run (Step o) (consoleInit fb₀) es s) : Sane s :=
  h.preserves (fun _ _ _ hs hst => hs.step hst)
    ⟨[], consoleInit_hist fb₀, by simp [consoleInit], by simp [consoleInit]⟩

end Philix.Console
