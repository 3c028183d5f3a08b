/-
# When the view points at a live line

Eviction frees the oldest line without looking at `win_ptr`.  The view is safe exactly as
long as no `SCROLLUP` arrives with the history full and `win_ptr` on the oldest line.

`Viewing` is the invariant: the view is at the bottom, or `win_ptr` is the line at some
position of the list that is at most one short of the offset.  The second half keeps the
forward scroll on the list: `prev` of the newest line goes round to the oldest, and the
offset is used up before a second step could leave from there.
-/
import Philix.Console.View

namespace Philix.Console

open HalfRing Lts Loop

/-- The view is at the bottom, or `win_ptr` is a line of the list. -/
def Viewing (s : Cons) (l : List (Addr × Line)) : Prop :=
  s.winPtr = none ∧ s.lineIdx = 0 ∨
  ∃ p k : Nat, p < l.length ∧ k ≤ p + 1 ∧ s.winPtr = addrAt l p ∧ s.lineIdx = k

/-- `win_ptr` is null, or on the list that starts at `line_hist`. -/
def ViewLive (s : Cons) : Prop :=
  s.winPtr = none ∨
  ∃ l a, Path s.heap s.lineHist l ∧ s.winPtr = some a ∧ a ∈ l.map Prod.fst

/-- The event frees the line the view is on. -/
def EvictsView (s : Cons) : Event → Prop
  | .update .scrollup _ _ =>
    s.histCnt = maxHistLines ∧ ∃ n, s.heap.load s.lineHist = .ok n ∧ n.prev = s.winPtr
  | _ => False

section Viewing

variable {s s' : Cons} {l : List (Addr × Line)}

theorem Viewing.viewLive (H : Hist s l) (hv : Viewing s l) : ViewLive s := by
  rcases hv with ⟨hw, -⟩ | ⟨p, k, hp, -, hw, -⟩
  · exact Or.inl hw
  · rw [addrAt_of_lt hp] at hw
    exact Or.inr ⟨l, _, H.ring.path, hw, mem_of_addrAt (addrAt_of_lt hp)⟩

/-- Where a scroll starts from. -/
theorem Viewing.position (H : Hist s l) (hv : Viewing s l) (hl : l ≠ []) :
    ∃ p k : Nat, p < l.length ∧ k ≤ p + 1 ∧ viewLine s = addrAt l p ∧ s.lineIdx = k ∧
      (s.winPtr = none → k = 0) := by
  rcases hv with ⟨hw, hidx⟩ | ⟨p, k, hp, hk, hw, hidx⟩
  · exact ⟨0, 0, List.length_pos_iff.mpr hl, by omega, by rw [viewLine, if_pos hw, H.ring.head_eq],
      hidx, fun _ => rfl⟩
  · have hne : s.winPtr ≠ none := by rw [hw, addrAt_of_lt hp]; simp
    exact ⟨p, k, hp, hk, by rw [viewLine, if_neg hne, hw], hidx, fun e => absurd e hne⟩

theorem Viewing.empty (hv : Viewing s []) : s.winPtr = none := by
  rcases hv with ⟨hw, -⟩ | ⟨p, k, hp, -⟩
  · exact hw
  · simp at hp

/-! ## 1. The view keys -/

/-- A scroll on a non-empty history completes and leaves the view on a line of the list. -/
theorem scrollOutputWin_viewing (H : Hist s l) (hv : Viewing s l) (hl : l ≠ []) (m : Int) :
    ∃ w i, scrollOutputWin m s = .ok { s with winPtr := w, lineIdx := i } ∧
      Viewing { s with winPtr := w, lineIdx := i } l := by
  obtain ⟨p, k, hp, hk, hline, hidx, hnone⟩ := hv.position H hl
  have hpos : 0 < l.length := by omega
  obtain ⟨n, rfl | rfl⟩ := Int.eq_nat_or_neg m
  · rcases Nat.eq_zero_or_pos n with rfl | hn
    · refine ⟨s.winPtr, s.lineIdx, ?_, hv⟩
      rw [viewLine] at hline
      simp [scrollOutputWin, hline, addrAt_of_lt hp]
    · exact ⟨_, _, scrollOutputWin_back H hn hp (by omega) hline hidx hnone,
        Or.inr ⟨_, _, by omega, by omega, rfl, rfl⟩⟩
  · rcases Nat.eq_zero_or_pos n with rfl | hn
    · refine ⟨s.winPtr, s.lineIdx, ?_, hv⟩
      rw [viewLine] at hline
      simp [scrollOutputWin, hline, addrAt_of_lt hp]
    · refine ⟨_, _, scrollOutputWin_forward H hn hp hk hline hidx, ?_⟩
      by_cases hk0 : k = 0
      · -- already at the bottom: nothing moves
        subst hk0
        simpa [Viewing, hidx] using hv
      · rw [if_neg hk0]
        by_cases hm : min n k ≤ p
        · rw [if_pos hm]
          exact Or.inr ⟨p - min n k, k - min n k, by omega, by omega, rfl, rfl⟩
        · rw [if_neg hm]
          exact Or.inr ⟨l.length - 1, k - min n k, by omega, by omega, lastAddr_eq l, rfl⟩

theorem scrollTop_viewing (H : Hist s l) (hv : Viewing s l) :
    ∃ w i, scrollTop s = .ok { s with winPtr := w, lineIdx := i } ∧
      Viewing { s with winPtr := w, lineIdx := i } l := by
  rw [scrollTop_eq H]
  by_cases hl : l = []
  · exact ⟨s.winPtr, s.lineIdx, by rw [if_pos hl], hv⟩
  · have hpos : 0 < l.length := List.length_pos_iff.mpr hl
    refine ⟨lastAddr l, l.length, by rw [if_neg hl], Or.inr ⟨l.length - 1, l.length, ?_⟩⟩
    exact ⟨by omega, by omega, lastAddr_eq l, rfl⟩

theorem Viewing.move (H : Hist s l) (hv : Viewing s l) (h : ViewMove s s') :
    Hist s' l ∧ Viewing s' l := by
  rcases h with ⟨m, h⟩ | h | rfl
  · by_cases hl : l = []
    · subst hl
      rw [scrollOutputWin_empty (H.ring.head_none_iff.mpr rfl) hv.empty] at h
      cases h
    · obtain ⟨w, i, hr, hv'⟩ := scrollOutputWin_viewing H hv hl m
      obtain rfl := Except.ok.inj (hr.symm.trans h)
      exact ⟨⟨H.ring, H.cnt, H.le⟩, hv'⟩
  · obtain ⟨w, i, hr, hv'⟩ := scrollTop_viewing H hv
    obtain rfl := Except.ok.inj (hr.symm.trans h)
    exact ⟨⟨H.ring, H.cnt, H.le⟩, hv'⟩
  · exact ⟨⟨H.ring, H.cnt, H.le⟩, Or.inl ⟨rfl, rfl⟩⟩

/-! ## 2. Saving a line under the view -/

/-- The event frees the line the view is on iff the list is full and that line is the last. -/
theorem evictsView_iff (H : Hist s l) {reg : UInt32} {env : Env} :
    EvictsView s (.update .scrollup reg env) ↔
      l.length = maxHistLines ∧ s.winPtr = lastAddr l := by
  simp only [EvictsView, H.cnt]
  refine and_congr_right fun hlen => ?_
  have hpos : 0 < l.length := by rw [hlen]; decide
  rw [H.ring.head_eq, addrAt_of_lt hpos, load_some (H.ring.cell 0 hpos)]
  simp [prevAt, eq_comm]

theorem EvictsView.not_of_ne {e : Event} (he : ∀ reg env, e ≠ .update .scrollup reg env) :
    ¬ EvictsView s e := by
  intro h
  cases e with
  | device fb => exact h
  | key k env => exact h
  | update u reg env =>
    cases u with
    | scrollup => exact he reg env rfl
    | _ => exact h

theorem Viewing.scrollup (hv : Viewing s l) (hle : l.length ≤ maxHistLines) {a : Addr}
    (hwin : s'.winPtr = s.winPtr) (hidx : s'.lineIdx = s.lineIdx)
    (hkeep : ¬(l.length = maxHistLines ∧ s.winPtr = lastAddr l)) :
    Viewing s' (pushed s.fb a l) := by
  rcases hv with ⟨hw, hi⟩ | ⟨p, k, hp, hk, hw, hi⟩
  · exact Or.inl ⟨hwin.trans hw, hidx.trans hi⟩
  · have hp' : p < maxHistLines - 1 := by
      by_contra hge
      refine hkeep ⟨by omega, ?_⟩
      rw [hw, lastAddr_eq]
      congr 1
      omega
    refine Or.inr ⟨p + 1, k, ?_, by omega, ?_, hidx.trans hi⟩
    · simp only [pushed, List.length_cons, List.length_take]
      omega
    · rw [hwin, hw, pushed, addrAt_cons_succ, addrAt, addrAt, List.getElem?_take_of_lt hp']

theorem not_viewLive_of_evicts (H : Hist s l) (hlen : l.length = maxHistLines)
    (hlast : s.winPtr = lastAddr l) {a : Addr} (ha : s.heap a = none)
    (H' : Hist s' (pushed s.fb a l)) (hwin : s'.winPtr = s.winPtr) : ¬ ViewLive s' := by
  obtain ⟨l₁, x, rfl⟩ : ∃ l₁ x, l = l₁ ++ [x] :=
    (List.eq_nil_or_concat' l).resolve_left (by rintro rfl; simp [maxHistLines] at hlen)
  have hx : s'.winPtr = some x.1 := by rw [hwin, hlast, lastAddr_concat]
  have htake : (l₁ ++ [x]).take (maxHistLines - 1) = l₁ := by
    rw [← hlen, List.length_append, List.length_singleton, Nat.add_sub_cancel, List.take_left]
  rintro (h | ⟨m, b, hpath, hb, hmem⟩)
  · rw [hx] at h
    cases h
  · obtain rfl := Option.some.inj (hx.symm.trans hb)
    have hin := H'.ring.live_iff.mp (hpath.live hmem)
    rw [pushed, htake, List.map_cons, List.mem_cons] at hin
    rcases hin with rfl | hin
    · exact H.ring.live_iff.mpr (by simp) ha
    · have hnd := H.ring.nodup
      rw [List.map_append, List.nodup_append'] at hnd
      exact hnd.2.2 hin (by simp)

/-! ## 3. No event loads a freed line -/

theorem bind_ne_useAfterFree {α β : Type} {x : Except Stop α} {f : α → Except Stop β}
    (hx : x ≠ .error .useAfterFree) (hf : ∀ a, x = .ok a → f a ≠ .error .useAfterFree) :
    (x >>= f) ≠ .error .useAfterFree := by
  cases x with
  | ok a => exact hf a rfl
  | error e => exact fun h => hx (congrArg _ (Except.error.inj h))

theorem assert_ne_useAfterFree (b : Bool) : assert b ≠ .error .useAfterFree := by
  cases b <;> simp

theorem Viewing.draw (H : Hist s l) (hv : Viewing s l) : ∃ d, drawOutputWin s = .ok d := by
  by_cases h0 : s.lineIdx = 0
  · exact ⟨_, drawOutputWin_bottom h0⟩
  · rcases hv with ⟨-, hidx⟩ | ⟨p, k, hp, hk, hw, hidx⟩
    · exact absurd hidx h0
    · exact ⟨_, drawOutputWin_eq H hp (by omega) hw hidx⟩

theorem Viewing.draw_ne (H : Hist s l) (hv : Viewing s l) :
    drawOutputWin s ≠ .error .useAfterFree := by
  obtain ⟨d, hd⟩ := hv.draw H
  simp [hd]

theorem Viewing.viewKey_ne {f : Cons → Except Stop Cons} (H : Hist s l) (hv : Viewing s l)
    (hmove : ∀ s', f s = .ok s' → ViewMove s s') (hm : f s ≠ .error .useAfterFree) :
    viewKey f s ≠ .error .useAfterFree := by
  refine bind_ne_useAfterFree hm fun s' hs' => ?_
  obtain ⟨H', hv'⟩ := hv.move H (hmove s' hs')
  exact bind_ne_useAfterFree (hv'.draw_ne H') fun d _ => by simp

theorem Viewing.scroll_ne (H : Hist s l) (hv : Viewing s l) (m : Int) :
    scrollOutputWin m s ≠ .error .useAfterFree := by
  by_cases hl : l = []
  · subst hl
    rw [scrollOutputWin_empty (H.ring.head_none_iff.mpr rfl) hv.empty]
    simp
  · obtain ⟨w, i, hr, -⟩ := scrollOutputWin_viewing H hv hl m
    simp [hr]

theorem dump_ne_useAfterFree (H : Hist s l) (env : Env) : dump env s ≠ .error .useAfterFree := by
  rw [dump]
  cases env.fopen with
  | false => simp [dumpConsoleToFile]
  | true =>
    rw [dumpConsoleToFile_eq H.ring (by rw [H.cnt]; omega)]
    split <;> simp

theorem scrollupCase_ne_useAfterFree (H : Hist s l) (env : Env) :
    scrollupCase env s ≠ .error .useAfterFree := by
  rcases handleScrollup_spec H env.malloc with ⟨-, hr⟩ | ⟨a, t, -, -, hr, -⟩ <;>
    simp [scrollupCase, hr]

/-- **From a console whose view is on the list, no event loads a freed line.** -/
theorem Viewing.step_ne (H : Hist s l) (hv : Viewing s l) (o : Opts) (e : Event) :
    step o s e ≠ .error .useAfterFree := by
  cases e with
  | device fb => simp [step]
  | update u reg env =>
    have hdump : (do let _ ← dump env s; .error .exited : Except Stop (Cons × List DrawCall)) ≠
        .error .useAfterFree := bind_ne_useAfterFree (dump_ne_useAfterFree H env) fun _ _ => by simp
    have hscroll : (do pure (← scrollupCase env s, []) : Except Stop (Cons × List DrawCall)) ≠
        .error .useAfterFree :=
      bind_ne_useAfterFree (scrollupCase_ne_useAfterFree H env) fun _ _ => by simp
    simp only [step]
    split
    · cases u with
      | consoleShutdown => exact hdump
      | scrollup => exact hscroll
      | _ => simp [nocursesUpdate]
    · cases u with
      | consoleShutdown =>
        simp only [cursesUpdate]
        split
        · exact hdump
        · simp
      | scrollup => exact hscroll
      | lineDrawn =>
        exact bind_ne_useAfterFree
          (bind_ne_useAfterFree (assert_ne_useAfterFree _) fun _ _ => hv.draw_ne H)
          fun _ _ => by simp
      | screenRedraw => exact bind_ne_useAfterFree (hv.draw_ne H) fun _ _ => by simp
      | _ => simp [cursesUpdate]
  | key k env =>
    simp only [step]
    split
    · simp
    · cases k with
      | up => exact hv.viewKey_ne H (fun s' h => Or.inl ⟨_, h⟩) (hv.scroll_ne H _)
      | down => exact hv.viewKey_ne H (fun s' h => Or.inl ⟨_, h⟩) (hv.scroll_ne H _)
      | npage => exact hv.viewKey_ne H (fun s' h => Or.inl ⟨_, h⟩) (hv.scroll_ne H _)
      | ppage => exact hv.viewKey_ne H (fun s' h => Or.inl ⟨_, h⟩) (hv.scroll_ne H _)
      | g =>
        obtain ⟨w, i, hr, -⟩ := scrollTop_viewing H hv
        exact hv.viewKey_ne H (fun s' h => Or.inr (Or.inl h)) (by simp [hr])
      | shiftG =>
        exact Viewing.viewKey_ne (f := fun s => .ok (scrollBottom s)) H hv
          (fun s' h => Or.inr (Or.inr (Except.ok.inj h).symm)) (by simp)
      | o => exact bind_ne_useAfterFree (dump_ne_useAfterFree H env) fun _ _ => by simp
      | other => simp [handleKey]

end Viewing

/-! ## 4. Runs -/

/-- The invariant of the runs that free no line under the view. -/
def ViewSafe (s : Cons) : Prop := ∃ l, Hist s l ∧ Viewing s l

theorem viewSafe_init (fb : Framebuffer) : ViewSafe (consoleInit fb) :=
  ⟨[], consoleInit_hist fb, Or.inl ⟨rfl, rfl⟩⟩

section Runs

variable {o : Opts} {s s' : Cons} {e : Event}

/-- The step lemma: an event that does not free the line under the view keeps the invariant. -/
theorem ViewSafe.step (hs : ViewSafe s) (h : Step o s e s') (hC : ¬ EvictsView s e) :
    ViewSafe s' := by
  obtain ⟨l, H, hv⟩ := hs
  rcases step_cases h with ⟨-, rfl⟩ | ⟨fb, -, rfl⟩ | ⟨reg, env, rfl, hr⟩ | ⟨k, env, rfl, hm⟩
  · exact ⟨l, H, hv⟩
  · exact ⟨l, ⟨H.ring, H.cnt, H.le⟩, hv⟩
  · obtain ⟨a, -, H', hw, hi⟩ := H.scrollup_of_ok hr
    exact ⟨_, H', hv.scrollup H.le hw hi (fun hc => hC ((evictsView_iff H).mpr hc))⟩
  · exact ⟨l, hv.move H hm⟩

/-- From a safe console the event lands in a live view iff it does not free the line there. -/
theorem viewLive_iff_not_evicts (hs : ViewSafe s) (h : Step o s e s') :
    ViewLive s' ↔ ¬ EvictsView s e := by
  constructor
  · intro hlive hC
    obtain ⟨l, H, hv⟩ := hs
    rcases step_cases h with ⟨he, -⟩ | ⟨fb, rfl, -⟩ | ⟨reg, env, rfl, hr⟩ | ⟨k, env, rfl, -⟩
    · exact EvictsView.not_of_ne he hC
    · exact hC
    · obtain ⟨a, ha, H', hw, -⟩ := H.scrollup_of_ok hr
      obtain ⟨hlen, hlast⟩ := (evictsView_iff H).mp hC
      exact not_viewLive_of_evicts H hlen hlast ha H' hw hlive
    · exact hC
  · intro hC
    obtain ⟨l, H, hv⟩ := hs.step h hC
    exact hv.viewLive H

end Runs

/-- **When the view points at a live line.**  In every run, `win_ptr` stays null or on the
list reachable from `line_hist` iff no `SCROLLUP` of the run meets a full history with
`win_ptr` on its oldest line; and after a run without such a step no event loads a freed
line. -/
theorem view_live_iff_no_eviction (o : Opts) (fb₀ : Framebuffer) (es : List Event) (s : Cons) :
    (Run (Into (Step o) ViewLive) (consoleInit fb₀) es s ↔
      Run (Restrict (Step o) fun s e => ¬ EvictsView s e) (consoleInit fb₀) es s) ∧
    (Run (Restrict (Step o) fun s e => ¬ EvictsView s e) (consoleInit fb₀) es s →
      ∀ e, step o s e ≠ .error .useAfterFree) := by
  refine ⟨run_target_iff_run_guard (fun _ _ _ hs h hC => hs.step h hC)
    (fun _ _ _ hs h => viewLive_iff_not_evicts hs h) (viewSafe_init fb₀), fun h e => ?_⟩
  obtain ⟨l, H, hv⟩ := h.preserves (fun _ _ _ hs h => hs.step h.1 h.2) (viewSafe_init fb₀)
  exact hv.step_ne H o e

/-! ## 5. A full history, scrolled to its top -/

/-- `n` lines saved, at the addresses `1, .., n`. -/
def scrollups (n : Nat) : List Event :=
  (List.range n).map fun i => .update .scrollup 0 { malloc := some (i + 1) }

/-- An address above those of the history is free. -/
theorem Hist.fresh {s : Cons} {l : List (Addr × Line)} (H : Hist s l) {n : Nat}
    (hle : ∀ x ∈ l, x.1 ≤ n) : s.heap (n + 1) = none := by
  refine H.ring.frame _ fun hmem => ?_
  obtain ⟨x, hx, hxn⟩ := List.mem_map.mp hmem
  exact Nat.not_succ_le_self n (Nat.le_trans (Nat.le_of_eq hxn.symm) (hle x hx))

theorem run_scrollups (o : Opts) (fb : Framebuffer) : ∀ n, n ≤ maxHistLines →
    ∃ s l, Run (Step o) (consoleInit fb) (scrollups n) s ∧ Hist s l ∧ l.length = n ∧
      (∀ x ∈ l, x.1 ≤ n) ∧ s.winPtr = none ∧ s.lineIdx = 0
  | 0, _ => ⟨_, [], Run.refl _, consoleInit_hist fb, rfl, by simp, rfl, rfl⟩
  | n + 1, hn => by
    obtain ⟨s, l, hrun, H, hlen, hle, hw, hi⟩ := run_scrollups o fb n (by omega)
    obtain ⟨s', hstep, H', -, hw', hi'⟩ := H.step_scrollup o (H.fresh hle)
    refine ⟨s', _, ?_, H', ?_, ?_, hw'.trans hw, hi'.trans hi⟩
    · rw [scrollups, List.range_succ, List.map_append]
      exact hrun.snoc hstep
    · simp only [pushed, List.length_cons, List.length_take]
      omega
    · intro x hx
      rcases List.mem_cons.mp hx with rfl | hx
      · exact Nat.le_refl _
      · exact Nat.le_succ_of_le (hle x (List.mem_of_mem_take hx))

/-- A full history, `g`, and one more `SCROLLUP`: the view is left on the freed oldest line,
and the next redraw loads it. -/
theorem view_left_on_freed_line :
    ∃ s, Run (Step ⟨false, false⟩) (consoleInit fun _ => 0)
        (scrollups maxHistLines ++ [.key .g {},
          .update .scrollup 0 { malloc := some (maxHistLines + 1) }]) s ∧
      ¬ ViewLive s ∧ step ⟨false, false⟩ s (.update .screenRedraw 0 {}) = .error .useAfterFree := by
  obtain ⟨s₁, l, hrun, H, hlen, hle, hw, hi⟩ :=
    run_scrollups ⟨false, false⟩ (fun _ => 0) maxHistLines (Nat.le_refl _)
  have hl : l ≠ [] := by rintro rfl; simp [maxHistLines] at hlen
  have hpos : 0 < l.length := List.length_pos_iff.mpr hl
  -- `g` puts the view on the oldest line
  have htop := scrollTop_eq H
  rw [if_neg hl] at htop
  have H₂ : Hist { s₁ with winPtr := lastAddr l, lineIdx := l.length } l := ⟨H.ring, H.cnt, H.le⟩
  have hdraw := drawOutputWin_eq H₂ (p := l.length - 1) (k := l.length) (by omega)
    hpos (lastAddr_eq l) rfl
  have hg : Step ⟨false, false⟩ s₁ (.key .g {}) _ := ⟨_, viewKey_of_ok htop hdraw⟩
  -- the next line evicts it
  obtain ⟨s₃, hstep, H₃, -, hw₃, hi₃⟩ := H₂.step_scrollup ⟨false, false⟩ (H.fresh hle)
  have hdead := not_viewLive_of_evicts H₂ hlen rfl (H.fresh hle) H₃ hw₃
  refine ⟨s₃, hrun.append (Run.cons hg (Run.cons hstep (Run.refl s₃))), hdead, ?_⟩
  -- the redraw starts at the freed node
  have hlast : lastAddr l = some l[l.length - 1].1 := by
    rw [lastAddr_eq, addrAt_of_lt (by omega)]
  have hx : s₃.winPtr = some l[l.length - 1].1 := hw₃.trans hlast
  have hgone : s₃.heap l[l.length - 1].1 = none := by
    by_contra hlive
    exact hdead (Or.inr ⟨_, _, H₃.ring.path, hx, H₃.ring.live_iff.mp hlive⟩)
  have hnhead : s₃.lineHist ≠ some l[l.length - 1].1 := by
    intro hh
    exact hdead (Or.inr ⟨_, _, H₃.ring.path, hx, mem_of_addrAt (H₃.ring.head_eq ▸ hh)⟩)
  have hfault : drawOutputWin s₃ = .error .useAfterFree := by
    have hidx : s₃.lineIdx = l.length := hi₃
    rw [drawOutputWin, if_neg (by omega), if_pos (by rw [hidx, hlen]; decide), hx]
    simp [drawHistBuf, phiFbHeight, drawHistBufLoop, hnhead, Heap.load, hgone]
  simp [step, cursesUpdate, hfault]

end Philix.Console
