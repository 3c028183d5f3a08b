/-
# The history list over a run of updates

`runScrollups` hands `handle_scrollup` one update after the other, each with its own
framebuffer and its own allocator outcome.  The return codes are those of the allocator, and
`saved` reads off from them which of the updates saved a line.  The list is then the newest
`maxHistLines` of these, newest first, and the nodes of the others have been freed, in order.
-/
import Philix.Console.Scrollup

namespace Philix.Console

open HalfRing Loop

/-- One `handle_scrollup` per update, with the return codes. -/
def runScrollups : List (Framebuffer × Ptr) → Cons → Except Stop (List Int × Cons)
  | [], s => .ok ([], s)
  | (fb, choice) :: us, s => do
    let (r, s) ← handleScrollup choice { s with fb }
    let (rs, s) ← runScrollups us s
    pure (r :: rs, s)

/-- The updates that returned `0`, oldest first: the node each got and the row it saved. -/
def saved : List (Framebuffer × Ptr) → List Int → List (Addr × Line)
  | (fb, choice) :: us, r :: rs =>
    (if r = 0 then choice.toList.map fun a => (a, fbLine fb 0) else []) ++ saved us rs
  | _, _ => []

/-- The history after the lines `all` were saved, oldest first. -/
def newest (all : List (Addr × Line)) : List (Addr × Line) := all.reverse.take maxHistLines

/-- The lines no longer in the history, oldest first. -/
def evicted (all : List (Addr × Line)) : List (Addr × Line) :=
  all.take (all.length - maxHistLines)

theorem newest_concat (all : List (Addr × Line)) (fb : Framebuffer) (a : Addr) :
    newest (all ++ [(a, fbLine fb 0)]) = pushed fb a (newest all) := by
  simp [newest, pushed, List.take_take, maxHistLines]

/-- One more element drops the oldest of the last `n`. -/
theorem take_sub_concat {α : Type} (l : List α) (x : α) {n : Nat} (hn : 0 < n) :
    (l ++ [x]).take ((l ++ [x]).length - n) =
      l.take (l.length - n) ++ (l.reverse.take n).drop (n - 1) := by
  rw [List.length_append, List.length_singleton]
  rcases Nat.lt_or_ge l.length n with hlt | hge
  · have h1 : (l.reverse.take n).drop (n - 1) = [] :=
      List.drop_eq_nil_of_le (by simp; omega)
    have h2 : l.length + 1 - n = 0 := by omega
    have h3 : l.length - n = 0 := by omega
    rw [h1, h2, h3]
    rfl
  · obtain ⟨k, hk⟩ := Nat.exists_eq_add_of_le' hge
    have h2 : l.length + 1 - n = k + 1 := by omega
    have h3 : l.length - n = k := by omega
    have hkl : k < l.length := by omega
    have h1 : (l.reverse.take n).drop (n - 1) = [l[k]] := by
      have hkr : n - 1 < l.reverse.length := by
        rw [List.length_reverse]
        omega
      have hlast : n - (n - 1) = 1 := by omega
      have hindex : l.length - 1 - (n - 1) = k := by omega
      rw [List.drop_take, List.drop_eq_getElem_cons hkr, hlast]
      simp [hindex]
    rw [h1, h2, h3, List.take_append_of_le_length (by omega), List.take_succ_eq_append_getElem hkl]

theorem evicted_concat (all : List (Addr × Line)) (x : Addr × Line) :
    evicted (all ++ [x]) = evicted all ++ (newest all).drop (maxHistLines - 1) :=
  take_sub_concat all x (by decide)

/-- **A run of `handle_scrollup`**, from a console whose history is that of `all`. -/
theorem runScrollups_spec (us : List (Framebuffer × Ptr)) :
    ∀ (all : List (Addr × Line)) (s : Cons), Hist s (newest all) →
      s.freed = (evicted all).map Prod.fst →
      ∃ rs s', runScrollups us s = .ok (rs, s') ∧ rs.length = us.length ∧
        Hist s' (newest (all ++ saved us rs)) ∧
        s'.freed = (evicted (all ++ saved us rs)).map Prod.fst := by
  induction us with
  | nil =>
    intro all s H hf
    exact ⟨[], s, rfl, rfl, by simpa [saved] using H, by simpa [saved] using hf⟩
  | cons u us ih =>
    intro all s H hf
    obtain ⟨fb, choice⟩ := u
    have H' : Hist { s with fb } (newest all) := ⟨H.ring, H.cnt, H.le⟩
    rcases handleScrollup_spec H' choice with ⟨-, hr⟩ | ⟨a, s₁, rfl, -, hr, H₁, hf₁, -⟩
    · obtain ⟨rs, s', hrun, hlen, hs'⟩ := ih all _ H' hf
      exact ⟨-1 :: rs, s', by simp [runScrollups, hr, hrun], by simp [hlen],
        by simpa [saved] using hs'⟩
    · rw [← newest_concat] at H₁
      have hf₁' : s₁.freed = (evicted (all ++ [(a, fbLine fb 0)])).map Prod.fst := by
        rw [hf₁, evicted_concat, List.map_append, ← hf]
      obtain ⟨rs, s', hrun, hlen, hs'⟩ := ih _ s₁ H₁ hf₁'
      exact ⟨0 :: rs, s', by simp [runScrollups, hr, hrun], by simp [hlen],
        by simpa [saved] using hs'⟩

theorem runScrollups_append (us vs : List (Framebuffer × Ptr)) (s : Cons) :
    runScrollups (us ++ vs) s = (do
      let (rs, s) ← runScrollups us s
      let (rs', s) ← runScrollups vs s
      pure (rs ++ rs', s)) := by
  induction us generalizing s with
  | nil =>
    cases h : runScrollups vs s with
    | error e => simp [runScrollups, h]
    | ok q => simp [runScrollups, h]
  | cons u us ih =>
    obtain ⟨fb, choice⟩ := u
    cases h : handleScrollup choice { s with fb } with
    | error e => simp [runScrollups, h]
    | ok q =>
      cases hus : runScrollups us q.2 with
      | error e => simp [runScrollups, h, ih, hus]
      | ok q₁ =>
        cases hvs : runScrollups vs q₁.2 with
        | error e => simp [runScrollups, h, ih, hus, hvs]
        | ok q₂ => simp [runScrollups, h, ih, hus, hvs]

/-- What `handle_scrollup` returns when the allocator gives it `new`. -/
def scrollupCode (new : Option Addr) : Int := if new.isSome then 0 else -1

/-- The return code of an update in a run is that of the allocator at that point. -/
theorem runScrollups_code {us vs : List (Framebuffer × Ptr)} {fb : Framebuffer} {choice : Ptr}
    {s s' : Cons} {rs : List Int} {all : List (Addr × Line)} (H : Hist s (newest all))
    (hf : s.freed = (evicted all).map Prod.fst)
    (hrun : runScrollups (us ++ (fb, choice) :: vs) s = .ok (rs, s')) :
    ∃ rs₁ s₁, runScrollups us s = .ok (rs₁, s₁) ∧
      rs[us.length]? = some (scrollupCode (Heap.malloc s₁.heap choice)) := by
  obtain ⟨rs₁, s₁, hus, hlen, H₁, -⟩ := runScrollups_spec us all s H hf
  have H₁' : Hist { s₁ with fb } (newest (all ++ saved us rs₁)) := ⟨H₁.ring, H₁.cnt, H₁.le⟩
  refine ⟨rs₁, s₁, hus, ?_⟩
  obtain ⟨r, s₂, hr, hcode⟩ : ∃ r s₂, handleScrollup choice { s₁ with fb } = .ok (r, s₂) ∧
      r = scrollupCode (Heap.malloc s₁.heap choice) := by
    rcases handleScrollup_spec H₁' choice with ⟨hm, hr⟩ | ⟨a, s₂, hc, hfree, hr, -⟩
    · have hm' : Heap.malloc s₁.heap choice = none := hm
      exact ⟨_, _, hr, by simp [scrollupCode, hm']⟩
    · have hm' : Heap.malloc s₁.heap choice = some a := malloc_eq_some_iff.mpr ⟨hc, hfree⟩
      exact ⟨_, _, hr, by simp [scrollupCode, hm']⟩
  rw [runScrollups_append, hus] at hrun
  simp only [ok_bind, runScrollups, hr] at hrun
  cases hvs : runScrollups vs s₂ with
  | error e => simp [hvs] at hrun
  | ok q =>
    simp only [hvs, ok_bind, pure_eq_ok, Except.ok.injEq, Prod.mk.injEq] at hrun
    rw [← hrun.1, ← hlen, List.getElem?_append_right (Nat.le_refl _), Nat.sub_self, hcode]
    rfl

theorem consoleInit_hist (fb : Framebuffer) : Hist (consoleInit fb) [] :=
  ⟨⟨rfl, by simp, by simp, fun _ _ => rfl⟩, rfl, by simp⟩

/-- **The representation of the history.**  After any sequence of `SCROLLUP` updates, each
with any framebuffer and any outcome of the allocator, no assertion failed and no pointer was
bad.  With `all` the lines the successful updates saved:

* `line_hist` is null iff there are none;
* following `next` from `line_hist` visits the newest `hist_cnt = min n MAX_HIST_LINES` lines,
  newest first, on distinct nodes, and ends in null;
* the `next` of a node has that node as its `prev`, and the head's `prev` is the last node;
* the live nodes are these, and the nodes of all older lines were freed, once each;
* an update returned `0` if `malloc` gave it a node in the console it came to, else `-1`;
* one more update whose `malloc` gives `a` returns `0`, and the first row of the framebuffer,
  on the node `a`, is the new head; one whose `malloc` fails returns `-1` and changes
  nothing. -/
theorem history_representation (fb₀ : Framebuffer) (us : List (Framebuffer × Ptr)) :
    ∃ rs s, runScrollups us (consoleInit fb₀) = .ok (rs, s) ∧ rs.length = us.length ∧
      let all := saved us rs
      let l := all.reverse.take maxHistLines
      (s.lineHist = none ↔ all.length = 0) ∧
      Path s.heap s.lineHist l ∧ (l.map Prod.fst).Nodup ∧
      s.histCnt = l.length ∧ l.length = min all.length maxHistLines ∧
      (∀ a b n m, s.heap a = some n → n.next = some b → s.heap b = some m →
        m.prev = some a) ∧
      (∀ a n, s.lineHist = some a → s.heap a = some n → n.prev = lastAddr l) ∧
      (∀ a, s.heap a ≠ none ↔ a ∈ l.map Prod.fst) ∧
      s.freed = (all.take (all.length - maxHistLines)).map Prod.fst ∧
      (∀ us₁ fb choice us₂, us = us₁ ++ (fb, choice) :: us₂ →
        ∃ rs₁ s₁, runScrollups us₁ (consoleInit fb₀) = .ok (rs₁, s₁) ∧
          rs[us₁.length]? = some (scrollupCode (Heap.malloc s₁.heap choice))) ∧
      (∀ fb choice a, Heap.malloc s.heap choice = some a →
        ∃ s', handleScrollup choice { s with fb } = .ok (0, s') ∧
          Path s'.heap s'.lineHist ((a, fbLine fb 0) :: l.take (maxHistLines - 1)) ∧
          s'.histCnt = min (all.length + 1) maxHistLines) ∧
      (∀ fb choice, Heap.malloc s.heap choice = none →
        handleScrollup choice { s with fb } = .ok (-1, { s with fb })) := by
  obtain ⟨rs, s, hrun, hlen, H, hf⟩ :=
    runScrollups_spec us [] (consoleInit fb₀) (consoleInit_hist fb₀) rfl
  rw [List.nil_append] at H hf
  have Hfb (fb : Framebuffer) : Hist { s with fb } (newest (saved us rs)) :=
    ⟨H.ring, H.cnt, H.le⟩
  refine ⟨rs, s, hrun, hlen, ?_, H.ring.path, H.ring.nodup, H.cnt, ?_, ?_, ?_, ?_, hf, ?_, ?_, ?_⟩
  · rw [H.ring.head_none_iff, newest, ← List.length_eq_zero_iff]
    simp [maxHistLines]
  · simp [Nat.min_comm]
  · exact fun a b n m => H.ring.prev_of_next
  · exact fun a n => H.ring.head_prev
  · exact fun a => H.ring.live_iff
  · rintro us₁ fb choice us₂ rfl
    have H₀ : Hist (consoleInit fb₀) (newest []) := consoleInit_hist fb₀
    exact runScrollups_code H₀ rfl hrun
  · intro fb choice a ha
    rcases handleScrollup_spec (Hfb fb) choice with ⟨hm, -⟩ | ⟨b, s', hc, -, hr, H', -⟩
    · exact absurd (hm.symm.trans ha) (by simp)
    · obtain rfl : b = a := Option.some.inj (hc.symm.trans (malloc_eq_some_iff.mp ha).1)
      refine ⟨s', hr, H'.ring.path, ?_⟩
      rw [H'.cnt, pushed, List.length_cons, List.length_take, newest, List.length_take,
        List.length_reverse]
      simp only [maxHistLines]
      omega
  · intro fb choice hm
    rcases handleScrollup_spec (Hfb fb) choice with ⟨-, hr⟩ | ⟨b, s', hc, hfree, -⟩
    · exact hr
    · have hm' : Heap.malloc s.heap choice = some b := malloc_eq_some_iff.mpr ⟨hc, hfree⟩
      exact absurd (hm.symm.trans hm') (by simp)

end Philix.Console
