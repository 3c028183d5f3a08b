/-
# The mailbox hands updates on in order, each at most once

Whatever the polls do, and whatever `OUTPUT_DRAWN` holds at the start, a value the host
reads from `OUTPUT_AVAIL` was written by the last post, and that post is newer than any the
host has handled.  `Fresh` says so for each place the host can be in.  It holds although the
device may run ahead on a stale acknowledgement: what it writes over is then lost, but what
is read is still the newest write, and between two reads the register has been cleared.
-/
import Philix.Mailbox.Protocol

namespace Philix.Mailbox

open Philix.Console (UpdateType)
open Lts

/-- `OUTPUT_AVAIL` clear, any value in `OUTPUT_DRAWN`. -/
def State.start (drawn : UInt32) : State := { State.init with drawn := drawn }

/-- The handled updates are posts, each read as its own type, in the order they were posted
in, and all older than the `n`th post. -/
structure InOrder (s : State) (n : Nat) : Prop where
  sorted : (s.handled.map Handled.nth).Pairwise (· < ·)
  own : ∀ h ∈ s.handled, s.posted[h.nth]?.map Post.type = some h.type
  older : ∀ h ∈ s.handled, h.nth < n

/-- The oldest post the host may still handle: the one in its hand, or the last one while the
register holds it, or the one to come. -/
def State.next (s : State) : Nat :=
  match s.host with
  | .polling | .acking _ => if s.avail = 0 then s.posted.length else s.posted.length - 1
  | .switching u nth => if u = .noUpdate then s.posted.length else nth
  | .clearing _ | .stopped => s.posted.length

/-- What the host may rely on: all it has handled is older than what it can still come to
handle, an update in its hand is of its post's type, and `OUTPUT_AVAIL` is clear or holds
what the last post wrote. -/
structure Fresh (s : State) : Prop where
  order : InOrder s s.next
  hand : ∀ u nth, s.host = .switching u nth → u ≠ .noUpdate →
    s.posted[nth]?.map Post.type = some u
  last : s.avail = 0 ∨ ∃ ps p, s.posted = ps ++ [p] ∧ s.avail = p.avail

section

variable {nocurses : Bool} {s s' : State} {a : Act} {m n : Nat}

/-! ## 1. The history -/

/-- The order is about the history only, and a later bound is a weaker one. -/
theorem InOrder.congr (h : InOrder s m) (hh : s'.handled = s.handled)
    (hp : s'.posted = s.posted) (hmn : m ≤ n) : InOrder s' n :=
  ⟨hh ▸ h.sorted, hh ▸ hp ▸ h.own, fun x hx => Nat.lt_of_lt_of_le (h.older x (hh ▸ hx)) hmn⟩

theorem lt_of_type {l : List Post} {i : Nat} {u : UpdateType}
    (h : l[i]?.map Post.type = some u) : i < l.length := by
  obtain ⟨p, hp, -⟩ := Option.map_eq_some_iff.mp h
  exact (List.getElem?_eq_some_iff.mp hp).1

/-- One more post leaves the earlier ones where they are. -/
theorem type_of_append {l : List Post} {i : Nat} {u : UpdateType} (p : Post)
    (h : l[i]?.map Post.type = some u) : (l ++ [p])[i]?.map Post.type = some u := by
  rwa [List.getElem?_append_left (lt_of_type h)]

theorem InOrder.post (h : InOrder s m) (p : Post) (hmn : m ≤ n) : InOrder (s.post p) n :=
  ⟨h.sorted, fun x hx => type_of_append p (h.own x hx),
    fun x hx => Nat.lt_of_lt_of_le (h.older x hx) hmn⟩

/-- Handling a post newer than all handled ones. -/
theorem InOrder.handle {u : UpdateType} (h : InOrder s n)
    (hu : s.posted[n]?.map Post.type = some u) (pc : HostPc) :
    InOrder (s.handle nocurses u n pc) s.posted.length := by
  have hlt : n < s.posted.length := lt_of_type hu
  refine ⟨?_, ?_, ?_⟩
  · simp only [State.handle, List.map_append, List.map_cons, List.map_nil, List.pairwise_append]
    refine ⟨h.sorted, by simp, ?_⟩
    intro i hi j hj
    obtain ⟨x, hx, rfl⟩ := List.mem_map.mp hi
    obtain rfl := List.mem_singleton.mp hj
    exact h.older x hx
  · intro x hx
    rcases List.mem_append.mp hx with hx | hx
    · exact h.own x hx
    · obtain rfl := List.mem_singleton.mp hx
      exact hu
  · intro x hx
    rcases List.mem_append.mp hx with hx | hx
    · exact Nat.lt_trans (h.older x hx) hlt
    · obtain rfl := List.mem_singleton.mp hx
      exact hlt

/-- The types handled, read off from the posts they came from. -/
theorem InOrder.sublist (h : InOrder s n) :
    (s.handled.map Handled.type).Sublist (s.posted.map Post.type) := by
  have hlt : ∀ x ∈ s.handled, x.nth < (s.posted.map Post.type).length := by
    intro x hx
    rw [List.length_map]
    exact lt_of_type (h.own x hx)
  have hsorted : (s.handled.pmap (fun x hx => (⟨x.nth, hx⟩ : Fin _)) hlt).Pairwise (· < ·) := by
    refine List.Pairwise.pmap (List.pairwise_map.mp h.sorted) _ ?_
    intro x _ y _ hxy
    exact hxy
  have hsub := List.map_getElem_sublist hsorted
  rw [List.map_pmap] at hsub
  have htypes : s.handled.map Handled.type = s.handled.pmap
      (fun x hx => (s.posted.map Post.type)[(⟨x.nth, hx⟩ : Fin _)]) hlt := by
    rw [← List.pmap_eq_map (p := fun x => x.nth < (s.posted.map Post.type).length) hlt]
    refine List.pmap_congr_left _ ?_
    intro x hx hlt _
    have hown := h.own x hx
    rw [← List.getElem?_map, List.getElem?_eq_getElem hlt, Option.some.injEq] at hown
    exact hown.symm
  rwa [htypes]

/-! ## 2. One step -/

theorem next_le_length (h : Fresh s) : s.next ≤ s.posted.length := by
  unfold State.next
  cases hpc : s.host with
  | polling | acking =>
    dsimp only
    split
    · exact Nat.le_refl _
    · exact Nat.sub_le _ _
  | switching u nth =>
    dsimp only
    split
    · exact Nat.le_refl _
    · rename_i hu
      exact Nat.le_of_lt (lt_of_type (h.hand u nth hpc hu))
  | clearing | stopped => exact Nat.le_refl _

/-- A post, whatever it writes over: the update in the host's hand stays what it was, and the
new one is newer than everything handled. -/
theorem Fresh.post (h : Fresh s) (p : Post) : Fresh (s.post p) := by
  have hle := next_le_length h
  refine ⟨h.order.post p ?_, ?_, Or.inr ⟨s.posted, p, rfl, rfl⟩⟩
  · unfold State.next at hle ⊢
    cases hpc : s.host with
    | polling | acking => simpa [State.post, hpc, p.avail_ne_zero] using hle
    | switching u nth =>
      simp only [State.post, hpc, List.length_append, List.length_singleton]
      split
      · exact Nat.le_succ _
      · exact Nat.le_refl _
    | clearing | stopped => simp [State.post, hpc]
  · intro u nth hpc hu
    exact type_of_append p (h.hand u nth hpc hu)

/-- **The step lemma.** -/
theorem Fresh.step (hf : Fresh s) (h : Step nocurses s a s') : Fresh s' := by
  have hord := hf.order
  have hle := next_le_length hf
  have hall : InOrder s s.posted.length := hord.congr rfl rfl hle
  cases h with
  | pollEmpty => exact hf
  | pollFull hpc hne =>
    -- the register holds the last post, and all handled posts are older
    obtain ⟨ps, p, hps, hav⟩ := hf.last.resolve_left hne
    have htype : typeOf s.avail = p.type := by rw [hav, typeOf_avail]
    refine ⟨hord.congr rfl rfl ?_, ?_, hf.last⟩
    · simp [State.next, hpc, hne, htype, p.type_ne.1]
    · intro u nth hpc' _
      obtain ⟨rfl, rfl⟩ := HostPc.switching.inj hpc'
      simp [htype, hps]
  | giveUp => exact ⟨hall.congr rfl rfl (Nat.le_refl _), fun u nth hpc hu =>
      absurd (HostPc.switching.inj hpc).1.symm hu, hf.last⟩
  | runNothing => exact ⟨hall.congr rfl rfl (Nat.le_refl _), (fun _ _ hpc => nomatch hpc), hf.last⟩
  | @run u nth hpc hu =>
    have hnext : s.next = nth := by simp [State.next, hpc, hu]
    exact ⟨(hnext ▸ hord).handle (hf.hand u nth hpc hu) _, (fun _ _ hpc => nomatch hpc), hf.last⟩
  | @fail u nth hpc hu =>
    have hnext : s.next = nth := by simp [State.next, hpc, hu]
    exact ⟨(hnext ▸ hord).handle (hf.hand u nth hpc hu) _, (fun _ _ hpc => nomatch hpc), hf.last⟩
  | failUnknown => exact ⟨hall.congr rfl rfl (Nat.le_refl _), (fun _ _ hpc => nomatch hpc), hf.last⟩
  | clear => exact ⟨hall.congr rfl rfl (Nat.le_refl _), (fun _ _ hpc => nomatch hpc), Or.inl rfl⟩
  | @ack u hpc =>
    by_cases hu : u = .consoleShutdown
    · simp only [if_pos hu]
      exact ⟨hall.congr rfl rfl (Nat.le_refl _), (fun _ _ hpc => nomatch hpc), hf.last⟩
    · simp only [if_neg hu]
      refine ⟨hord.congr rfl rfl ?_, (fun _ _ hpc => nomatch hpc), hf.last⟩
      simp [State.next, hpc]
  | call => exact hf.post _
  | @callParam p w =>
    obtain ⟨_ | _, v⟩ := w <;>
      exact ⟨hord.congr rfl rfl (Nat.le_refl _), hf.hand, hf.last⟩
  | post => exact hf.post _
  | spinAgain => exact hf
  | spinDone => exact ⟨hord.congr rfl rfl (Nat.le_refl _), hf.hand, hf.last⟩
  | clearDrawn => exact ⟨hord.congr rfl rfl (Nat.le_refl _), hf.hand, hf.last⟩

/-- The run lemma. -/
theorem fresh_of_run {drawn : UInt32} {as : List Act}
    (h : Run (Step nocurses) (State.start drawn) as s) : Fresh s := by
  refine h.preserves (fun _ _ _ hs hst => hs.step hst) ⟨⟨?_, ?_, ?_⟩, ?_, Or.inl rfl⟩
  · exact List.Pairwise.nil
  · intro x hx
    cases hx
  · intro x hx
    cases hx
  · intro u nth hpc
    cases hpc

end

/-! ## 3. Every run -/

/-- **No duplicated, invented or reordered update.**  In every run, from any value of
`OUTPUT_DRAWN` and with any polls giving up, the updates the host has handled are, in order,
a subsequence of those posted: each was read from a post of its type, and no post was read
by two of them. -/
theorem handled_sublist_posted (nocurses : Bool) (drawn : UInt32) (as : List Act) (s : State)
    (h : Run (Step nocurses) (State.start drawn) as s) :
    (s.handled.map Handled.type).Sublist (s.posted.map Post.type) ∧
    (s.handled.map Handled.nth).Pairwise (· < ·) ∧
    ∀ x ∈ s.handled, s.posted[x.nth]?.map Post.type = some x.type := by
  have hord := (fresh_of_run h).order
  exact ⟨hord.sublist, hord.sorted, hord.own⟩

/-- A stale acknowledgement: the device posts a scroll and, its call having returned at once,
a redraw over it; the host handles the redraw only. -/
theorem handled_sublist_posted_stale :
    ∃ s : State, s.posted = [.scrollup, .redraw] ∧ s.handled.map Handled.type = [.screenRedraw] ∧
      (s.handled.map Handled.type).Sublist (s.posted.map Post.type) ∧
      (s.handled.map Handled.nth).Pairwise (· < ·) ∧
      ∀ x ∈ s.handled, s.posted[x.nth]?.map Post.type = some x.type := by
  have hrun : Run (Step false) (State.start 1)
      [.call .scrollup, .spin, .clearDrawn, .call .redraw, .poll, .run] _ :=
    Run.cons (.call rfl rfl) (Run.cons (.spinDone rfl (by decide)) (Run.cons (.clearDrawn rfl)
      (Run.cons (.call rfl rfl) (Run.cons (.pollFull rfl (by decide))
        (Run.cons (.run rfl (by decide) (by decide)) (Run.refl _))))))
  exact ⟨_, rfl, rfl, handled_sublist_posted false 1 _ _ hrun⟩

end Philix.Mailbox
