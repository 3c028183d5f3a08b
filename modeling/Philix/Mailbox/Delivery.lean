/-
# Lock-step delivery: every call is answered until the console is shut down

Where every poll waits for an update and no handler fails, the phases of a lock-step run say
what a call that returns has achieved, and fair scheduling says when it returns.  What is
left is the end: the host leaves its loop only behind the acknowledgement of a shutdown, and
acknowledges nothing after it.  So the calls up to the first shutdown are all answered, each
after its update was handled, and the call after that never returns.
-/
import Philix.Mailbox.LockStep
import Philix.Mailbox.Liveness

namespace Philix.Mailbox

open Philix.Console (UpdateType)
open Lts

/-- The posts that have been acknowledged: those of the calls that have returned, and the one
whose acknowledgement the device has yet to clear. -/
def State.acked (s : State) : List Post :=
  s.posted.take (if s.drawn = 0 then s.returned else s.returned + 1)

/-- What the phases leave open: an update past its case is of the type of the call in
progress, the host has stopped exactly when it has acknowledged a shutdown, and no
acknowledgement follows the one of a call that shut the console down. -/
structure Closes (s : State) : Prop where
  hand : ∀ u, s.host = .clearing u ∨ s.host = .acking u →
    s.posted[s.returned]?.map Post.type = some u
  stopped : s.host = .stopped ↔ Post.shutdown ∈ s.acked
  last : Post.shutdown ∈ s.posted.take s.returned → s.drawn = 0

section

variable {nocurses : Bool} {s s' : State} {a : Act} {p : Post}

theorem Closes.init : Closes State.init :=
  ⟨by simp [State.init], by simp [State.init, State.acked], by simp [State.init]⟩

theorem Post.type_eq_shutdown : p.type = .consoleShutdown ↔ p = .shutdown := by
  cases p <;> simp [Post.type]

theorem acked_of_clear (h0 : s.drawn = 0) : s.acked = s.posted.take s.returned := by
  simp [State.acked, h0]

theorem acked_of_set (h0 : s.drawn ≠ 0) : s.acked = s.posted.take (s.returned + 1) := by
  simp [State.acked, h0]

/-- No more calls have returned than were posted. -/
theorem Phase.returned_le (hs : Phase nocurses s) : s.returned ≤ s.posted.length := by
  cases hs with
  | quiet _ _ _ _ hret => omega
  | posted ps p _ hps _ _ _ _ hret => simp [hps, hret]
  | handled _ _ _ hret => omega
  | acked _ _ _ _ hret => omega

/-! ## 1. One step -/

/-- A step that neither handles nor acknowledges, and moves the host at most to a place from
which it does neither. -/
theorem Closes.congr (hs : Closes s) (hposted : s'.posted = s.posted)
    (hdrawn : s'.drawn = s.drawn) (hret : s'.returned = s.returned)
    (hhand : ∀ u, s'.host = .clearing u ∨ s'.host = .acking u →
      s.posted[s.returned]?.map Post.type = some u)
    (hstop : s'.host = .stopped ↔ s.host = .stopped) : Closes s' := by
  refine ⟨?_, ?_, ?_⟩
  · rw [hposted, hret]
    exact hhand
  · rw [hstop, hs.stopped, State.acked, State.acked, hposted, hdrawn, hret]
  · rw [hposted, hdrawn, hret]
    exact hs.last

/-- One post more: no call has returned by it. -/
theorem Closes.post (hs : Closes s) (hdrawn : s.drawn = 0) (hret : s.returned = s.posted.length)
    (hhost : s.host = .polling ∨ s.host = .stopped) (p : Post) : Closes (s.post p) := by
  have htake : (s.posted ++ [p]).take s.returned = s.posted.take s.returned :=
    List.take_append_of_le_length (by omega)
  refine ⟨?_, ?_, fun _ => hdrawn⟩
  · intro u hu
    have hpc : s.host = .clearing u ∨ s.host = .acking u := hu
    rcases hhost with h | h <;> simp [h] at hpc
  · have hstop := hs.stopped
    rw [acked_of_clear hdrawn, ← htake] at hstop
    rw [acked_of_clear (s := s.post p) hdrawn]
    exact hstop

theorem Closes.step (hs : Closes s) (hphase : Phase nocurses s) (h : Step nocurses s a s')
    (ha : a ≠ .giveUp ∧ a ≠ .fail) : Closes s' := by
  cases h with
  | pollEmpty => exact hs
  | pollFull hpc => exact hs.congr rfl rfl rfl (by simp) (by simp [hpc])
  | giveUp => exact absurd rfl ha.1
  | runNothing hpc =>
    cases hphase with
    | quiet _ hhost => simp [hpc] at hhost
    | posted ps p _ _ hhost => simp [hpc, p.type_ne.1.symm] at hhost
    | handled _ hhost => simp [hpc] at hhost
    | acked _ hhost => simp [hpc] at hhost
  | @run u nth hpc =>
    cases hphase with
    | quiet _ hhost => simp [hpc] at hhost
    | posted ps p _ hps hhost _ _ _ hret =>
      obtain ⟨rfl, -⟩ : p.type = u ∧ ps.length = nth := by simpa [hpc, eq_comm] using hhost
      refine hs.congr rfl rfl rfl ?_ (by simp [State.handle, hpc])
      rintro u (hu | hu)
      · obtain rfl : p.type = u := by simpa [State.handle] using hu
        simp [hps, hret]
      · simp [State.handle] at hu
    | handled _ hhost => simp [hpc] at hhost
    | acked _ hhost => simp [hpc] at hhost
  | fail => exact absurd rfl ha.2
  | failUnknown => exact absurd rfl ha.2
  | clear hpc =>
    refine hs.congr rfl rfl rfl ?_ (by simp [hpc])
    rintro u (hu | hu)
    · simp at hu
    · obtain rfl := HostPc.acking.inj hu
      exact hs.hand _ (Or.inl hpc)
  | @ack u hpc =>
    have hdrawn : s.drawn = 0 := by
      cases hphase with
      | quiet _ hhost => simp [hpc] at hhost
      | posted ps p _ _ hhost => simp [hpc] at hhost
      | handled _ _ hdrawn => exact hdrawn
      | acked _ hhost => simp [hpc] at hhost
    -- the acknowledgement is the one of the call in progress
    obtain ⟨p, hp, rfl⟩ := Option.map_eq_some_iff.mp (hs.hand u (Or.inr hpc))
    have hnot : Post.shutdown ∉ s.posted.take s.returned := by
      rw [← acked_of_clear hdrawn, ← hs.stopped, hpc]
      simp
    have hstop : Post.shutdown ∈ s.posted.take (s.returned + 1) ↔ p.type = .consoleShutdown := by
      rw [List.take_add_one, hp, List.mem_append, Post.type_eq_shutdown]
      simp [hnot, eq_comm]
    refine ⟨?_, ?_, fun hmem => absurd hmem hnot⟩
    · intro u hu
      by_cases hu' : p.type = .consoleShutdown <;> simp [hu'] at hu
    · rw [acked_of_set (by simp), hstop]
      by_cases hu' : p.type = .consoleShutdown <;> simp [hu']
  | @call p hdev =>
    cases hphase with
    | quiet _ hhost _ hdrawn hret => exact hs.post hdrawn hret hhost p
    | posted ps p hdev' => simp [hdev] at hdev'
    | handled hdev' => simp [hdev] at hdev'
    | acked hdev' => simp [hdev] at hdev'
  | @callParam p w =>
    obtain ⟨_ | _, v⟩ := w
    · exact hs.congr rfl rfl rfl hs.hand Iff.rfl
    · exact hs.congr rfl rfl rfl hs.hand Iff.rfl
  | @post p hdev =>
    cases hphase with
    | quiet _ hhost _ hdrawn hret => exact hs.post hdrawn hret hhost p
    | posted ps p hdev' => simp [hdev] at hdev'
    | handled hdev' => simp [hdev] at hdev'
    | acked hdev' => simp [hdev] at hdev'
  | spinAgain => exact hs
  | spinDone => exact hs.congr rfl rfl rfl hs.hand Iff.rfl
  | clearDrawn hdev =>
    cases hphase with
    | quiet hdev' => simp [hdev] at hdev'
    | posted ps p hdev' => simp [hdev] at hdev'
    | handled hdev' => simp [hdev] at hdev'
    | acked _ hhost _ hdrawn hret =>
      refine ⟨?_, ?_, fun _ => rfl⟩
      · intro u hu
        have hpc : s.host = .clearing u ∨ s.host = .acking u := hu
        rcases hhost with h | h <;> simp [h] at hpc
      · have hstop := hs.stopped
        rw [acked_of_set hdrawn] at hstop
        exact hstop

/-! ## 2. Every fair run -/

theorem posted_prefix_step (h : Step nocurses s a s') : s.posted <+: s'.posted := by
  cases h with
  | call => exact List.prefix_append _ _
  | @callParam p w => obtain ⟨_ | _, v⟩ := w <;> exact List.prefix_rfl
  | post => exact List.prefix_append _ _
  | _ => exact List.prefix_rfl

/-- The phases and their end, at every time of such a run. -/
theorem closes_of_behavior {b : Behavior (Step nocurses)} (h0 : b.state 0 = State.init)
    (hok : ∀ i, b.label i ≠ some .giveUp ∧ b.label i ≠ some .fail) (i : Nat) :
    Phase nocurses (b.state i) ∧ Closes (b.state i) := by
  refine b.keeps_of (I := fun s => Phase nocurses s ∧ Closes s)
    (C := fun a => a ≠ .giveUp ∧ a ≠ .fail) ?_ ?_ (Nat.zero_le i) (h0 ▸ ⟨.init, .init⟩)
  · intro i a hl
    exact ⟨fun h => (hok i).1 (h ▸ hl), fun h => (hok i).2 (h ▸ hl)⟩
  · intro s a t hs ha hst
    exact ⟨hs.1.step hst ha.1, hs.2.step hs.1 hst ha⟩

/-- A call in progress after a shutdown has returned hangs. -/
theorem Closes.stuck (hs : Closes s) (hphase : Phase nocurses s) (hcall : s.dev ≠ .idle)
    (hmem : Post.shutdown ∈ s.posted.take s.returned) : Stuck s := by
  have hdrawn : s.drawn = 0 := hs.last hmem
  have hstop : s.host = .stopped := hs.stopped.mpr (acked_of_clear hdrawn ▸ hmem)
  refine ⟨hstop, hdrawn, ?_⟩
  cases hphase with
  | quiet hdev =>
    obtain ⟨p, hp, -⟩ := hdev.resolve_left hcall
    exact Or.inr ⟨p, hp⟩
  | posted ps p hdev => exact Or.inl hdev
  | handled hdev => exact Or.inl hdev
  | acked _ _ _ hne => exact absurd hdrawn hne

/-- A call that hangs is one after a shutdown. -/
theorem Closes.shutdown_of_stuck (hs : Closes s) (hstuck : Stuck s) :
    Post.shutdown ∈ s.posted.take s.returned := by
  obtain ⟨hhost, hdrawn, -⟩ := hstuck
  rw [← acked_of_clear hdrawn]
  exact hs.stopped.mp hhost

end

/-- **Lock-step delivery.**  In every fair run in which no poll gives up and no handler fails,
a call in progress returns, its update and all before it handled, exactly when no earlier
call was a shutdown. -/
theorem call_answered_iff_no_shutdown (nocurses : Bool) (b : Behavior (Step nocurses))
    (h0 : b.state 0 = State.init) (hfair : ∀ p, b.WeakFair (Act.isOf p))
    (hok : ∀ i, b.label i ≠ some .giveUp ∧ b.label i ≠ some .fail) (i : Nat)
    (hcall : (b.state i).dev ≠ .idle) :
    (∃ j, i ≤ j ∧ (b.state j).returned = (b.state i).returned + 1 ∧
        NoEarlyReturn nocurses (b.state j)) ↔
      Post.shutdown ∉ (b.state i).posted.take (b.state i).returned := by
  obtain ⟨hphase, hcloses⟩ := closes_of_behavior h0 hok i
  have h0' : b.state 0 = State.start 0 := h0
  have hiff := returns_iff_not_stuck hfair (answerable_of_start h0' i) hcall
  constructor
  · rintro ⟨j, hij, hret, -⟩ hmem
    exact hiff.mp ⟨j, hij, hret⟩ i (Nat.le_refl i) rfl (hcloses.stuck hphase hcall hmem)
  · intro hnot
    obtain ⟨j, hij, hret⟩ := hiff.mpr fun k hik hsame hstuck => by
      have hprefix : (b.state i).posted <+: (b.state k).posted :=
        b.keeps (I := fun s => (b.state i).posted <+: s.posted)
          (fun _ _ _ hs hst => hs.trans (posted_prefix_step hst)) hik List.prefix_rfl
      have hmem := (closes_of_behavior h0 hok k).2.shutdown_of_stuck hstuck
      obtain ⟨ps, hps⟩ := hprefix
      rw [hsame, ← hps, List.take_append_of_le_length hphase.returned_le] at hmem
      exact hnot hmem
    exact ⟨j, hij, hret, (closes_of_behavior h0 hok j).1.noEarlyReturn⟩

/-- A shutdown as the first call is answered. -/
theorem call_answered_iff_shutdown :
    ∃ b : Behavior (Step false), b.state 1 = State.init.post .shutdown ∧
      ((∃ j, 1 ≤ j ∧ (b.state j).returned = (b.state 1).returned + 1 ∧
        NoEarlyReturn false (b.state j)) ↔
      Post.shutdown ∉ (b.state 1).posted.take (b.state 1).returned) := by
  obtain ⟨b, h0, hfair, hok, h1⟩ := exists_shutdown_behavior
  exact ⟨b, h1, call_answered_iff_no_shutdown false b h0 hfair hok 1 (by simp [h1, State.post])⟩

end Philix.Mailbox
