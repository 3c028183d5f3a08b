/-
# When a call of the device returns

Safety says what a call that returns has achieved; here is when it returns.  Both processes
are scheduled fairly: the host goes on while it is in its main loop, the device while it is
inside a call.  The device waits for `OUTPUT_DRAWN`, which only the host sets and only the
device clears.

`Answerable` is the invariant that carries the progress argument: a device that spins on a
clear register has its update still in `OUTPUT_AVAIL`, or the host is on its way to
`draw_done`.  So the one thing that can keep a call from returning is a host that has left
its loop with `OUTPUT_DRAWN` clear (`Stuck`), and then nothing can ever set it.
-/
import Philix.Lib.Fair
import Philix.Mailbox.Order

namespace Philix.Mailbox

open Philix.Console (UpdateType)
open Lts

/-- The two processes. -/
inductive Party
  | host | device
  deriving DecidableEq, Repr

/-- The steps of each process inside its loop: all of the host's, and those of the device but
the start of a call. -/
def Act.isOf : Party → Act → Prop
  | .host, a => a = .poll ∨ a = .giveUp ∨ a = .run ∨ a = .fail ∨ a = .clear ∨ a = .ack
  | .device, a => a = .post ∨ a = .spin ∨ a = .clearDrawn

/-- The host has left its main loop and the acknowledgement the device waits for, or is about
to wait for, is not there. -/
def Stuck (s : State) : Prop :=
  s.host = .stopped ∧ s.drawn = 0 ∧ (s.dev = .spinning ∨ ∃ p, s.dev = .posting p)

/-- The device does not wait for an update that is gone while the host waits for one. -/
def Answerable (s : State) : Prop :=
  s.dev = .spinning → s.drawn = 0 → s.host = .polling → s.avail ≠ 0

/-- The steps the host still has to take before it sets `OUTPUT_DRAWN`, one less. -/
def HostPc.left : HostPc → Nat
  | .polling => 3
  | .switching _ _ => 2
  | .clearing _ => 1
  | .acking _ | .stopped => 0

/-- How far the call in progress is from its return. -/
def State.left (s : State) : Nat :=
  match s.dev with
  | .idle => 0
  | .clearing => 1
  | .spinning => if s.drawn = 0 then 3 + s.host.left else 2
  | .posting _ => 7

/-- Who has to act for the call in progress to get on. -/
def State.awaited (s : State) : Party :=
  if s.dev = .spinning ∧ s.drawn = 0 then .host else .device

section

variable {nocurses : Bool} {s s' t : State} {a : Act} {p : Post} {r : Nat}

theorem left_le_of_spinning (hdev : s.dev = .spinning) : s.left ≤ 6 := by
  have hhost : s.host.left ≤ 3 := by cases s.host <;> simp [HostPc.left]
  by_cases h0 : s.drawn = 0
  · simp only [State.left, hdev, h0, if_true]
    omega
  · simp [State.left, hdev, h0]

/-! ## 1. What every step keeps -/

theorem returned_step (h : Step nocurses s a s') :
    s'.returned = s.returned ∨ s'.returned = s.returned + 1 := by
  cases h with
  | @callParam p w => obtain ⟨_ | _, v⟩ := w <;> exact Or.inl rfl
  | clearDrawn => exact Or.inr rfl
  | _ => exact Or.inl rfl

theorem Answerable.step (hs : Answerable s) (h : Step nocurses s a s') : Answerable s' := by
  intro hdev hdrawn hhost
  cases h with
  | pollEmpty => exact hs hdev hdrawn hhost
  | pollFull => simp at hhost
  | giveUp => simp at hhost
  | runNothing => simp at hhost
  | run => simp [State.handle] at hhost
  | fail => simp [State.handle] at hhost
  | failUnknown => simp at hhost
  | clear => simp_all
  | ack => simp at hdrawn
  | @call p => exact p.avail_ne_zero
  | callParam => simp at hdev
  | @post p => exact p.avail_ne_zero
  | spinAgain => exact hs hdev hdrawn hhost
  | spinDone => simp at hdev
  | clearDrawn => simp at hdev

theorem answerable_start (drawn : UInt32) : Answerable (State.start drawn) := by
  intro hdev
  simp [State.start, State.init] at hdev

/-- Nothing gets the device out. -/
theorem Stuck.step (hs : Stuck s) (h : Step nocurses s a s') :
    Stuck s' ∧ s'.returned = s.returned := by
  obtain ⟨hhost, hdrawn, hdev⟩ := hs
  cases h with
  | pollEmpty hpc => simp [hpc] at hhost
  | pollFull hpc => simp [hpc] at hhost
  | giveUp hpc => simp [hpc] at hhost
  | runNothing hpc => simp [hpc] at hhost
  | run hpc => simp [hpc] at hhost
  | fail hpc => simp [hpc] at hhost
  | failUnknown hpc => simp [hpc] at hhost
  | clear hpc => simp [hpc] at hhost
  | ack hpc => simp [hpc] at hhost
  | call hpc => simp [hpc] at hdev
  | callParam hpc => simp [hpc] at hdev
  | post => exact ⟨⟨hhost, hdrawn, Or.inl rfl⟩, rfl⟩
  | spinAgain => exact ⟨⟨hhost, hdrawn, hdev⟩, rfl⟩
  | spinDone _ hne => exact absurd hdrawn hne
  | clearDrawn hpc => simp [hpc] at hdev

/-! ## 2. Progress of one call -/

/-- A call in progress, the `r`th, that can still return. -/
structure Pending (r : Nat) (s : State) : Prop where
  inCall : s.dev ≠ .idle
  nth : s.returned = r
  answerable : Answerable s
  notStuck : ¬ Stuck s

/-- The awaited process can act. -/
theorem Pending.enabled (hs : Pending r s) :
    Enabled (Step nocurses) (Act.isOf s.awaited) s := by
  obtain ⟨hcall, -, hans, hstuck⟩ := hs
  cases hdev : s.dev with
  | idle => exact absurd hdev hcall
  | posting p =>
    rw [State.awaited, if_neg (by simp [hdev])]
    exact ⟨.post, _, by simp [Act.isOf], .post hdev⟩
  | clearing =>
    rw [State.awaited, if_neg (by simp [hdev])]
    exact ⟨.clearDrawn, _, by simp [Act.isOf], .clearDrawn hdev⟩
  | spinning =>
    by_cases hdrawn : s.drawn = 0
    · rw [State.awaited, if_pos ⟨hdev, hdrawn⟩]
      cases hhost : s.host with
      | polling => exact ⟨.poll, _, by simp [Act.isOf], .pollFull hhost (hans hdev hdrawn hhost)⟩
      | switching u nth =>
        by_cases hno : u = .noUpdate
        · subst hno
          exact ⟨.run, _, by simp [Act.isOf], .runNothing hhost⟩
        by_cases hinval : u = .inval
        · subst hinval
          exact ⟨.fail, _, by simp [Act.isOf], .failUnknown hhost⟩
        · exact ⟨.run, _, by simp [Act.isOf], .run hhost hno hinval⟩
      | clearing u => exact ⟨.clear, _, by simp [Act.isOf], .clear hhost⟩
      | acking u => exact ⟨.ack, _, by simp [Act.isOf], .ack hhost⟩
      | stopped => exact absurd ⟨hhost, hdrawn, Or.inl hdev⟩ hstuck
    · rw [State.awaited, if_neg (by simp [hdrawn])]
      exact ⟨.spin, _, by simp [Act.isOf], .spinDone hdev hdrawn⟩

/-- A step of the host keeps the device where it is. -/
theorem host_step (h : Step nocurses s a s') (ha : a.isOf .host) :
    s'.dev = s.dev ∧ s'.returned = s.returned ∧
      (s'.drawn = s.drawn ∧ (s.host = .polling → s.avail = 0 ∨ s'.host.left < s.host.left) ∧
        (s.host ≠ .polling → s'.host = .stopped ∨ s'.host.left < s.host.left) ∨
      s'.drawn = 1) := by
  cases h with
  | pollEmpty hpc h0 => simp [h0, hpc]
  | pollFull hpc h0 => simp [h0, hpc, HostPc.left]
  | giveUp hpc h0 => simp [h0, hpc]
  | runNothing hpc => simp [hpc, HostPc.left]
  | run hpc => simp [hpc, HostPc.left, State.handle]
  | fail hpc => simp [hpc, State.handle]
  | failUnknown hpc => simp [hpc]
  | clear hpc => simp [hpc, HostPc.left]
  | ack hpc => simp
  | call hpc => simp [Act.isOf] at ha
  | callParam hpc => simp [Act.isOf] at ha
  | post => simp [Act.isOf] at ha
  | spinAgain => simp [Act.isOf] at ha
  | spinDone => simp [Act.isOf] at ha
  | clearDrawn hpc => simp [Act.isOf] at ha

theorem Pending.keep (hs : Pending r s) (h : Step nocurses s a s') (hcall : s'.dev ≠ .idle)
    (hret : s'.returned = s.returned) (hstuck : ¬ Stuck s') : Pending r s' :=
  ⟨hcall, hret.trans hs.nth, hs.answerable.step h, hstuck⟩

/-- The host brings the device closer to its acknowledgement, or leaves it alone. -/
theorem Pending.host_left (hs : Pending r s) (h : Step nocurses s a s') (ha : a.isOf .host)
    (hstuck : ¬ Stuck s') :
    s'.left < s.left ∨ s'.left = s.left ∧ s'.awaited = s.awaited ∧ s.awaited = .device := by
  obtain ⟨hdev, -, hsteps⟩ := host_step h ha
  by_cases hwait : s.dev = .spinning ∧ s.drawn = 0
  · obtain ⟨hspin, hdrawn⟩ := hwait
    have hleft : s.left = 3 + s.host.left := by simp [State.left, hspin, hdrawn]
    refine Or.inl ?_
    rcases hsteps with ⟨hsame, hpolling, hother⟩ | hset
    · have hleft' : s'.left = 3 + s'.host.left := by simp [State.left, hdev, hspin, hsame, hdrawn]
      have hlt : s'.host.left < s.host.left := by
        by_cases hpoll : s.host = .polling
        · exact (hpolling hpoll).resolve_left (hs.answerable hspin hdrawn hpoll)
        · refine (hother hpoll).resolve_left fun hstop => hstuck ⟨hstop, hsame.trans hdrawn, ?_⟩
          exact Or.inl (hdev.trans hspin)
      omega
    · have hleft' : s'.left = 2 := by simp [State.left, hdev, hspin, hset]
      omega
  · -- the device is not waiting: the host cannot undo that
    have hwait' : ¬ (s'.dev = .spinning ∧ s'.drawn = 0) := by
      rintro ⟨hspin, hdrawn⟩
      rcases hsteps with ⟨hsame, -⟩ | hset
      · exact hwait ⟨hdev ▸ hspin, hsame ▸ hdrawn⟩
      · simp [hset] at hdrawn
    refine Or.inr ⟨?_, ?_, if_neg hwait⟩
    · cases hd : s.dev with
      | spinning =>
        have hne : s.drawn ≠ 0 := fun h0 => hwait ⟨hd, h0⟩
        have hne' : s'.drawn ≠ 0 := fun h0 => hwait' ⟨hdev.trans hd, h0⟩
        simp [State.left, hdev, hd, hne, hne']
      | idle => simp [State.left, hdev, hd]
      | posting p => simp [State.left, hdev, hd]
      | clearing => simp [State.left, hdev, hd]
    · rw [State.awaited, State.awaited, if_neg hwait, if_neg hwait']

/-- **The progress of one step.**  The call returns, or hangs, or is still pending and closer
to its return unless the step was not the awaited process's. -/
theorem Pending.step (hs : Pending r s) (h : Step nocurses s a s') :
    (s'.returned = r + 1 ∨ Stuck s' ∧ s'.returned = r) ∨ Pending r s' ∧
      (s'.left < s.left ∨ s'.left = s.left ∧ s'.awaited = s.awaited ∧ ¬ a.isOf s.awaited) := by
  by_cases hstuck : Stuck s'
  · have hret := returned_step h
    rw [hs.nth] at hret
    exact Or.inl (hret.symm.imp_right fun hsame => ⟨hstuck, hsame⟩)
  by_cases ha : a.isOf .host
  · obtain ⟨hdev, hret, -⟩ := host_step h ha
    refine Or.inr ⟨hs.keep h (hdev ▸ hs.inCall) hret hstuck, ?_⟩
    refine (hs.host_left h ha hstuck).imp_right fun ⟨hleft, hsame, hdevice⟩ => ⟨hleft, hsame, ?_⟩
    rw [hdevice]
    rcases ha with rfl | rfl | rfl | rfl | rfl | rfl <;> simp [Act.isOf]
  · cases h with
    | call hpc => exact absurd hpc hs.inCall
    | callParam hpc => exact absurd hpc hs.inCall
    | @post p hpc =>
      have hleft : s.left = 7 := by simp [State.left, hpc]
      have hleft' : (s.post p).left ≤ 6 := left_le_of_spinning rfl
      have hstep : Step nocurses s .post (s.post p) := .post hpc
      exact Or.inr ⟨hs.keep hstep (by simp [State.post]) rfl hstuck, Or.inl (by omega)⟩
    | spinAgain hpc h0 =>
      refine Or.inr ⟨hs, Or.inr ⟨rfl, rfl, ?_⟩⟩
      rw [State.awaited, if_pos ⟨hpc, h0⟩]
      exact ha
    | spinDone hpc hne =>
      have hstep : Step nocurses s .spin { s with dev := .clearing } := .spinDone hpc hne
      refine Or.inr ⟨hs.keep hstep (by simp) rfl hstuck, Or.inl ?_⟩
      simp [State.left, hpc, hne]
    | clearDrawn => exact Or.inl (Or.inl (by simp [hs.nth]))
    | _ => simp [Act.isOf] at ha

/-! ## 3. Every fair run -/

/-- Once it hangs, a call hangs forever. -/
theorem Stuck.forever {b : Behavior (Step nocurses)} {i j : Nat} (hij : i ≤ j)
    (hi : Stuck (b.state i)) :
    Stuck (b.state j) ∧ (b.state j).returned = (b.state i).returned :=
  b.keeps (I := fun s => Stuck s ∧ s.returned = (b.state i).returned)
    (fun _ _ _ hs hst => ⟨(hs.1.step hst).1, (hs.1.step hst).2.trans hs.2⟩) hij ⟨hi, rfl⟩

theorem answerable_of_start {b : Behavior (Step nocurses)} {drawn : UInt32}
    (h0 : b.state 0 = State.start drawn) (i : Nat) : Answerable (b.state i) :=
  b.keeps (fun _ _ _ hs hst => hs.step hst) (Nat.zero_le i) (h0 ▸ answerable_start drawn)

theorem returned_mono {b : Behavior (Step nocurses)} {i j : Nat} (hij : i ≤ j) :
    (b.state i).returned ≤ (b.state j).returned :=
  b.keeps (I := fun s => (b.state i).returned ≤ s.returned)
    (fun _ _ _ hs hst => by have := returned_step hst; omega) hij (Nat.le_refl _)

/-- A call in progress returns or hangs. -/
theorem returns_or_stuck {b : Behavior (Step nocurses)} (hfair : ∀ p, b.WeakFair (Act.isOf p))
    {i : Nat} (hans : Answerable (b.state i)) (hcall : (b.state i).dev ≠ .idle) :
    ∃ j, i ≤ j ∧ ((b.state j).returned = (b.state i).returned + 1 ∨
      Stuck (b.state j) ∧ (b.state j).returned = (b.state i).returned) := by
  by_cases hstuck : Stuck (b.state i)
  · exact ⟨i, Nat.le_refl i, Or.inr ⟨hstuck, rfl⟩⟩
  · exact b.leadsTo (P := Pending (b.state i).returned) hfair (fun _ _ _ hs hst => hs.step hst)
      (fun _ hs => hs.enabled) ⟨hcall, rfl, hans, hstuck⟩

/-- It does the one exactly when it does not do the other. -/
theorem returns_iff_not_stuck {b : Behavior (Step nocurses)}
    (hfair : ∀ p, b.WeakFair (Act.isOf p)) {i : Nat} (hans : Answerable (b.state i))
    (hcall : (b.state i).dev ≠ .idle) :
    (∃ j, i ≤ j ∧ (b.state j).returned = (b.state i).returned + 1) ↔
      ∀ j, i ≤ j → (b.state j).returned = (b.state i).returned → ¬ Stuck (b.state j) := by
  constructor
  · rintro ⟨j, hij, hret⟩ k hik hsame hstuck
    rcases Nat.le_total k j with hkj | hjk
    · have hforever := (hstuck.forever hkj).2
      omega
    · have hmono := returned_mono (b := b) hjk
      omega
  · intro hnever
    obtain ⟨j, hij, hret | ⟨hstuck, hsame⟩⟩ := returns_or_stuck hfair hans hcall
    · exact ⟨j, hij, hret⟩
    · exact absurd hstuck (hnever j hij hsame)

end

/-- **A call returns unless the host has gone without an answer.**  In every fair run,
whatever the polls do and whatever `OUTPUT_DRAWN` holds at first, a call in progress returns
exactly when the host is never found out of its loop with `OUTPUT_DRAWN` clear and the call
still waiting.  A call found so never returns. -/
theorem call_returns_iff (nocurses : Bool) (drawn : UInt32) (b : Behavior (Step nocurses))
    (h0 : b.state 0 = State.start drawn) (hfair : ∀ p, b.WeakFair (Act.isOf p)) (i : Nat)
    (hcall : (b.state i).dev ≠ .idle) :
    ((∃ j, i ≤ j ∧ (b.state j).returned = (b.state i).returned + 1) ↔
      ∀ j, i ≤ j → (b.state j).returned = (b.state i).returned → ¬ Stuck (b.state j)) ∧
    ∀ j k, i ≤ j → j ≤ k → Stuck (b.state j) →
      Stuck (b.state k) ∧ (b.state k).returned = (b.state j).returned :=
  ⟨returns_iff_not_stuck hfair (answerable_of_start h0 i) hcall,
    fun _ _ _ hjk hstuck => hstuck.forever hjk⟩

/-- With the host out of its loop and the device between calls, neither is made to act. -/
theorem not_enabled_of_halted {nocurses : Bool} {s : State} (hhost : s.host = .stopped)
    (hdev : s.dev = .idle) (p : Party) : ¬ Enabled (Step nocurses) (Act.isOf p) s := by
  rintro ⟨a, t, ha, hst⟩
  cases hst <;> cases p <;> simp_all [Act.isOf]

/-- The run of one shutdown, after which both processes rest. -/
theorem exists_shutdown_behavior :
    ∃ b : Behavior (Step false), b.state 0 = State.init ∧
      (∀ p, b.WeakFair (Act.isOf p)) ∧
      (∀ i, b.label i ≠ some .giveUp ∧ b.label i ≠ some .fail) ∧
      b.state 1 = State.init.post .shutdown := by
  have hcall : Step false .init (.call .shutdown) (State.init.post .shutdown) := .call rfl rfl
  have hrun : Run (Step false) (State.init.post .shutdown)
      [.poll, .run, .clear, .ack, .spin, .clearDrawn] _ :=
    Run.cons (.pollFull rfl (by decide)) (Run.cons (.run rfl (by decide) (by decide))
      (Run.cons (.clear rfl) (Run.cons (.ack rfl) (Run.cons (.spinDone rfl (by decide))
        (Run.cons (.clearDrawn rfl) (Run.refl _))))))
  obtain ⟨b, h1, hfair, hlabel⟩ := hrun.exists_fair (A := Act.isOf)
    (not_enabled_of_halted rfl rfl)
  rw [← h1] at hcall
  refine ⟨b.cons hcall, rfl, fun p => (hfair p).cons hcall, ?_, h1⟩
  intro i
  cases i with
  | zero => simp [Behavior.cons]
  | succ i =>
    refine ⟨fun hl => ?_, fun hl => ?_⟩
    · simpa using hlabel i _ hl
    · simpa using hlabel i _ hl

/-- In it the call is in progress after the first step. -/
theorem call_returns_iff_shutdown :
    ∃ b : Behavior (Step false), b.state 1 = State.init.post .shutdown ∧
      ((∃ j, 1 ≤ j ∧ (b.state j).returned = (b.state 1).returned + 1) ↔
        ∀ j, 1 ≤ j → (b.state j).returned = (b.state 1).returned → ¬ Stuck (b.state j)) := by
  obtain ⟨b, h0, hfair, -, h1⟩ := exists_shutdown_behavior
  exact ⟨b, h1, (call_returns_iff false 0 b h0 hfair 1 (by simp [h1, State.post])).1⟩

end Philix.Mailbox
