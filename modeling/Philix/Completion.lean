/-
# Every fair run of host and card ends

`handled_as_posted` and `bytes_to_log` say what is there when the host has handled the
shutdown.  Here is that it gets there: where both processes go on as long as they can, no poll
gives up and no handler fails, every interleaving comes to a state in which neither has
anything left to do.

The argument uses the mailbox protocol twice.  A fair run of the two on their memory is, seen
through `Shared.mailbox`, a fair run of the protocol, so a call in progress returns or hangs
(`returns_or_stuck`).  And it does not hang: a call hangs only behind a shutdown, and the
card's program makes no call behind its own.  What is left to the card between two calls is its
own to do.
-/
import Philix.EndToEnd

namespace Philix

open Console Winky Lts Loop
open ByteMem (Mem)
open Mailbox (Post Act State HostPc DevPc Handled Phase Party Answerable Closes Stuck answers)

/-! ## 1. The two processes -/

/-- Whose step it is. -/
def Access.party : Access → Party
  | .store => .device
  | .mailbox .poll | .mailbox .giveUp | .mailbox .run | .mailbox .fail | .mailbox .clear
  | .mailbox .ack => .host
  | .mailbox (.call _) | .mailbox .post | .mailbox .spin | .mailbox .clearDrawn => .device

/-- The steps of a process: on the card all of its program, its stores and calls too. -/
def Access.isOf (p : Party) (a : Access) : Prop := a.party = p

/-- The step of the mailbox protocol in it. -/
def Access.act : Access → Option Act
  | .store => none
  | .mailbox a => some a

section Step

variable {nocurses : Bool} {s t : Shared} {a : Access} {m₀ : Mem} {ops : List DevOp}

/-- One access, as a step of the mailbox protocol or none. -/
theorem mailbox_step (hin : ∀ op ∈ s.todo, op.Inside) (h : SharedStep nocurses s a t) :
    Moves (Mailbox.Step nocurses) s.mailbox a.act t.mailbox := by
  have hrun := (simulate_step hin h).1
  cases a with
  | store => exact (run_nil_iff.mp hrun).symm
  | mailbox a =>
    obtain ⟨u, hstep, hu⟩ := run_cons_iff.mp hrun
    obtain rfl := run_nil_iff.mp hu
    exact hstep

/-- The device does not get back what it has done, and a call that has returned has. -/
theorem todo_returned_step (h : SharedStep nocurses s a t) :
    t.todo.length ≤ s.todo.length ∧ s.returned ≤ t.returned := by
  cases h with
  | store _ htodo => exact ⟨by simp [htodo], Nat.le_refl _⟩
  | call _ htodo => exact ⟨by simp [Shared.post, htodo], Nat.le_refl _⟩
  | post _ htodo => exact ⟨by simp [Shared.post, htodo], Nat.le_refl _⟩
  | clearDrawn => exact ⟨Nat.le_refl _, Nat.le_succ _⟩
  | _ => exact ⟨Nat.le_refl _, Nat.le_refl _⟩

/-- A step of the host leaves the device where it is. -/
theorem host_access (h : SharedStep nocurses s a t) (ha : a.isOf .host) :
    t.dev = s.dev ∧ t.todo = s.todo ∧ t.returned = s.returned := by
  cases h with
  | store => cases ha
  | call => cases ha
  | callParam => cases ha
  | post => cases ha
  | spinAgain => cases ha
  | spinDone => cases ha
  | clearDrawn => cases ha
  | _ => exact ⟨rfl, rfl, rfl⟩

/-- A step of a device between two calls does an operation or starts a call. -/
theorem device_access (h : SharedStep nocurses s a t) (ha : a.isOf .device)
    (hdev : s.dev = .idle) : t.todo.length < s.todo.length ∨ t.dev ≠ .idle := by
  cases h with
  | store _ htodo => exact Or.inl (by simp [htodo])
  | call _ htodo => exact Or.inl (by simp [Shared.post, htodo])
  | callParam => exact Or.inr DevPc.noConfusion
  | post hpc => simp [hdev] at hpc
  | spinAgain hpc => simp [hdev] at hpc
  | spinDone hpc => simp [hdev] at hpc
  | clearDrawn hpc => simp [hdev] at hpc
  | _ => cases ha

/-- It can always do one or the other, as long as there is anything to do. -/
theorem enabled_of_todo (nocurses : Bool) (hdev : s.dev = .idle) (htodo : s.todo ≠ []) :
    Enabled (SharedStep nocurses) (Access.isOf .device) s := by
  obtain ⟨op, rest, hops⟩ := List.exists_cons_of_ne_nil htodo
  cases op with
  | store index v => exact ⟨.store, _, rfl, .store hdev hops (by simp)⟩
  | copy i => exact ⟨.store, _, rfl, .store hdev hops (by simp)⟩
  | notify p =>
    cases hparam : p.param with
    | none => exact ⟨.mailbox (.call p), _, rfl, .call hdev hops hparam⟩
    | some w => exact ⟨.mailbox (.call p), _, rfl, .callParam hdev hops hparam⟩

/-! ## 2. What holds at every time -/

/-- The protocol's phases and their end, and the call that has written its parameter is the one
the program is at. -/
structure Sound (nocurses : Bool) (m₀ : Mem) (ops : List DevOp) (s : Shared) : Prop where
  faithful : Faithful nocurses m₀ ops s
  closes : Closes s.mailbox
  posting : ∀ p, s.dev = .posting p → ∃ rest, s.todo = .notify p :: rest

theorem Sound.inside (S : Sound nocurses m₀ ops s) (hin : ∀ op ∈ ops, op.Inside) :
    ∀ op ∈ s.todo, op.Inside := by
  intro op hop
  exact hin op (S.faithful.split ▸ List.mem_append_right _ hop)

theorem posting_step (hs : ∀ p, s.dev = .posting p → ∃ rest, s.todo = .notify p :: rest)
    (h : SharedStep nocurses s a t) :
    ∀ p, t.dev = .posting p → ∃ rest, t.todo = .notify p :: rest := by
  cases h with
  | store hdev =>
    intro p hp
    exact absurd (hdev.symm.trans hp) DevPc.noConfusion
  | @callParam q rest r v _ htodo =>
    intro p hp
    obtain rfl : q = p := DevPc.posting.inj hp
    exact ⟨rest, htodo⟩
  | call => exact fun p hp => DevPc.noConfusion hp
  | post => exact fun p hp => DevPc.noConfusion hp
  | spinDone => exact fun p hp => DevPc.noConfusion hp
  | clearDrawn => exact fun p hp => DevPc.noConfusion hp
  | _ => exact hs

/-- **The step lemma.** -/
theorem Sound.step (S : Sound nocurses m₀ ops s) (hin : ∀ op ∈ ops, op.Inside)
    (h : SharedStep nocurses s a t) (ha : a ≠ .mailbox .giveUp ∧ a ≠ .mailbox .fail) :
    Sound nocurses m₀ ops t := by
  have hin' := S.inside hin
  refine ⟨S.faithful.step hin' h ha.1, ?_, posting_step S.posting h⟩
  have hstep := mailbox_step hin' h
  cases a with
  | store =>
    have hsame : t.mailbox = s.mailbox := hstep
    rw [hsame]
    exact S.closes
  | mailbox a =>
    exact S.closes.step S.faithful.phase hstep
      ⟨fun h => ha.1 (congrArg _ h), fun h => ha.2 (congrArg _ h)⟩

theorem sound_start {m : Mem} (havail : readReg (consoleReg .outputAvail) m = 0)
    (hdrawn : readReg (consoleReg .outputDrawn) m = 0) :
    Sound nocurses m ops (.start m ops) := by
  refine ⟨faithful_start m ops havail hdrawn, ⟨?_, ?_, ?_⟩, fun p hp => DevPc.noConfusion hp⟩
  · rintro u (hu | hu)
    · exact HostPc.noConfusion hu
    · exact HostPc.noConfusion hu
  · simp [Shared.start, Shared.mailbox, State.acked, notified]
  · simp [Shared.start, Shared.mailbox, notified]

/-- In its phases, a device that waits is answered unless the host has gone. -/
theorem answerable_of_phase {s : State} (hs : Phase nocurses s) : Answerable s := by
  intro hdev hdrawn hhost
  cases hs with
  | quiet hdev' => simp [hdev] at hdev'
  | posted ps p _ _ _ havail => exact havail ▸ p.avail_ne_zero
  | handled _ hhost' => simp [hhost] at hhost'
  | acked _ _ _ hne => exact absurd hdrawn hne

end Step

/-! ## 3. A fair run, and the protocol in it -/

/-- A run of host and card in which no poll gives up and no handler fails. -/
structure Served (nocurses : Bool) (m : Mem) (ops : List DevOp)
    (b : Behavior (SharedStep nocurses)) : Prop where
  start : b.state 0 = .start m ops
  served : ∀ i, b.label i ≠ some (.mailbox .giveUp) ∧ b.label i ≠ some (.mailbox .fail)
  fair : ∀ p, b.WeakFair (Access.isOf p)

section Behavior

variable {nocurses : Bool} {m : Mem} {ops : List DevOp} {b : Behavior (SharedStep nocurses)}
  {i : Nat}

theorem sound_of_served (B : Served nocurses m ops b) (hin : ∀ op ∈ ops, op.Inside)
    (havail : readReg (consoleReg .outputAvail) m = 0)
    (hdrawn : readReg (consoleReg .outputDrawn) m = 0) (i : Nat) :
    Sound nocurses m ops (b.state i) := by
  refine b.keeps_of (C := fun a => a ≠ .mailbox .giveUp ∧ a ≠ .mailbox .fail) ?_ ?_
    (Nat.zero_le i) (B.start ▸ sound_start havail hdrawn)
  · intro i a hl
    exact ⟨fun h => (B.served i).1 (h ▸ hl), fun h => (B.served i).2 (h ▸ hl)⟩
  · intro s a t S ha hst
    exact S.step hin hst ha

/-- The run of the protocol. -/
def mailboxBehavior (b : Behavior (SharedStep nocurses))
    (hin : ∀ i, ∀ op ∈ (b.state i).todo, op.Inside) : Behavior (Mailbox.Step nocurses) :=
  b.image Shared.mailbox Access.act fun i a hl => by
    have hnext := b.next i
    simp only [hl] at hnext
    exact mailbox_step (hin i) hnext

/-- A process that can act in the protocol can act on the memory, and what it then does is a
step of the protocol. -/
theorem enabled_of_mailbox {s : Shared}
    (hposting : ∀ p, s.dev = .posting p → ∃ rest, s.todo = .notify p :: rest) (p : Party)
    (hen : Enabled (Mailbox.Step nocurses) (Act.isOf p) s.mailbox) :
    Enabled (SharedStep nocurses) (Access.isOf p) s ∧
      ∀ a t, Access.isOf p a → SharedStep nocurses s a t → ∃ d, a.act = some d ∧ d.isOf p := by
  obtain ⟨d, u, hd, hst⟩ := hen
  cases p with
  | host =>
    refine ⟨?_, fun a t ha _ => ?_⟩
    · cases hst with
      | pollEmpty hpc h0 => exact ⟨.mailbox .poll, _, rfl, .pollEmpty hpc h0⟩
      | pollFull hpc h0 => exact ⟨.mailbox .poll, _, rfl, .pollFull hpc h0⟩
      | giveUp hpc h0 => exact ⟨.mailbox .giveUp, _, rfl, .giveUp hpc h0⟩
      | runNothing hpc => exact ⟨.mailbox .run, _, rfl, .runNothing hpc⟩
      | run hpc h₁ h₂ => exact ⟨.mailbox .run, _, rfl, .run hpc h₁ h₂⟩
      | fail hpc h₁ h₂ h₃ => exact ⟨.mailbox .fail, _, rfl, .fail hpc h₁ h₂ h₃⟩
      | failUnknown hpc => exact ⟨.mailbox .fail, _, rfl, .failUnknown hpc⟩
      | clear hpc => exact ⟨.mailbox .clear, _, rfl, .clear hpc⟩
      | ack hpc => exact ⟨.mailbox .ack, _, rfl, .ack hpc⟩
      | _ => simp [Act.isOf] at hd
    · cases a with
      | store => cases ha
      | mailbox a =>
        refine ⟨a, rfl, ?_⟩
        cases a with
        | call => cases ha
        | post => cases ha
        | spin => cases ha
        | clearDrawn => cases ha
        | _ => simp [Act.isOf]
  | device =>
    have hcall : s.dev ≠ .idle ∧ Enabled (SharedStep nocurses) (Access.isOf .device) s := by
      cases hst with
      | post hpc =>
        obtain ⟨rest, htodo⟩ := hposting _ hpc
        exact ⟨fun h => DevPc.noConfusion (h.symm.trans hpc), .mailbox .post, _, rfl,
          .post hpc htodo⟩
      | spinAgain hpc h0 =>
        exact ⟨fun h => DevPc.noConfusion (h.symm.trans hpc), .mailbox .spin, _, rfl,
          .spinAgain hpc h0⟩
      | spinDone hpc h0 =>
        exact ⟨fun h => DevPc.noConfusion (h.symm.trans hpc), .mailbox .spin, _, rfl,
          .spinDone hpc h0⟩
      | clearDrawn hpc =>
        exact ⟨fun h => DevPc.noConfusion (h.symm.trans hpc), .mailbox .clearDrawn, _, rfl,
          .clearDrawn hpc⟩
      | _ => simp [Act.isOf] at hd
    refine ⟨hcall.2, fun a t ha hst => ?_⟩
    cases hst with
    | store hdev => exact absurd hdev hcall.1
    | call hdev => exact absurd hdev hcall.1
    | callParam hdev => exact absurd hdev hcall.1
    | post => exact ⟨.post, rfl, by simp [Act.isOf]⟩
    | spinAgain => exact ⟨.spin, rfl, by simp [Act.isOf]⟩
    | spinDone => exact ⟨.spin, rfl, by simp [Act.isOf]⟩
    | clearDrawn => exact ⟨.clearDrawn, rfl, by simp [Act.isOf]⟩
    | _ => cases ha

/-- **The protocol's run is fair.** -/
theorem weakFair_mailbox (hfair : ∀ p, b.WeakFair (Access.isOf p))
    (hin : ∀ i, ∀ op ∈ (b.state i).todo, op.Inside)
    (hposting : ∀ i p, (b.state i).dev = .posting p → ∃ rest, (b.state i).todo = .notify p :: rest)
    (p : Party) : (mailboxBehavior b hin).WeakFair (Act.isOf p) :=
  (hfair p).image fun i => enabled_of_mailbox (hposting i) p

/-! ## 4. Nothing is left to do -/

/-- What the device has still to do, and the calls that have still to return. -/
def Shared.left (ops : List DevOp) (s : Shared) : Nat :=
  s.todo.length + ((notified ops).length - s.returned)

theorem left_mono {j : Nat} (hij : i ≤ j) :
    (b.state j).todo.length ≤ (b.state i).todo.length ∧
      (b.state i).returned ≤ (b.state j).returned := by
  refine b.keeps (I := fun s => s.todo.length ≤ (b.state i).todo.length ∧
    (b.state i).returned ≤ s.returned) ?_ hij ⟨Nat.le_refl _, Nat.le_refl _⟩
  rintro s a t ⟨htodo, hret⟩ hst
  obtain ⟨htodo', hret'⟩ := todo_returned_step hst
  exact ⟨Nat.le_trans htodo' htodo, Nat.le_trans hret hret'⟩

/-- Between two calls, the device goes on. -/
theorem goes_on (hfair : b.WeakFair (Access.isOf .device)) (hdev : (b.state i).dev = .idle)
    (htodo : (b.state i).todo ≠ []) :
    ∃ j, i ≤ j ∧ ((b.state j).todo.length < (b.state i).todo.length ∨ (b.state j).dev ≠ .idle) := by
  have hstep : ∀ s a t, (s.dev = .idle ∧ s.todo = (b.state i).todo) →
      SharedStep nocurses s a t → (t.todo.length < (b.state i).todo.length ∨ t.dev ≠ .idle) ∨
        (t.dev = .idle ∧ t.todo = (b.state i).todo) := by
    rintro s a t ⟨hs, hops⟩ hst
    cases ha : a.party with
    | host =>
      obtain ⟨hdev', htodo', -⟩ := host_access hst ha
      exact Or.inr ⟨hdev'.trans hs, htodo'.trans hops⟩
    | device => exact Or.inl (hops ▸ device_access hst ha hs)
  obtain ⟨j, hij, hdone | ⟨⟨hs, hops⟩, a, hl, ha⟩⟩ := Behavior.leadsTo_act hfair hstep
    (fun s hs => enabled_of_todo nocurses hs.1 (hs.2 ▸ htodo)) ⟨hdev, rfl⟩
  · exact ⟨j, hij, hdone⟩
  · have hnext := b.next j
    simp only [hl] at hnext
    exact ⟨j + 1, Nat.le_succ_of_le hij, hops ▸ device_access hnext ha hs⟩

/-- Where the shutdown is the last of the program, nothing comes after its call. -/
theorem done_of_shutdown {s : Shared} {rest : List DevOp} (hops : ops = rest ++ [.notify .shutdown])
    (hnot : DevOp.notify .shutdown ∉ rest) (hsplit : s.done ++ s.todo = ops)
    (hmem : Post.shutdown ∈ (notified s.done).take s.returned) :
    s.todo = [] ∧ (notified s.done).length ≤ s.returned := by
  have hnotified : ∀ {ops : List DevOp}, Post.shutdown ∈ notified ops →
      DevOp.notify .shutdown ∈ ops := by
    intro ops h
    obtain ⟨op, hop, heq⟩ := List.mem_filterMap.mp h
    cases op with
    | notify p =>
      obtain rfl : p = .shutdown := Option.some.inj heq
      exact hop
    | _ => cases heq
  rcases List.eq_nil_or_concat s.todo with htodo | ⟨todo, op, htodo⟩
  · refine ⟨htodo, ?_⟩
    rw [htodo, List.append_nil, hops] at hsplit
    rw [hsplit, notified_append] at hmem ⊢
    by_contra hlt
    have hle : s.returned ≤ (notified rest).length := by
      rw [List.length_append] at hlt
      have hone : (notified [DevOp.notify .shutdown]).length = 1 := rfl
      omega
    rw [List.take_append_of_le_length hle] at hmem
    exact hnot (hnotified (List.mem_of_mem_take hmem))
  · rw [htodo, List.concat_eq_append, ← List.append_assoc, hops] at hsplit
    have hrest := (List.append_inj' hsplit rfl).1
    refine absurd (hnotified (List.mem_of_mem_take hmem)) fun h => hnot ?_
    exact hrest ▸ List.mem_append_left _ h

/-- A call that waits has not returned. -/
theorem returned_lt_of_spinning {s : State} (hs : Phase nocurses s) (hdev : s.dev = .spinning) :
    s.returned < s.posted.length := by
  cases hs with
  | quiet hdev' => simp [hdev] at hdev'
  | posted ps p _ hps _ _ _ _ hret => simp [hps, hret]
  | handled _ _ _ hret => omega
  | acked _ _ _ _ hret => omega

end Behavior

section Ends

variable {nocurses : Bool} {m : Mem} {ops rest : List DevOp} {b : Behavior (SharedStep nocurses)}
  {i : Nat}

/-- **A call in progress returns.** -/
theorem Served.call_returns (B : Served nocurses m ops b) (hin : ∀ op ∈ ops, op.Inside)
    (S : ∀ i, Sound nocurses m ops (b.state i)) (hops : ops = rest ++ [.notify .shutdown])
    (hnot : DevOp.notify .shutdown ∉ rest) (hcall : (b.state i).dev ≠ .idle) :
    ∃ j, i ≤ j ∧ (b.state j).returned = (b.state i).returned + 1 := by
  have hfair := weakFair_mailbox B.fair (fun i => (S i).inside hin) fun i => (S i).posting
  obtain ⟨j, hij, hret | ⟨hstuck, -⟩⟩ :=
    Mailbox.returns_or_stuck hfair (answerable_of_phase (S i).faithful.phase) hcall
  · exact ⟨j, hij, hret⟩
  · -- it would hang behind the shutdown, and there is no call behind that one
    obtain ⟨htodo, hle⟩ := done_of_shutdown hops hnot (S j).faithful.split
      ((S j).closes.shutdown_of_stuck hstuck)
    rcases hstuck.2.2 with hspin | ⟨p, hposting⟩
    · exact absurd (returned_lt_of_spinning (S j).faithful.phase hspin) (Nat.not_lt.mpr hle)
    · obtain ⟨todo, htodo'⟩ := (S j).posting p hposting
      exact absurd (htodo.symm.trans htodo') (List.cons_ne_nil _ _).symm

/-- No more calls return than the program makes. -/
theorem Sound.returned_le {s : Shared} (S : Sound nocurses m ops s) :
    s.returned ≤ (notified ops).length := by
  have hle : s.returned ≤ (notified s.done).length := S.faithful.phase.returned_le
  rw [← S.faithful.split, notified_append, List.length_append]
  omega

/-- The device gets through its program. -/
theorem Served.gets_through (B : Served nocurses m ops b) (hin : ∀ op ∈ ops, op.Inside)
    (S : ∀ i, Sound nocurses m ops (b.state i)) (hops : ops = rest ++ [.notify .shutdown])
    (hnot : DevOp.notify .shutdown ∉ rest) (i : Nat) :
    ∃ j, i ≤ j ∧ (b.state j).todo = [] ∧ (b.state j).dev = .idle := by
  -- by induction on what is left; each stage ends with less of it
  induction hn : (b.state i).left ops using Nat.strongRecOn generalizing i with
  | ind n ih =>
    have hlater : ∀ j, i ≤ j → (b.state j).left ops < n →
        ∃ k, i ≤ k ∧ (b.state k).todo = [] ∧ (b.state k).dev = .idle := by
      intro j hij hlt
      obtain ⟨k, hjk, hk⟩ := ih _ hlt j rfl
      exact ⟨k, Nat.le_trans hij hjk, hk⟩
    have hreturn : ∀ j, i ≤ j → (b.state j).dev ≠ .idle →
        ∃ k, i ≤ k ∧ (b.state k).todo = [] ∧ (b.state k).dev = .idle := by
      intro j hij hcall
      obtain ⟨k, hjk, hret⟩ := B.call_returns hin S hops hnot hcall
      obtain ⟨htodo, -⟩ := left_mono (b := b) (Nat.le_trans hij hjk)
      obtain ⟨-, hmore⟩ := left_mono (b := b) hij
      have hle := (S k).returned_le
      refine hlater k (Nat.le_trans hij hjk) ?_
      rw [← hn, Shared.left, Shared.left]
      omega
    by_cases hdev : (b.state i).dev = .idle
    · by_cases htodo : (b.state i).todo = []
      · exact ⟨i, Nat.le_refl i, htodo, hdev⟩
      · obtain ⟨j, hij, hless | hcall⟩ := goes_on (B.fair .device) hdev htodo
        · obtain ⟨-, hmore⟩ := left_mono (b := b) hij
          refine hlater j hij ?_
          rw [← hn, Shared.left, Shared.left]
          omega
        · exact hreturn j hij hcall
    · exact hreturn i (Nat.le_refl i) hdev

end Ends

/-! ## 5. The end -/

/-- Where a run comes to: the host has handled every update of `t`, in order and each on its own
framebuffer, and has left its loop; all calls have returned and the card has nothing left to
do; and memory is as it was but for the framebuffer, which is the terminal's, and the
registers, of which those of the handshake are clear. -/
structure Ended (nocurses : Bool) (m : Mem) (t : Term) (s : Shared) : Prop where
  host : s.host = .stopped
  dev : s.dev = .idle
  todo : s.todo = []
  returned : s.returned = t.posts.length
  handled : s.handled = answers nocurses (t.posts.map Prod.fst)
  seen : s.seen = t.posts.map Prod.snd
  screen : screen s.mem = t.buf
  avail : readReg (consoleReg .outputAvail) s.mem = 0
  drawn : readReg (consoleReg .outputDrawn) s.mem = 0
  outside : ∀ x, ¬ InWindow x → s.mem x = m x

section

variable {nocurses : Bool} {m : Mem} {s s' : Shared} {t : Term} {outs : List Output} {a : Access}

/-- Neither process acts any more. -/
theorem not_step_of_stopped (hhost : s.host = .stopped) (hdev : s.dev = .idle)
    (htodo : s.todo = []) : ¬ SharedStep nocurses s a s' := by
  intro h
  cases h <;> simp_all

theorem Sound.ended (S : Sound nocurses m (program outs) s) (htodo : s.todo = [])
    (hdev : s.dev = .idle)
    (hexecs : execs (program outs) (Philix.screen m, []) = (t.buf, t.posts)) :
    Ended nocurses m t s := by
  have hdone : s.done = program outs := by
    have h := S.faithful.split
    rwa [htodo, List.append_nil] at h
  have hposted : s.mailbox.posted = t.posts.map Prod.fst := by
    have h := map_fst_execs (program outs) (Philix.screen m) []
    rw [hexecs, List.map_nil, List.nil_append] at h
    rw [h, ← hdone]
    rfl
  cases S.faithful.phase with
  | quiet _ _ havail hdrawn hret hans =>
    have hhandled : s.handled = answers nocurses (t.posts.map Prod.fst) := hposted ▸ hans
    have hlen : s.handled.length = t.posts.length := by
      rw [hhandled, length_answers, List.length_map]
    have A := S.faithful.asPosted hexecs
    refine ⟨?_, hdev, htodo, ?_, hhandled, ?_, A.shutdown hlen, havail, hdrawn, A.outside⟩
    · -- the shutdown, the last update of the program, has been acknowledged
      refine S.closes.stopped.mpr ?_
      rw [Mailbox.acked_of_clear hdrawn, hret, List.take_length]
      show Post.shutdown ∈ notified s.done
      rw [hdone, program, notified_append]
      exact List.mem_append_right _ List.mem_cons_self
    · exact hret.trans (by rw [hposted, List.length_map])
    · rw [A.seen, hlen, List.take_length]
  | posted _ _ hdev' => exact absurd (hdev'.symm.trans hdev) DevPc.noConfusion
  | handled hdev' => exact absurd (hdev'.symm.trans hdev) DevPc.noConfusion
  | acked hdev' =>
    rcases hdev' with h | h
    · exact absurd (h.symm.trans hdev) DevPc.noConfusion
    · exact absurd (h.symm.trans hdev) DevPc.noConfusion

/-- The run in which each of the two waits for the other, and both rest at the end. -/
theorem exists_served (nocurses : Bool) (outs : List Output) (m : Mem)
    (havail : readReg (consoleReg .outputAvail) m = 0)
    (hdrawn : readReg (consoleReg .outputDrawn) m = 0) :
    ∃ b, Served nocurses m (program outs) b := by
  obtain ⟨as, s, hrun, -, hhost, hdev, htodo⟩ := complete_run nocurses outs m havail hdrawn
  have hrest : ∀ p, ¬ Enabled (SharedStep nocurses) (Access.isOf p) s := by
    rintro p ⟨a, t, -, hst⟩
    exact not_step_of_stopped hhost hdev htodo hst
  obtain ⟨b, h0, hfair, hlabel⟩ := (hrun.mono fun _ _ _ h => h.1).exists_fair hrest
  refine ⟨b, h0, fun i => ⟨fun hl => ?_, fun hl => ?_⟩, hfair⟩
  · exact (hrun.labels _ (hlabel i _ hl)).1 rfl
  · exact (hrun.labels _ (hlabel i _ hl)).2 rfl

/-- **A fair run ends**, and nothing changes after it. -/
theorem Served.ends {b : Behavior (SharedStep nocurses)} (B : Served nocurses m (program outs) b)
    (havail : readReg (consoleReg .outputAvail) m = 0)
    (hdrawn : readReg (consoleReg .outputDrawn) m = 0)
    (ht : outputRun (Philix.screen m) outs = .ok t) :
    ∃ i, Ended nocurses m (t.notify .shutdown) (b.state i) ∧
      ∀ j, i ≤ j → b.state j = b.state i := by
  obtain ⟨t', ht', hexecs, hin⟩ := does_program (Philix.screen m) outs
  obtain rfl : t' = t := Except.ok.inj (ht'.symm.trans ht)
  have S := sound_of_served B hin havail hdrawn
  obtain ⟨i, -, htodo, hdev⟩ :=
    B.gets_through hin S rfl (not_shutdown_of_outputs (Philix.screen m) outs) 0
  have E := (S i).ended htodo hdev hexecs
  refine ⟨i, E, fun j hij => b.keeps (I := fun s => s = b.state i) ?_ hij rfl⟩
  rintro s a s' rfl hst
  exact absurd hst (not_step_of_stopped E.host hdev htodo)

end

/-- **Every fair run ends.**  In every interleaving of the terminal's stores and posts with the
host's accesses that goes on as long as either can, in which no poll gives up and no handler
fails, a time comes at which all is done and from which nothing changes. -/
theorem every_fair_run_ends (nocurses : Bool) (outs : List Output) (m : Mem)
    (havail : readReg (consoleReg .outputAvail) m = 0)
    (hdrawn : readReg (consoleReg .outputDrawn) m = 0) :
    ∃ t, outputRun (screen m) outs = .ok t ∧
      ∀ b : Behavior (SharedStep nocurses), Served nocurses m (program outs) b →
        ∃ i, Ended nocurses m (t.notify .shutdown) (b.state i) ∧
          ∀ j, i ≤ j → b.state j = b.state i := by
  obtain ⟨t, ht, -⟩ := does_program (screen m) outs
  exact ⟨t, ht, fun b B => B.ends havail hdrawn ht⟩

/-- Such a run, of one line printed to a card with cleared memory. -/
theorem every_fair_run_ends_one_line :
    ∃ t b, outputRun (screen fun _ => 0) [.print (.puts [72, 105])] = .ok t ∧
      Served false (fun _ => 0) (program [.print (.puts [72, 105])]) b ∧
      ∃ i, Ended false (fun _ => 0) (t.notify .shutdown) (b.state i) ∧
        ∀ j, i ≤ j → b.state j = b.state i := by
  obtain ⟨t, ht, hends⟩ :=
    every_fair_run_ends false [.print (.puts [72, 105])] (fun _ => 0) rfl rfl
  obtain ⟨b, B⟩ := exists_served false [.print (.puts [72, 105])] (fun _ => 0) rfl rfl
  exact ⟨t, b, ht, B, hends b B⟩

end Philix
