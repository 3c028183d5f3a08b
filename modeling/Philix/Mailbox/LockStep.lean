/-
# The mailbox is lock-step as long as the host's poll does not give up

While every poll waits for an update, the two processes go round four phases: nothing is
posted; an update is posted; it has been handled; it has been acknowledged.  `Phase` ties
both program counters to both registers in each of them, and carries the history: what has
been handled is exactly what has been posted, in order, with its parameters.

A poll that gives up goes through the clear and the acknowledgement all the same.  From any
point at which it can, there is a continuation in which a post is cleared unread and its
call returns.
-/
import Philix.Mailbox.Protocol

namespace Philix.Mailbox

open Philix.Console (UpdateType)
open Lts

/-- What the host reads of the parameter of a post. -/
def Post.seen (nocurses : Bool) (p : Post) : Option UInt32 :=
  if nocurses then none else p.param.map Prod.snd

/-- The posts `ps`, each handled once, in order, with its own type and parameter. -/
def answers (nocurses : Bool) (ps : List Post) : List Handled :=
  ps.mapIdx fun i p => ⟨i, p.type, p.seen nocurses⟩

/-- Each call of the device that has returned posted an update the host has handled. -/
def NoEarlyReturn (nocurses : Bool) (s : State) : Prop :=
  ∀ k < s.returned, ∃ p, s.posted[k]? = some p ∧ ⟨k, p.type, p.seen nocurses⟩ ∈ s.handled

/-- The parameter of the post is in its register. -/
def Ready (nocurses : Bool) (s : State) (p : Post) : Prop :=
  s.readParam nocurses p.type = p.seen nocurses

inductive Phase (nocurses : Bool) (s : State) : Prop
  | quiet (hdev : s.dev = .idle ∨ ∃ p, s.dev = .posting p ∧ Ready nocurses s p)
      (hhost : s.host = .polling ∨ s.host = .stopped) (havail : s.avail = 0) (hdrawn : s.drawn = 0)
      (hret : s.returned = s.posted.length) (hans : s.handled = answers nocurses s.posted)
  | posted (ps : List Post) (p : Post) (hdev : s.dev = .spinning) (hps : s.posted = ps ++ [p])
      (hhost : s.host = .polling ∨ s.host = .switching p.type ps.length ∨ s.host = .stopped)
      (havail : s.avail = p.avail) (hdrawn : s.drawn = 0) (hready : Ready nocurses s p)
      (hret : s.returned = ps.length) (hans : s.handled = answers nocurses ps)
  | handled (hdev : s.dev = .spinning)
      (hhost : (∃ u, s.host = .clearing u) ∨ (∃ u, s.host = .acking u ∧ s.avail = 0) ∨
        s.host = .stopped)
      (hdrawn : s.drawn = 0) (hret : s.returned + 1 = s.posted.length)
      (hans : s.handled = answers nocurses s.posted)
  | acked (hdev : s.dev = .spinning ∨ s.dev = .clearing)
      (hhost : s.host = .polling ∨ s.host = .stopped) (havail : s.avail = 0) (hdrawn : s.drawn ≠ 0)
      (hret : s.returned + 1 = s.posted.length) (hans : s.handled = answers nocurses s.posted)

section

variable {nocurses : Bool} {s s' t : State} {a : Act} {p : Post}

/-! ## 1. The history -/

theorem answers_concat (ps : List Post) (p : Post) :
    answers nocurses (ps ++ [p]) =
      answers nocurses ps ++ [⟨ps.length, p.type, p.seen nocurses⟩] := by
  simp [answers, List.mapIdx_concat]

theorem mem_answers {ps : List Post} {h : Handled} :
    h ∈ answers nocurses ps ↔
      ∃ p, ps[h.nth]? = some p ∧ h = ⟨h.nth, p.type, p.seen nocurses⟩ := by
  constructor
  · intro hmem
    obtain ⟨i, hi, rfl⟩ := List.mem_mapIdx.mp hmem
    exact ⟨ps[i], List.getElem?_eq_getElem hi, rfl⟩
  · rintro ⟨p, hp, he⟩
    obtain ⟨hi, rfl⟩ := List.getElem?_eq_some_iff.mp hp
    rw [he]
    exact List.mem_mapIdx.mpr ⟨h.nth, hi, rfl⟩

theorem nth_lt_of_mem_answers {ps : List Post} {h : Handled} (hmem : h ∈ answers nocurses ps) :
    h.nth < ps.length := by
  obtain ⟨p, hp, -⟩ := mem_answers.mp hmem
  exact (List.getElem?_eq_some_iff.mp hp).1

variable (nocurses) in
theorem ready_writeParam {w : ParamReg × UInt32} (hw : p.param = some w) :
    Ready nocurses { s.writeParam w with dev := .posting p } p := by
  cases p <;> cases nocurses <;> simp [Post.param] at hw <;> subst hw <;> rfl

theorem ready_of_param_none (hw : p.param = none) : Ready nocurses s p := by
  cases p <;> cases nocurses <;> simp [Post.param] at hw <;> rfl

/-- In every phase, a call that has returned posted a handled update. -/
theorem Phase.noEarlyReturn (hs : Phase nocurses s) : NoEarlyReturn nocurses s := by
  intro k hk
  have key : ∀ ps, s.handled = answers nocurses ps → ps <+: s.posted → k < ps.length →
      ∃ p, s.posted[k]? = some p ∧ ⟨k, p.type, p.seen nocurses⟩ ∈ s.handled := by
    rintro ps hans ⟨rest, hps⟩ hk
    refine ⟨ps[k], ?_, ?_⟩
    · rw [← hps, List.getElem?_append_left hk, List.getElem?_eq_getElem hk]
    · rw [hans]
      exact mem_answers.mpr ⟨ps[k], List.getElem?_eq_getElem hk, rfl⟩
  cases hs with
  | quiet hdev hhost havail hdrawn hret hans => exact key _ hans List.prefix_rfl (by omega)
  | posted ps p hdev hps hhost havail hdrawn hready hret hans =>
    exact key ps hans ⟨[p], hps.symm⟩ (by omega)
  | handled hdev hhost hdrawn hret hans => exact key _ hans List.prefix_rfl (by omega)
  | acked hdev hhost havail hdrawn hret hans => exact key _ hans List.prefix_rfl (by omega)

/-! ## 2. One step -/

theorem Phase.init : Phase nocurses State.init :=
  .quiet (Or.inl rfl) (Or.inl rfl) rfl rfl rfl rfl

/-- **The step lemma.**  A step that is not a poll giving up stays in its phase or goes on to
the next one. -/
theorem Phase.step (hs : Phase nocurses s) (h : Step nocurses s a s') (ha : a ≠ .giveUp) :
    Phase nocurses s' := by
  cases hs with
  | quiet hdev hhost havail hdrawn hret hans =>
    -- the host finds nothing; the device may start a call or go on with it
    cases h with
    | pollEmpty => exact .quiet hdev hhost havail hdrawn hret hans
    | pollFull _ hne => exact absurd havail hne
    | giveUp => exact absurd rfl ha
    | runNothing hpc => simp [hpc] at hhost
    | run hpc => simp [hpc] at hhost
    | fail hpc => simp [hpc] at hhost
    | failUnknown hpc => simp [hpc] at hhost
    | clear hpc => simp [hpc] at hhost
    | ack hpc => simp [hpc] at hhost
    | @call p _ hparam =>
      exact .posted s.posted p rfl rfl (by tauto) rfl hdrawn (ready_of_param_none hparam) hret hans
    | @callParam p w _ hparam =>
      have hready := ready_writeParam nocurses (s := s) hparam
      obtain ⟨_ | _, v⟩ := w
      · exact .quiet (Or.inr ⟨p, rfl, hready⟩) hhost havail hdrawn hret hans
      · exact .quiet (Or.inr ⟨p, rfl, hready⟩) hhost havail hdrawn hret hans
    | @post p hpc =>
      rw [hpc] at hdev
      obtain ⟨p', hp', hready⟩ := hdev.resolve_left (by simp)
      cases hp'
      exact .posted s.posted p rfl rfl (by tauto) rfl hdrawn hready hret hans
    | spinAgain hpc => simp [hpc] at hdev
    | spinDone hpc => simp [hpc] at hdev
    | clearDrawn hpc => simp [hpc] at hdev
  | posted ps p hdev hps hhost havail hdrawn hready hret hans =>
    -- the device spins on a clear register; the host reads the update and runs its case
    cases h with
    | pollEmpty => exact .posted ps p hdev hps hhost havail hdrawn hready hret hans
    | pollFull =>
      refine .posted ps p hdev hps (Or.inr (Or.inl ?_)) havail hdrawn hready hret hans
      simp [havail, hps]
    | giveUp => exact absurd rfl ha
    | runNothing hpc => simp [hpc, p.type_ne.1.symm] at hhost
    | run hpc =>
      obtain ⟨rfl, rfl⟩ : p.type = _ ∧ ps.length = _ := by simpa [hpc, eq_comm] using hhost
      refine .handled hdev (Or.inl ⟨_, rfl⟩) hdrawn (by simp [State.handle, hps, hret]) ?_
      have hparam : s.readParam nocurses p.type = p.seen nocurses := hready
      simp only [State.handle, hparam, hans, hps, answers_concat]
    | fail hpc =>
      obtain ⟨rfl, rfl⟩ : p.type = _ ∧ ps.length = _ := by simpa [hpc, eq_comm] using hhost
      refine .handled hdev (Or.inr (Or.inr rfl)) hdrawn (by simp [State.handle, hps, hret]) ?_
      have hparam : s.readParam nocurses p.type = p.seen nocurses := hready
      simp only [State.handle, hparam, hans, hps, answers_concat]
    | failUnknown hpc => simp [hpc, p.type_ne.2.symm] at hhost
    | clear hpc => simp [hpc] at hhost
    | ack hpc => simp [hpc] at hhost
    | call hpc => simp [hpc] at hdev
    | callParam hpc => simp [hpc] at hdev
    | post hpc => simp [hpc] at hdev
    | spinAgain => exact .posted ps p hdev hps hhost havail hdrawn hready hret hans
    | spinDone _ hne => exact absurd hdrawn hne
    | clearDrawn hpc => simp [hpc] at hdev
  | handled hdev hhost hdrawn hret hans =>
    -- the device spins on a clear register; the host clears the one and then sets the other
    cases h with
    | pollEmpty hpc => simp [hpc] at hhost
    | pollFull hpc => simp [hpc] at hhost
    | giveUp => exact absurd rfl ha
    | runNothing hpc => simp [hpc] at hhost
    | run hpc => simp [hpc] at hhost
    | fail hpc => simp [hpc] at hhost
    | failUnknown hpc => simp [hpc] at hhost
    | clear => exact .handled hdev (Or.inr (Or.inl ⟨_, rfl, rfl⟩)) hdrawn hret hans
    | @ack u hpc =>
      have havail : s.avail = 0 := by simpa [hpc] using hhost
      refine .acked (Or.inl hdev) ?_ havail (by simp) hret hans
      by_cases hu : u = .consoleShutdown
      · exact Or.inr (if_pos hu)
      · exact Or.inl (if_neg hu)
    | call hpc => simp [hpc] at hdev
    | callParam hpc => simp [hpc] at hdev
    | post hpc => simp [hpc] at hdev
    | spinAgain => exact .handled hdev hhost hdrawn hret hans
    | spinDone _ hne => exact absurd hdrawn hne
    | clearDrawn hpc => simp [hpc] at hdev
  | acked hdev hhost havail hdrawn hret hans =>
    -- the host finds nothing; the device sees the acknowledgement, clears it and returns
    cases h with
    | pollEmpty => exact .acked hdev hhost havail hdrawn hret hans
    | pollFull _ hne => exact absurd havail hne
    | giveUp => exact absurd rfl ha
    | runNothing hpc => simp [hpc] at hhost
    | run hpc => simp [hpc] at hhost
    | fail hpc => simp [hpc] at hhost
    | failUnknown hpc => simp [hpc] at hhost
    | clear hpc => simp [hpc] at hhost
    | ack hpc => simp [hpc] at hhost
    | call hpc => simp [hpc] at hdev
    | callParam hpc => simp [hpc] at hdev
    | post hpc => simp [hpc] at hdev
    | spinAgain _ h0 => exact absurd h0 hdrawn
    | spinDone => exact .acked (Or.inr rfl) hhost havail hdrawn hret hans
    | clearDrawn => exact .quiet (Or.inl rfl) hhost havail rfl hret hans

/-- The run lemma. -/
theorem phase_of_run {as : List Act}
    (h : Run (Restrict (Step nocurses) fun _ a => a ≠ .giveUp) State.init as s) :
    Phase nocurses s :=
  h.preserves (fun _ _ _ hs hst => hs.step hst.1 hst.2) Phase.init

/-! ## 3. A poll that gives up -/

variable (nocurses) in
/-- Whatever is posted when the host is past a poll that gave up is cleared unread, and its
call returns. -/
theorem run_lost {nth : Nat} (hhost : s.host = .switching .noUpdate nth)
    (hdev : s.dev = .spinning) :
    ∃ t, Run (Step nocurses) s [.run, .clear, .ack, .spin, .clearDrawn] t ∧
      t.returned = s.returned + 1 ∧ t.handled = s.handled := by
  refine ⟨_, Run.cons (.runNothing hhost) (Run.cons (.clear rfl) (Run.cons (.ack rfl)
    (Run.cons (.spinDone hdev (by simp)) (Run.cons (.clearDrawn rfl) (Run.refl _))))), ?_⟩
  exact ⟨rfl, rfl⟩

theorem not_noEarlyReturn {l : List Post} (hret : s.returned = l.length + 1)
    (hans : s.handled = answers nocurses l) :
    ¬ NoEarlyReturn nocurses s := by
  intro h
  obtain ⟨q, -, hmem⟩ := h l.length (by omega)
  rw [hans] at hmem
  exact Nat.lt_irrefl _ (nth_lt_of_mem_answers hmem)

variable (nocurses) in
/-- From a state between two calls, once the host is past a poll that gave up. -/
theorem lost_from_idle {nth : Nat} (hhost : s.host = .switching .noUpdate nth)
    (hdev : s.dev = .idle) (hret : s.returned = s.posted.length)
    (hans : s.handled = answers nocurses s.posted) :
    ∃ as t, Run (Step nocurses) s as t ∧ ¬ NoEarlyReturn nocurses t := by
  have hcall : Step nocurses s (.call .redraw) (s.post .redraw) := .call hdev rfl
  obtain ⟨t, hrun, hret', hans'⟩ := run_lost nocurses
    (s := s.post .redraw) hhost rfl
  refine ⟨_, t, Run.cons hcall hrun, not_noEarlyReturn ?_ (hans'.trans hans)⟩
  rw [hret', ← hret]
  rfl

/-- **Giving up loses an update.**  Wherever a lock-step run can have its poll give up, it can
go on to a call that returns with its update unread. -/
theorem Phase.lost (hs : Phase nocurses s) (hhost : s.host = .polling) (havail : s.avail = 0) :
    ∃ as t, Run (Step nocurses) s (.giveUp :: as) t ∧ ¬ NoEarlyReturn nocurses t := by
  have hgive : Step nocurses s .giveUp _ := .giveUp hhost havail
  cases hs with
  | quiet hdev _ _ hdrawn hret hans =>
    rcases hdev with hidle | ⟨p, hposting, -⟩
    · obtain ⟨as, t, hrun, hlost⟩ := lost_from_idle nocurses
        (s := { s with host := .switching .noUpdate 0 }) rfl hidle hret hans
      exact ⟨as, t, Run.cons hgive hrun, hlost⟩
    · obtain ⟨t, hrun, hret', hans'⟩ := run_lost nocurses
        (s := { s with host := .switching .noUpdate 0 }.post p) rfl rfl
      refine ⟨_, t, Run.cons hgive (Run.cons (.post hposting) hrun),
        not_noEarlyReturn ?_ (hans'.trans hans)⟩
      rw [hret', ← hret]
      rfl
  | posted ps p _ _ _ havail' => exact absurd (havail'.symm.trans havail) p.avail_ne_zero
  | handled _ hhost' => simp [hhost] at hhost'
  | acked hdev _ _ hdrawn hret hans =>
    have hlost := lost_from_idle nocurses
      (s := { s with
        host := .switching .noUpdate 0, dev := .idle, drawn := 0, returned := s.returned + 1 })
      rfl rfl hret hans
    obtain ⟨as, t, hrun, hlost⟩ := hlost
    rcases hdev with hspin | hclear
    · exact ⟨_, t, Run.cons hgive (Run.cons (.spinDone hspin hdrawn)
        (Run.cons (.clearDrawn rfl) hrun)), hlost⟩
    · exact ⟨_, t, Run.cons hgive (Run.cons (.clearDrawn hclear) hrun), hlost⟩

end

/-! ## 4. Every run -/

/-- **No lost update and no early acknowledgement, as long as no poll gives up.**  In every
run without such a poll, every call that has returned posted an update that the host has
read, as that post with its type and parameter, and handled.  And in every state of such a
run in which a poll can give up, giving up leads on to a call that returns with its update
unread. -/
theorem no_early_return_unless_giveUp (nocurses : Bool) (as : List Act) (s : State)
    (h : Run (Restrict (Step nocurses) fun _ a => a ≠ .giveUp) State.init as s) :
    NoEarlyReturn nocurses s ∧
    (s.host = .polling → s.avail = 0 →
      ∃ as' t, Run (Step nocurses) s (.giveUp :: as') t ∧ ¬ NoEarlyReturn nocurses t) :=
  ⟨(phase_of_run h).noEarlyReturn, (phase_of_run h).lost⟩

/-- The run of one redraw: posted, read, handled, acknowledged. -/
theorem no_early_return_one_redraw :
    ∃ s, s.returned = 1 ∧ NoEarlyReturn false s ∧
      (s.host = .polling → s.avail = 0 →
        ∃ as' t, Run (Step false) s (.giveUp :: as') t ∧ ¬ NoEarlyReturn false t) := by
  have hrun : Run (Restrict (Step false) fun _ a => a ≠ .giveUp) State.init
      [.call .redraw, .poll, .run, .clear, .ack, .spin, .clearDrawn] _ :=
    Run.cons ⟨.call rfl rfl, by simp⟩ (Run.cons ⟨.pollFull rfl (by decide), by simp⟩
      (Run.cons ⟨.run rfl (by decide) (by decide), by simp⟩ (Run.cons ⟨.clear rfl, by simp⟩
        (Run.cons ⟨.ack rfl, by simp⟩ (Run.cons ⟨.spinDone rfl (by decide), by simp⟩
          (Run.cons ⟨.clearDrawn rfl, by simp⟩ (Run.refl _)))))))
  exact ⟨_, rfl, no_early_return_unless_giveUp false _ _ hrun⟩

/-- The poll gives up, the device posts a redraw, and the host clears and acknowledges it
without having read it. -/
theorem redraw_lost :
    ∃ s, Run (Step false) State.init
        [.giveUp, .call .redraw, .run, .clear, .ack, .spin, .clearDrawn] s ∧
      s.returned = 1 ∧ s.posted = [.redraw] ∧ s.handled = [] ∧ ¬ NoEarlyReturn false s := by
  refine ⟨_, Run.cons (.giveUp rfl rfl) (Run.cons (.call rfl rfl) (Run.cons (.runNothing rfl)
    (Run.cons (.clear rfl) (Run.cons (.ack rfl) (Run.cons (.spinDone rfl (by decide))
      (Run.cons (.clearDrawn rfl) (Run.refl _))))))), rfl, rfl, rfl, ?_⟩
  exact not_noEarlyReturn (l := []) rfl rfl

end Philix.Mailbox
