/-
# From the bytes printed to the file, on the one memory

`batch_log_is_rendering` lets the host handle each update on the framebuffer it was posted on.
On the memory that the two share nobody hands it that framebuffer: it is what the host finds
there while its case runs, and the dump at the end reads memory when the device has long been
let go.  With `AsPosted` it comes to the same in every interleaving in which no poll gives up.
-/
import Mathlib.Data.List.Induction
import Philix.BatchLog
import Philix.Mailbox.Delivery
import Philix.SharedMemory

namespace Philix

open Console Winky Lts Loop
open ByteMem (Mem)
open Mailbox (Post Handled answers)

/-! ## 1. What the host sees -/

/-- The host's events for the updates it has handled: what it found in the framebuffer, and the
update with the parameter it read. -/
def hostSees (env : Nat → Env) (handled : List Handled) (seen : List Framebuffer) :
    List Event :=
  (handled.zip seen).flatMap fun x =>
    [.device x.2, .update x.1.type (x.1.param.getD 0) (env x.1.nth)]

section

variable {o : Opts} {env : Nat → Env}

theorem hostSees_append (hs hs' : List Handled) (fbs fbs' : List Framebuffer)
    (h : hs.length = fbs.length) :
    hostSees env (hs ++ hs') (fbs ++ fbs') = hostSees env hs fbs ++ hostSees env hs' fbs' := by
  rw [hostSees, List.zip_append h, List.flatMap_append]
  rfl

/-- The parameter a case does not read does not matter to it. -/
theorem step_seen (s : Cons) (p : Post) (e : Env) :
    step o s (.update p.type ((p.seen o.nocurses).getD 0) e) =
      step o s (.update p.type p.reg e) := by
  cases hc : o.nocurses with
  | true => rw [step, if_pos hc, step, if_pos hc]
  | false => rfl

/-- Two lists of events that the host cannot tell apart. -/
def SameSteps (o : Opts) : List Event → List Event → Prop :=
  List.Forall₂ fun e e' => ∀ s, step o s e = step o s e'

theorem SameSteps.runEvents_eq {es es' : List Event} (h : SameSteps o es es') (s : Cons) :
    runEvents o es s = runEvents o es' s := by
  induction h generalizing s with
  | nil => rfl
  | cons he _ ih =>
    rw [runEvents, runEvents, he s]
    exact congrArg (step o s _ >>= ·) (funext fun p => ih p.1)

/-- **What it sees is what was posted.** -/
theorem sameSteps_hostSees (ps : List (Post × Framebuffer)) :
    SameSteps o (hostSees env (answers o.nocurses (ps.map Prod.fst)) (ps.map Prod.snd))
      (hostEvents env ps 0) := by
  induction ps using List.reverseRecOn with
  | nil => exact .nil
  | append_singleton ps x ih =>
    obtain ⟨p, fb⟩ := x
    have hlen : (answers o.nocurses (ps.map Prod.fst)).length = (ps.map Prod.snd).length := by
      rw [length_answers, List.length_map, List.length_map]
    rw [List.map_append, List.map_append, List.map_singleton, List.map_singleton,
      Mailbox.answers_concat, hostSees_append _ _ _ _ hlen, hostEvents_append, Nat.zero_add,
      List.length_map]
    exact List.rel_append ih (.cons (fun _ => rfl) (.cons (fun s => step_seen s p _) .nil))

theorem outputRun_print (fb : Framebuffer) (calls : List Call) :
    outputRun fb (calls.map .print) = deviceRun fb calls := by
  simp only [outputRun, deviceRun, List.foldlM_map]
  rfl

/-! ## 2. The last update -/

/-- Once the shutdown has been handled, everything has. -/
theorem AsPosted.all_handled {m : Mem} {t : Term} {s : Shared}
    (A : AsPosted o.nocurses m (t.notify .shutdown) s) (hprint : ∀ x ∈ t.posts, Printing x.1)
    (hshut : ∃ x ∈ s.handled, x.type = .consoleShutdown) :
    s.handled.length = (t.notify .shutdown).posts.length := by
  have hposts : (t.notify .shutdown).posts = t.posts ++ [(.shutdown, t.buf)] := rfl
  obtain ⟨x, hx, htype⟩ := hshut
  rw [A.handled] at hx
  obtain ⟨p, hp, hxp⟩ := Mailbox.mem_answers.mp hx
  rw [hxp] at htype
  obtain rfl := Mailbox.Post.type_eq_shutdown.mp htype
  rw [List.map_take, List.getElem?_take] at hp
  have hlt : x.nth < s.handled.length := by
    by_contra h
    rw [if_neg h] at hp
    cases hp
  rw [if_pos hlt, hposts, List.map_append] at hp
  have hlast : t.posts.length ≤ x.nth := by
    by_contra h
    rw [List.getElem?_append_left (by rw [List.length_map]; omega), List.getElem?_map] at hp
    obtain ⟨y, hy, hyp⟩ := Option.map_eq_some_iff.mp hp
    have := hprint y (List.mem_of_getElem? hy)
    rw [hyp] at this
    exact this
  have hle := congrArg List.length A.handled
  rw [length_answers, List.length_map, List.length_take] at hle
  rw [hposts, List.length_append, List.length_singleton] at hle ⊢
  omega

end

/-! ## 3. A run -/

/-- Nothing is posted, and both processes are at the start of their loops. -/
structure Quiet (s : Shared) : Prop where
  host : s.host = .polling
  dev : s.dev = .idle
  avail : readReg (consoleReg .outputAvail) s.mem = 0
  drawn : readReg (consoleReg .outputDrawn) s.mem = 0

/-- The terminal itself shuts nothing down. -/
theorem not_shutdown_of_outputs (fb : Framebuffer) (outs : List Output) :
    DevOp.notify .shutdown ∉ (termInitOps.andThen (outputsOps outs)).1 := by
  intro h
  obtain ⟨t, ht, hexecs, -⟩ := does_calls fb outs
  obtain ⟨t', ht', D⟩ := outputRun_drawn fb outs
  obtain rfl : t = t' := Except.ok.inj (ht.symm.trans ht')
  have hnotified := map_fst_execs (termInitOps.andThen (outputsOps outs)).1 fb []
  rw [hexecs, List.map_nil, List.nil_append] at hnotified
  have hmem : Post.shutdown ∈ notified (termInitOps.andThen (outputsOps outs)).1 :=
    List.mem_filterMap.mpr ⟨_, h, rfl⟩
  rw [← hnotified] at hmem
  obtain ⟨x, hx, hxp⟩ := List.mem_map.mp hmem
  have hpost := D.posts x hx
  rw [hxp] at hpost
  rcases hpost with h | h
  · exact h
  · cases h

/-- The steps of a run in which, besides, no handler fails. -/
abbrev Serving (nocurses : Bool) : Shared → Access → Shared → Prop :=
  Restrict (SharedStep nocurses) fun _ a => a ≠ .mailbox .giveUp ∧ a ≠ .mailbox .fail

section Complete

variable (nocurses : Bool) {s : Shared} {p : Post} {rest : List DevOp}

/-- The device posts. -/
theorem Quiet.post (Q : Quiet s) (htodo : s.todo = .notify p :: rest) :
    ∃ as t, Run (Serving nocurses) s as t ∧ t.host = .polling ∧ t.dev = .spinning ∧
      t.todo = rest ∧ readReg (consoleReg .outputAvail) t.mem = p.avail ∧
      readReg (consoleReg .outputDrawn) t.mem = 0 := by
  have havail : ∀ m, readReg (consoleReg .outputAvail)
      (writeReg (phiConsReg .outputAvail) p.avail m) = p.avail :=
    readReg_writeReg_self .outputAvail p.avail
  have hdrawn : ∀ m, readReg (consoleReg .outputDrawn)
      (writeReg (phiConsReg .outputAvail) p.avail m) = readReg (consoleReg .outputDrawn) m :=
    readReg_writeReg_of_ne (by decide) p.avail
  cases hparam : p.param with
  | none =>
    refine ⟨_, _, .cons ⟨.call Q.dev htodo hparam, by simp⟩ (.refl _), Q.host, rfl, rfl,
      havail _, ?_⟩
    exact (hdrawn _).trans Q.drawn
  | some w =>
    obtain ⟨r, v⟩ := w
    refine ⟨_, _, .cons ⟨.callParam Q.dev htodo hparam, by simp⟩
      (.cons ⟨.post rfl htodo, by simp⟩ (.refl _)), Q.host, rfl, rfl, havail _, ?_⟩
    have hother : readReg (phiConsReg .outputDrawn) (writeReg (phiConsReg (paramReg r)) v s.mem) =
        readReg (phiConsReg .outputDrawn) s.mem :=
      readReg_writeReg_of_ne (by cases r <;> decide) v s.mem
    exact (hdrawn _).trans (hother.trans Q.drawn)

/-- The host answers. -/
theorem Quiet.notify (Q : Quiet s) (htodo : s.todo = .notify p :: rest) :
    ∃ as t, Run (Serving nocurses) s as t ∧ t.todo = rest ∧ t.dev = .idle ∧
      (∃ x ∈ t.handled, x.type = p.type) ∧ (p = .shutdown → t.host = .stopped) ∧
      (p ≠ .shutdown → Quiet t) := by
  obtain ⟨as, t, hrun, hhost, hdev, hrest, havail, hdrawn⟩ := Q.post nocurses htodo
  have hfull : readReg (consoleReg .outputAvail) t.mem ≠ 0 := havail ▸ p.avail_ne_zero
  have htype : Mailbox.typeOf (readReg (consoleReg .outputAvail) t.mem) = p.type := by
    rw [havail, Mailbox.typeOf_avail]
  have hset : ∀ m, readReg (phiConsReg .outputDrawn) (writeReg (phiConsReg .outputDrawn) 1 m) ≠ 0 :=
    fun m => by
      rw [readReg_writeReg_self]
      decide
  have hpoll : SharedStep nocurses t (.mailbox .poll) _ := .pollFull hhost hfull
  rw [htype] at hpoll
  have hanswer : Run (Serving nocurses) t
      [.mailbox .poll, .mailbox .run, .mailbox .clear, .mailbox .ack, .mailbox .spin,
        .mailbox .clearDrawn] _ :=
    .cons ⟨hpoll, by simp⟩ (.cons ⟨.run rfl p.type_ne.1 p.type_ne.2, by simp⟩
      (.cons ⟨.clear rfl, by simp⟩ (.cons ⟨.ack rfl, by simp⟩
        (.cons ⟨.spinDone hdev (hset _), by simp⟩ (.cons ⟨.clearDrawn rfl, by simp⟩ (.refl _))))))
  refine ⟨_, _, hrun.append hanswer, hrest, rfl,
    ⟨_, List.mem_append_right _ List.mem_cons_self, rfl⟩, fun hp => ?_,
    fun hp => ⟨?_, rfl, ?_, readReg_writeReg_self .outputDrawn 0 _⟩⟩
  · exact if_pos (Mailbox.Post.type_eq_shutdown.mpr hp)
  · exact if_neg fun h => hp (Mailbox.Post.type_eq_shutdown.mp h)
  · have hclear : ∀ v m, readReg (phiConsReg .outputAvail)
        (writeReg (phiConsReg .outputDrawn) v m) = readReg (phiConsReg .outputAvail) m :=
      readReg_writeReg_of_ne (by decide)
    exact (hclear _ _).trans ((hclear _ _).trans (readReg_writeReg_self .outputAvail 0 _))

theorem Quiet.store (Q : Quiet s) {op : DevOp} (htodo : s.todo = op :: rest) (hin : op.Inside)
    (hne : ∀ p, op ≠ .notify p) :
    ∃ t, Run (Serving nocurses) s [.store] t ∧ t.todo = rest ∧ Quiet t := by
  refine ⟨_, .cons ⟨.store Q.dev htodo hne, by simp⟩ (.refl _), rfl, Q.host, Q.dev, ?_, ?_⟩
  · exact (readReg_write hin .outputAvail s.mem).trans Q.avail
  · exact (readReg_write hin .outputDrawn s.mem).trans Q.drawn

/-- **Some run handles everything**: the one in which each of the two waits for the other. -/
theorem Quiet.through {tail : List DevOp} : ∀ {ops : List DevOp} {s : Shared}, Quiet s →
    s.todo = ops ++ tail → (∀ op ∈ ops, op.Inside) → DevOp.notify .shutdown ∉ ops →
    ∃ as t, Run (Serving nocurses) s as t ∧ t.todo = tail ∧ Quiet t
  | [], s, Q, htodo, _, _ => ⟨[], s, .refl s, htodo, Q⟩
  | op :: ops, s, Q, htodo, hin, hnot => by
    have hin' : ∀ op ∈ ops, op.Inside := fun op hop => hin op (List.mem_cons_of_mem _ hop)
    have hnot' : DevOp.notify .shutdown ∉ ops := fun h => hnot (List.mem_cons_of_mem _ h)
    have hnext : ∃ as t, Run (Serving nocurses) s as t ∧ t.todo = ops ++ tail ∧ Quiet t := by
      by_cases hop : ∃ p, op = .notify p
      · obtain ⟨p, rfl⟩ := hop
        obtain ⟨as, t, hrun, htodo', -, -, -, Q'⟩ := Q.notify nocurses htodo
        refine ⟨as, t, hrun, htodo', Q' ?_⟩
        rintro rfl
        exact hnot List.mem_cons_self
      · obtain ⟨t, hrun, htodo', Q'⟩ := Q.store nocurses htodo
          (hin op List.mem_cons_self) fun p h => hop ⟨p, h⟩
        exact ⟨_, t, hrun, htodo', Q'⟩
    obtain ⟨as, t, hrun, htodo', Q'⟩ := hnext
    obtain ⟨as', t', hrun', hend⟩ := Q'.through htodo' hin' hnot'
    exact ⟨as ++ as', t', hrun.append hrun', hend⟩

/-- The terminal's calls on a card whose mailbox is clear. -/
theorem printed_run (outs : List Output) (m : Mem)
    (havail : readReg (consoleReg .outputAvail) m = 0)
    (hdrawn : readReg (consoleReg .outputDrawn) m = 0) :
    ∃ as s, Run (Serving nocurses) (.start m (program outs)) as s ∧ Quiet s ∧
      s.todo = [.notify .shutdown] := by
  obtain ⟨t, -, -, hin⟩ := does_calls (screen m) outs
  have Q : Quiet (Shared.start m (program outs)) := ⟨rfl, rfl, havail, hdrawn⟩
  obtain ⟨as, s, hrun, htodo, Q'⟩ := Q.through nocurses rfl hin
    (not_shutdown_of_outputs (screen m) outs)
  exact ⟨as, s, hrun, Q', htodo⟩

/-- And the shutdown behind them. -/
theorem complete_run (outs : List Output) (m : Mem)
    (havail : readReg (consoleReg .outputAvail) m = 0)
    (hdrawn : readReg (consoleReg .outputDrawn) m = 0) :
    ∃ as s, Run (Serving nocurses) (.start m (program outs)) as s ∧
      (∃ x ∈ s.handled, x.type = .consoleShutdown) ∧
      s.host = .stopped ∧ s.dev = .idle ∧ s.todo = [] := by
  obtain ⟨as, s, hrun, Q, htodo⟩ := printed_run nocurses outs m havail hdrawn
  obtain ⟨as', t, hrun', hrest, hdev, hx, hstop, -⟩ := Q.notify nocurses htodo
  exact ⟨as ++ as', t, hrun.append hrun', hx, hstop rfl, hdev, hrest⟩

end Complete

/-! ## 4. End to end -/

/-- **From the bytes to the file.**  In every interleaving of the terminal's stores and posts
with the host's accesses in which no poll gives up, and with an allocator that does not fail:
when the host has handled the shutdown, what it has seen leaves a console, and the dump it then
makes of that console and of memory has the rows of the rendering of all bytes printed, less
those the history has let go and less the last that scrolled off; if none has, it faults. -/
theorem bytes_to_log (o : Opts) (ho : o.nocurses = true ∨ o.dumponexit = true)
    (env : Nat → Env) (hopen : ∀ i, (env i).fopen = true) (calls : List Call) (m : Mem)
    (havail : readReg (consoleReg .outputAvail) m = 0)
    (hdrawn : readReg (consoleReg .outputDrawn) m = 0)
    (halloc : ∀ t, deviceRun (screen m) calls = .ok t →
      ¬ AllocFails o (hostEvents env t.posts 0) (consoleInit (screen m)))
    (as : List Access) (s : Shared)
    (h : Run (Patient o.nocurses) (.start m (program (calls.map .print))) as s)
    (hshut : ∃ x ∈ s.handled, x.type = .consoleShutdown) :
    ∃ c, runEvents o (hostSees env s.handled s.seen).dropLast (consoleInit (screen m)) = .ok c ∧
      shutdownCase o (env (s.handled.length - 1)) { c with fb := screen s.mem } =
        (if (render (calls.flatMap Call.bytes)).above = 0 then .error .nullDeref
        else .ok (some ((logged (render (calls.flatMap Call.bytes))).flatMap rowBytes))) := by
  obtain ⟨t, c, ht, hprint, hrun, hcase⟩ := log_of_calls ho (screen m) hopen calls halloc
  obtain ⟨t', ht', hexecs, hin⟩ := does_program (screen m) (calls.map .print)
  obtain rfl : t' = t := Except.ok.inj (ht'.symm.trans ((outputRun_print _ _).trans ht))
  have A := (faithful_of_run hin havail hdrawn h).asPosted hexecs
  have hall := A.all_handled hprint hshut
  have hposts : (t'.notify .shutdown).posts = t'.posts ++ [(.shutdown, t'.buf)] := rfl
  have hlen : s.handled.length - 1 = t'.posts.length := by
    rw [hall, hposts, List.length_append, List.length_singleton, Nat.add_sub_cancel]
  have hanswers : (answers o.nocurses (t'.posts.map Prod.fst)).length =
      (t'.posts.map Prod.snd).length := by
    rw [length_answers, List.length_map, List.length_map]
  have hevents : (hostSees env s.handled s.seen).dropLast =
      hostSees env (answers o.nocurses (t'.posts.map Prod.fst)) (t'.posts.map Prod.snd) ++
        [.device t'.buf] := by
    rw [A.handled, A.seen, hall, List.take_length, hposts, List.map_append, List.map_append,
      List.map_singleton, List.map_singleton, Mailbox.answers_concat,
      hostSees_append _ _ _ _ hanswers]
    exact List.dropLast_append_of_ne_nil (List.cons_ne_nil _ _)
  refine ⟨{ c with fb := t'.buf }, ?_, ?_⟩
  · rw [hevents, runEvents_append, (sameSteps_hostSees t'.posts).runEvents_eq, hrun]
    rfl
  · rw [A.shutdown hall, hlen]
    exact hcase

/-- 27 lines printed to a host without curses, on cleared memory. -/
theorem bytes_to_log_27_lines :
    ∃ as s, Run (Patient true) (.start (fun _ => 0) (program (longOutput.map .print))) as s ∧
      (∃ x ∈ s.handled, x.type = .consoleShutdown) ∧
      ∃ c, runEvents ⟨true, false⟩
          (hostSees (fun i => { malloc := some i }) s.handled s.seen).dropLast
          (consoleInit (screen fun _ => 0)) = .ok c ∧
        shutdownCase ⟨true, false⟩ { malloc := some (s.handled.length - 1) }
            { c with fb := screen s.mem } =
          .ok (some ((logged (render (longOutput.flatMap Call.bytes))).flatMap rowBytes)) := by
  obtain ⟨as, s, hserving, hshut, -⟩ :=
    complete_run true (longOutput.map .print) (fun _ => 0) rfl rfl
  have hrun : Run (Patient true) _ as s := hserving.mono fun _ _ _ h => ⟨h.1, h.2.1⟩
  have hne : (render (longOutput.flatMap Call.bytes)).above ≠ 0 := by
    rw [above_longOutput]
    decide
  obtain ⟨c, hc, hcase⟩ := bytes_to_log ⟨true, false⟩ (Or.inl rfl)
    (fun i => { malloc := some i }) (fun _ => rfl) longOutput (fun _ => 0) rfl rfl
    (not_allocFails_calls _ _ _) as s hrun hshut
  rw [if_neg hne] at hcase
  exact ⟨as, s, hrun, hshut, c, hc, hcase⟩

end Philix
