/-
# The window follows the card's memory

`display_tracks_framebuffer` lets the host handle all posts of the device one after the other.
On the memory that the two share the window is redrawn in between: each redraw reads the
framebuffer while the device waits, and the device goes on writing as soon as it is let go.

What the window shows is then the framebuffer at the last update that was drawn.  While the
device waits for the host to be done with such an update, that is the framebuffer itself; and
whenever the card is between two calls of the terminal it is, but for the cells left of the
cursor.
-/
import Philix.EndToEnd

namespace Philix

open Console Winky Lts Loop Curses
open ByteMem (Mem)
open Mailbox (Post Phase answers)

/-! ## 1. The host's window -/

section Host

variable {o : Opts} {es es' : List Event}

theorem SameSteps.showEvents_eq (h : SameSteps o es es') (q : Cons × Screen) :
    showEvents o es q = showEvents o es' q := by
  induction h generalizing q with
  | nil => rfl
  | cons he _ ih =>
    obtain ⟨s, w⟩ := q
    rw [showEvents, showEvents, he s]
    exact congrArg (step o s _ >>= ·) (funext fun p => ih (p.1, paint p.1 p.2 w))

theorem showEvents_append (es es' : List Event) (q : Cons × Screen) :
    showEvents o (es ++ es') q = showEvents o es q >>= showEvents o es' := by
  induction es generalizing q with
  | nil => rfl
  | cons e es ih =>
    obtain ⟨s, w⟩ := q
    rw [List.cons_append, showEvents, showEvents]
    cases step o s e with
    | error e => rfl
    | ok p => exact ih (p.1, paint p.1 p.2 w)

/-- After a shutdown there is no window. -/
theorem not_showEvents_shutdown (reg : UInt32) (env : Env) (fb : Framebuffer)
    (q q' : Cons × Screen) :
    showEvents o [.device fb, .update .consoleShutdown reg env] q ≠ .ok q' := by
  obtain ⟨s, w⟩ := q
  have hdevice : step o s (.device fb) = .ok ({ s with fb }, []) := rfl
  rw [showEvents_cons_ok hdevice, showEvents, step_shutdown]
  cases shutdownCase o env { s with fb } with
  | error e => exact fun h => by cases h
  | ok r => exact fun h => by cases h

end Host

/-! ## 2. At a state of a run -/

/-- The device waits for an update that is drawn, and the host has handled it. -/
def Acknowledging (s : Shared) : Prop :=
  (s.dev = .spinning ∨ s.dev = .clearing) ∧ s.handled.length = (notified s.done).length ∧
    ∃ ps p, notified s.done = ps ++ [p] ∧ p ≠ .scrollup

/-- The card has made the calls `outs` and is at the next one. -/
def Between (outs : List Output) (s : Shared) : Prop :=
  s.dev = .idle ∧ s.done = (termInitOps.andThen (outputsOps outs)).1

/-- What a window shows of the memory at a state of a run of `t`. -/
structure ShownAt (m : Mem) (t : Term) (s : Shared) (w : Screen) : Prop where
  handled : ∀ fb, lastDrawn (t.posts.take s.handled.length) = some fb → ShowsScreen fb w
  waiting : Acknowledging s → ShowsScreen (screen s.mem) w
  between : ∀ outs, Between outs s → ∃ t', outputRun (screen m) outs = .ok t' ∧
    (∀ y x, y < phiFbHeight → x < phiFbWidth → ¬ (y = t'.row ∧ x < t'.col) →
      w.Shows y x (glyph (screen s.mem (y * phiFbWidth + x)))) ∧
    (EndsLine (screen m) outs → ShowsScreen (screen s.mem) w)

section Run

variable {m : Mem} {outs : List Output} {s : Shared} {t : Term} {env : Nat → Env} {o : Opts}
  {q q' : Cons × Screen}

/-- What the host has been shown is what was posted first. -/
theorem AsPosted.showEvents_eq (A : AsPosted o.nocurses m t s) (q : Cons × Screen) :
    showEvents o (hostSees env s.handled s.seen) q =
      showEvents o (hostEvents env (t.posts.take s.handled.length) 0) q := by
  have hsame : SameSteps o (hostSees env _ _) (hostEvents env _ 0) :=
    sameSteps_hostSees (t.posts.take s.handled.length)
  rw [← A.handled, ← A.seen] at hsame
  exact hsame.showEvents_eq q

/-- As long as there is a window, the shutdown has not been handled. -/
theorem handled_le_of_shown (A : AsPosted o.nocurses m (t.notify .shutdown) s)
    (h : showEvents o (hostSees env s.handled s.seen) q = .ok q') :
    s.handled.length ≤ t.posts.length := by
  by_contra hgt
  have hposts : (t.notify .shutdown).posts = t.posts ++ [(.shutdown, t.buf)] := rfl
  have hall : (t.posts ++ [(Post.shutdown, t.buf)]).length ≤ s.handled.length := by
    rw [List.length_append, List.length_singleton]
    omega
  rw [A.showEvents_eq, hposts, List.take_of_length_le hall, hostEvents_append,
    showEvents_append] at h
  obtain ⟨q₁, -, hlast⟩ := bind_eq_ok_iff.mp h
  exact not_showEvents_shutdown _ _ _ _ _ hlast

/-- What has been posted, once all of it has been handled. -/
theorem Faithful.take_posts {nocurses : Bool} {ops : List DevOp}
    (F : Faithful nocurses m ops s)
    (hexecs : execs ops (Philix.screen m, []) = (t.buf, t.posts ++ [(.shutdown, t.buf)]))
    (hall : s.handled.length = (notified s.done).length) (hle : s.handled.length ≤ t.posts.length) :
    t.posts.take s.handled.length = s.posts m := by
  obtain ⟨rest, hrest⟩ := F.posts_prefix
  have hsplit : s.posts m ++ rest = t.posts ++ [(.shutdown, t.buf)] := by rw [hrest, hexecs]
  have hlen : s.handled.length = (s.posts m).length := by
    rw [hall, ← map_fst_posts m, List.length_map]
  have htake : (t.posts ++ [(Post.shutdown, t.buf)]).take s.handled.length = s.posts m := by
    rw [← hsplit, hlen, List.take_left]
  rwa [List.take_append_of_le_length hle] at htake

/-- Between two calls, everything posted has been handled. -/
theorem handled_of_idle {nocurses : Bool} {s : Mailbox.State} (hs : Phase nocurses s)
    (hdev : s.dev = .idle) : s.handled.length = s.posted.length := by
  cases hs with
  | quiet _ _ _ _ _ hans => rw [hans, length_answers]
  | posted _ _ hdev' => simp [hdev] at hdev'
  | handled hdev' => simp [hdev] at hdev'
  | acked hdev' => simp [hdev] at hdev'

theorem Faithful.shownAt {nocurses : Bool} {w : Screen} (F : Faithful nocurses m (program outs) s)
    (hexecs : execs (program outs) (Philix.screen m, []) =
      (t.buf, t.posts ++ [(.shutdown, t.buf)]))
    (hle : s.handled.length ≤ t.posts.length)
    (hshow : ∀ fb, lastDrawn (t.posts.take s.handled.length) = some fb → ShowsScreen fb w) :
    ShownAt m t s w := by
  refine ⟨hshow, ?_, ?_⟩
  · rintro ⟨hdev, hall, ps, p, hps, hp⟩
    obtain ⟨qs, p', hqs⟩ := F.last hdev
    have hfst := map_fst_posts m s
    rw [hqs, List.map_append, hps] at hfst
    obtain rfl : p' = p := List.singleton_inj.mp (List.append_inj' hfst rfl).2
    refine hshow _ ?_
    rw [F.take_posts hexecs hall hle, hqs, lastDrawn_append]
    simp [lastDrawn, hp]
  · rintro outs' ⟨hdev, hdone⟩
    obtain ⟨t', ht', hx, -⟩ := does_calls (Philix.screen m) outs'
    obtain ⟨t'', ht'', D⟩ := outputRun_drawn (Philix.screen m) outs'
    obtain rfl : t' = t'' := Except.ok.inj (ht'.symm.trans ht'')
    have hbuf : Philix.screen s.mem = t'.buf := by rw [F.screen, hdone, hx]
    have hposts : s.posts m = t'.posts := by rw [Shared.posts, hdone, hx]
    obtain ⟨fb, hfb, hsame⟩ := D.drawn
    have hshown : ShowsScreen fb w := by
      refine hshow fb ?_
      rw [F.take_posts hexecs (handled_of_idle F.phase hdev) hle, hposts, hfb]
    have hcells : ∀ y x, y < phiFbHeight → x < phiFbWidth → ¬ (y = t'.row ∧ x < t'.col) →
        w.Shows y x (glyph (Philix.screen s.mem (y * phiFbWidth + x))) := by
      intro y x hy hx hnot
      have hcell : t'.buf (y * phiFbWidth + x) = fb (y * phiFbWidth + x) := hsame y x hy hx hnot
      rw [hbuf, hcell]
      exact hshown y x hy hx
    refine ⟨t', ht', hcells, fun hend y x hy hx => hcells y x hy hx ?_⟩
    rw [hend.col ht']
    exact fun h => absurd h.2 (Nat.not_lt_zero x)

end Run

/-! ## 3. Every run -/

/-- **The window follows the memory.**  At every state of every interleaving in which no poll
gives up, the window the host has by then shows the framebuffer at the last update it has
handled that is drawn; while the device still waits for that one, this is the framebuffer
in memory; and between two calls of the terminal the window differs from memory at most in the
cells left of the cursor, and not at all after the end of a line. -/
theorem window_follows_memory (dumponexit : Bool) (w : Screen) (hf : FitsScreen w)
    (env : Nat → Env) (outs : List Output) (m : Mem)
    (havail : readReg (consoleReg .outputAvail) m = 0)
    (hdrawn : readReg (consoleReg .outputDrawn) m = 0) :
    ∃ t, outputRun (screen m) outs = .ok t ∧
      ∀ as s, Run (Patient false) (.start m (program outs)) as s →
        (s.handled.length ≤ t.posts.length →
          ¬ AllocFails ⟨false, dumponexit⟩ (hostEvents env (t.posts.take s.handled.length) 0)
            (consoleInit (screen m)) →
          ∃ q, showEvents ⟨false, dumponexit⟩ (hostSees env s.handled s.seen)
            (consoleInit (screen m), w) = .ok q) ∧
        ∀ c w', showEvents ⟨false, dumponexit⟩ (hostSees env s.handled s.seen)
            (consoleInit (screen m), w) = .ok (c, w') →
          c.lineIdx = 0 ∧ ShownAt m t s w' := by
  obtain ⟨t, ht, hexecs, hin⟩ := does_program (screen m) outs
  obtain ⟨t', ht', D⟩ := outputRun_drawn (screen m) outs
  obtain rfl : t = t' := Except.ok.inj (ht.symm.trans ht')
  refine ⟨t, ht, fun as s hrun => ?_⟩
  have F := faithful_of_run hin havail hdrawn hrun
  have A := F.asPosted hexecs
  have htake : s.handled.length ≤ t.posts.length →
      (t.notify .shutdown).posts.take s.handled.length = t.posts.take s.handled.length :=
    fun hle => List.take_append_of_le_length hle
  have hhost := host_shows (o := ⟨false, dumponexit⟩) rfl env (t.posts.take s.handled.length) 0
    (consoleInit (screen m)) w [] (fun x hx => D.posts x (List.mem_of_mem_take hx))
    (consoleInit_hist (screen m)) ⟨rfl, rfl⟩ hf
  refine ⟨fun hle halloc => ?_, fun c w' hshow => ?_⟩
  · obtain ⟨c, w', h, -⟩ := hhost halloc
    exact ⟨(c, w'), by rw [A.showEvents_eq (o := ⟨false, dumponexit⟩), htake hle, h]⟩
  · have hle := handled_le_of_shown (o := ⟨false, dumponexit⟩) A hshow
    rw [A.showEvents_eq (o := ⟨false, dumponexit⟩), htake hle] at hshow
    obtain ⟨c₁, w₁, h, hidx, hshown⟩ := hhost (not_allocFails_of_ok hshow)
    obtain ⟨rfl, rfl⟩ := Prod.mk.inj (Except.ok.inj (h.symm.trans hshow))
    exact ⟨hidx, F.shownAt hexecs hle fun fb hfb => hshown fb (Or.inl hfb)⟩

/-- One line printed to a card with cleared memory and a window of 25 lines and 81 columns, at
the moment the line is out. -/
theorem window_follows_memory_one_line :
    ∃ t as s c w', outputRun (screen fun _ => 0) [.print (.puts [72, 105])] = .ok t ∧
      Run (Patient false) (.start (fun _ => 0) (program [.print (.puts [72, 105])])) as s ∧
      Between [.print (.puts [72, 105])] s ∧
      showEvents ⟨false, true⟩ (hostSees (fun i => { malloc := some i }) s.handled s.seen)
        (consoleInit (screen fun _ => 0), newwin 25 81 blankGlyph) = .ok (c, w') ∧
      c.lineIdx = 0 ∧ ShownAt (fun _ => 0) t s w' := by
  obtain ⟨t, ht, hwindow⟩ := window_follows_memory true (newwin 25 81 blankGlyph)
    ⟨by decide, by decide, by decide⟩ (fun i => { malloc := some i })
    [.print (.puts [72, 105])] (fun _ => 0) rfl rfl
  obtain ⟨as, s, hserving, Q, htodo⟩ :=
    printed_run false [.print (.puts [72, 105])] (fun _ => 0) rfl rfl
  have hrun : Run (Patient false) _ as s := hserving.mono fun _ _ _ h => ⟨h.1, h.2.1⟩
  obtain ⟨hok, hshown⟩ := hwindow as s hrun
  obtain ⟨t', ht', D⟩ := outputRun_drawn (screen fun _ => 0) [.print (.puts [72, 105])]
  obtain rfl : t' = t := Except.ok.inj (ht'.symm.trans ht)
  obtain ⟨t₁, ht₁, hx, -⟩ := does_calls (screen fun _ => 0) [.print (.puts [72, 105])]
  obtain rfl : t₁ = t' := Except.ok.inj (ht₁.symm.trans ht')
  obtain ⟨t₂, ht₂, hexecs, hin⟩ := does_program (screen fun _ => 0) [.print (.puts [72, 105])]
  have F := faithful_of_run hin rfl rfl hrun
  have hdone : s.done = (termInitOps.andThen (outputsOps [.print (.puts [72, 105])])).1 := by
    have hsplit := F.split
    rw [htodo, program] at hsplit
    exact (List.append_inj' hsplit rfl).1
  have hle : s.handled.length ≤ t₁.posts.length := by
    have h := F.handled_le
    rwa [Shared.posts, hdone, hx] at h
  obtain ⟨⟨c, w'⟩, hshow⟩ := hok hle (not_allocFails_fresh _ 0 _ []
    (fun x hx => printing_of_redraws (D.posts x (List.mem_of_mem_take hx)))
    (consoleInit_hist _) (by simp) ⟨rfl, rfl⟩)
  exact ⟨t₁, as, s, c, w', ht, hrun, ⟨Q.dev, hdone⟩, hshow, hshown c w' hshow⟩

end Philix
