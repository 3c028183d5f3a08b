/-
# Two front ends, one history

`curses_main_loop` and `nocurses_main_loop` side by side, on the same updates, framebuffers and
allocation outcomes, with keys pressed in the one that reads them.  Each of the two either runs
on or has been stopped by its own loop; a run that aborts (a failed assertion, a bad pointer,
an `exit` from a key) has no step here.

`Same` is the simulation: the two consoles may differ in the view, the keys' business, and in
the addresses of their lines.
-/
import Philix.Console.ViewOffset

namespace Philix.Console

open HalfRing Lts Loop

/-! ## 1. One loop -/

/-- The stops of the main loops themselves: the exit at a shutdown, and the return at an
unknown update or when a line could not be saved. -/
def Ends : Event → Stop → Prop
  | .update .consoleShutdown _ _, .exited => True
  | .update .inval _ _, .returned => True
  | .update .scrollup _ _, .returned => True
  | _, _ => False

/-- A loop that runs on, or ends, at an event; `none` is a loop that has ended. -/
inductive Advance (o : Opts) (e : Event) : Option Cons → Option Cons → Prop
  | on {s s' : Cons} : Step o s e s' → Advance o e (some s) (some s')
  | ends {s : Cons} {stop : Stop} : step o s e = .error stop → Ends e stop →
      Advance o e (some s) none
  | ended : Advance o e none none

/-- An update ends the loop, whichever loop it is, when the allocator fails or does not. -/
def Stops (u : UpdateType) (saved : Bool) : Prop :=
  u = .consoleShutdown ∨ u = .inval ∨ u = .scrollup ∧ saved = false

/-- What the allocator answers the console during an update. -/
def allocates (env : Env) (s : Cons) : Bool := (Heap.malloc s.heap env.malloc).isSome

section One

variable {o : Opts} {s s' : Cons} {l : List (Addr × Line)} {u : UpdateType} {reg : UInt32}
  {env : Env} {t : Option Cons}

theorem not_step_shutdown {d : List DrawCall} :
    step o s (.update .consoleShutdown reg env) ≠ .ok (s', d) := by
  intro h
  simp only [step] at h
  split at h
  · obtain ⟨b, -, h⟩ := bind_eq_ok_iff.mp h
    cases h
  · simp only [cursesUpdate] at h
    split at h
    · obtain ⟨b, -, h⟩ := bind_eq_ok_iff.mp h
      cases h
    · cases h

theorem not_step_inval {d : List DrawCall} :
    step o s (.update .inval reg env) ≠ .ok (s', d) := by
  intro h
  simp only [step] at h
  split at h <;> cases h

/-- An update that completes leaves the history alone or, on a scroll, saves the first row. -/
theorem step_update (H : Hist s l) (h : Step o s (.update u reg env) s') :
    ¬ Stops u (allocates env s) ∧ s'.fb = s.fb ∧ s'.winPtr = s.winPtr ∧ s'.lineIdx = s.lineIdx ∧
      (u ≠ .scrollup ∧ s' = s ∨ u = .scrollup ∧ ∃ a, Hist s' (pushed s.fb a l)) := by
  obtain ⟨d, hstep⟩ := h
  have hshut : u ≠ .consoleShutdown := by
    rintro rfl
    exact not_step_shutdown hstep
  have hinval : u ≠ .inval := by
    rintro rfl
    exact not_step_inval hstep
  rcases handleUpdate_cases hstep with ⟨hu, rfl⟩ | ⟨rfl, hs⟩
  · refine ⟨?_, rfl, rfl, rfl, Or.inl ⟨hu, rfl⟩⟩
    rintro (h | h | ⟨h, -⟩)
    · exact hshut h
    · exact hinval h
    · exact hu h
  · rcases handleScrollup_spec H env.malloc with ⟨-, hr⟩ | ⟨a, s₁, ha, hfree, hr, H', -, hrest⟩
    · rw [hr] at hs
      cases hs
    · obtain ⟨-, rfl⟩ := Prod.mk.inj (Except.ok.inj (hr.symm.trans hs))
      refine ⟨?_, hrest.1, hrest.2.1, hrest.2.2, Or.inr ⟨rfl, a, H'⟩⟩
      rintro (h | h | ⟨-, h⟩)
      · exact hshut h
      · exact hinval h
      · rw [allocates, malloc_eq_some_iff.mpr ⟨ha, hfree⟩] at h
        cases h

/-- An update that ends the loop is one of those that do. -/
theorem stops_of_ends (H : Hist s l) {stop : Stop}
    (hstep : step o s (.update u reg env) = .error stop) (hends : Ends (.update u reg env) stop) :
    Stops u (allocates env s) := by
  cases u with
  | consoleShutdown => exact Or.inl rfl
  | inval => exact Or.inr (Or.inl rfl)
  | scrollup =>
    refine Or.inr (Or.inr ⟨rfl, ?_⟩)
    cases ha : Heap.malloc s.heap env.malloc with
    | none => rw [allocates, ha]; rfl
    | some a =>
      obtain ⟨s₁, hok, -⟩ := H.step_malloc o reg env ha
      rw [hok] at hstep
      cases hstep
  | _ => exact hends.elim

/-- **One update in one loop.**  When it does not abort: it ends the loop if `Stops` says so,
and otherwise leaves the history alone or, on a scroll, saves the first row. -/
theorem advance_update (H : Hist s l)
    (h : Advance o (.update u reg env) (some s) t) :
    Stops u (allocates env s) ∧ t = none ∨
    ¬ Stops u (allocates env s) ∧ ∃ s', t = some s' ∧ s'.fb = s.fb ∧ s'.winPtr = s.winPtr ∧
      s'.lineIdx = s.lineIdx ∧
      (u ≠ .scrollup ∧ s' = s ∨ u = .scrollup ∧ ∃ a, Hist s' (pushed s.fb a l)) := by
  cases h with
  | on hstep =>
    obtain ⟨hstops, hrest⟩ := step_update H hstep
    exact Or.inr ⟨hstops, _, rfl, hrest⟩
  | ends hstep hends => exact Or.inl ⟨stops_of_ends H hstep hends, rfl⟩

end One

/-! ## 2. Both loops -/

/-- What happens to the two: the device writes its framebuffer, both get an update, or a key is
pressed in curses mode. -/
inductive Joint
  | device (fb : Framebuffer)
  | update (u : UpdateType) (reg : UInt32) (env env' : Env)
  | key (k : Key) (env : Env)

/-- Where the two are: the curses loop, then the other. -/
abbrev Pair := Option Cons × Option Cons

/-- Both allocators have a block, or neither has. -/
def Matching (env env' : Env) (p : Pair) : Prop :=
  ∀ c n, p = (some c, some n) → allocates env c = allocates env' n

/-- One event in both loops; the options other than `nocurses` may differ. -/
def JointStep (d d' : Bool) (p : Pair) : Joint → Pair → Prop
  | .device fb, q =>
    Advance ⟨false, d⟩ (.device fb) p.1 q.1 ∧ Advance ⟨true, d'⟩ (.device fb) p.2 q.2
  | .update u reg env env', q => Matching env env' p ∧
    Advance ⟨false, d⟩ (.update u reg env) p.1 q.1 ∧
    Advance ⟨true, d'⟩ (.update u reg env') p.2 q.2
  | .key k env, q => Advance ⟨false, d⟩ (.key k env) p.1 q.1 ∧ q.2 = p.2

/-- The same framebuffer and the same lines, at any addresses; the view is a position in them. -/
structure Same (c n : Cons) : Prop where
  fb : c.fb = n.fb
  lines : ∃ lc ln, Hist c lc ∧ Hist n ln ∧ lc.map Prod.snd = ln.map Prod.snd ∧
    0 ≤ c.lineIdx ∧ c.lineIdx ≤ lc.length

/-- Both loops run on, with the same lines, or both have ended. -/
inductive InStep : Pair → Prop
  | on {c n : Cons} : Same c n → InStep (some c, some n)
  | ended : InStep (none, none)

section Both

variable {d d' : Bool} {p q : Pair} {c c' n n' : Cons} {j : Joint}

theorem map_pushed (fb : Framebuffer) (a : Addr) (l : List (Addr × Line)) :
    (pushed fb a l).map Prod.snd = fbLine fb 0 :: (l.map Prod.snd).take (maxHistLines - 1) := by
  rw [pushed, List.map_cons, List.map_take]

theorem length_pushed (fb : Framebuffer) (a : Addr) {l : List (Addr × Line)}
    (hl : l.length ≤ maxHistLines) : l.length ≤ (pushed fb a l).length := by
  rw [pushed, List.length_cons, List.length_take]
  omega

/-- The view is all a key changes. -/
theorem Same.key {o : Opts} {k : Key} {env : Env} (S : Same c n)
    (h : Step o c (.key k env) c') : Same c' n := by
  obtain ⟨lc, ln, Hc, Hn, hlines, hlo, hhi⟩ := S.lines
  rcases step_cases h with ⟨-, rfl⟩ | ⟨fb, he, -⟩ | ⟨reg, env, he, -⟩ | ⟨k, env, -, hm⟩
  · exact S
  · cases he
  · cases he
  · rw [← Hc.cnt] at hhi
    obtain ⟨⟨w, i, rfl⟩, hlo', hhi'⟩ := viewMove_bounds hm hlo hhi (Hc.cnt ▸ Hc.le)
    exact ⟨S.fb, lc, ln, ⟨Hc.ring, Hc.cnt, Hc.le⟩, Hn, hlines, hlo', Hc.cnt ▸ hhi'⟩

/-- The device writes both framebuffers. -/
theorem Same.device {fb : Framebuffer} (S : Same c n) (hc : Step ⟨false, d⟩ c (.device fb) c')
    (hn : Step ⟨true, d'⟩ n (.device fb) n') : Same c' n' := by
  obtain ⟨lc, ln, Hc, Hn, hlines, hlo, hhi⟩ := S.lines
  obtain ⟨_, hc⟩ := hc
  obtain ⟨_, hn⟩ := hn
  cases hc
  cases hn
  exact ⟨rfl, lc, ln, ⟨Hc.ring, Hc.cnt, Hc.le⟩, ⟨Hn.ring, Hn.cnt, Hn.le⟩, hlines, hlo, hhi⟩

/-- An update ends both, or each saves the same row or none. -/
theorem Same.update {u : UpdateType} {reg : UInt32} {env env' : Env} (S : Same c n)
    (halloc : allocates env c = allocates env' n)
    (h₁ : Advance ⟨false, d⟩ (.update u reg env) (some c) q.1)
    (h₂ : Advance ⟨true, d'⟩ (.update u reg env') (some n) q.2) : InStep q := by
  obtain ⟨q₁, q₂⟩ := q
  dsimp only at h₁ h₂
  obtain ⟨lc, ln, Hc, Hn, hlines, hlo, hhi⟩ := S.lines
  rcases advance_update Hc h₁ with ⟨hc, rfl⟩ | ⟨hc, c', rfl, hfb, -, hidx, hcase⟩
  · rcases advance_update Hn h₂ with ⟨-, rfl⟩ | ⟨hn, -⟩
    · exact .ended
    · exact absurd (halloc ▸ hc) hn
  · rcases advance_update Hn h₂ with ⟨hn, -⟩ | ⟨-, n', rfl, hfb', -, -, hcase'⟩
    · exact absurd (halloc ▸ hn) hc
    · refine .on ⟨hfb.trans (S.fb.trans hfb'.symm), ?_⟩
      rcases hcase with ⟨hu, rfl⟩ | ⟨rfl, a, Hc'⟩
      · obtain ⟨-, rfl⟩ := hcase'.resolve_right fun h => hu h.1
        exact ⟨lc, ln, Hc, Hn, hlines, hlo, hhi⟩
      · obtain ⟨-, b, Hn'⟩ := hcase'.resolve_left fun h => h.1 rfl
        have hlen := length_pushed c.fb a Hc.le
        refine ⟨_, _, Hc', Hn', ?_, hidx ▸ hlo, by omega⟩
        rw [map_pushed, map_pushed, S.fb, hlines]

/-- **The step lemma.** -/
theorem InStep.step (S : InStep p) (h : JointStep d d' p j q) : InStep q := by
  obtain ⟨q₁, q₂⟩ := q
  cases S with
  | ended =>
    cases j with
    | key k env =>
      obtain ⟨h₁, rfl⟩ := h
      cases h₁
      exact .ended
    | device fb =>
      obtain ⟨h₁, h₂⟩ := h
      cases h₁
      cases h₂
      exact .ended
    | update u reg env env' =>
      obtain ⟨-, h₁, h₂⟩ := h
      cases h₁
      cases h₂
      exact .ended
  | @on c n S =>
    cases j with
    | key k env =>
      obtain ⟨h₁, rfl⟩ := h
      cases h₁ with
      | on h₁ => exact .on (S.key h₁)
      | ends _ hends => exact hends.elim
    | device fb =>
      obtain ⟨h₁, h₂⟩ := h
      cases h₁ with
      | ends _ hends => exact hends.elim
      | on h₁ =>
        cases h₂ with
        | ends _ hends => exact hends.elim
        | on h₂ => exact .on (S.device h₁ h₂)
    | update u reg env env' =>
      obtain ⟨hmatch, h₁, h₂⟩ := h
      exact S.update (hmatch c n rfl) h₁ h₂

/-- The run lemma. -/
theorem inStep_of_run {fb₀ : Framebuffer} {js : List Joint}
    (h : Run (JointStep d d') (some (consoleInit fb₀), some (consoleInit fb₀)) js p) : InStep p :=
  h.preserves (fun _ _ _ hs hst => hs.step hst)
    (.on ⟨rfl, [], [], consoleInit_hist fb₀, consoleInit_hist fb₀, rfl, by simp [consoleInit],
      by simp [consoleInit]⟩)

/-- The same lines and the same framebuffer give the same file. -/
theorem Same.dump_eq (S : Same c n) {env env' : Env} (hfopen : env.fopen = env'.fopen) :
    dump env c = dump env' n := by
  obtain ⟨lc, ln, Hc, Hn, hlines, -, -⟩ := S.lines
  rw [dump, dump, ← hfopen]
  cases env.fopen with
  | false => rfl
  | true =>
    have hlen : lc.length = ln.length := by simpa using congrArg List.length hlines
    have hnil : lc = [] ↔ ln = [] := by
      rw [← List.length_eq_zero_iff, hlen, List.length_eq_zero_iff]
    have htail : lc.tail.reverse.map Prod.snd = ln.tail.reverse.map Prod.snd := by
      rw [List.map_reverse, List.map_reverse, List.map_tail, List.map_tail, hlines]
    have hfb : outputFbToFile c = outputFbToFile n := by rw [outputFbToFile, outputFbToFile, S.fb]
    rw [dumpConsoleToFile_eq Hc.ring (by rw [Hc.cnt]; omega),
      dumpConsoleToFile_eq Hn.ring (by rw [Hn.cnt]; omega), htail, fileOf, fileOf, hfb]
    simp only [hnil]

end Both

/-! ## 3. Every run -/

/-- **The two front ends keep the same history.**  In every run of the two side by side, with any
keys pressed in curses mode and as long as neither aborts: both run on or both have ended, and
while they run `line_hist` is the same sequence of lines, `hist_cnt` the same number, and a dump
at this point the same file. -/
theorem front_ends_agree (d d' : Bool) (fb₀ : Framebuffer) (js : List Joint) (p : Pair)
    (h : Run (JointStep d d') (some (consoleInit fb₀), some (consoleInit fb₀)) js p) :
    p.1.isSome = p.2.isSome ∧
    ∀ c n, p = (some c, some n) →
      (∃ lc ln, Path c.heap c.lineHist lc ∧ Path n.heap n.lineHist ln ∧
        lc.map Prod.snd = ln.map Prod.snd) ∧
      c.histCnt = n.histCnt ∧
      ∀ env env' : Env, env.fopen = env'.fopen → dump env c = dump env' n := by
  have S := inStep_of_run h
  cases S with
  | ended =>
    refine ⟨rfl, ?_⟩
    rintro c n ⟨⟩
  | @on c n S =>
    refine ⟨rfl, ?_⟩
    rintro c' n' ⟨⟩
    obtain ⟨lc, ln, Hc, Hn, hlines, -⟩ := S.lines
    refine ⟨⟨lc, ln, Hc.ring.path, Hn.ring.path, hlines⟩, ?_, fun _ _ => S.dump_eq⟩
    rw [Hc.cnt, Hn.cnt]
    simpa using congrArg List.length hlines

/-- One line saved, at different addresses, and then a key that scrolls back in the one loop. -/
theorem front_ends_agree_up :
    ∃ c n, Run (JointStep true false)
        (some (consoleInit fun _ => 65), some (consoleInit fun _ => 65))
        [.update .scrollup 0 { malloc := some 1 } { malloc := some 2 }, .key .up {}]
        (some c, some n) ∧
      c.lineIdx = 1 ∧ n.lineIdx = 0 ∧
      (∃ lc ln, Path c.heap c.lineHist lc ∧ Path n.heap n.lineHist ln ∧
        lc.map Prod.snd = ln.map Prod.snd) ∧
      c.histCnt = n.histCnt ∧
      ∀ env env' : Env, env.fopen = env'.fopen → dump env c = dump env' n := by
  have H := consoleInit_hist fun _ => 65
  obtain ⟨c, hc, Hc, -, hw, hi⟩ := H.step_malloc ⟨false, true⟩ 0 { malloc := some 1 }
    (malloc_eq_some_iff.mpr ⟨rfl, rfl⟩)
  obtain ⟨n, hn, -, -, -, hidx⟩ := H.step_malloc ⟨true, false⟩ 0 { malloc := some 2 }
    (malloc_eq_some_iff.mpr ⟨rfl, rfl⟩)
  have hmatch : Matching { malloc := some 1 } { malloc := some 2 }
      (some (consoleInit fun _ => 65), some (consoleInit fun _ => 65)) := by
    rintro c n ⟨⟩
    rfl
  have V := ViewAt.bottom Hc (List.cons_ne_nil _ _) hw hi
  obtain ⟨c', d, hkey, V'⟩ := V.press (rfl : Key.up.movesView = true) {}
  have hpress : JointStep true false (some c, some n) (.key .up {}) (some c', some n) :=
    ⟨.on ⟨d, hkey⟩, rfl⟩
  have hrun : Run (JointStep true false)
      (some (consoleInit fun _ => 65), some (consoleInit fun _ => 65))
      [.update .scrollup 0 { malloc := some 1 } { malloc := some 2 }, .key .up {}]
      (some c', some n) :=
    Run.cons (t := (some c, some n)) ⟨hmatch, .on ⟨_, hc⟩, .on ⟨_, hn⟩⟩
      (Run.cons hpress (Run.refl _))
  exact ⟨c', n, hrun, V'.off, hidx, (front_ends_agree true false _ _ _ hrun).2 c' n rfl⟩

end Philix.Console
