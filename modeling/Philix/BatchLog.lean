/-
# End to end: the log file of a batch run

Without curses the host is a logger: it keeps the lines that scroll off and, when the device
shuts the console down, writes them and the framebuffer to a file.  With the device's output
as its rendering and the host's dump as it is, the file is the rendering less the rows the
capped history has let go, and less one more: the last row that scrolled off.  Where nothing
has scrolled off there is no file; the dump loads through a null pointer.
-/
import Philix.Transcript

namespace Philix

open Console Winky HalfRing Loop
open Mailbox (Post)

/-! ## 1. The shutdown -/

/-- The `TYPE_CONSOLE_SHUTDOWN` case of both loops, up to `exit`: what it writes to the dump
file, if it opens it. -/
def shutdownCase (o : Opts) (env : Env) (s : Cons) : Except Stop (Option (List UInt8)) :=
  if o.nocurses || o.dumponexit then do pure (some (← dump env s)) else .ok none

theorem step_shutdown (o : Opts) (reg : UInt32) (env : Env) (s : Cons) :
    step o s (.update .consoleShutdown reg env) =
      shutdownCase o env s >>= fun _ => .error .exited := by
  cases hn : o.nocurses <;> cases hd : o.dumponexit <;>
    simp only [step, hn, hd, nocursesUpdate, cursesUpdate, shutdownCase, Bool.or_true,
      Bool.or_false, if_true, if_false, Bool.false_eq_true] <;>
    cases dump env s <;> rfl

theorem runEvents_append (o : Opts) (es es' : List Event) (s : Cons) :
    runEvents o (es ++ es') s = runEvents o es s >>= runEvents o es' := by
  induction es generalizing s with
  | nil => rfl
  | cons e es ih =>
    rw [List.cons_append, runEvents, runEvents]
    cases step o s e with
    | error e => rfl
    | ok p => exact ih p.1

theorem hostEvents_append (env : Nat → Env) (ps qs : List (Post × Framebuffer)) (i : Nat) :
    hostEvents env (ps ++ qs) i = hostEvents env ps i ++ hostEvents env qs (i + ps.length) := by
  induction ps generalizing i with
  | nil => rfl
  | cons p ps ih =>
    rw [List.cons_append, hostEvents, hostEvents, ih, List.length_cons, Nat.add_right_comm i 1]
    rfl

/-! ## 2. The file -/

/-- A row as the dump writes it. -/
def rowBytes (row : Fin 80 → UInt8) : List UInt8 := List.ofFn row ++ [10]

theorem lineBytes_eq (line : Line) : lineBytes line = rowBytes (lineChars line) := rfl

/-- The rows of a sheet that get into the log: those the history and the framebuffer hold,
less the last one that scrolled off. -/
def logged (S : Sheet) : List (Fin 80 → UInt8) :=
  (S.lines.drop (S.above - maxHistLines)).eraseIdx (min S.above maxHistLines - 1)

theorem fileOf_eq_rows (ls : List Line) (s : Cons) :
    fileOf ls s = (ls.map lineChars ++
      (List.range phiFbHeight).map fun i => lineChars (fbLine s.fb i)).flatMap rowBytes := by
  simp only [fileOf, outputFbToFile, List.flatMap_append, List.flatMap_map,
    funext lineBytes_eq]

/-- As many lines have scrolled off as the sheet has rows above the last screen. -/
theorem Winky.Window.saved_length {t : Term} {S : Sheet} (W : Window t S)
    {more : List (Addr × Line)} (hmore : more.map Prod.snd = scrolledLines t.posts) :
    more.length = S.above := by
  have hlen := congrArg List.length W.scrolls
  rw [scrolledOff_eq, ← hmore] at hlen
  simpa using hlen

/-- **The dump of a console that holds a sheet.** -/
theorem dump_of_window {t : Term} {S : Sheet} (W : Window t S) {more : List (Addr × Line)}
    (hmore : more.map Prod.snd = scrolledLines t.posts) {s : Cons} {env : Env}
    (H : Hist s (newest more)) (hfb : s.fb = t.buf) (hopen : env.fopen = true) :
    dump env s =
      if S.above = 0 then .error .nullDeref else .ok ((logged S).flatMap rowBytes) := by
  have hlen : (newest more).length = min S.above maxHistLines := by
    rw [newest, List.length_take, List.length_reverse, W.saved_length hmore, Nat.min_comm]
  have hchars := transcript_chars W hmore
  rw [dump, hopen, dumpConsoleToFile_eq H.ring (by rw [H.cnt]; omega)]
  cases hl : newest more with
  | nil =>
    rw [hl, List.length_nil] at hlen
    have h0 : S.above = 0 := by simp only [maxHistLines] at hlen; omega
    rw [if_pos rfl, if_pos h0]
  | cons x l =>
    rw [hl, List.length_cons] at hlen
    have h0 : S.above ≠ 0 := by omega
    rw [if_neg (List.cons_ne_nil x l), if_neg h0, fileOf_eq_rows, logged, ← hchars, hl, ← hlen,
      hfb]
    have herase : ∀ (ls rest : List (Fin 80 → UInt8)) (c : Fin 80 → UInt8),
        (ls ++ [c] ++ rest).eraseIdx ls.length = ls ++ rest := by
      intro ls rest c
      rw [List.append_assoc, List.eraseIdx_append_of_length_le (Nat.le_refl _), Nat.sub_self]
      rfl
    rw [List.reverse_cons, List.map_append, List.map_singleton, Nat.add_sub_cancel]
    have hat : l.length = (l.reverse.map fun x => lineChars x.2).length := by simp
    rw [hat, herase]
    simp only [List.tail_cons, List.map_map]
    rfl

/-! ## 3. End to end -/

/-- What the host has kept when the shutdown comes, and the file it writes then. -/
theorem log_of_calls {o : Opts} (ho : o.nocurses = true ∨ o.dumponexit = true)
    (fb₀ : Framebuffer) {env : Nat → Env} (hopen : ∀ i, (env i).fopen = true)
    (calls : List Call)
    (halloc : ∀ t, deviceRun fb₀ calls = .ok t →
      ¬ AllocFails o (hostEvents env t.posts 0) (consoleInit fb₀)) :
    ∃ t s, deviceRun fb₀ calls = .ok t ∧ (∀ x ∈ t.posts, Printing x.1) ∧
      runEvents o (hostEvents env t.posts 0) (consoleInit fb₀) = .ok s ∧
      shutdownCase o (env t.posts.length) { s with fb := t.buf } =
        (if (render (calls.flatMap Call.bytes)).above = 0 then .error .nullDeref
        else .ok (some ((logged (render (calls.flatMap Call.bytes))).flatMap rowBytes))) := by
  obtain ⟨t, ht, W⟩ := deviceRun_window fb₀ calls
  obtain ⟨s, more, hrun, H, hmore⟩ := host_follows env t.posts 0 (consoleInit fb₀) [] W.printing
    (consoleInit_hist fb₀) ⟨rfl, rfl⟩ (halloc t ht)
  have H' : Hist { s with fb := t.buf } (newest more) := ⟨H.ring, H.cnt, H.le⟩
  have hwrites : (o.nocurses || o.dumponexit) = true := by
    rcases ho with h | h <;> simp [h]
  refine ⟨t, s, ht, W.printing, hrun, ?_⟩
  rw [shutdownCase, if_pos hwrites, dump_of_window W hmore H' rfl (hopen _)]
  split <;> rfl

/-- **The log of a batch run.**  Whatever is printed after `term_init`, with a host that writes
the console to a file on shutdown and an allocator that does not fail: the shutdown ends the
host.  If no row of the rendering has scrolled off, the dump faults.  Otherwise the file has
the rows of the rendering, less those the history has let go and less the last one that
scrolled off. -/
theorem batch_log_is_rendering (o : Opts) (ho : o.nocurses = true ∨ o.dumponexit = true)
    (fb₀ : Framebuffer) (env : Nat → Env) (hopen : ∀ i, (env i).fopen = true)
    (calls : List Call)
    (halloc : ∀ t, deviceRun fb₀ calls = .ok t →
      ¬ AllocFails o (hostEvents env t.posts 0) (consoleInit fb₀)) :
    ∃ t s, deviceRun fb₀ calls = .ok t ∧
      runEvents o (hostEvents env t.posts 0) (consoleInit fb₀) = .ok s ∧
      shutdownCase o (env t.posts.length) { s with fb := t.buf } =
        (if (render (calls.flatMap Call.bytes)).above = 0 then .error .nullDeref
        else .ok (some ((logged (render (calls.flatMap Call.bytes))).flatMap rowBytes))) ∧
      runEvents o (hostEvents env (t.notify .shutdown).posts 0) (consoleInit fb₀) =
        .error (if (render (calls.flatMap Call.bytes)).above = 0 then .nullDeref
          else .exited) := by
  obtain ⟨t, s, ht, -, hrun, hcase⟩ := log_of_calls ho fb₀ hopen calls halloc
  refine ⟨t, s, ht, hrun, hcase, ?_⟩
  have hposts : (t.notify .shutdown).posts = t.posts ++ [(.shutdown, t.buf)] := rfl
  have hdevice : step o s (.device t.buf) = .ok ({ s with fb := t.buf }, []) := rfl
  rw [hposts, hostEvents_append, runEvents_append, hrun, ok_bind, Nat.zero_add, hostEvents,
    runEvents_cons_ok hdevice, runEvents, Mailbox.Post.type, step_shutdown, hcase]
  split <;> rfl

/-- 27 lines printed to a host without curses, whose allocator does not fail: the file has two
of the three lines that have scrolled off, and the screen. -/
theorem batch_log_is_rendering_27_lines :
    ∃ t s, deviceRun (fun _ => 0) longOutput = .ok t ∧
      runEvents ⟨true, false⟩ (hostEvents (fun i => { malloc := some i }) t.posts 0)
        (consoleInit fun _ => 0) = .ok s ∧
      shutdownCase ⟨true, false⟩ { malloc := some t.posts.length } { s with fb := t.buf } =
        .ok (some ((logged (render (longOutput.flatMap Call.bytes))).flatMap rowBytes)) ∧
      (logged (render (longOutput.flatMap Call.bytes))).length = 27 ∧
      runEvents ⟨true, false⟩
          (hostEvents (fun i => { malloc := some i }) (t.notify .shutdown).posts 0)
          (consoleInit fun _ => 0) = .error .exited := by
  have hne : (render (longOutput.flatMap Call.bytes)).above ≠ 0 := by
    rw [above_longOutput]
    decide
  obtain ⟨t, s, ht, hrun, hcase, hexit⟩ := batch_log_is_rendering ⟨true, false⟩ (Or.inl rfl)
    (fun _ => 0) (fun i => { malloc := some i }) (fun _ => rfl) longOutput
    (not_allocFails_calls _ _ _)
  rw [if_neg hne] at hcase hexit
  exact ⟨t, s, ht, hrun, hcase, rfl, hexit⟩

end Philix
