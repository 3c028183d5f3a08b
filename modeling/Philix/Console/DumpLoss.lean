/-
# The dump is never complete

`output_hist_to_file` starts at the last node and goes back while `cur != line_hist`, so the
newest line, which is the head itself, is never written.  On an empty history the walk to the
last node starts by loading through `line_hist`, which is null.  These are all the histories
there are: no reachable console is dumped completely.
-/
import Philix.Console.Reach

namespace Philix.Console

open HalfRing Lts Loop

/-- The complete dump of a console whose history is `l`, newest first: every line of it,
oldest first, then the framebuffer. -/
def completeDump (l : List (Addr × Line)) (s : Cons) : List UInt8 :=
  fileOf (l.reverse.map Prod.snd) s

theorem completeDump_tail_ne {l : List (Addr × Line)} (hl : l ≠ []) (s : Cons) :
    completeDump l.tail s ≠ completeDump l s := by
  intro e
  have hpos : 0 < l.length := List.length_pos_iff.mpr hl
  -- the one file is a line shorter than the other
  have hlen := congrArg List.length e
  simp only [completeDump, fileOf_length, List.length_map, List.length_reverse,
    List.length_tail, phiFbWidth] at hlen
  omega

/-- **The dump of every reachable console.**  On an empty history it faults; on any other it
completes and writes every line but the newest.  It never writes the complete file. -/
theorem dump_never_complete (o : Opts) (fb₀ : Framebuffer) (es : List Event) (s : Cons)
    (h : Run (Step o) (consoleInit fb₀) es s) :
    ∃ l, Path s.heap s.lineHist l ∧ l.length = s.histCnt ∧
      ∀ fuel, s.histCnt < fuel →
        dumpConsoleToFile true fuel s ≠ .ok (completeDump l s) ∧
        (l = [] → dumpConsoleToFile true fuel s = .error .nullDeref) ∧
        (l ≠ [] → dumpConsoleToFile true fuel s = .ok (completeDump l.tail s)) := by
  obtain ⟨l, H, -, -⟩ := sane_of_run h
  refine ⟨l, H.ring.path, H.cnt.symm, fun fuel hf => ?_⟩
  have hdump := dumpConsoleToFile_eq H.ring (H.cnt ▸ hf)
  by_cases hl : l = []
  · rw [if_pos hl] at hdump
    simp [hdump, hl]
  · rw [if_neg hl] at hdump
    refine ⟨?_, fun h => absurd h hl, fun _ => hdump⟩
    rw [hdump]
    exact fun e => completeDump_tail_ne hl s (Except.ok.inj e)

/-- One `SCROLLUP` is enough to have a console the dump completes on. -/
theorem dump_never_complete_one_scrollup :
    ∃ s, Run (Step ⟨false, true⟩) (consoleInit fun _ => 0)
        [.update .scrollup 0 { malloc := some 1 }] s ∧
      ∃ l, Path s.heap s.lineHist l ∧ l.length = s.histCnt ∧
        ∀ fuel, s.histCnt < fuel →
          dumpConsoleToFile true fuel s ≠ .ok (completeDump l s) ∧
          (l = [] → dumpConsoleToFile true fuel s = .error .nullDeref) ∧
          (l ≠ [] → dumpConsoleToFile true fuel s = .ok (completeDump l.tail s)) := by
  obtain ⟨s, hstep, -⟩ := (consoleInit_hist fun _ => 0).step_scrollup ⟨false, true⟩ (a := 1) rfl
  have hrun := Run.cons hstep (Run.refl s)
  exact ⟨s, hrun, dump_never_complete _ _ _ s hrun⟩

/-- With no history the dump faults; with a history of one line it writes only the
framebuffer. -/
theorem dump_loses_the_newest_line :
    dump {} (consoleInit fun _ => 0) = .error .nullDeref ∧
    ∃ s l, Run (Step ⟨false, true⟩) (consoleInit fun _ => 0)
        [.update .scrollup 0 { malloc := some 1 }] s ∧
      Path s.heap s.lineHist l ∧ l.length = 1 ∧
      dump {} s = .ok (completeDump [] s) ∧ dump {} s ≠ .ok (completeDump l s) := by
  refine ⟨dumpConsoleToFile_eq (consoleInit_hist fun _ => 0).ring (by simp), ?_⟩
  obtain ⟨s, hstep, H, -⟩ :=
    (consoleInit_hist fun _ => 0).step_scrollup ⟨false, true⟩ (a := 1) rfl
  have hdump : dump {} s = .ok (completeDump [] s) :=
    dumpConsoleToFile_eq H.ring (by rw [H.cnt]; omega)
  refine ⟨s, _, Run.cons hstep (Run.refl s), H.ring.path, rfl, hdump, ?_⟩
  rw [hdump]
  exact fun e => completeDump_tail_ne (l := pushed _ _ []) (by simp [pushed]) s (Except.ok.inj e)

end Philix.Console
