/-
# End to end: what the host holds of what the device printed

With lock-step notification the host handles each update the device posts before the device
goes on, on the framebuffer as it was posted.  The history it keeps and the framebuffer
together are the rendering of the device's output, less the rows its capped list has let go.
-/
import Philix.Console.View
import Philix.Winky.Sheet

namespace Philix

open Console Winky HalfRing Loop
open Mailbox (Post)

/-! ## 1. Lock-step notification -/

/-- The value the host finds in the parameter register of a post. -/
def Mailbox.Post.reg (p : Post) : UInt32 := (p.param.map Prod.snd).getD 0

/-- The host's events for the updates `posts`: for each, the framebuffer it was posted on and
then the update, once.  `env i` is the environment's answer during the `i`-th. -/
def hostEvents (env : Nat → Env) : List (Post × Framebuffer) → Nat → List Event
  | [], _ => []
  | (p, fb) :: ps, i => .device fb :: .update p.type p.reg (env i) :: hostEvents env ps (i + 1)

/-- The host comes to a `SCROLLUP` for which the allocator has no block. -/
def AllocFails (o : Opts) : List Event → Cons → Prop
  | [], _ => False
  | e :: es, s =>
    (∃ reg env, e = .update .scrollup reg env ∧ Heap.malloc s.heap env.malloc = none) ∨
    ∃ s' d, step o s e = .ok (s', d) ∧ AllocFails o es s'

/-- The first rows at the moments a scroll was posted, as the host finds them. -/
def scrolledLines (posts : List (Post × Framebuffer)) : List Line :=
  posts.filterMap fun x => if x.1 = .scrollup then some (fbLine x.2 0) else none

theorem scrolledOff_eq (posts : List (Post × Framebuffer)) :
    scrolledOff posts = (scrolledLines posts).map lineChars := by
  rw [scrolledOff, scrolledLines, List.map_filterMap]
  congr 1
  funext x
  split <;> rfl

/-! ## 2. The host's history -/

section Host

variable {o : Opts} {s : Cons} {all : List (Addr × Line)}

/-- The view is at the bottom. -/
def AtBottom (s : Cons) : Prop := s.winPtr = none ∧ s.lineIdx = 0

/-- An update other than a scroll completes and leaves the console alone. -/
theorem step_other {p : Post} (hp : Printing p) (hne : p ≠ .scrollup)
    (hs : AtBottom s) (env : Env) : ∃ d, step o s (.update p.type p.reg env) = .ok (s, d) := by
  obtain ⟨d, hdraw⟩ : ∃ d, drawOutputWin s = .ok d := ⟨_, drawOutputWin_bottom hs.2⟩
  simp only [step]
  cases p with
  | scrollup => exact absurd rfl hne
  | shutdown => exact hp.elim
  | redraw =>
    split
    · exact ⟨_, rfl⟩
    · exact ⟨d, by simp [Post.type, cursesUpdate, hdraw]⟩
  | charWrite x y =>
    split
    · exact ⟨_, rfl⟩
    · exact ⟨_, rfl⟩
  | lineDraw row =>
    have hrow : row.toNat < phiFbHeight := hp
    split
    · exact ⟨_, rfl⟩
    · exact ⟨d, by
        simp [Post.type, Mailbox.Post.reg, Post.param, cursesUpdate, handleLineUpdate, hrow,
          hdraw]⟩

/-- **The host follows the posts.**  The lines it saves are the rows that scrolled off. -/
theorem host_follows (env : Nat → Env) : ∀ (ps : List (Post × Framebuffer)) (i : Nat)
    (s : Cons) (all : List (Addr × Line)), (∀ x ∈ ps, Printing x.1) →
    Hist s (newest all) → AtBottom s → ¬ AllocFails o (hostEvents env ps i) s →
    ∃ s' more, runEvents o (hostEvents env ps i) s = .ok s' ∧ Hist s' (newest (all ++ more)) ∧
      more.map Prod.snd = scrolledLines ps
  | [], i, s, all, _, H, _, _ => ⟨s, [], rfl, by rwa [List.append_nil], rfl⟩
  | (p, fb) :: ps, i, s, all, hps, H, hs, halloc => by
    have H₀ : Hist { s with fb } (newest all) := ⟨H.ring, H.cnt, H.le⟩
    have hs₀ : AtBottom { s with fb } := hs
    have hrest : ∀ x ∈ ps, Printing x.1 := fun x hx => hps x (List.mem_cons_of_mem _ hx)
    have hp : Printing p := hps (p, fb) List.mem_cons_self
    simp only [hostEvents, AllocFails, not_or, not_exists, not_and] at halloc
    obtain ⟨hmalloc, hnext⟩ := halloc.2 { s with fb } [] rfl
    have hdevice : step o s (.device fb) = .ok ({ s with fb }, []) := rfl
    rw [hostEvents, runEvents_cons_ok hdevice]
    by_cases hscroll : p = .scrollup
    · subst hscroll
      cases ha : Heap.malloc s.heap (env i).malloc with
      | none => exact absurd ha (hmalloc _ _ rfl)
      | some a =>
        obtain ⟨s₁, hstep, H₁, -, hw, hi⟩ := H₀.step_malloc o Post.scrollup.reg _ ha
        rw [← newest_concat] at H₁
        obtain ⟨s', more, hrun, H', hmore⟩ := host_follows env ps (i + 1) s₁ _ hrest H₁
          ⟨hw.trans hs.1, hi.trans hs.2⟩ (hnext s₁ [] hstep)
        refine ⟨s', (a, fbLine fb 0) :: more, ?_, by simpa using H', ?_⟩
        · exact (runEvents_cons_ok hstep).trans hrun
        · simp [scrolledLines, hmore]
    · obtain ⟨d, hstep⟩ := step_other (o := o) hp hscroll hs₀ (env i)
      obtain ⟨s', more, hrun, H', hmore⟩ := host_follows env ps (i + 1) _ all hrest H₀ hs₀
        (hnext _ d hstep)
      refine ⟨s', more, ?_, H', ?_⟩
      · rw [runEvents_cons_ok hstep, hrun]
      · rw [hmore]
        simp [scrolledLines, hscroll]

/-- An allocator that never hands out the same block twice does not fail. -/
theorem not_allocFails_fresh : ∀ (ps : List (Post × Framebuffer)) (i : Nat) (s : Cons)
    (l : List (Addr × Line)), (∀ x ∈ ps, Printing x.1) → Hist s l → (∀ x ∈ l, x.1 < i) →
    AtBottom s → ¬ AllocFails o (hostEvents (fun i => { malloc := some i }) ps i) s
  | [], _, _, _, _, _, _, _ => id
  | (p, fb) :: ps, i, s, l, hps, H, hlt, hs => by
    have H₀ : Hist { s with fb } l := ⟨H.ring, H.cnt, H.le⟩
    have hrest : ∀ x ∈ ps, Printing x.1 := fun x hx => hps x (List.mem_cons_of_mem _ hx)
    have hfree : s.heap i = none := by
      refine H.ring.frame _ fun hmem => ?_
      obtain ⟨x, hx, hxi⟩ := List.mem_map.mp hmem
      exact Nat.lt_irrefl i (Nat.lt_of_le_of_lt (Nat.le_of_eq hxi.symm) (hlt x hx))
    have ha : Heap.malloc { s with fb }.heap (some i) = some i :=
      malloc_eq_some_iff.mpr ⟨rfl, hfree⟩
    rw [hostEvents]
    rintro (⟨reg, env, he, -⟩ | ⟨s₁, d₁, h₁, ⟨reg, env, he, hm⟩ | ⟨s₂, d₂, h₂, hnext⟩⟩)
    · cases he
    · obtain ⟨-, -, rfl⟩ := Event.update.inj he
      cases h₁
      rw [ha] at hm
      cases hm
    · cases h₁
      by_cases hscroll : p = .scrollup
      · subst hscroll
        obtain ⟨s₃, h₃, H₃, -, hw, hi⟩ := H₀.step_malloc o Post.scrollup.reg
          { malloc := some i } ha
        cases h₃.symm.trans h₂
        refine not_allocFails_fresh ps (i + 1) _ _ hrest H₃ ?_ ⟨hw.trans hs.1, hi.trans hs.2⟩ hnext
        intro x hx
        rcases List.mem_cons.mp hx with rfl | hx
        · exact Nat.lt_succ_self i
        · exact Nat.lt_succ_of_lt (hlt x (List.mem_of_mem_take hx))
      · obtain ⟨d, h₃⟩ := step_other (o := o) (hps (p, fb) List.mem_cons_self) hscroll
          (s := { s with fb }) hs { malloc := some i }
        cases h₃.symm.trans h₂
        exact not_allocFails_fresh ps (i + 1) _ l hrest H₀
          (fun x hx => Nat.lt_succ_of_lt (hlt x hx)) hs hnext

end Host

/-! ## 3. End to end -/

/-- The device's run and the host's, as long as the allocator does not fail: the lines in the
history are those that scrolled off. -/
theorem transcript_run (o : Opts) (fb₀ : Framebuffer) (env : Nat → Env) (calls : List Call)
    (halloc : ∀ t, deviceRun fb₀ calls = .ok t →
      ¬ AllocFails o (hostEvents env t.posts 0) (consoleInit fb₀)) :
    ∃ t s more, deviceRun fb₀ calls = .ok t ∧ Window t (render (calls.flatMap Call.bytes)) ∧
      runEvents o (hostEvents env t.posts 0) (consoleInit fb₀) = .ok s ∧
      Path s.heap s.lineHist (newest more) ∧ more.map Prod.snd = scrolledLines t.posts := by
  obtain ⟨t, ht, W⟩ := deviceRun_window fb₀ calls
  obtain ⟨s, more, hrun, H, hmore⟩ := host_follows env t.posts 0 (consoleInit fb₀) [] W.printing
    (consoleInit_hist fb₀) ⟨rfl, rfl⟩ (halloc t ht)
  exact ⟨t, s, more, ht, W, hrun, H.ring.path, hmore⟩

/-- The saved lines and the framebuffer are the end of the sheet. -/
theorem transcript_chars {t : Term} {S : Sheet} (W : Window t S) {more : List (Addr × Line)}
    (hmore : more.map Prod.snd = scrolledLines t.posts) :
    ((newest more).reverse.map fun x => lineChars x.2) ++
        (List.range vgaHeight).map (fun i => lineChars (fbLine t.buf i)) =
      S.lines.drop (S.above - maxHistLines) := by
  have hchars : more.map (fun x => lineChars x.2) = scrolledOff t.posts := by
    rw [scrolledOff_eq, ← hmore, List.map_map]
    rfl
  have hlen : more.length = S.above := by
    rw [← List.length_map (fun x => lineChars x.2), hchars, W.scrolls]
    simp
  have hfb : (List.range vgaHeight).map (fun i => lineChars (fbLine t.buf i)) =
      (List.range vgaHeight).map fun i => S.line (S.above + i) :=
    List.map_congr_left fun i hi => funext fun j => W.cells i j (List.mem_range.mp hi) j.isLt
  rw [newest, List.take_reverse, List.reverse_reverse, List.map_drop, hchars, W.scrolls, hlen, hfb,
    Sheet.lines, Sheet.height_eq, List.range_add, List.map_append, List.map_map,
    List.drop_append_of_le_length (by simp)]
  rfl

/-- **The transcript is the rendering.**  Whatever is printed after `term_init`, as long as
the allocator does not fail: the host's history, oldest line first, and then the rows of the
framebuffer have as characters the rows of the rendering of the output, less the oldest ones
that no longer fit in the history. -/
theorem transcript_is_rendering (o : Opts) (fb₀ : Framebuffer) (env : Nat → Env)
    (calls : List Call)
    (halloc : ∀ t, deviceRun fb₀ calls = .ok t →
      ¬ AllocFails o (hostEvents env t.posts 0) (consoleInit fb₀)) :
    ∃ t s l, deviceRun fb₀ calls = .ok t ∧
      runEvents o (hostEvents env t.posts 0) (consoleInit fb₀) = .ok s ∧
      Path s.heap s.lineHist l ∧
      (l.reverse.map fun x => lineChars x.2) ++
          (List.range vgaHeight).map (fun i => lineChars (fbLine t.buf i)) =
        (render (calls.flatMap Call.bytes)).lines.drop
          ((render (calls.flatMap Call.bytes)).above - maxHistLines) := by
  obtain ⟨t, s, more, ht, W, hrun, hpath, hmore⟩ := transcript_run o fb₀ env calls halloc
  exact ⟨t, s, _, ht, hrun, hpath, transcript_chars W hmore⟩

/-! ## 4. 27 lines -/

/-- An output of 27 lines, of which the first three scroll off. -/
def longOutput : List Call := List.replicate 27 (.puts [72, 105])

theorem above_longOutput : (render (longOutput.flatMap Call.bytes)).above = 3 := rfl

theorem not_allocFails_calls (o : Opts) (fb₀ : Framebuffer) (calls : List Call) (t : Term)
    (ht : deviceRun fb₀ calls = .ok t) :
    ¬ AllocFails o (hostEvents (fun i => { malloc := some i }) t.posts 0) (consoleInit fb₀) := by
  obtain ⟨t', ht', W⟩ := deviceRun_window fb₀ calls
  obtain rfl := Except.ok.inj (ht'.symm.trans ht)
  exact not_allocFails_fresh t'.posts 0 _ [] W.printing (consoleInit_hist fb₀) (by simp) ⟨rfl, rfl⟩

theorem transcript_is_rendering_27_lines :
    ∃ t s l, deviceRun (fun _ => 0) longOutput = .ok t ∧
      runEvents ⟨true, true⟩ (hostEvents (fun i => { malloc := some i }) t.posts 0)
        (consoleInit fun _ => 0) = .ok s ∧
      Path s.heap s.lineHist l ∧ l.length = 3 ∧
      (l.reverse.map fun x => lineChars x.2) ++
          (List.range vgaHeight).map (fun i => lineChars (fbLine t.buf i)) =
        (render (longOutput.flatMap Call.bytes)).lines := by
  obtain ⟨t, s, l, ht, hrun, hpath, hchars⟩ := transcript_is_rendering ⟨true, true⟩ (fun _ => 0)
    (fun i => { malloc := some i }) longOutput (not_allocFails_calls _ _ _)
  have hdrop : (render (longOutput.flatMap Call.bytes)).above - maxHistLines = 0 := rfl
  rw [hdrop, List.drop_zero] at hchars
  refine ⟨t, s, l, ht, hrun, hpath, ?_, hchars⟩
  have hlen := congrArg List.length hchars
  have hheight : (render (longOutput.flatMap Call.bytes)).height = 28 := rfl
  simp only [List.length_append, List.length_map, List.length_reverse, List.length_range,
    Sheet.lines, hheight, vgaHeight] at hlen
  omega

end Philix
