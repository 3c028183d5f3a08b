/-
# The host's window follows the device's framebuffer

With lock-step notification and the view at the bottom, the host redraws the whole window for
every post but the one that announces a scroll.  So the window shows the framebuffer as it
was at the last post that was drawn, `lastDrawn`.  The device writes behind its posts only
while it fills a line: what may be stale is left of the cursor, in the cursor's row.
-/
import Philix.Console.TermSize
import Philix.Transcript

namespace Philix

open Console Winky HalfRing Lts Loop Curses
open Mailbox (Post)

/-! ## 1. The device's output -/

/-- A call of the device terminal after `term_init`. -/
inductive Output
  | clear
  | print (call : Call)

def Output.run : Output → Term → Except Fault Term
  | .clear => termClear
  | .print call => call.run

/-- `term_init`, then the calls. -/
def outputRun (fb : Framebuffer) (outs : List Output) : Except Fault Term := do
  outs.foldlM (fun t out => out.run t) (← termInit fb)

/-- The last byte of the output of the last call ends a line: it is a newline, or it is written
to the last column. -/
def EndsLine (fb : Framebuffer) (outs : List Output) : Prop :=
  ∃ outs' call cs c t, outs = outs' ++ [.print call] ∧ call.bytes = cs ++ [c] ∧
    (outputRun fb outs' >>= putchars cs) = .ok t ∧ (c = 10 ∨ t.col + 1 = vgaWidth)

/-! ## 2. What has been drawn -/

/-- The posts the device makes: those the host answers with a redraw, and the scroll. -/
def Redraws : Post → Prop
  | .redraw => True
  | .lineDraw row => row.toNat < phiFbHeight
  | _ => False

theorem printing_of_redraws {p : Post} (hp : Redraws p ∨ p = .scrollup) : Printing p := by
  rcases hp with hp | rfl
  · cases p with
    | charWrite x y => exact hp.elim
    | scrollup => exact hp.elim
    | _ => exact hp
  · trivial

/-- The framebuffer at the last post that was drawn. -/
def lastDrawn (posts : List (Post × Framebuffer)) : Option Framebuffer :=
  (posts.filterMap fun x => if x.1 = .scrollup then none else some x.2).getLast?

theorem lastDrawn_append (ps qs : List (Post × Framebuffer)) :
    lastDrawn (ps ++ qs) = (lastDrawn qs).or (lastDrawn ps) := by
  simp [lastDrawn, List.filterMap_append, List.getLast?_append]

/-- The terminal's cursor is on the screen, and what has been drawn of its framebuffer is all
but the cells left of the cursor. -/
structure Drawn (t : Term) : Prop where
  row_lt : t.row < vgaHeight
  col_lt : t.col < vgaWidth
  posts : ∀ x ∈ t.posts, Redraws x.1 ∨ x.1 = .scrollup
  drawn : ∃ fb, lastDrawn t.posts = some fb ∧ ∀ y x, y < vgaHeight → x < vgaWidth →
    ¬ (y = t.row ∧ x < t.col) → t.buf (y * vgaWidth + x) = fb (y * vgaWidth + x)

section Device

variable {t t' : Term} {c : UInt8} {fb : Framebuffer}

/-- Just after a post that is drawn, nothing is stale. -/
theorem Drawn.of_last {row col : Nat} {color : UInt8} {buf : Framebuffer}
    {ps qs : List (Post × Framebuffer)} (hrow : row < vgaHeight) (hcol : col < vgaWidth)
    (hps : ∀ x ∈ ps, Redraws x.1 ∨ x.1 = .scrollup)
    (hqs : ∀ x ∈ qs, Redraws x.1 ∨ x.1 = .scrollup) (hlast : lastDrawn qs = some buf) :
    Drawn ⟨row, col, color, buf, ps ++ qs⟩ := by
  refine ⟨hrow, hcol, ?_, buf, ?_, fun _ _ _ _ _ => rfl⟩
  · intro x hx
    rcases List.mem_append.mp hx with hx | hx
    · exact hps x hx
    · exact hqs x hx
  · rw [lastDrawn_append, hlast, Option.some_or]

theorem drawn_termInit (fb : Framebuffer) : ∃ t, termInit fb = .ok t ∧ Drawn t := by
  have hnone : ∀ x ∈ ([] : List (Post × Framebuffer)), Redraws x.1 ∨ x.1 = .scrollup :=
    fun x hx => absurd hx List.not_mem_nil
  refine ⟨_, termInit_eq fb,
    Drawn.of_last (Nat.zero_lt_succ 24) (Nat.zero_lt_succ 79) hnone ?_ rfl⟩
  · intro x hx
    obtain rfl := List.mem_singleton.mp hx
    exact Or.inl trivial

theorem Drawn.clear (D : Drawn t) : ∃ t', termClear t = .ok t' ∧ Drawn t' := by
  refine ⟨_, termClear_eq t, Drawn.of_last D.row_lt D.col_lt D.posts ?_ rfl⟩
  intro x hx
  obtain rfl := List.mem_singleton.mp hx
  exact Or.inl trivial

/-- The end of a line is drawn, and so is the scroll after it, wherever the column was. -/
theorem drawn_endLine (hrow : t.row < vgaHeight)
    (hposts : ∀ x ∈ t.posts, Redraws x.1 ∨ x.1 = .scrollup) :
    ∃ t', endLine t = .ok t' ∧ Drawn t' ∧ t'.col = 0 := by
  have hline : Redraws (.lineDraw (.ofNat t.row)) := by
    show (UInt32.ofNat t.row).toNat < 25
    simp only [vgaHeight] at hrow
    rw [UInt32.toNat_ofNat_of_lt' (by simp [UInt32.size]; omega)]
    exact hrow
  rw [endLine_eq]
  by_cases hlast : t.row + 1 = vgaHeight
  · rw [if_pos hlast]
    refine ⟨_, rfl, Drawn.of_last hrow (by decide) hposts ?_ rfl, rfl⟩
    intro x hx
    simp only [List.mem_cons, List.not_mem_nil, or_false] at hx
    rcases hx with rfl | rfl | rfl
    · exact Or.inl hline
    · exact Or.inr rfl
    · exact Or.inl trivial
  · rw [if_neg hlast]
    refine ⟨_, rfl, Drawn.of_last (by omega) (by decide) hposts ?_ rfl, rfl⟩
    intro x hx
    obtain rfl := List.mem_singleton.mp hx
    exact Or.inl hline

/-- A byte that does not end a line is written left of the new cursor. -/
theorem Drawn.write (D : Drawn t) (v : UInt16) (hcol : t.col + 1 < vgaWidth) :
    Drawn { t with
      buf := Function.update t.buf (t.row * vgaWidth + t.col) v
      col := t.col + 1 } := by
  obtain ⟨fb, hfb, hsame⟩ := D.drawn
  refine ⟨D.row_lt, hcol, D.posts, fb, hfb, ?_⟩
  intro y x hy hx hnot
  have hne : y * vgaWidth + x ≠ t.row * vgaWidth + t.col := by
    intro e
    obtain ⟨rfl, rfl⟩ := index_inj hx D.col_lt e
    exact hnot ⟨rfl, Nat.lt_succ_self _⟩
  have hsame' := hsame y x hy hx fun h => hnot ⟨h.1, Nat.lt_succ_of_lt h.2⟩
  exact (Function.update_of_ne hne _ _).trans hsame'

/-- **The step lemma: one byte.** -/
theorem Drawn.put (D : Drawn t) (c : UInt8) :
    ∃ t', putchar c t = .ok t' ∧ Drawn t' ∧ (c = 10 ∨ t.col + 1 = vgaWidth → t'.col = 0) := by
  by_cases hc : c = 10
  · rw [putchar, if_pos hc]
    obtain ⟨t', h', D', hcol⟩ := drawn_endLine D.row_lt D.posts
    exact ⟨t', h', D', fun _ => hcol⟩
  · rw [putchar, if_neg hc, termPutc_eq c D.row_lt D.col_lt, ok_bind]
    have hlt := D.col_lt
    by_cases hend : t.col + 1 = vgaWidth
    · -- the write is drawn with the end of its line
      rw [if_pos hend]
      obtain ⟨t', h', D', hcol⟩ := drawn_endLine D.row_lt D.posts (t := { t with
        buf := Function.update t.buf (t.row * vgaWidth + t.col) (makeVgaentry c t.color)
        col := t.col + 1 })
      exact ⟨t', h', D', fun _ => hcol⟩
    · rw [if_neg hend]
      refine ⟨_, rfl, D.write _ (by omega), ?_⟩
      rintro (h | h)
      · exact absurd h hc
      · exact absurd h hend

/-- The run lemma: any bytes. -/
theorem Drawn.puts (D : Drawn t) (cs : List UInt8) : ∃ t', putchars cs t = .ok t' ∧ Drawn t' := by
  induction cs generalizing t with
  | nil => exact ⟨t, rfl, D⟩
  | cons c cs ih =>
    obtain ⟨t₁, h₁, D₁, -⟩ := D.put c
    obtain ⟨t₂, h₂, D₂⟩ := ih D₁
    exact ⟨t₂, by rw [putchars, h₁, ok_bind, h₂], D₂⟩

theorem putchars_concat (cs : List UInt8) (c : UInt8) (t : Term) :
    putchars (cs ++ [c]) t = putchars cs t >>= putchar c := by
  induction cs generalizing t with
  | nil =>
    show (putchar c t >>= putchars []) = putchar c t
    cases putchar c t <;> rfl
  | cons d cs ih =>
    simp only [List.cons_append, putchars]
    cases putchar d t with
    | error e => rfl
    | ok t₁ => exact ih t₁

/-- A call prints its bytes. -/
theorem call_run_eq (call : Call) (t : Term) : call.run t = putchars call.bytes t := by
  cases call with
  | putchar c =>
    show putchar c t = putchar c t >>= putchars []
    cases putchar c t <;> rfl
  | puts s => exact (putchars_concat _ _ _).symm
  | termPrint data => rfl

theorem Drawn.output (D : Drawn t) (out : Output) : ∃ t', out.run t = .ok t' ∧ Drawn t' := by
  cases out with
  | clear => exact D.clear
  | print call =>
    rw [Output.run, call_run_eq]
    exact D.puts _

theorem Drawn.outputs (D : Drawn t) (outs : List Output) :
    ∃ t', outs.foldlM (fun t out => out.run t) t = .ok t' ∧ Drawn t' := by
  induction outs generalizing t with
  | nil => exact ⟨t, rfl, D⟩
  | cons out outs ih =>
    obtain ⟨t₁, h₁, D₁⟩ := D.output out
    obtain ⟨t₂, h₂, D₂⟩ := ih D₁
    exact ⟨t₂, by rw [List.foldlM_cons, h₁, ok_bind, h₂], D₂⟩

theorem outputRun_drawn (fb : Framebuffer) (outs : List Output) :
    ∃ t, outputRun fb outs = .ok t ∧ Drawn t := by
  obtain ⟨t₀, h₀, D₀⟩ := drawn_termInit fb
  obtain ⟨t, h, D⟩ := D₀.outputs outs
  exact ⟨t, by rw [outputRun, h₀, ok_bind, h], D⟩

theorem outputRun_concat (fb : Framebuffer) (outs : List Output) (out : Output) :
    outputRun fb (outs ++ [out]) = outputRun fb outs >>= out.run := by
  simp only [outputRun, List.foldlM_append, List.foldlM_cons, List.foldlM_nil, bind_assoc,
    bind_pure]

/-- A line has just been ended: the cursor is at the start of one. -/
theorem EndsLine.col {outs : List Output} (h : EndsLine fb outs) (ht : outputRun fb outs = .ok t) :
    t.col = 0 := by
  obtain ⟨outs', call, cs, c, t₁, rfl, hbytes, h₁, hc⟩ := h
  obtain ⟨t₀, h₀, D₀⟩ := outputRun_drawn fb outs'
  obtain ⟨t₁', h₁', D₁⟩ := D₀.puts cs
  rw [h₀, ok_bind, h₁'] at h₁
  obtain rfl := Except.ok.inj h₁
  obtain ⟨t', h', -, hcol⟩ := D₁.put c
  rw [outputRun_concat, h₀, ok_bind, Output.run, call_run_eq, hbytes, putchars_concat, h₁',
    ok_bind, h'] at ht
  obtain rfl := Except.ok.inj ht
  exact hcol hc

end Device

/-! ## 3. What the host shows -/

section Host

variable {o : Opts} {s : Cons} {w : Screen} {l : List (Addr × Line)}

/-- The host answers such a post with a redraw. -/
theorem step_redraws {p : Post} (hc : o.nocurses = false) (hp : Redraws p) (hs : AtBottom s)
    (env : Env) : ∃ d, step o s (.update p.type p.reg env) = .ok (s, d) ∧
      drawOutputWin s = .ok d := by
  have hdraw := drawOutputWin_bottom hs.2
  refine ⟨_, ?_, hdraw⟩
  cases p with
  | redraw => simp [step, hc, Post.type, cursesUpdate, hdraw]
  | lineDraw row =>
    have hrow : row.toNat < phiFbHeight := hp
    simp [step, hc, Post.type, Mailbox.Post.reg, Post.param, cursesUpdate, handleLineUpdate, hrow,
      hdraw]
  | scrollup => exact hp.elim
  | charWrite x y => exact hp.elim
  | shutdown => exact hp.elim

/-- **The host follows the posts.**  The window shows the framebuffer at the last post that
was drawn. -/
theorem host_shows (hc : o.nocurses = false) (env : Nat → Env) :
    ∀ (ps : List (Post × Framebuffer)) (i : Nat) (s : Cons) (w : Screen) (l : List (Addr × Line)),
    (∀ x ∈ ps, Redraws x.1 ∨ x.1 = .scrollup) → Hist s l → AtBottom s → FitsScreen w →
    ¬ AllocFails o (hostEvents env ps i) s →
    ∃ s' w', showEvents o (hostEvents env ps i) (s, w) = .ok (s', w') ∧ s'.lineIdx = 0 ∧
      ∀ fb, lastDrawn ps = some fb ∨ lastDrawn ps = none ∧ ShowsScreen fb w → ShowsScreen fb w'
  | [], i, s, w, l, _, _, hs, _, _ => by
    refine ⟨s, w, rfl, hs.2, ?_⟩
    rintro fb (h | ⟨-, h⟩)
    · cases h
    · exact h
  | (p, fb) :: ps, i, s, w, l, hps, H, hs, hf, halloc => by
    have H₀ : Hist { s with fb } l := ⟨H.ring, H.cnt, H.le⟩
    have hrest : ∀ x ∈ ps, Redraws x.1 ∨ x.1 = .scrollup := fun x hx =>
      hps x (List.mem_cons_of_mem _ hx)
    simp only [hostEvents, AllocFails, not_or, not_exists, not_and] at halloc
    obtain ⟨hmalloc, hnext⟩ := halloc.2 { s with fb } [] rfl
    have hdevice : step o s (.device fb) = .ok ({ s with fb }, []) := rfl
    have hlast : lastDrawn ((p, fb) :: ps) =
        (lastDrawn ps).or (lastDrawn [(p, fb)]) := lastDrawn_append [(p, fb)] ps
    rw [hostEvents, showEvents_cons_ok hdevice, hlast]
    rcases hps (p, fb) List.mem_cons_self with hp | rfl
    · obtain ⟨d, hstep, hdraw⟩ := step_redraws hc hp (s := { s with fb }) hs (env i)
      rw [showEvents_cons_ok hstep]
      obtain ⟨s', w', hrun, hidx, hshow⟩ := host_shows hc env ps (i + 1) { s with fb }
        (paint { s with fb } d w) l hrest H₀ hs (hf.of_sameFrame (paint_sameFrame _ d w))
        (hnext _ d hstep)
      refine ⟨s', w', hrun, hidx, fun fb' h => hshow fb' ?_⟩
      have hne : p ≠ .scrollup := by
        rintro rfl
        exact hp
      have hone : lastDrawn [(p, fb)] = some fb := by simp [lastDrawn, hne]
      cases hps : lastDrawn ps with
      | some fb'' =>
        rw [hps, hone] at h
        simpa using h
      | none =>
        rw [hps, hone, Option.none_or] at h
        obtain rfl : fb = fb' := by simpa using h
        exact Or.inr ⟨rfl, showsScreen_of_fits (s := { s with fb }) hf hs.2 hdraw⟩
    · cases ha : Heap.malloc s.heap (env i).malloc with
      | none => exact absurd ha (hmalloc _ _ rfl)
      | some a =>
        obtain ⟨s₁, hstep, H₁, -, hw, hi⟩ := H₀.step_malloc o Post.scrollup.reg _ ha
        have hstep' : step o { s with fb } (.update Post.scrollup.type Post.scrollup.reg (env i)) =
            .ok (s₁, []) := hstep
        rw [showEvents_cons_ok hstep']
        obtain ⟨s', w', hrun, hidx, hshow⟩ := host_shows hc env ps (i + 1) s₁ w _ hrest H₁
          ⟨hw.trans hs.1, hi.trans hs.2⟩ hf (hnext s₁ [] hstep)
        exact ⟨s', w', hrun, hidx, fun fb' h => hshow fb' (by simpa [lastDrawn] using h)⟩

/-- A host whose allocator fails does not get through its posts. -/
theorem not_allocFails_of_ok : ∀ {es : List Event} {s : Cons} {w : Screen} {q : Cons × Screen},
    showEvents o es (s, w) = .ok q → ¬ AllocFails o es s
  | [], _, _, _, _ => id
  | e :: es, s, w, q, h => by
    obtain ⟨⟨s₁, d⟩, hstep, hrest⟩ := bind_eq_ok_iff.mp h
    rintro (⟨reg, env, rfl, hnone⟩ | ⟨s₂, d₂, hstep₂, hfails⟩)
    · have hcase : scrollupCase env s = .error .returned := by
        simp [scrollupCase, handleScrollup, hnone]
      simp only [step, nocursesUpdate, cursesUpdate, hcase] at hstep
      split at hstep <;> cases hstep
    · obtain ⟨rfl, rfl⟩ := Prod.mk.inj (Except.ok.inj (hstep₂.symm.trans hstep))
      exact not_allocFails_of_ok hrest hfails

end Host

/-! ## 4. End to end -/

/-- **The window follows the framebuffer.**  After `term_init` and any sequence of calls of the
device terminal, the host gets through all their posts unless its allocator fails, which ends
it.  When it has: each cell of the screen that is not left of the cursor in the cursor's row
shows the host's rendering of the framebuffer, and after output that ends a line every cell
does. -/
theorem display_tracks_framebuffer (dumponexit : Bool) (fb₀ : Framebuffer) (w : Screen)
    (env : Nat → Env) (outs : List Output) (hf : FitsScreen w) :
    ∃ t, outputRun fb₀ outs = .ok t ∧
      (¬ AllocFails ⟨false, dumponexit⟩ (hostEvents env t.posts 0) (consoleInit fb₀) →
        ∃ q, showEvents ⟨false, dumponexit⟩ (hostEvents env t.posts 0) (consoleInit fb₀, w) =
          .ok q) ∧
      ∀ s w', showEvents ⟨false, dumponexit⟩ (hostEvents env t.posts 0) (consoleInit fb₀, w) =
          .ok (s, w') →
        s.lineIdx = 0 ∧
        (∀ y x, y < phiFbHeight → x < phiFbWidth → ¬ (y = t.row ∧ x < t.col) →
          w'.Shows y x (glyph (t.buf (y * phiFbWidth + x)))) ∧
        (EndsLine fb₀ outs → ShowsScreen t.buf w') := by
  obtain ⟨t, ht, D⟩ := outputRun_drawn fb₀ outs
  have hhost := host_shows (o := ⟨false, dumponexit⟩) rfl env t.posts 0 (consoleInit fb₀) w []
    D.posts (consoleInit_hist fb₀) ⟨rfl, rfl⟩ hf
  refine ⟨t, ht, fun halloc => ?_, fun s w' hrun => ?_⟩
  · obtain ⟨s, w', hrun, -⟩ := hhost halloc
    exact ⟨_, hrun⟩
  · obtain ⟨s₁, w₁, hrun₁, hidx, hshow⟩ := hhost (not_allocFails_of_ok hrun)
    obtain ⟨rfl, rfl⟩ := Prod.mk.inj (Except.ok.inj (hrun₁.symm.trans hrun))
    obtain ⟨fb, hfb, hsame⟩ := D.drawn
    have hcells : ∀ y x, y < phiFbHeight → x < phiFbWidth → ¬ (y = t.row ∧ x < t.col) →
        w₁.Shows y x (glyph (t.buf (y * phiFbWidth + x))) := by
      intro y x hy hx hnot
      have hbuf : t.buf (y * phiFbWidth + x) = fb (y * phiFbWidth + x) := hsame y x hy hx hnot
      rw [hbuf]
      exact hshow fb (Or.inl hfb) y x hy hx
    refine ⟨hidx, hcells, fun hend y x hy hx => hcells y x hy hx ?_⟩
    rw [hend.col ht]
    exact fun h => absurd h.2 (Nat.not_lt_zero x)

/-- A line, a clear and an exclamation mark, in a window of 25 lines and 81 columns, with an
allocator that does not fail. -/
theorem display_tracks_framebuffer_three_calls :
    ∃ t s w', outputRun (fun _ => 0) [.print (.puts [72, 105]), .clear, .print (.putchar 33)] =
        .ok t ∧
      showEvents ⟨false, true⟩ (hostEvents (fun i => { malloc := some i }) t.posts 0)
        (consoleInit fun _ => 0, newwin 25 81 blankGlyph) = .ok (s, w') ∧
      s.lineIdx = 0 ∧
      (∀ y x, y < phiFbHeight → x < phiFbWidth → ¬ (y = t.row ∧ x < t.col) →
        w'.Shows y x (glyph (t.buf (y * phiFbWidth + x)))) ∧
      (EndsLine (fun _ => 0) [.print (.puts [72, 105]), .clear, .print (.putchar 33)] →
        ShowsScreen t.buf w') := by
  obtain ⟨t, ht, hok, hshows⟩ := display_tracks_framebuffer true (fun _ => 0)
    (newwin 25 81 blankGlyph) (fun i => { malloc := some i })
    [.print (.puts [72, 105]), .clear, .print (.putchar 33)] ⟨by decide, by decide, by decide⟩
  obtain ⟨t', ht', D⟩ := outputRun_drawn (fun _ => 0)
    [.print (.puts [72, 105]), .clear, .print (.putchar 33)]
  obtain rfl := Except.ok.inj (ht'.symm.trans ht)
  obtain ⟨⟨s, w'⟩, hrun⟩ := hok (not_allocFails_fresh t'.posts 0 _ []
    (fun x hx => printing_of_redraws (D.posts x hx)) (consoleInit_hist fun _ => 0) (by simp)
    ⟨rfl, rfl⟩)
  exact ⟨t', s, w', ht, hrun, hshows s w' hrun⟩

end Philix
