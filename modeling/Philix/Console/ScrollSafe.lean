/-
# What scrolling and drawing can do from any view

`win_ptr` may be stale: eviction does not look at it.  So these results make no assumption on
where it points.  A scroll or a drawing either loads a node that is no longer live, which is
set aside here, or does what it should: the loops count right, no assertion fails, and the
rows drawn are distinct rows of the window.

What remains is the assertion `scroll_output_win` starts with.  It fails exactly while no
line has been saved.
-/
import Philix.Console.ViewOffset

namespace Philix.Console

open HalfRing Lts Loop

/-! ## 1. The scroll loops -/

/-- The window row a call draws in. -/
def DrawCall.row : DrawCall → Nat
  | .line _ row => row
  | .cell _ y => y

/-- Whole lines are drawn, each below the last, from row `lo` on and above row `hi`. -/
structure RowsIn (lo hi : Nat) (log : List DrawCall) : Prop where
  sorted : (log.map DrawCall.row).Pairwise (· < ·)
  inside : ∀ c ∈ log, lo ≤ c.row ∧ c.row < hi
  lines : ∀ c ∈ log, ∃ buf, c = .line buf c.row

/-- Every live node has a `prev`. -/
def PrevSet (h : Heap) : Prop := ∀ a e, h a = some e → e.prev.isSome = true

section Scroll

variable {h : Heap} {a : Addr} {idx : Int} {s s' : Cons} {l : List (Addr × Line)}

theorem load_barring (h : Heap) (a : Addr) :
    Barring .useAfterFree (h.load (some a)) fun e => h a = some e := by
  cases he : h a with
  | none => exact Or.inl (by simp [Heap.load, he])
  | some e => exact Or.inr ⟨e, load_some he, rfl⟩

/-- In a ring the head's `prev` goes round, so no node is without one. -/
theorem prevSet_of_ring {head : Ptr} (H : Ring h head l) : PrevSet h := by
  intro a e he
  obtain ⟨i, hi, hai⟩ := exists_addrAt_of_mem (H.live_iff.mp (by simp [he] : h a ≠ none))
  obtain ⟨x, -, -, hx⟩ := H.cell_at hai
  obtain rfl := Option.some.inj (he.symm.trans hx)
  cases i with
  | zero => simp only [prevAt, lastAddr_eq, addrAt_of_lt (Nat.sub_lt hi Nat.one_pos),
      Option.isSome_some]
  | succ i => simp only [prevAt, addrAt_of_lt (Nat.lt_of_succ_lt hi), Option.isSome_some]

/-- Back: the offset goes up by one a round, or stays. -/
theorem scrollBackLoop_barring (h : Heap) (cnt : Nat) : ∀ (n : Nat) (a : Addr) (idx : Int),
    Barring .useAfterFree (scrollBackLoop h cnt n (some a) idx) fun r =>
      idx ≤ r.2 ∧ r.2 ≤ idx + n
  | 0, a, idx => by
    rw [scrollBackLoop, barring_ok_iff]
    simp
  | n + 1, a, idx => by
    rw [scrollBackLoop]
    split
    · refine (load_barring h a).bind fun e _ => ?_
      cases e.next with
      | some next =>
        refine (scrollBackLoop_barring h cnt n next (idx + 1)).mono fun r hr => ?_
        push_cast
        omega
      | none =>
        rw [barring_ok_iff]
        push_cast
        omega
    · rw [barring_ok_iff]
      push_cast
      omega

/-- Forward: where every node has a `prev`, the offset goes down by one a round until it is
used up. -/
theorem scrollForwardLoop_barring (hprev : PrevSet h) : ∀ (n : Nat) (a : Addr) (idx : Int),
    0 ≤ idx → Barring .useAfterFree (scrollForwardLoop h n (some a) idx) fun r =>
      r.2 = idx - min (n : Int) idx
  | 0, a, idx, h0 => by
    rw [scrollForwardLoop, barring_ok_iff]
    simp only
    omega
  | n + 1, a, idx, h0 => by
    rw [scrollForwardLoop]
    by_cases hpos : 0 < idx
    · rw [if_pos ⟨rfl, hpos⟩]
      refine (load_barring h a).bind fun e he => ?_
      obtain ⟨b, hb⟩ := Option.isSome_iff_exists.mp (hprev a e he)
      rw [hb]
      refine (scrollForwardLoop_barring hprev n b (idx - 1) (by omega)).mono fun r hr => ?_
      push_cast
      omega
    · rw [if_neg fun hc => hpos hc.2, barring_ok_iff]
      push_cast
      omega

/-- A scroll that has a line to start from moves the view only: back by at most `n`, forward
by exactly as far as there is to go. -/
theorem scrollOutputWin_back_barring (hline : viewLine s = some a) {n : Nat} (hn : 0 < n) :
    Barring .useAfterFree (scrollOutputWin n s) fun s' =>
      MovesView s s' ∧ s.lineIdx ≤ s'.lineIdx ∧ s'.lineIdx ≤ s.lineIdx + n := by
  rw [viewLine] at hline
  simp only [scrollOutputWin, hline, Option.isSome_some, assert_true, ok_bind]
  rw [if_pos (by omega : (0 : Int) < n), Int.toNat_natCast]
  split
  · rw [barring_ok_iff]
    exact ⟨⟨_, _, rfl⟩, by omega, by omega⟩
  · refine (scrollBackLoop_barring s.heap s.histCnt n a s.lineIdx).bind fun r hr => ?_
    rw [pure_eq_ok, barring_ok_iff]
    exact ⟨⟨_, _, rfl⟩, hr⟩

theorem scrollOutputWin_forward_barring (hprev : PrevSet s.heap) (hline : viewLine s = some a)
    (h0 : 0 ≤ s.lineIdx) {n : Nat} (hn : 0 < n) :
    Barring .useAfterFree (scrollOutputWin (-(n : Int)) s) fun s' =>
      MovesView s s' ∧ s'.lineIdx = s.lineIdx - min (n : Int) s.lineIdx := by
  rw [viewLine] at hline
  simp only [scrollOutputWin, hline, Option.isSome_some, assert_true, ok_bind]
  rw [if_neg (by omega : ¬ (0 : Int) < -(n : Int)), if_pos (by omega : -(n : Int) < 0),
    Int.neg_neg, Int.toNat_natCast]
  split
  · rw [barring_ok_iff]
    exact ⟨⟨_, _, rfl⟩, by omega⟩
  · refine (scrollForwardLoop_barring hprev n a s.lineIdx h0).bind fun r hr => ?_
    rw [pure_eq_ok, barring_ok_iff]
    exact ⟨⟨_, _, rfl⟩, hr⟩

end Scroll

/-! ## 2. Drawing -/

section Draw

variable {s : Cons} {d d' : List DrawCall} {lo mid hi : Nat}

theorem RowsIn.append (h : RowsIn lo mid d) (h' : RowsIn mid hi d') (hlo : lo ≤ mid)
    (hhi : mid ≤ hi) : RowsIn lo hi (d ++ d') := by
  refine ⟨?_, ?_, ?_⟩
  · rw [List.map_append, List.pairwise_append]
    refine ⟨h.sorted, h'.sorted, ?_⟩
    intro i hi j hj
    obtain ⟨c, hc, rfl⟩ := List.mem_map.mp hi
    obtain ⟨c', hc', rfl⟩ := List.mem_map.mp hj
    exact Nat.lt_of_lt_of_le (h.inside c hc).2 (h'.inside c' hc').1
  · intro c hc
    rcases List.mem_append.mp hc with hc | hc
    · exact ⟨(h.inside c hc).1, Nat.lt_of_lt_of_le (h.inside c hc).2 hhi⟩
    · exact ⟨Nat.le_trans hlo (h'.inside c hc).1, (h'.inside c hc).2⟩
  · intro c hc
    rcases List.mem_append.mp hc with hc | hc
    · exact h.lines c hc
    · exact h'.lines c hc

theorem RowsIn.nil : RowsIn lo hi [] :=
  ⟨List.Pairwise.nil, fun _ hc => (List.not_mem_nil hc).elim, fun _ hc =>
    (List.not_mem_nil hc).elim⟩

theorem RowsIn.line (buf : LineSrc) (row : Nat) : RowsIn row (row + 1) [.line buf row] := by
  refine ⟨List.pairwise_singleton _ _, ?_, ?_⟩
  · intro c hc
    obtain rfl := List.mem_singleton.mp hc
    exact ⟨Nat.le_refl row, Nat.lt_succ_self row⟩
  · intro c hc
    obtain rfl := List.mem_singleton.mp hc
    exact ⟨buf, rfl⟩

theorem drawFbLoop_rows : ∀ (n i offset : Nat), n + offset ≤ phiFbHeight →
    Barring .useAfterFree (drawFbLoop n i offset) (RowsIn offset (offset + n))
  | 0, i, offset, _ => by
    rw [drawFbLoop, barring_ok_iff]
    exact RowsIn.nil
  | n + 1, i, offset, h => by
    have hlt : offset < phiFbHeight := by omega
    simp only [drawFbLoop, drawLineBuf, hlt, decide_true, assert_true, ok_bind, pure_eq_ok]
    refine (drawFbLoop_rows n (i + 1) (offset + 1) (by omega)).bind fun d hd => ?_
    rw [barring_ok_iff, show offset + (n + 1) = offset + 1 + n by omega]
    exact (RowsIn.line _ _).append hd (Nat.le_succ _) (Nat.le_add_right _ _)

theorem drawHistBufLoop_rows (s : Cons) : ∀ (n : Nat) (head : Ptr) (offset : Nat),
    n + offset ≤ phiFbHeight →
    Barring .useAfterFree (drawHistBufLoop s n head offset) (RowsIn offset (offset + n))
  | 0, head, offset, _ => by
    rw [drawHistBufLoop, barring_ok_iff]
    exact RowsIn.nil
  | n + 1, none, offset, _ => by
    rw [drawHistBufLoop, barring_ok_iff]
    exact RowsIn.nil
  | n + 1, some a, offset, h => by
    have hlt : offset < phiFbHeight := by omega
    rw [drawHistBufLoop]
    split
    · rw [barring_ok_iff]
      exact RowsIn.nil
    · refine (load_barring s.heap a).bind fun e _ => ?_
      simp only [drawLineBuf, hlt, decide_true, assert_true, ok_bind, pure_eq_ok]
      refine (drawHistBufLoop_rows s n e.prev (offset + 1) (by omega)).bind fun d hd => ?_
      rw [barring_ok_iff, show offset + (n + 1) = offset + 1 + n by omega]
      exact (RowsIn.line _ _).append hd (Nat.le_succ _) (Nat.le_add_right _ _)

/-- The bounds assertions of the two drawing functions hold as long as the lines fit. -/
theorem drawFb_rows {offset n : Nat} (hlt : offset < phiFbHeight) (h : n + offset ≤ phiFbHeight) :
    Barring .useAfterFree (drawFb offset n) (RowsIn offset (offset + n)) := by
  have hn : n ≤ phiFbHeight := by omega
  simp only [drawFb, hlt, h, hn, decide_true, assert_true, ok_bind]
  exact drawFbLoop_rows n 0 offset h

theorem drawHistBuf_rows (head : Ptr) {offset n : Nat} (hlt : offset < phiFbHeight)
    (h : n + offset ≤ phiFbHeight) :
    Barring .useAfterFree (drawHistBuf s head offset n) (RowsIn offset (offset + n)) := by
  have hn : n ≤ phiFbHeight := by omega
  simp only [drawHistBuf, hlt, h, hn, decide_true, assert_true, ok_bind]
  exact drawHistBufLoop_rows s n head offset h

/-- **Drawing, whatever the view.**  With an offset that is not negative no assertion fails,
and the rows drawn are distinct rows of the screen. -/
theorem drawOutputWin_rows (h0 : 0 ≤ s.lineIdx) :
    Barring .useAfterFree (drawOutputWin s) (RowsIn 0 phiFbHeight) := by
  obtain ⟨k, hk⟩ := Int.eq_ofNat_of_zero_le h0
  rw [drawOutputWin]
  split
  · exact drawFb_rows (by decide) (by decide)
  · split
    · exact drawHistBuf_rows s.winPtr (by decide) (by decide)
    · have hlt : k < phiFbHeight := by omega
      have hrest : (phiFbHeight : Int) - k = ((phiFbHeight - k : Nat) : Int) := by omega
      have hmax : phiFbHeight ≤ maxHistLines := by decide
      rw [hk, hrest, toUnsigned_natCast (by omega), toUnsigned_natCast (by omega)]
      refine (drawHistBuf_rows (s := s) s.winPtr (by decide : 0 < phiFbHeight) (by omega)).bind
        fun d hd => ?_
      refine (drawFb_rows hlt (by omega)).bind fun d' hd' => ?_
      rw [pure_eq_ok, barring_ok_iff]
      rw [Nat.zero_add] at hd
      rw [Nat.add_sub_cancel' (Nat.le_of_lt hlt)] at hd'
      exact hd.append hd' (Nat.zero_le k) (Nat.le_of_lt hlt)

end Draw

/-! ## 3. Every reachable console -/

/-- A sane console whose view is at the bottom as long as there is no line. -/
def Reached (s : Cons) : Prop := Sane s ∧ (s.histCnt = 0 → s.winPtr = none)

section Reached

variable {o : Opts} {s s' : Cons} {e : Event} {l : List (Addr × Line)}

theorem lineHist_none_iff (H : Hist s l) : s.lineHist = none ↔ s.histCnt = 0 := by
  rw [H.ring.head_none_iff, H.cnt, List.length_eq_zero_iff]

/-- A scroll starts from a line as soon as one has been saved. -/
theorem viewLine_isSome (H : Hist s l) (hne : s.histCnt ≠ 0) : ∃ a, viewLine s = some a := by
  rw [viewLine]
  split
  · exact Option.ne_none_iff_exists'.mp (mt (lineHist_none_iff H).mp hne)
  · exact Option.ne_none_iff_exists'.mp ‹_›

/-- With no line saved there is nothing to scroll from, and `assert(line)` fails. -/
theorem Reached.scroll_empty (hs : Reached s) (h0 : s.histCnt = 0) (n : Int) :
    scrollOutputWin n s = .error .assertFailed := by
  obtain ⟨⟨l, H, -⟩, hw⟩ := hs
  exact scrollOutputWin_empty ((lineHist_none_iff H).mpr h0) (hw h0) n

theorem Reached.step (hs : Reached s) (h : Step o s e s') : Reached s' := by
  refine ⟨hs.1.step h, ?_⟩
  obtain ⟨⟨l, H, hlo, hhi⟩, hw⟩ := hs
  rcases step_cases h with ⟨-, rfl⟩ | ⟨fb, -, rfl⟩ | ⟨reg, env, -, hr⟩ | ⟨k, env, -, hm⟩
  · exact hw
  · exact hw
  · intro h0
    obtain ⟨a, -, H', -⟩ := H.scrollup_of_ok hr
    rw [H'.cnt] at h0
    cases h0
  · rcases hm with ⟨n, hm⟩ | hm | rfl
    · intro h0
      rw [← H.cnt] at hhi
      obtain ⟨⟨w, i, rfl⟩, -⟩ := viewMove_bounds (Or.inl ⟨n, hm⟩) hlo hhi (H.cnt ▸ H.le)
      have hempty := scrollOutputWin_empty ((lineHist_none_iff H).mpr h0) (hw h0) n
      cases hempty.symm.trans hm
    · intro h0
      have hempty : l = [] := by
        rw [← List.length_eq_zero_iff, ← H.cnt]
        rw [scrollTop_eq H] at hm
        obtain rfl := Except.ok.inj hm
        by_cases hl : l = []
        · simpa [hl] using h0
        · simpa [hl] using h0
      rw [scrollTop_eq H, if_pos hempty, Except.ok.injEq] at hm
      subst hm
      exact hw h0
    · exact fun _ => rfl

theorem reached_of_run {fb₀ : Framebuffer} {es : List Event}
    (h : Run (Step o) (consoleInit fb₀) es s) : Reached s :=
  h.preserves (fun _ _ _ hs hst => hs.step hst)
    ⟨⟨[], consoleInit_hist fb₀, by simp [consoleInit], by simp [consoleInit]⟩, fun _ => rfl⟩

/-- Lines are only ever added to the count. -/
theorem histCnt_mono (hs : Sane s) (h : Step o s e s') : s.histCnt ≤ s'.histCnt := by
  obtain ⟨l, H, hlo, hhi⟩ := hs
  rcases step_cases h with ⟨-, rfl⟩ | ⟨fb, -, rfl⟩ | ⟨reg, env, -, hr⟩ | ⟨k, env, -, hm⟩
  · exact Nat.le_refl _
  · exact Nat.le_refl _
  · obtain ⟨a, -, H', -⟩ := H.scrollup_of_ok hr
    have hle := H.le
    rw [H.cnt, H'.cnt]
    simp only [pushed, List.length_cons, List.length_take]
    omega
  · rw [← H.cnt] at hhi
    obtain ⟨⟨w, i, rfl⟩, -⟩ := viewMove_bounds hm hlo hhi (H.cnt ▸ H.le)
    exact Nat.le_refl _

end Reached

/-! ## 4. No key aborts the console, once a line has been saved -/

section Keys

variable {s : Cons} {key : Key} {env : Env}

/-- A key that moves the view within bounds and then draws. -/
theorem viewKey_barring {move : Cons → Except Stop Cons}
    (hmove : Barring .useAfterFree (move s) fun s' => 0 ≤ s'.lineIdx) :
    Barring .useAfterFree (viewKey move s) fun _ => True := by
  refine hmove.bind fun s' h0 => ?_
  refine (drawOutputWin_rows h0).bind fun d _ => ?_
  rw [pure_eq_ok, barring_ok_iff]
  trivial

theorem Reached.scroll (hs : Reached s) (hne : s.histCnt ≠ 0) {m : Int} (hm : m ≠ 0) :
    Barring .useAfterFree (scrollOutputWin m s) fun s' => 0 ≤ s'.lineIdx := by
  obtain ⟨⟨l, H, h0, -⟩, -⟩ := hs
  obtain ⟨a, hline⟩ := viewLine_isSome H hne
  obtain ⟨n, rfl | rfl⟩ := Int.eq_nat_or_neg m
  · refine (scrollOutputWin_back_barring hline (by omega)).mono fun s' hs' => ?_
    omega
  · refine (scrollOutputWin_forward_barring (prevSet_of_ring H.ring) hline h0
      (by omega)).mono fun s' hs' => ?_
    omega

/-- A view key completes, barring a load of a node no longer live, if there is a line to
scroll from or the key does not scroll. -/
theorem Reached.press (hs : Reached s) (hkey : key.movesView = true)
    (h : s.histCnt ≠ 0 ∨ key = .g ∨ key = .shiftG) :
    Barring .useAfterFree (handleKey key env s) fun _ => True := by
  have hscroll : ∀ {m : Int}, m ≠ 0 → key ≠ .g → key ≠ .shiftG →
      Barring .useAfterFree (viewKey (scrollOutputWin m) s) fun _ => True := by
    intro m hm hg hG
    exact viewKey_barring (hs.scroll (h.resolve_right (by tauto)) hm)
  cases key with
  | up => exact hscroll (by decide) (by decide) (by decide)
  | ppage => exact hscroll (by decide) (by decide) (by decide)
  | down => exact hscroll (by decide) (by decide) (by decide)
  | npage => exact hscroll (by decide) (by decide) (by decide)
  | g =>
    refine viewKey_barring ?_
    obtain ⟨⟨l, H, h0, -⟩, -⟩ := hs
    rw [scrollTop_eq H, barring_ok_iff]
    split
    · exact h0
    · exact Int.natCast_nonneg _
  | shiftG =>
    refine viewKey_barring ?_
    rw [barring_ok_iff]
    exact Int.le_refl 0
  | o => cases hkey
  | other => cases hkey

theorem Reached.press_empty (hs : Reached s) (hkey : key.movesView = true) (h0 : s.histCnt = 0)
    (hg : key ≠ .g) (hG : key ≠ .shiftG) : handleKey key env s = .error .assertFailed := by
  cases key with
  | up => exact congrArg (· >>= _) (hs.scroll_empty h0 1)
  | ppage => exact congrArg (· >>= _) (hs.scroll_empty h0 phiFbHeight)
  | down => exact congrArg (· >>= _) (hs.scroll_empty h0 (-1))
  | npage => exact congrArg (· >>= _) (hs.scroll_empty h0 (-(phiFbHeight : Int)))
  | g => exact absurd rfl hg
  | shiftG => exact absurd rfl hG
  | o => cases hkey
  | other => cases hkey

end Keys

/-- **When a view key ends without an assertion failing.**  In every reachable console: as
soon as a line has been saved, and before that for `g` and `G` only.  Apart from that
assertion a view key can only stop at a load of a node no longer live. -/
theorem key_asserts_unless_line_saved (o : Opts) (fb₀ : Framebuffer) (es : List Event) (s : Cons)
    (h : Run (Step o) (consoleInit fb₀) es s) (key : Key) (env : Env)
    (hkey : key.movesView = true) :
    (handleKey key env s ≠ .error .assertFailed ↔
      (s.histCnt ≠ 0 ∨ key = .g ∨ key = .shiftG)) ∧
    ∀ stop, handleKey key env s = .error stop → stop = .assertFailed ∨ stop = .useAfterFree := by
  have hs := reached_of_run h
  by_cases hc : s.histCnt ≠ 0 ∨ key = .g ∨ key = .shiftG
  · have hbar : Barring _ (handleKey key env s) _ := hs.press hkey hc
    refine ⟨⟨fun _ => hc, fun _ he => ?_⟩, fun stop he => Or.inr (hbar.error_eq he)⟩
    cases hbar.error_eq he
  · simp only [ne_eq, not_or, not_not] at hc
    have habort : handleKey key env s = _ := hs.press_empty hkey hc.1 hc.2.1 hc.2.2
    refine ⟨⟨fun hne => absurd habort hne, fun hc' => ?_⟩, fun stop he => Or.inl ?_⟩
    · exact absurd hc' (by tauto)
    · exact (Except.error.inj (habort.symm.trans he)).symm

theorem key_asserts_unless_line_saved_up :
    ∃ s, Run (Step ⟨false, false⟩) (consoleInit fun _ => 0) (scrollups 1) s ∧
      (handleKey .up {} s ≠ .error .assertFailed ↔
        (s.histCnt ≠ 0 ∨ Key.up = .g ∨ Key.up = .shiftG)) ∧
      ∀ stop, handleKey .up {} s = .error stop → stop = .assertFailed ∨ stop = .useAfterFree := by
  obtain ⟨s, l, hrun, -⟩ := run_scrollups ⟨false, false⟩ (fun _ => 0) 1 (by decide)
  exact ⟨s, hrun, key_asserts_unless_line_saved _ _ _ s hrun .up {} rfl⟩

/-- `Up` on the console as it starts, before anything has scrolled off. -/
theorem up_on_empty_history_asserts :
    Run (Step ⟨false, false⟩) (consoleInit fun _ => 0) [] (consoleInit fun _ => 0) ∧
      handleKey .up {} (consoleInit fun _ => 0) = .error .assertFailed :=
  ⟨Run.refl _, rfl⟩

/-! ## 5. The counters -/

/-- A redraw draws distinct rows of the screen, no bounds assertion fails. -/
def DrawsInRange (s : Cons) : Prop :=
  Barring .useAfterFree (drawOutputWin s) (RowsIn 0 phiFbHeight)

/-- `scroll_output_win` by `n` lines back or forward ends, moves only the view, and moves the
offset by at most `n`, or by exactly as much of `n` as there is; the redraw after it is in
range. -/
structure ScrollsInRange (s : Cons) : Prop where
  back : ∀ n : Nat, 0 < n → Barring .useAfterFree (scrollOutputWin n s) fun s' =>
    MovesView s s' ∧ s.lineIdx ≤ s'.lineIdx ∧ s'.lineIdx ≤ s.lineIdx + n ∧ DrawsInRange s'
  forward : ∀ n : Nat, 0 < n → Barring .useAfterFree (scrollOutputWin (-(n : Int)) s) fun s' =>
    MovesView s s' ∧ s'.lineIdx = s.lineIdx - min (n : Int) s.lineIdx ∧ DrawsInRange s'

theorem scrollsInRange_iff {s : Cons} (hs : Reached s) : ScrollsInRange s ↔ s.histCnt ≠ 0 := by
  constructor
  · intro h h0
    have habort := h.back 1 Nat.one_pos
    rw [hs.scroll_empty h0, barring_error_iff] at habort
    cases habort
  · intro hne
    obtain ⟨⟨l, H, h0, -⟩, -⟩ := hs
    obtain ⟨a, hline⟩ := viewLine_isSome H hne
    refine ⟨fun n hn => ?_, fun n hn => ?_⟩
    · refine (scrollOutputWin_back_barring hline hn).mono fun s' ⟨hview, hlo, hhi⟩ => ?_
      exact ⟨hview, hlo, hhi, drawOutputWin_rows (Int.le_trans h0 hlo)⟩
    · refine (scrollOutputWin_forward_barring (prevSet_of_ring H.ring) hline h0 hn).mono
        fun s' ⟨hview, hidx⟩ => ?_
      exact ⟨hview, hidx, drawOutputWin_rows (by omega)⟩

/-- **The scroll counters.**  In every reachable console `0 ≤ line_idx ≤ hist_cnt ≤
MAX_HIST_LINES`, no event lowers `hist_cnt`, and a redraw draws distinct rows of the screen
without an assertion failing.  `scroll_output_win` counts right from there, for every number
of lines in either direction, exactly when a line has been saved. -/
theorem scroll_counters_in_range (o : Opts) (fb₀ : Framebuffer) (es : List Event) (s : Cons)
    (h : Run (Step o) (consoleInit fb₀) es s) :
    (0 ≤ s.lineIdx ∧ s.lineIdx ≤ s.histCnt ∧ s.histCnt ≤ maxHistLines) ∧
    (∀ e s', Step o s e s' → s.histCnt ≤ s'.histCnt) ∧
    DrawsInRange s ∧ (ScrollsInRange s ↔ s.histCnt ≠ 0) := by
  have hs := reached_of_run h
  obtain ⟨l, H, hlo, hhi⟩ := hs.1
  refine ⟨⟨hlo, by rwa [H.cnt], H.cnt ▸ H.le⟩, fun e s' => histCnt_mono hs.1,
    drawOutputWin_rows hlo, scrollsInRange_iff hs⟩

theorem scroll_counters_in_range_two_lines :
    ∃ s, Run (Step ⟨false, false⟩) (consoleInit fun _ => 0) (scrollups 2) s ∧
      (0 ≤ s.lineIdx ∧ s.lineIdx ≤ s.histCnt ∧ s.histCnt ≤ maxHistLines) ∧
      (∀ e s', Step ⟨false, false⟩ s e s' → s.histCnt ≤ s'.histCnt) ∧
      DrawsInRange s ∧ (ScrollsInRange s ↔ s.histCnt ≠ 0) := by
  obtain ⟨s, l, hrun, -⟩ := run_scrollups ⟨false, false⟩ (fun _ => 0) 2 (by decide)
  exact ⟨s, hrun, scroll_counters_in_range _ _ _ s hrun⟩

/-- On the console as it starts, scrolling forward by one line, of which there is none to go,
does not end. -/
theorem scroll_on_empty_history_asserts :
    Run (Step ⟨false, false⟩) (consoleInit fun _ => 0) [] (consoleInit fun _ => 0) ∧
      scrollOutputWin (-1) (consoleInit fun _ => 0) = .error .assertFailed ∧
      ¬ ScrollsInRange (consoleInit fun _ => 0) := by
  refine ⟨Run.refl _, rfl, fun h => ?_⟩
  rcases h.forward 1 Nat.one_pos with he | ⟨s', hs', -⟩
  · cases he
  · cases hs'

end Philix.Console
