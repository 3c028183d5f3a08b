/-
# Saving a line: `handle_scrollup`

The update a card sends before it scrolls.  `handle_scrollup` takes a node from the allocator,
copies the first row of the framebuffer into it and makes it the head of the history; on a
full history the oldest line, which the head's `prev` points to, goes first.

On a console whose history is the list `l` it fails exactly when the allocator does, and then
changes nothing; otherwise the new history is `pushed`, no assertion fails, and no pointer is
bad.  The two cases, a list that grows and a full one, are proved apart, since they write
different nodes.
-/
import Philix.Console.State

namespace Philix.Console

open HalfRing Loop

/-- `handle_scrollup`: its return value and the console after it.  `choice` is what the
allocator would hand out. -/
def handleScrollup (choice : Ptr) (s : Cons) : Except Stop (Int × Cons) :=
  match Heap.malloc s.heap choice with
  | none => .ok (-1, s)
  | some new => do
    -- `memset`, then the copy of the first framebuffer row
    let heap : Heap := Function.update s.heap new (some ⟨fbLine s.fb 0, none, none⟩)
    let (heap, histCnt, freed) ←
      if s.histCnt = maxHistLines then do
        let tail := (← heap.load s.lineHist).prev
        assert tail.isSome
        let last := (← heap.load tail).prev
        assert last.isSome
        let heap ← heap.store (some new) fun e => { e with prev := last }
        let heap ← heap.store last fun e => { e with next := none }
        pure (heap.free tail, s.histCnt, s.freed ++ tail.toList)
      else do
        let prev ← if s.lineHist.isSome then
            pure (← heap.load s.lineHist).prev
          else pure (some new)
        let heap ← heap.store (some new) fun e => { e with prev := prev }
        pure (heap, s.histCnt + 1, s.freed)
    let heap ← if s.lineHist.isSome then
        heap.store s.lineHist fun e => { e with prev := some new }
      else pure heap
    let heap ← heap.store (some new) fun e => { e with next := s.lineHist }
    pure (0, { s with heap, lineHist := some new, histCnt, freed })

/-- The history list of a console: what its heap holds, newest line first. -/
structure Hist (s : Cons) (l : List (Addr × Line)) : Prop where
  ring : Ring s.heap s.lineHist l
  cnt : s.histCnt = l.length
  le : l.length ≤ maxHistLines

theorem handleScrollup_grow {s : Cons} {l : List (Addr × Line)} {choice : Ptr} {a : Addr}
    (H : Hist s l) (hlt : l.length < maxHistLines) (ha : Heap.malloc s.heap choice = some a) :
    ∃ s', handleScrollup choice s = .ok (0, s') ∧
      Ring s'.heap s'.lineHist ((a, fbLine s.fb 0) :: l) ∧ s'.histCnt = l.length + 1 ∧
      s'.freed = s.freed ∧ s'.fb = s.fb ∧ s'.winPtr = s.winPtr ∧ s'.lineIdx = s.lineIdx := by
  have hfree : s.heap a = none := (malloc_eq_some_iff.mp ha).2
  have hne : s.histCnt ≠ maxHistLines := by rw [H.cnt]; omega
  cases hl : l with
  | nil =>
    have hh : s.lineHist = none := by rw [H.ring.head_eq, hl]; rfl
    simp only [handleScrollup, ha, hne, hh, if_false, Option.isSome_none, Bool.false_eq_true,
      pure_eq_ok, ok_bind, Heap.store, Function.update_self]
    refine ⟨_, rfl, ?_, by simp [H.cnt, hl], rfl, rfl, rfl, rfl⟩
    refine Linked.push (h := s.heap) (p := none) (hl ▸ hh ▸ H.ring) hfree ?_ ?_ ?_
    · simp [lastAddr]
    · intro b c hb
      cases hb
    · intro b hb _
      simp [Function.update_of_ne hb]
  | cons y l' =>
    have hh : s.lineHist = some y.1 := by rw [H.ring.head_eq, hl]; rfl
    obtain ⟨x, hx, -, hy⟩ := H.ring.cell_at (hl ▸ rfl : addrAt l 0 = some y.1)
    have hya : y.1 ≠ a := by rintro rfl; simp [hfree] at hy
    have hay : a ≠ y.1 := hya.symm
    simp only [handleScrollup, ha, hne, hh, if_false, if_true, Option.isSome_some, pure_eq_ok,
      ok_bind, Heap.store, Heap.load, Function.update_self, ne_eq, hya, hay, not_false_eq_true,
      Function.update_of_ne, hy, Function.update_idem]
    refine ⟨_, rfl, ?_, by simp [H.cnt, hl], rfl, rfl, rfl, rfl⟩
    refine Linked.push (h := s.heap) (p := some y.1) (hl ▸ hh ▸ H.ring) hfree ?_ ?_ ?_
    · simp [prevAt, hl]
    · rintro b c ⟨⟩ hc
      obtain rfl := Option.some.inj (hy.symm.trans hc)
      simp [Function.update_of_ne hya]
    · intro b hba hby
      have hby' : b ≠ y.1 := fun e => hby (e ▸ rfl)
      simp [Function.update_of_ne, hba, hby']

theorem handleScrollup_evict {s : Cons} {m : List (Addr × Line)} {choice : Ptr} {a : Addr}
    {x y z : Addr × Line} (H : Hist s (z :: m ++ [y] ++ [x]))
    (hlen : m.length + 3 = maxHistLines) (ha : Heap.malloc s.heap choice = some a) :
    ∃ s', handleScrollup choice s = .ok (0, s') ∧
      Ring s'.heap s'.lineHist ((a, fbLine s.fb 0) :: (z :: m ++ [y])) ∧
      s'.histCnt = maxHistLines ∧ s'.freed = s.freed ++ [x.1] ∧ s'.fb = s.fb ∧
      s'.winPtr = s.winPtr ∧ s'.lineIdx = s.lineIdx := by
  have hfree : s.heap a = none := (malloc_eq_some_iff.mp ha).2
  have heq : s.histCnt = maxHistLines := by rw [H.cnt, ← hlen]; simp
  have hh : s.lineHist = some z.1 := by rw [H.ring.head_eq]; rfl
  -- the three nodes the eviction touches: the head, the tail and the one before the tail
  obtain ⟨z', -, -, hz⟩ := H.ring.cell_at (i := 0) (a := z.1) rfl
  obtain ⟨x', -, -, hx⟩ := H.ring.cell_at (i := m.length + 2) (a := x.1) (by simp [addrAt])
  obtain ⟨ny, hy⟩ : ∃ ny, s.heap y.1 = some ny :=
    Option.ne_none_iff_exists'.mp (H.ring.live_iff.mpr (by simp))
  have hpz : prevAt (z :: m ++ [y] ++ [x]) (lastAddr (z :: m ++ [y] ++ [x])) 0 = some x.1 := by
    simp only [prevAt, lastAddr_concat]
  have hpx : prevAt (z :: m ++ [y] ++ [x]) (lastAddr (z :: m ++ [y] ++ [x])) (m.length + 2)
      = some y.1 := by simp [prevAt, addrAt]
  rw [hpz] at hz
  rw [hpx] at hx
  have hnd := H.ring.nodup
  simp only [List.cons_append, List.map_cons, List.map_append, List.map_nil, List.nodup_cons,
    List.mem_append, List.mem_singleton, List.append_assoc, List.nodup_append'] at hnd
  have hzx : z.1 ≠ x.1 := fun e => by simp [e] at hnd
  have hzy : z.1 ≠ y.1 := fun e => by simp [e] at hnd
  have hyx : y.1 ≠ x.1 := fun e => by simp [e] at hnd
  have hxa : x.1 ≠ a := by rintro rfl; simp [hfree] at hx
  have hya : y.1 ≠ a := by rintro rfl; simp [hfree] at hy
  have hza : z.1 ≠ a := by rintro rfl; simp [hfree] at hz
  simp only [handleScrollup, ha, heq, hh, if_true, Option.isSome_some, pure_eq_ok, ok_bind,
    Heap.store, Heap.load, Heap.free, Function.update_self, ne_eq, hxa, hxa.symm, hya, hya.symm,
    hza, hza.symm, hzx, hzy, not_false_eq_true, Function.update_of_ne, hx, hy, hz, assert_true]
  refine ⟨_, rfl, ?_, rfl, rfl, rfl, rfl, rfl⟩
  -- first the tail goes, which leaves the head's `prev` stale; then the new head is linked
  have hopen : Linked
      (Function.update (Function.update s.heap y.1 (some { ny with next := none })) x.1 none)
      (some z.1) (z :: m ++ [y]) (some x.1) := by
    have H' := H.ring
    rw [HalfRing.Ring, lastAddr_concat, hh] at H'
    refine H'.dropLast (by simp) (by simp) ?_ ?_
    · intro b c hb hc
      obtain rfl : y.1 = b := by simpa only [lastAddr_concat, Option.some.injEq] using hb
      obtain rfl := Option.some.inj (hy.symm.trans hc)
      simp [Function.update_of_ne hyx]
    · intro b hbx hby
      have hby' : b ≠ y.1 := fun e => hby (by rw [lastAddr_concat, e])
      simp [Function.update_of_ne, hbx, hby']
  rw [HalfRing.Ring, ← List.cons_append, lastAddr_concat]
  refine hopen.push ?_ ?_ ?_ ?_
  · simp [Function.update_of_ne, hxa.symm, hya.symm, hfree]
  · simp
  · rintro b c ⟨⟩ hc
    rw [Function.update_of_ne hzx, Function.update_of_ne hzy, hz, Option.some.injEq] at hc
    subst hc
    simp [Function.update_of_ne hza]
  · intro b hba hbz
    have hbz' : b ≠ z.1 := fun e => hbz (e ▸ rfl)
    by_cases hbx : b = x.1
    · subst hbx
      simp [Function.update_of_ne, hba, hbz']
    by_cases hby : b = y.1
    · subst hby
      simp [Function.update_of_ne, hba, hbz', hyx]
    · simp [Function.update_of_ne, hba, hbz', hbx, hby]

/-- What a line saved at the address `a` makes of the list: the new line in front, at most
`maxHistLines` of them. -/
def pushed (fb : Framebuffer) (a : Addr) (l : List (Addr × Line)) : List (Addr × Line) :=
  (a, fbLine fb 0) :: l.take (maxHistLines - 1)

/-- A full list has a head, a last line and one before it. -/
theorem exists_ends_of_full {l : List (Addr × Line)} (hlen : l.length = maxHistLines) :
    ∃ m y x z, l = z :: m ++ [y] ++ [x] ∧ l.take (maxHistLines - 1) = z :: m ++ [y] := by
  obtain ⟨l₁, x, rfl⟩ : ∃ l₁ x, l = l₁ ++ [x] :=
    (List.eq_nil_or_concat' l).resolve_left (by rintro rfl; simp [maxHistLines] at hlen)
  obtain ⟨l₂, y, rfl⟩ : ∃ l₂ y, l₁ = l₂ ++ [y] :=
    (List.eq_nil_or_concat' l₁).resolve_left (by rintro rfl; simp [maxHistLines] at hlen)
  cases l₂ with
  | nil => simp [maxHistLines] at hlen
  | cons z m =>
    have hl : (z :: m ++ [y]).length = maxHistLines - 1 := by
      simp only [List.length_append, List.length_singleton] at hlen
      simp only [List.length_append, List.length_singleton]
      omega
    exact ⟨m, y, x, z, rfl, by rw [← hl, List.take_left]⟩

/-- **`handle_scrollup` on a console with the history `l`.**  It fails exactly when the
allocator does, and then changes nothing.  Otherwise the first row goes in front, the
oldest line goes out when the list is full, and the view and the framebuffer stay. -/
theorem handleScrollup_spec {s : Cons} {l : List (Addr × Line)} (H : Hist s l) (choice : Ptr) :
    (Heap.malloc s.heap choice = none ∧ handleScrollup choice s = .ok (-1, s)) ∨
    ∃ a s', choice = some a ∧ s.heap a = none ∧ handleScrollup choice s = .ok (0, s') ∧
      Hist s' (pushed s.fb a l) ∧
      s'.freed = s.freed ++ (l.drop (maxHistLines - 1)).map Prod.fst ∧
      s'.fb = s.fb ∧ s'.winPtr = s.winPtr ∧ s'.lineIdx = s.lineIdx := by
  cases ha : Heap.malloc s.heap choice with
  | none => exact Or.inl ⟨rfl, by simp [handleScrollup, ha]⟩
  | some a =>
    refine Or.inr ⟨a, ?_⟩
    obtain ⟨hc, hfree⟩ := malloc_eq_some_iff.mp ha
    rcases Nat.lt_or_ge l.length maxHistLines with hlt | hge
    · obtain ⟨s', hs', hring, hcnt, hf, hframe⟩ := handleScrollup_grow H hlt ha
      have htake : l.take (maxHistLines - 1) = l := List.take_of_length_le (by omega)
      have hdrop : l.drop (maxHistLines - 1) = [] := List.drop_eq_nil_of_le (by omega)
      refine ⟨s', hc, hfree, hs', ⟨?_, ?_, ?_⟩, by simp [hf, hdrop], hframe⟩
      · rwa [pushed, htake]
      · simp [pushed, htake, hcnt]
      · simpa [pushed, htake] using Nat.succ_le_of_lt hlt
    · have hlen : l.length = maxHistLines := Nat.le_antisymm H.le hge
      obtain ⟨m, y, x, z, rfl, htake⟩ := exists_ends_of_full hlen
      have hm : m.length + 3 = maxHistLines := by simpa using hlen
      obtain ⟨s', hs', hring, hcnt, hf, hframe⟩ := handleScrollup_evict H hm ha
      have hl : (z :: m ++ [y]).length = maxHistLines - 1 := by simp; omega
      have hdrop : (z :: m ++ [y] ++ [x]).drop (maxHistLines - 1) = [x] := by
        rw [← hl, List.drop_left]
      refine ⟨s', hc, hfree, hs', ⟨?_, ?_, ?_⟩, by rw [hf, hdrop]; rfl, hframe⟩
      · rwa [pushed, htake]
      · simp only [pushed, htake, hcnt, List.length_cons, hl]
        omega
      · simp only [pushed, htake, List.length_cons, hl]
        omega

end Philix.Console
