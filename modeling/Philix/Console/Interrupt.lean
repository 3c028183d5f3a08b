/-
# An interrupt in the middle of `handle_scrollup`

Without curses, `SIGINT` dumps the console at whatever instant it arrives, and the interrupted
code goes on afterwards.  `handleScrollupStores` is `handle_scrollup` store by store: its log
has the console at every instant between two stores.  In the middle the ring is open, the
head's `prev` may be a block that has just been freed, and the new node hangs beside the list.
The dump reads none of that: it goes by `next` from the head to the last node and by `prev`
back, along a `Chain`.
-/
import Philix.Console.Reach
import Philix.Lib.Traced

namespace Philix.Console

open HalfRing Lts Loop

/-! ## 1. Store by store -/

/-- The console after a store: an instant at which a signal may arrive. -/
def instant (s : Cons) : Traced Cons Stop Cons := do
  Traced.emit s
  pure s

/-- A store to one field of the node at `p`. -/
def Cons.storeAt (s : Cons) (p : Ptr) (f : LineElm → LineElm) : Traced Cons Stop Cons := do
  instant { s with heap := ← Traced.lift (s.heap.store p f) }

/-- `new->line[i] = console.fb[i]`. -/
def copyCell (new : Addr) (i : Nat) (s : Cons) : Traced Cons Stop Cons :=
  s.storeAt (some new) fun e => { e with val := fun j => if j.val = i then s.fb i else e.val j }

/-- The stores that take the oldest line out of a full history, with the one that lets the new
node point behind it. -/
def killLast (new : Addr) (s : Cons) : Traced Cons Stop Cons := do
  let tail := (← Traced.lift (s.heap.load s.lineHist)).prev
  Traced.lift (assert tail.isSome)
  let last := (← Traced.lift (s.heap.load tail)).prev
  Traced.lift (assert last.isSome)
  let s ← s.storeAt (some new) fun e => { e with prev := last }
  let s ← s.storeAt last fun e => { e with next := none }
  instant { s with heap := s.heap.free tail, freed := s.freed ++ tail.toList }

/-- The other branch. -/
def countOne (new : Addr) (s : Cons) : Traced Cons Stop Cons := do
  let prev ← if s.lineHist.isSome then do
      pure (← Traced.lift (s.heap.load s.lineHist)).prev
    else pure (some new)
  let s ← s.storeAt (some new) fun e => { e with prev := prev }
  instant { s with histCnt := s.histCnt + 1 }

/-- The stores that link the new node, up to the one that makes it the head. -/
def linkHead (new : Addr) (s : Cons) : Traced Cons Stop Cons := do
  let s ← if s.lineHist.isSome then s.storeAt s.lineHist fun e => { e with prev := some new }
    else pure s
  s.storeAt (some new) fun e => { e with next := s.lineHist }

/-- All of `handle_scrollup` on a new block, up to the store to `line_hist`. -/
def scrollupStores (new : Addr) (s : Cons) : Traced Cons Stop Cons := do
  let s ← instant { s with heap := Function.update s.heap new (some ⟨fun _ => 0, none, none⟩) }
  let s ← Traced.forLoop (copyCell new) phiFbWidth 0 s
  let s ← if s.histCnt = maxHistLines then killLast new s else countOne new s
  linkHead new s

/-- `handle_scrollup`, store by store. -/
def handleScrollupStores (choice : Ptr) (s : Cons) : Traced Cons Stop (Int × Cons) := do
  let s ← instant s
  match Heap.malloc s.heap choice with
  | none => pure (-1, s)
  | some new => do
    let s ← scrollupStores new s
    let s ← instant { s with lineHist := some new }
    pure (0, s)

section

variable {s c : Cons} {a b : Addr} {l : List (Addr × Line)} {e : LineElm} {P : Cons → Prop}

/-! ## 2. It computes what `handle_scrollup` does -/

@[simp] theorem instant_result : (instant s).result = .ok s := rfl

@[simp] theorem storeAt_result (p : Ptr) (f : LineElm → LineElm) :
    (s.storeAt p f).result = (s.heap.store p f).map fun heap => { s with heap } := by
  rw [Cons.storeAt, Traced.bind_result]
  cases s.heap.store p f <;> rfl

/-- A store to a live node is one instant. -/
theorem storeAt_eq (he : s.heap a = some e) (f : LineElm → LineElm) :
    s.storeAt (some a) f = instant { s with heap := Function.update s.heap a (some (f e)) } := by
  have hstore : s.heap.store (some a) f = .ok (Function.update s.heap a (some (f e))) := by
    simp [Heap.store, he]
  rw [Cons.storeAt, hstore]
  rfl

theorem instant_bind {β : Type} (g : Cons → Traced Cons Stop β) :
    (instant s >>= g) = instant s >>= fun _ => g s := rfl

/-- The new node once its first `n` cells are copied. -/
def copied (s : Cons) (n : Nat) : LineElm :=
  ⟨fun j => if j.val < n then s.fb j else 0, none, none⟩

/-- The console with a node at `a` that nothing points to. -/
def Cons.withNew (s : Cons) (a : Addr) (e : LineElm) : Cons :=
  { s with heap := Function.update s.heap a (some e) }

theorem storeAt_withNew (s : Cons) (a : Addr) (e : LineElm) (f : LineElm → LineElm) :
    (s.withNew a e).storeAt (some a) f = instant (s.withNew a (f e)) := by
  have hnew : (s.withNew a e).heap a = some e := Function.update_self ..
  rw [storeAt_eq hnew]
  simp only [Cons.withNew, Function.update_idem]

theorem copyCell_eq (s : Cons) (a : Addr) (i : Nat) :
    copyCell a i (s.withNew a (copied s i)) = instant (s.withNew a (copied s (i + 1))) := by
  have hcell : ∀ j : Fin phiFbWidth,
      (if j.val = i then s.fb i else if j.val < i then s.fb j else 0) =
        if j.val < i + 1 then s.fb j else 0 := by
    intro j
    by_cases hj : j.val = i
    · rw [if_pos hj, if_pos (by omega), hj]
    · rw [if_neg hj]
      exact if_congr (by omega) rfl rfl
  rw [copyCell, storeAt_withNew]
  simp only [Cons.withNew, copied, hcell]

theorem copyLoop_result (s : Cons) (a : Addr) (n : Nat) :
    (Traced.forLoop (copyCell a) n 0 (s.withNew a (copied s 0))).result =
      .ok (s.withNew a (copied s n)) := by
  rw [Traced.forLoop_result]
  obtain ⟨s', hs', rfl⟩ := forLoop_ok (I := fun i t => t = s.withNew a (copied s i)) n 0 _ rfl
    fun i t _ _ ht => ⟨_, ht ▸ congrArg Traced.result (copyCell_eq s a i), rfl⟩
  rw [hs', Nat.zero_add]

theorem copied_all (s : Cons) : copied s phiFbWidth = ⟨fbLine s.fb 0, none, none⟩ := by
  simp only [copied, Fin.is_lt, if_true]
  congr 1
  funext j
  rw [fbLine, Nat.zero_mul, Nat.zero_add]

theorem map_bind_eq {α β γ : Type} (x : Except Stop α) (g : α → β) (f : β → Except Stop γ) :
    (x.map g >>= f) = x >>= fun v => f (g v) := by
  cases x <;> rfl

/-- **The stores make up `handle_scrollup`.** -/
theorem handleScrollupStores_result (choice : Ptr) (s : Cons) :
    (handleScrollupStores choice s).result = handleScrollup choice s := by
  rw [handleScrollupStores, Traced.bind_result, instant_result, ok_bind, handleScrollup]
  cases Heap.malloc s.heap choice with
  | none => rfl
  | some new =>
    have hcopy := copyLoop_result s new phiFbWidth
    rw [copied_all] at hcopy
    have hstart : instant (s.withNew new ⟨fun _ => 0, none, none⟩) =
        instant (s.withNew new (copied s 0)) := by simp [copied]
    rw [Cons.withNew] at hstart
    simp only [scrollupStores, hstart, Traced.bind_result, instant_result, ok_bind, hcopy]
    -- the rest is the same sequence of loads and stores, on the console and on its heap
    by_cases hfull : s.histCnt = maxHistLines
    · cases hhist : s.lineHist <;>
        simp [hfull, hhist, killLast, linkHead, Cons.withNew, map_bind_eq]
    · cases hhist : s.lineHist <;>
        simp [hfull, hhist, countOne, linkHead, Cons.withNew, map_bind_eq]

/-! ## 3. What the dump finds at an instant -/

/-- The chains a signal may find: the history as it was, the same less its oldest line, or the
one with the new line. -/
def Found (s : Cons) (choice : Ptr) (l ls : List (Addr × Line)) : Prop :=
  ls = l ∨ ls = l.take (maxHistLines - 1) ∨ ∃ a, choice = some a ∧ ls = pushed s.fb a l

/-- The console in the middle of the stores: the chain `l` as far as the signal can see, and
beside it the new node. -/
structure Between (s : Cons) (a : Addr) (l : List (Addr × Line)) (c : Cons) : Prop where
  fb : c.fb = s.fb
  lineHist : c.lineHist = s.lineHist
  chain : Chain c.heap c.lineHist l
  apart : a ∉ l.map Prod.fst
  new : ∃ e, c.heap a = some e

@[simp] theorem every_instant_iff : Traced.Every P (instant s) ↔ P s := by simp [instant]

@[simp] theorem every_instant_bind_iff {β : Type} {g : Cons → Traced Cons Stop β} :
    Traced.Every P (instant s >>= g) ↔ P s ∧ Traced.Every P (g s) := by
  rw [Traced.every_bind_ok_iff instant_result, every_instant_iff]

theorem Between.congr {c c' : Cons} (B : Between s a l c) (hfb : c'.fb = c.fb)
    (hhist : c'.lineHist = c.lineHist) (hheap : c'.heap = c.heap) : Between s a l c' := by
  refine ⟨hfb.trans B.fb, hhist.trans B.lineHist, ?_, B.apart, hheap ▸ B.new⟩
  rw [hheap, hhist]
  exact B.chain

/-- A store to a node outside it leaves a chain alone. -/
theorem chain_update {h : Heap} {p : Ptr} (H : Chain h p l) (ha : a ∉ l.map Prod.fst)
    (v : Option LineElm) : Chain (Function.update h a v) p l := by
  refine H.frame fun b hb => Function.update_of_ne ?_ _ _
  rintro rfl
  exact ha hb

/-- A node that nothing points to is beside the chain. -/
theorem between_withNew (H : Chain s.heap s.lineHist l) (ha : a ∉ l.map Prod.fst) (e : LineElm) :
    Between s a l (s.withNew a e) :=
  ⟨rfl, rfl, chain_update H ha _, ha, e, Function.update_self ..⟩

/-- A store to the new node. -/
theorem Between.storeNew (B : Between s a l c) (f : LineElm → LineElm) :
    ∃ c', c.storeAt (some a) f = instant c' ∧ Between s a l c' := by
  obtain ⟨e, he⟩ := B.new
  exact ⟨_, storeAt_eq he f, B.fb, B.lineHist, chain_update B.chain B.apart _, B.apart, f e,
    Function.update_self ..⟩

/-- A store to the head's `prev`. -/
theorem Between.storeHead (B : Between s a l c) (hb : c.lineHist = some b) (p : Ptr) :
    ∃ c', (c.storeAt (some b) fun e => { e with prev := p }) = instant c' ∧
      Between s a l c' := by
  have hhead : addrAt l 0 = some b := B.chain.head_eq ▸ hb
  have hab : a ≠ b := by
    rintro rfl
    exact B.apart (mem_of_addrAt hhead)
  obtain ⟨n, hn⟩ := B.chain.head_live hb
  obtain ⟨e, he⟩ := B.new
  refine ⟨_, storeAt_eq hn _, B.fb, B.lineHist, B.chain.congr ?_ ?_, B.apart, e, ?_⟩
  · intro d _ hd
    refine Function.update_of_ne ?_ _ _
    rintro rfl
    exact hd hb
  · intro d n' hd hn'
    obtain rfl : b = d := Option.some.inj (hb.symm.trans hd)
    obtain rfl := Option.some.inj (hn.symm.trans hn')
    exact ⟨p, Function.update_self ..⟩
  · exact (Function.update_of_ne hab _ _).trans he

theorem Between.every_linkHead (B : Between s a l c) (hP : ∀ c', Between s a l c' → P c') :
    Traced.Every P (linkHead a c) := by
  have hnew : ∀ c', Between s a l c' →
      Traced.Every P (c'.storeAt (some a) fun e => { e with next := c'.lineHist }) := by
    intro c' B'
    obtain ⟨c'', hc'', B''⟩ := B'.storeNew fun e => { e with next := c'.lineHist }
    rw [hc'', every_instant_iff]
    exact hP c'' B''
  cases hhist : c.lineHist with
  | none =>
    simp only [linkHead, hhist, Option.isSome_none, Bool.false_eq_true, if_false]
    exact hnew c B
  | some b =>
    obtain ⟨c', hc', B'⟩ := B.storeHead hhist (some a)
    simp only [linkHead, hhist, Option.isSome_some, if_true, hc', every_instant_bind_iff]
    exact ⟨hP c' B', hnew c' B'⟩

/-- The instants of the branch that takes no line out. -/
theorem countOne_eq (H : Ring s.heap s.lineHist l) (ha : a ∉ l.map Prod.fst) (e : LineElm) :
    ∃ c₁ c₂, countOne a (s.withNew a e) = (do let _ ← instant c₁; instant c₂) ∧
      Between s a l c₁ ∧ Between s a l c₂ := by
  have hnew : ∀ p, ∃ c₁ c₂,
      (do
        let t ← (s.withNew a e).storeAt (some a) fun e => { e with prev := p }
        instant { t with histCnt := t.histCnt + 1 }) = (do let _ ← instant c₁; instant c₂) ∧
      Between s a l c₁ ∧ Between s a l c₂ := by
    intro p
    obtain ⟨c₁, hc₁, B₁⟩ := (between_withNew H.chain ha e).storeNew fun e => { e with prev := p }
    refine ⟨c₁, { c₁ with histCnt := c₁.histCnt + 1 }, by rw [hc₁]; rfl, B₁, ?_⟩
    exact B₁.congr rfl rfl rfl
  cases hhist : s.lineHist with
  | none =>
    obtain ⟨c₁, c₂, hc, B₁, B₂⟩ := hnew (some a)
    refine ⟨c₁, c₂, ?_, B₁, B₂⟩
    rw [← hc, countOne]
    simp only [Cons.withNew, hhist, Option.isSome_none, Bool.false_eq_true, if_false]
    rfl
  | some b =>
    obtain ⟨n, hn⟩ := (between_withNew H.chain ha e).chain.head_live hhist
    obtain ⟨c₁, c₂, hc, B₁, B₂⟩ := hnew n.prev
    refine ⟨c₁, c₂, ?_, B₁, B₂⟩
    have hload : (s.withNew a e).heap.load (some b) = .ok n := load_some hn
    have hhist' : (s.withNew a e).lineHist = some b := hhist
    rw [← hc, countOne]
    simp only [hhist', Option.isSome_some, if_true, hload]
    rfl

/-- The store that takes the last node off the chain, and the `free` of its block. -/
theorem Between.cutLast {l' : List (Addr × Line)} {x y : Addr × Line}
    (B : Between s a (l' ++ [y] ++ [x]) c) :
    ∃ c₂, (c.storeAt (some y.1) fun e => { e with next := none }) = instant c₂ ∧
      Between s a (l' ++ [y]) c₂ ∧
      ∀ freed, Between s a (l' ++ [y]) { c₂ with heap := c₂.heap.free (some x.1), freed } := by
  have hnd := B.chain.nodup
  have hapart := B.apart
  rw [List.map_append, List.nodup_append'] at hnd
  rw [List.map_append, List.mem_append, not_or] at hapart
  have hx : x.1 ∉ (l' ++ [y]).map Prod.fst := fun hmem => hnd.2.2 hmem (by simp)
  have hax : a ≠ x.1 := fun h => hapart.2 (by simp [h])
  have hay : a ≠ y.1 := fun h => hapart.1 (by simp [h])
  obtain ⟨n, hn⟩ : ∃ n, c.heap y.1 = some n := by
    obtain ⟨p, hcell⟩ := B.chain.cell l'.length (by simp)
    exact ⟨_, by simpa using hcell⟩
  obtain ⟨e, he⟩ := B.new
  have hcut : Chain (Function.update c.heap y.1 (some { n with next := none })) c.lineHist
      (l' ++ [y]) := by
    refine B.chain.cut (by simp) ?_ ?_
    · intro b n' hb hn'
      obtain rfl : y.1 = b := by simpa only [lastAddr_concat, Option.some.injEq] using hb
      obtain rfl := Option.some.inj (hn.symm.trans hn')
      exact Function.update_self ..
    · intro b _ hb
      refine Function.update_of_ne ?_ _ _
      rintro rfl
      exact hb (lastAddr_concat l' y)
  have hnew : Function.update c.heap y.1 (some { n with next := none }) a = some e :=
    (Function.update_of_ne hay _ _).trans he
  refine ⟨_, storeAt_eq hn _, ⟨B.fb, B.lineHist, hcut, hapart.1, e, hnew⟩, fun freed => ?_⟩
  exact ⟨B.fb, B.lineHist, chain_update hcut hx _, hapart.1, e,
    (Function.update_of_ne hax _ _).trans hnew⟩

/-- The instants of the branch that takes the oldest line out. -/
theorem killLast_eq {m : List (Addr × Line)} {x y z : Addr × Line}
    (H : Ring s.heap s.lineHist (z :: m ++ [y] ++ [x]))
    (ha : a ∉ (z :: m ++ [y] ++ [x]).map Prod.fst) (e : LineElm) :
    ∃ c₁ c₂ c₃, killLast a (s.withNew a e) =
        (do let _ ← instant c₁; let _ ← instant c₂; instant c₃) ∧
      Between s a (z :: m ++ [y] ++ [x]) c₁ ∧ Between s a (z :: m ++ [y]) c₂ ∧
      Between s a (z :: m ++ [y]) c₃ := by
  have hother : ∀ b n, s.heap b = some n → b ∈ (z :: m ++ [y] ++ [x]).map Prod.fst →
      (s.withNew a e).heap.load (some b) = .ok n := by
    intro b n hb hmem
    refine load_some ((Function.update_of_ne ?_ _ _).trans hb)
    rintro rfl
    exact ha hmem
  -- the loads: the head, whose `prev` is the tail, and the tail, whose `prev` is the one before
  obtain ⟨z', -, -, hz⟩ := H.cell_at (i := 0) (a := z.1) rfl
  obtain ⟨x', -, -, hx⟩ := H.cell_at (i := m.length + 2) (a := x.1) (by simp [addrAt])
  have hpz : prevAt (z :: m ++ [y] ++ [x]) (lastAddr (z :: m ++ [y] ++ [x])) 0 = some x.1 := by
    simp only [prevAt, lastAddr_concat]
  have hpx : prevAt (z :: m ++ [y] ++ [x]) (lastAddr (z :: m ++ [y] ++ [x])) (m.length + 2)
      = some y.1 := by simp [prevAt, addrAt]
  rw [hpz] at hz
  rw [hpx] at hx
  have hlz := hother _ _ hz (by simp)
  have hlx := hother _ _ hx (by simp)
  have hhist : (s.withNew a e).lineHist = some z.1 := by
    rw [Cons.withNew, H.head_eq]
    rfl
  obtain ⟨c₁, hc₁, B₁⟩ :=
    (between_withNew H.chain ha e).storeNew fun e => { e with prev := some y.1 }
  obtain ⟨c₂, hc₂, B₂, B₃⟩ := B₁.cutLast
  refine ⟨c₁, c₂, _, ?_, B₁, B₂, B₃ (c₂.freed ++ [x.1])⟩
  rw [killLast, hhist, hlz]
  show (do
    let last := (← Traced.lift ((s.withNew a e).heap.load (some x.1))).prev
    Traced.lift (assert last.isSome)
    let s ← (s.withNew a e).storeAt (some a) fun e => { e with prev := last }
    let s ← s.storeAt last fun e => { e with next := none }
    instant { s with heap := s.heap.free (some x.1), freed := s.freed ++ [x.1] }) = _
  rw [hlx]
  show (do
    let s ← (s.withNew a e).storeAt (some a) fun e => { e with prev := some y.1 }
    let s ← s.storeAt (some y.1) fun e => { e with next := none }
    instant { s with heap := s.heap.free (some x.1), freed := s.freed ++ [x.1] }) = _
  rw [hc₁, instant_bind, hc₂]
  rfl

/-! ## 4. Every instant -/

/-- What a signal may find. -/
def Seen (s : Cons) (choice : Ptr) (l : List (Addr × Line)) (c : Cons) : Prop :=
  c.fb = s.fb ∧ ∃ ls, Found s choice l ls ∧ Chain c.heap c.lineHist ls

theorem Between.seen {ls : List (Addr × Line)} (B : Between s a ls c) {choice : Ptr}
    (hls : ls = l ∨ ls = l.take (maxHistLines - 1)) : Seen s choice l c :=
  ⟨B.fb, ls, hls.imp_right Or.inl, B.chain⟩

/-- The copy of the row goes on beside the chain. -/
theorem every_copyLoop (H : Chain s.heap s.lineHist l) (ha : a ∉ l.map Prod.fst)
    (hP : ∀ c, Between s a l c → P c) (n : Nat) :
    Traced.Every P (Traced.forLoop (copyCell a) n 0 (s.withNew a (copied s 0))) := by
  rw [Traced.every_forLoop_iff]
  intro k _ s' hs'
  rw [← Traced.forLoop_result, copyLoop_result] at hs'
  obtain rfl := Except.ok.inj hs'
  rw [Nat.zero_add, copyCell_eq, every_instant_iff]
  exact hP _ (between_withNew H ha _)

/-- **Before the new line is the head**, the history is as it was, or lacks its oldest line. -/
theorem Hist.every_scrollupStores (H : Hist s l) (hfree : s.heap a = none)
    (hP : ∀ ls c, ls = l ∨ ls = l.take (maxHistLines - 1) → Between s a ls c → P c) :
    Traced.Every P (scrollupStores a s) := by
  have ha : a ∉ l.map Prod.fst := fun hmem => H.ring.live_iff.mpr hmem hfree
  have hstart : ({ s with heap := Function.update s.heap a (some ⟨fun _ => 0, none, none⟩) }) =
      s.withNew a (copied s 0) := by simp [Cons.withNew, copied]
  have hbeside : ∀ e, P (s.withNew a e) := fun e =>
    hP l _ (Or.inl rfl) (between_withNew H.ring.chain ha e)
  have hcopy := every_copyLoop H.ring.chain ha (fun c => hP l c (Or.inl rfl)) phiFbWidth
  rw [scrollupStores, hstart, every_instant_bind_iff,
    Traced.every_bind_ok_iff (copyLoop_result s a phiFbWidth)]
  refine ⟨hbeside _, hcopy, ?_⟩
  rcases Nat.lt_or_ge l.length maxHistLines with hlt | hge
  · have hcnt : (s.withNew a (copied s phiFbWidth)).histCnt ≠ maxHistLines := by
      have := H.cnt
      simp only [Cons.withNew]
      omega
    obtain ⟨c₁, c₂, hc, B₁, B₂⟩ := countOne_eq H.ring ha (copied s phiFbWidth)
    have hend : (countOne a (s.withNew a (copied s phiFbWidth))).result = .ok c₂ := by
      rw [hc]
      rfl
    rw [if_neg hcnt, Traced.every_bind_ok_iff hend, hc, every_instant_bind_iff,
      every_instant_iff]
    exact ⟨⟨hP l c₁ (Or.inl rfl) B₁, hP l c₂ (Or.inl rfl) B₂⟩,
      B₂.every_linkHead fun c => hP l c (Or.inl rfl)⟩
  · have hlen : l.length = maxHistLines := Nat.le_antisymm H.le hge
    have hcnt : (s.withNew a (copied s phiFbWidth)).histCnt = maxHistLines := H.cnt.trans hlen
    obtain ⟨m, y, x, z, rfl, htake⟩ := exists_ends_of_full hlen
    obtain ⟨c₁, c₂, c₃, hc, B₁, B₂, B₃⟩ := killLast_eq H.ring ha (copied s phiFbWidth)
    have hend : (killLast a (s.withNew a (copied s phiFbWidth))).result = .ok c₃ := by
      rw [hc]
      rfl
    rw [if_pos hcnt, Traced.every_bind_ok_iff hend, hc, every_instant_bind_iff,
      every_instant_bind_iff, every_instant_iff]
    have hshort : ∀ c, Between s a (z :: m ++ [y]) c → P c := fun c => hP _ c (Or.inr htake.symm)
    exact ⟨⟨hP _ c₁ (Or.inl rfl) B₁, hshort c₂ B₂, hshort c₃ B₃⟩, B₃.every_linkHead hshort⟩

/-- **Every instant of `handle_scrollup`** on a console with the history `l`. -/
theorem Hist.every_handleScrollupStores (H : Hist s l) (choice : Ptr) :
    Traced.Every (Seen s choice l) (handleScrollupStores choice s) := by
  have hstart : Seen s choice l s := ⟨rfl, l, Or.inl rfl, H.ring.chain⟩
  have hresult := handleScrollupStores_result choice s
  rw [handleScrollupStores, every_instant_bind_iff]
  refine ⟨hstart, ?_⟩
  rcases handleScrollup_spec H choice with ⟨hnone, -⟩ | ⟨a, s', rfl, hfree, hok, H', -, hfb, -⟩
  · rw [hnone]
    exact Traced.every_pure _
  · have hsome : Heap.malloc s.heap (some a) = some a := malloc_eq_some_iff.mpr ⟨rfl, hfree⟩
    rw [handleScrollupStores, Traced.bind_result, instant_result, ok_bind, hsome, hok] at hresult
    rw [hsome, Traced.every_bind_iff]
    refine ⟨H.every_scrollupStores hfree fun ls c hls B => B.seen hls, fun c hc => ?_⟩
    rw [every_instant_bind_iff]
    refine ⟨?_, Traced.every_pure _⟩
    -- the last store gives the console `handle_scrollup` ends with
    have hlast : ({ c with lineHist := some a } : Cons) = s' := by
      rw [Traced.bind_result, hc] at hresult
      exact (Prod.mk.inj (Except.ok.inj hresult)).2
    rw [hlast]
    exact ⟨hfb, _, Or.inr (Or.inr ⟨a, rfl, rfl⟩), H'.ring.chain⟩

end

/-- **The dump at any instant.**  Without curses, after any run of the main loop, at every
instant of a `handle_scrollup`: the dump goes along a history that is the one before, or that
one less its oldest line, or the one after.  It faults exactly where that history is empty,
and never follows a pointer to a freed block; otherwise it writes every line of it but the
newest, and the framebuffer. -/
theorem interrupted_dump (dumponexit : Bool) (fb₀ : Framebuffer) (es : List Event) (s : Cons)
    (h : Run (Step ⟨true, dumponexit⟩) (consoleInit fb₀) es s) (choice : Ptr) :
    (handleScrollupStores choice s).result = handleScrollup choice s ∧
    ∃ l, Path s.heap s.lineHist l ∧ l.length = s.histCnt ∧
      ∀ c ∈ (handleScrollupStores choice s).log, ∃ ls, Found s choice l ls ∧
        ∀ fuel, maxHistLines < fuel → dumpConsoleToFile true fuel c =
          if ls = [] then .error .nullDeref
          else .ok (fileOf (ls.tail.reverse.map Prod.snd) s) := by
  obtain ⟨l, H, -, -⟩ := sane_of_run h
  refine ⟨handleScrollupStores_result choice s, l, H.ring.path, H.cnt.symm, fun c hc => ?_⟩
  obtain ⟨hfb, ls, hls, hchain⟩ := H.every_handleScrollupStores choice c hc
  refine ⟨ls, hls, fun fuel hfuel => ?_⟩
  have hlen : ls.length ≤ maxHistLines := by
    have hle := H.le
    rcases hls with rfl | rfl | ⟨a, -, rfl⟩
    · exact hle
    · rw [List.length_take]
      omega
    · simp only [pushed, List.length_cons, List.length_take, maxHistLines]
      omega
  have hfile : fileOf (ls.tail.reverse.map Prod.snd) c =
      fileOf (ls.tail.reverse.map Prod.snd) s := by
    simp only [fileOf, outputFbToFile, hfb]
  rw [dumpConsoleToFile_of_chain hchain (by omega), hfile]

/-- On the console of one saved line. -/
theorem interrupted_dump_one_line :
    ∃ s, Run (Step ⟨true, false⟩) (consoleInit fun _ => 0)
        [.update .scrollup 0 { malloc := some 1 }] s ∧
      (handleScrollupStores (some 2) s).result = handleScrollup (some 2) s ∧
      ∃ l, Path s.heap s.lineHist l ∧ l.length = s.histCnt ∧
        ∀ c ∈ (handleScrollupStores (some 2) s).log, ∃ ls, Found s (some 2) l ls ∧
          ∀ fuel, maxHistLines < fuel → dumpConsoleToFile true fuel c =
            if ls = [] then .error .nullDeref
            else .ok (fileOf (ls.tail.reverse.map Prod.snd) s) := by
  obtain ⟨s, hstep, -⟩ := (consoleInit_hist fun _ => 0).step_scrollup ⟨true, false⟩ (a := 1) rfl
  have hrun := Run.cons hstep (Run.refl s)
  exact ⟨s, hrun, interrupted_dump false (fun _ => 0) _ s hrun (some 2)⟩

end Philix.Console
