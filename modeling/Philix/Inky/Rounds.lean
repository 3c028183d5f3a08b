/-
# The rounds of the loop over the program headers

What the loop has when it gets to a header, in terms of the memory it started with: the replies
of the allocator to the headers before (`allocAt`, `destAt`), the memory after them (`memAt`), and
the results for thread-local storage (`tlsAt`).  `Tracks` is the invariant.  It holds as long as no
round writes what is still to be read (`tracks_of_reached`), and then the loop gets to a header
exactly when all the ones before it let it pass (`reached_of_passes`).
-/
import Philix.Inky.Contents

namespace Philix.Inky.Rounds

open ByteMem Loop Lts

section Definitions

variable {ε σ : Type} (alloc : Allocator ε σ) (state : σ) (m₀ : Mem) (base : Nat) (t : Tables)

/-- The allocator is asked for the segment of header `i`. -/
def request (i : Nat) (a : σ) : Except ε (Nat × σ) :=
  alloc a (pVaddr m₀ (phdr m₀ base i)) (pMemsz m₀ (phdr m₀ base i)) (pFlags m₀ (phdr m₀ base i))

/-- The state of the allocator when the loop gets to header `i`. -/
def allocAt : Nat → σ
  | 0 => state
  | i + 1 =>
    if pType m₀ (phdr m₀ base i) = ptLoad then
      match request alloc m₀ base i (allocAt i) with
      | .ok (_, a) => a
      | .error _ => allocAt i
    else allocAt i

/-- The allocator returns `d` for the segment of header `i`. -/
def Replies (i d : Nat) : Prop :=
  pType m₀ (phdr m₀ base i) = ptLoad ∧
    ∃ a, request alloc m₀ base i (allocAt alloc state m₀ base i) = .ok (d, a)

/-- Where the segment of header `i` goes; `0` when it has no place. -/
def destAt (i : Nat) : Nat :=
  match request alloc m₀ base i (allocAt alloc state m₀ base i) with
  | .ok (d, _) => d
  | .error _ => 0

/-- The results for thread-local storage when the loop gets to header `i`. -/
def tlsAt : Nat → Nat × Nat × Nat
  | 0 => (0, 0, 0)
  | i + 1 =>
    if pType m₀ (phdr m₀ base i) = ptTls then
      (pVaddr m₀ (phdr m₀ base i), pFilesz m₀ (phdr m₀ base i), pMemsz m₀ (phdr m₀ base i))
    else tlsAt i

/-- The loop gets past header `i`, if it gets to it. -/
def Passes (i : Nat) : Prop :=
  (pType m₀ (phdr m₀ base i) = ptLoad → destAt alloc state m₀ base i ≠ 0 ∧
    PlaceOk m₀ base t (phdr m₀ base i) (destAt alloc state m₀ base i)) ∧
  (pType m₀ (phdr m₀ base i) = ptTls →
    pVaddr m₀ (phdr m₀ base i) ≠ 0 ∧ (tlsAt m₀ base i).1 = 0)

/-- What the loop has when it gets to header `i`. -/
structure Tracks (i : Nat) (s : LoadState σ) : Prop where
  le : i ≤ ePhnum m₀ base
  mem : s.mem = memAt m₀ base t (destAt alloc state m₀ base) i
  allocator : s.alloc = allocAt alloc state m₀ base i
  tls : (s.tlsBase, s.tlsInitLen, s.tlsTotalLen) = tlsAt m₀ base i
  passed : ∀ j < i, Passes alloc state m₀ base t j

/-- What the loop starts with. -/
def initial : LoadState σ := ⟨m₀, state, 0, 0, 0⟩

/-- The loop gets to header `i` with this state. -/
def Reached (i : Nat) (s : LoadState σ) : Prop :=
  ∃ es, Run (HeaderStep alloc base t (wrap (base + ePhoff m₀ base))) (0, initial state m₀) es (i, s)

/-- The loop gets to header `i`, if it reads what is in `m₀`. -/
def GetsTo (i : Nat) : Prop :=
  i < ePhnum m₀ base ∧ ∀ j < i, Passes alloc state m₀ base t j

/-- The segment of header `i`, if it has one, goes apart from what is still to be read. -/
def NextApart (S : Nat → Nat → Prop) (i : Nat) : Prop :=
  ∀ d, Replies alloc state m₀ base i d → d ≠ 0 →
    Apart m₀ base t (Later m₀ base t S i) (phdr m₀ base i) d

end Definitions

variable {ε σ : Type} {alloc : Allocator ε σ} {state : σ} {S : Nat → Nat → Prop} {m₀ : Mem}
  {base : Nat} {t : Tables} {i d : Nat} {s s' : LoadState σ}

theorem Replies.destAt_eq (h : Replies alloc state m₀ base i d) :
    destAt alloc state m₀ base i = d := by
  obtain ⟨-, a, ha⟩ := h
  rw [destAt, ha]

/-- A place for a segment is one that the allocator returns. -/
theorem replies_destAt (hload : pType m₀ (phdr m₀ base i) = ptLoad)
    (h : destAt alloc state m₀ base i ≠ 0) :
    Replies alloc state m₀ base i (destAt alloc state m₀ base i) := by
  refine ⟨hload, ?_⟩
  rw [destAt] at h ⊢
  split at h
  case h_1 d a hreply => exact ⟨a, hreply⟩
  case h_2 => exact absurd rfl h

/-! ## 1. One header -/

theorem tracks_initial : Tracks alloc state m₀ base t 0 (initial state m₀) :=
  ⟨by omega, rfl, rfl, rfl, fun j hj => absurd hj (by omega)⟩

theorem tracks_succ (T : Tracks alloc state m₀ base t i s) (hi : i < ePhnum m₀ base)
    (h : Loads alloc m₀ base t (phdr m₀ base i) s s') :
    Tracks alloc state m₀ base t (i + 1) s' := by
  have hpassed : Passes alloc state m₀ base t i → ∀ j < i + 1, Passes alloc state m₀ base t j :=
    fun hi j hj => by
      rcases Nat.lt_succ_iff_lt_or_eq.mp hj with hj | rfl
      · exact T.passed j hj
      · exact hi
  rw [Loads] at h
  by_cases hload : pType m₀ (phdr m₀ base i) = ptLoad
  · have hnot : pType m₀ (phdr m₀ base i) ≠ ptTls := by rw [hload]; decide
    rw [if_pos hload] at h
    obtain ⟨dest, a, halloc, hne, hok, rfl⟩ := h
    rw [T.allocator] at halloc
    have hreply : request alloc m₀ base i (allocAt alloc state m₀ base i) = .ok (dest, a) := halloc
    obtain rfl := Replies.destAt_eq ⟨hload, a, hreply⟩
    refine ⟨hi, ?_, ?_, ?_, hpassed ⟨fun _ => ⟨hne, hok⟩, fun h => absurd h hnot⟩⟩
    · rw [memAt, if_pos hload, ← T.mem]
    · rw [allocAt, if_pos hload, hreply]
    · rw [tlsAt, if_neg hnot, ← T.tls]
  · rw [if_neg hload] at h
    by_cases htls : pType m₀ (phdr m₀ base i) = ptTls
    · rw [if_pos htls] at h
      obtain ⟨hne, h0, rfl⟩ := h
      have hfirst : (tlsAt m₀ base i).1 = 0 := T.tls ▸ h0
      refine ⟨hi, ?_, ?_, ?_, hpassed ⟨fun h => absurd h hload, fun _ => ⟨hne, hfirst⟩⟩⟩
      · rw [memAt, if_neg hload, ← T.mem]
      · rw [allocAt, if_neg hload, ← T.allocator]
      · rw [tlsAt, if_pos htls]
    · rw [if_neg htls] at h
      obtain rfl := h
      refine ⟨hi, ?_, ?_, ?_, hpassed ⟨fun h => absurd h hload, fun h => absurd h htls⟩⟩
      · rw [memAt, if_neg hload, T.mem]
      · rw [allocAt, if_neg hload, T.allocator]
      · rw [tlsAt, if_neg htls, T.tls]

theorem loads_of_passes (T : Tracks alloc state m₀ base t i s)
    (hi : Passes alloc state m₀ base t i) :
    ∃ s', Loads alloc m₀ base t (phdr m₀ base i) s s' := by
  by_cases hload : pType m₀ (phdr m₀ base i) = ptLoad
  · obtain ⟨hne, hok⟩ := hi.1 hload
    obtain ⟨-, a, hreply⟩ := replies_destAt hload hne
    rw [← T.allocator] at hreply
    exact ⟨_, by
      rw [Loads, if_pos hload]
      exact ⟨_, a, hreply, hne, hok, rfl⟩⟩
  · by_cases htls : pType m₀ (phdr m₀ base i) = ptTls
    · obtain ⟨hne, h0⟩ := hi.2 htls
      rw [← T.tls] at h0
      exact ⟨_, by
        rw [Loads, if_neg hload, if_pos htls]
        exact ⟨hne, h0, rfl⟩⟩
    · exact ⟨s, by rw [Loads, if_neg hload, if_neg htls]⟩

section Round

variable (C : Covers m₀ base t S) (T : Tracks alloc state m₀ base t i s)
  (hag : Agree (S i) m₀ s.mem) (hi : i < ePhnum m₀ base)

include C T hag hi

/-- The allocator is asked what the header says. -/
theorem gets_iff : Gets alloc (phdr m₀ base i) s d ↔ Replies alloc state m₀ base i d := by
  have hround := C.round hag hi
  rw [Gets, Replies, pType_frozen hround]
  refine and_congr_right fun hload => ?_
  have hvaddr : pVaddr s.mem (phdr m₀ base i) = pVaddr m₀ (phdr m₀ base i) :=
    load_field hround hload (by decide)
  have hmemsz : pMemsz s.mem (phdr m₀ base i) = pMemsz m₀ (phdr m₀ base i) :=
    load_field hround hload (by decide)
  have hflags : pFlags s.mem (phdr m₀ base i) = pFlags m₀ (phdr m₀ base i) :=
    load_field hround hload (by decide)
  rw [hvaddr, hmemsz, hflags, T.allocator, request]

/-- One round from a state that tracks. -/
theorem loadSegment_tracks_iff (A : NextApart alloc state m₀ base t S i) :
    loadSegment alloc base t (phdr m₀ base i) s = .ok (s', none) ↔
      Loads alloc m₀ base t (phdr m₀ base i) s s' := by
  refine loadSegment_iff (S := Later m₀ base t S i) (C.round hag hi) (fun x hx => Or.inl hx)
    (fun hload => hag.mono fun x hx => C.of_later hi hload hx) fun d a hload halloc hne => ?_
  rw [T.allocator] at halloc
  exact A d ⟨hload, a, halloc⟩ hne

/-- What is still to be read is as it was after the round. -/
theorem NextApart.agree (A : NextApart alloc state m₀ base t S i)
    (T' : Tracks alloc state m₀ base t (i + 1) s') : Agree (S (i + 1)) m₀ s'.mem := by
  rw [T'.mem, memAt]
  rw [T.mem] at hag
  split
  case isTrue hload =>
    obtain ⟨hne, hok⟩ := (T'.passed i (Nat.lt_succ_self i)).1 hload
    exact (place_agree (A _ (replies_destAt hload hne) hne) hok
      (hag.mono fun x hx => C.of_later hi hload hx)).mono fun x hx => Or.inr hx
  case isFalse => exact hag.mono fun x hx => C.anti hx

end Round

/-! ## 2. Runs -/

theorem reached_zero : Reached alloc state m₀ base t 0 (initial state m₀) := ⟨[], Run.refl _⟩

/-- **What the loop has when it gets to a header**, when every header it got to before placed
its segment apart from what is still to be read. -/
theorem tracks_of_reached (C : Covers m₀ base t S)
    (A : ∀ j s, Reached alloc state m₀ base t j s → Tracks alloc state m₀ base t j s →
      Agree (S j) m₀ s.mem → j < ePhnum m₀ base → NextApart alloc state m₀ base t S j)
    (h : Reached alloc state m₀ base t i s) :
    Tracks alloc state m₀ base t i s ∧ Agree (S i) m₀ s.mem := by
  obtain ⟨es, hrun⟩ := h
  have := hrun.preserves (I := fun p => Reached alloc state m₀ base t p.1 p.2 ∧
    Tracks alloc state m₀ base t p.1 p.2 ∧ Agree (S p.1) m₀ p.2.mem) ?_
    ⟨reached_zero, tracks_initial, Agree.refl (S 0) m₀⟩
  · exact this.2
  rintro ⟨j, s⟩ e ⟨j', s'⟩ ⟨⟨fs, hreached⟩, T, hag⟩ hstep
  have hnext : Reached alloc state m₀ base t j' s' := ⟨_, hreached.snoc hstep⟩
  obtain ⟨hj, hload, hj'⟩ := hstep
  dsimp only at hj hload hj' hag T ⊢
  subst hj'
  rw [C.ePhnum_eq hag] at hj
  have hA := A j s ⟨fs, hreached⟩ T hag hj
  have T' := tracks_succ T hj ((loadSegment_tracks_iff C T hag hj hA).mp hload)
  exact ⟨hnext, T', hA.agree C T hag hj T'⟩

/-- The loop does get to a header when all the headers before it let it pass. -/
theorem reached_of_passes (C : Covers m₀ base t S) {n : Nat} (hn : n ≤ ePhnum m₀ base)
    (hp : ∀ j < n, Passes alloc state m₀ base t j)
    (A : ∀ j < n, ∀ s, Reached alloc state m₀ base t j s → Tracks alloc state m₀ base t j s →
      Agree (S j) m₀ s.mem → NextApart alloc state m₀ base t S j) :
    ∃ s, Reached alloc state m₀ base t n s ∧ Tracks alloc state m₀ base t n s ∧
      Agree (S n) m₀ s.mem := by
  induction n with
  | zero => exact ⟨_, reached_zero, tracks_initial, Agree.refl (S 0) m₀⟩
  | succ n ih =>
    obtain ⟨s, ⟨es, hrun⟩, T, hag⟩ := ih (by omega) (fun j hj => hp j (by omega))
      fun j hj => A j (by omega)
    have hA := A n (by omega) s ⟨es, hrun⟩ T hag
    obtain ⟨s', hs'⟩ := loads_of_passes T (hp n (by omega))
    have hload := (loadSegment_tracks_iff C T hag (by omega) hA).mpr hs'
    have T' := tracks_succ T (by omega) hs'
    refine ⟨s', ⟨_, hrun.snoc (e := ()) ⟨?_, hload, rfl⟩⟩, T', hA.agree C T hag (by omega) T'⟩
    dsimp only
    rw [C.ePhnum_eq hag]
    omega

end Philix.Inky.Rounds
