/-
# What memory holds after segments have been placed

`memAt` is the memory after the first headers, when the segment of the `i`th goes to `dest i`
and the headers and tables are those of `m₀`.  Two facts about it: a byte of a segment that no
relocation stores to is the byte of the file, or the zero behind it (`memAt_segment`); and a
word a relocation stores is its value, however often it is stored (`memAt_relocated`).
-/
import Philix.Inky.Frozen

namespace Philix.Inky

open ByteMem Loop

section Contents

variable (m₀ : Mem) (base : Nat) (t : Tables) (dest : Nat → Nat)

/-- The `k`th byte of the segment of `p`. -/
def segByte (p k : Nat) : UInt8 :=
  if k < pFilesz m₀ p then m₀ (wrap (fileStart m₀ base p + k)) else 0

/-- The copy of the segment of `p` at `d` does not touch the bytes it is made from. -/
def CopiesApart (p d : Nat) : Prop :=
  ∀ x, Range d (pFilesz m₀ p) x → ¬ Range (fileStart m₀ base p) (pFilesz m₀ p) x

/-- The memory when the loop gets to header `i`. -/
def memAt : Nat → Mem
  | 0 => m₀
  | i + 1 =>
    if pType m₀ (phdr m₀ base i) = ptLoad then
      place m₀ base t (phdr m₀ base i) (dest i) (memAt i)
    else memAt i

/-- Header `i` is one of the first `n` and loads a segment. -/
def LoadAt (n i : Nat) : Prop := i < n ∧ pType m₀ (phdr m₀ base i) = ptLoad

/-- A relocation stores to `x` while the segment of `p` is placed at `d`. -/
def StoredAt (p d x : Nat) : Prop :=
  ∃ e < relaCount t, rType m₀ (entry (relaTable m₀ base t) e) = rX866464 ∧
    Range (storeAddr m₀ base t p d e) 8 x

end Contents

variable {m₀ m : Mem} {base : Nat} {t : Tables} {dest : Nat → Nat} {n i : Nat}

/-! ## 1. One segment -/

theorem sub64_eq {a b : Nat} (hle : b ≤ a) (ha : a < 18446744073709551616) :
    sub64 a b = a - b := by
  rw [sub64, wrap]
  omega

theorem pMemsz_lt (m : Mem) (p : Nat) : pMemsz m p < 18446744073709551616 := readLE_lt 8 _

theorem zeroSize_eq {p : Nat} (hsz : pFilesz m₀ p ≤ pMemsz m₀ p) :
    zeroSize m₀ p = pMemsz m₀ p - pFilesz m₀ p := sub64_eq hsz (pMemsz_lt m₀ p)

/-- The copied bytes and the zeroes make up the segment. -/
theorem segment_range {p d x : Nat} (hsz : pFilesz m₀ p ≤ pMemsz m₀ p) :
    Range d (pMemsz m₀ p) x ↔
      Range d (pFilesz m₀ p) x ∨ Range (wrap (d + pFilesz m₀ p)) (zeroSize m₀ p) x := by
  rw [zeroSize_eq hsz, range_wrap, ← range_append, Nat.add_sub_cancel' hsz]

theorem applyEntries_of_not_stored {p d x : Nat} (hx : ¬ StoredAt m₀ base t p d x) :
    applyEntries m₀ 0 0 (relaTable m₀ base t) (symTable m₀ base t) (pVaddr m₀ p) d (relaCount t) m
      x = m x :=
  applyEntries_frame fun e he hact hr => by
    rcases hact with h | ⟨-, h⟩
    · exact hx ⟨e, he, h, hr⟩
    · exact h rfl

/-- Outside the segment and the relocated words nothing changes. -/
theorem place_frame {p d x : Nat} (hsz : pFilesz m₀ p ≤ pMemsz m₀ p)
    (hseg : ¬ Range d (pMemsz m₀ p) x) (hx : ¬ StoredAt m₀ base t p d x) :
    place m₀ base t p d m x = m x := by
  rw [segment_range hsz, not_or] at hseg
  rw [place, applyEntries_of_not_stored hx, fillSegment, fill_of_not_range hseg.2,
    copy_of_not_range hseg.1]

/-- A segment is placed apart from `S` when it and the words it relocates are. -/
theorem apart_of_disjoint {S : Nat → Prop} {p d : Nat} (hsz : pFilesz m₀ p ≤ pMemsz m₀ p)
    (hseg : ∀ x, Range d (pMemsz m₀ p) x → ¬ S x)
    (hst : ∀ x, StoredAt m₀ base t p d x → ¬ S x) : Apart m₀ base t S p d := by
  rintro x ⟨-, hx | hx | ⟨e, he, -, htype, hx⟩⟩
  · exact hseg x ((segment_range hsz).mpr (Or.inl hx))
  · exact hseg x ((segment_range hsz).mpr (Or.inr hx))
  · exact hst x ⟨e, he, htype, hx⟩

/-- The bytes of the segment that are not relocated. -/
theorem place_segment {p d k : Nat} (hsz : pFilesz m₀ p ≤ pMemsz m₀ p) (hk : k < pMemsz m₀ p)
    (hfile : Agree (Range (fileStart m₀ base p) (pFilesz m₀ p)) m₀ m)
    (hown : CopiesApart m₀ base p d) (hx : ¬ StoredAt m₀ base t p d (wrap (d + k))) :
    place m₀ base t p d m (wrap (d + k)) = segByte m₀ base p k := by
  have hmemsz := pMemsz_lt m₀ p
  rw [place, applyEntries_of_not_stored hx, fillSegment, segByte]
  by_cases hkf : k < pFilesz m₀ p
  · have hnot : ¬ Range (wrap (d + pFilesz m₀ p)) (zeroSize m₀ p) (wrap (d + k)) := by
      rw [range_wrap, zeroSize_eq hsz]
      rintro ⟨j, hj, e⟩
      rw [Nat.add_assoc] at e
      have := wrap_add_inj (n := pMemsz m₀ p) (by omega) (by omega) (by omega) e
      omega
    rw [if_pos hkf, fill_of_not_range hnot, copy_at (by omega) hkf hown]
    exact (hfile _ (range_add hkf)).symm
  · have hzero : Range (wrap (d + pFilesz m₀ p)) (zeroSize m₀ p) (wrap (d + k)) :=
      ((segment_range hsz).mp (range_add hk)).resolve_left fun ⟨j, hj, e⟩ => by
        have := wrap_add_inj (n := pMemsz m₀ p) (by omega) hk (by omega) e
        omega
    rw [if_neg hkf, fill_of_range hzero]

/-! ## 2. All segments -/

/-- The segments of the first `n` headers, well formed and placed apart from each other, and from
`S`: what it holds when the loop gets to a header has the bytes of its segment, and what it holds
from the next one on is not written in the round. -/
structure Laid (S : Nat → Nat → Prop) (m₀ : Mem) (base : Nat) (t : Tables) (dest : Nat → Nat)
    (n : Nat) : Prop where
  sizes : ∀ {i}, LoadAt m₀ base n i →
    pFilesz m₀ (phdr m₀ base i) ≤ pMemsz m₀ (phdr m₀ base i)
  anti : ∀ {i x}, S (i + 1) x → S i x
  files : ∀ {i}, LoadAt m₀ base n i →
    ∀ x, Range (fileStart m₀ base (phdr m₀ base i)) (pFilesz m₀ (phdr m₀ base i)) x → S i x
  own : ∀ {i}, LoadAt m₀ base n i → CopiesApart m₀ base (phdr m₀ base i) (dest i)
  apart : ∀ {i}, LoadAt m₀ base n i → ∀ x, Range (dest i) (pMemsz m₀ (phdr m₀ base i)) x →
    ¬ S (i + 1) x
  stores : ∀ {i}, LoadAt m₀ base n i →
    ∀ x, StoredAt m₀ base t (phdr m₀ base i) (dest i) x → ¬ S (i + 1) x
  disjoint : ∀ {i j}, LoadAt m₀ base n i → LoadAt m₀ base n j → i ≠ j →
    ∀ x, Range (dest i) (pMemsz m₀ (phdr m₀ base i)) x →
      ¬ Range (dest j) (pMemsz m₀ (phdr m₀ base j)) x

theorem LoadAt.mono {j : Nat} (h : LoadAt m₀ base n i) (hn : n ≤ j) : LoadAt m₀ base j i :=
  ⟨Nat.lt_of_lt_of_le h.1 hn, h.2⟩

/-- What no round writes as long as it is in `S` has not changed. -/
theorem memAt_agree {S : Nat → Nat → Prop} {N : Nat} (hanti : ∀ {i x}, S (i + 1) x → S i x)
    (hsizes : ∀ {i}, LoadAt m₀ base N i →
      pFilesz m₀ (phdr m₀ base i) ≤ pMemsz m₀ (phdr m₀ base i))
    (hapart : ∀ {i}, LoadAt m₀ base N i →
      ∀ x, Range (dest i) (pMemsz m₀ (phdr m₀ base i)) x → ¬ S (i + 1) x)
    (hstores : ∀ {i}, LoadAt m₀ base N i →
      ∀ x, StoredAt m₀ base t (phdr m₀ base i) (dest i) x → ¬ S (i + 1) x) :
    ∀ {n : Nat}, n ≤ N → Agree (S n) m₀ (memAt m₀ base t dest n)
  | 0, _ => Agree.refl (S 0) m₀
  | n + 1, hn => by
    have ih := (memAt_agree hanti hsizes hapart hstores (Nat.le_of_succ_le hn)).mono
      fun _ => hanti
    rw [memAt]
    split
    case isTrue hload =>
      exact ih.frame fun x hx => place_frame (hsizes ⟨hn, hload⟩)
        (fun hr => hapart ⟨hn, hload⟩ x hr hx) fun hst => hstores ⟨hn, hload⟩ x hst hx
    case isFalse => exact ih

/-- **The contents of a segment** after the first `n` headers. -/
theorem memAt_segment {S : Nat → Nat → Prop} {N : Nat} (L : Laid S m₀ base t dest N) :
    ∀ {n i k : Nat}, n ≤ N →
    LoadAt m₀ base n i → k < pMemsz m₀ (phdr m₀ base i) →
    (∀ j, LoadAt m₀ base n j →
      ¬ StoredAt m₀ base t (phdr m₀ base j) (dest j) (wrap (dest i + k))) →
    memAt m₀ base t dest n (wrap (dest i + k)) = segByte m₀ base (phdr m₀ base i) k
  | 0, _, _, _, h, _, _ => absurd h.1 (by omega)
  | n + 1, i, k, hn, h, hk, hstored => by
    have hN := h.mono hn
    by_cases hin : i = n
    · obtain rfl := hin
      have hag := memAt_agree L.anti L.sizes L.apart L.stores (Nat.le_of_succ_le hn)
      rw [memAt, if_pos h.2]
      exact place_segment (L.sizes hN) hk (hag.mono (L.files hN)) (L.own hN) (hstored i h)
    · have hi : LoadAt m₀ base n i := ⟨by have := h.1; omega, h.2⟩
      have ih := memAt_segment L (by omega) hi hk fun j hj => hstored j (hj.mono (by omega))
      rw [memAt]
      split
      case isTrue hload =>
        have hlast : LoadAt m₀ base (n + 1) n := ⟨by omega, hload⟩
        have hapart := L.disjoint hN (hlast.mono hn) hin _ (range_add hk)
        rw [place_frame (L.sizes (hlast.mono hn)) hapart (hstored n hlast), ih]
      case isFalse => exact ih

/-! ## 3. Relocated words -/

/-- The word of an entry, when the stores of the entries do not overlap. -/
theorem applyEntries_word {rela symtab start vbase : Nat} (hi : i < n)
    (htype : rType m₀ (entry rela i) = rX866464)
    (hdis : ∀ j < n, j ≠ i → rType m₀ (entry rela j) = rX866464 →
      ∀ x, Range (entryAddr m₀ rela start vbase i) 8 x →
        ¬ Range (entryAddr m₀ rela start vbase j) 8 x) :
    readLE (applyEntries m₀ 0 0 rela symtab start vbase n m) 8 (entryAddr m₀ rela start vbase i) =
      entryValue m₀ 0 rela symtab i := by
  induction n with
  | zero => exact absurd hi (by omega)
  | succ n ih =>
    rw [applyEntries]
    by_cases hin : i = n
    · obtain rfl := hin
      rw [applyEntry, if_pos htype, readLE_writeLE (by omega)]
      exact Nat.mod_eq_of_lt (wrap_lt _)
    · rw [← ih (by omega) fun j hj => hdis j (by omega)]
      refine readLE_congr fun x hx => applyEntry_frame fun hact hr => ?_
      rcases hact with h | ⟨-, h⟩
      · exact hdis n (by omega) (Ne.symm hin) h x hx hr
      · exact h rfl

/-- **A relocated word** after the first `n` headers, at least one of which loads a segment,
when every segment's relocations store to the same place. -/
theorem memAt_relocated {N a e : Nat} (he : e < relaCount t)
    (htype : rType m₀ (entry (relaTable m₀ base t) e) = rX866464)
    (haddr : ∀ j, LoadAt m₀ base N j → storeAddr m₀ base t (phdr m₀ base j) (dest j) e = a)
    (hdis : ∀ j, LoadAt m₀ base N j → ∀ f < relaCount t, f ≠ e →
      rType m₀ (entry (relaTable m₀ base t) f) = rX866464 → ∀ x, Range a 8 x →
        ¬ Range (storeAddr m₀ base t (phdr m₀ base j) (dest j) f) 8 x) :
    ∀ {n i : Nat}, n ≤ N → LoadAt m₀ base n i →
      readLE (memAt m₀ base t dest n) 8 a =
        entryValue m₀ 0 (relaTable m₀ base t) (symTable m₀ base t) e
  | 0, _, _, h => absurd h.1 (by omega)
  | n + 1, i, hn, h => by
    rw [memAt]
    split
    case isTrue hload =>
      have hlast : LoadAt m₀ base N n := ⟨by omega, hload⟩
      have ha := haddr n hlast
      rw [place, ← ha]
      exact applyEntries_word he htype fun f hf hfe hft => by
        rw [← storeAddr, ha]
        exact hdis n hlast f hf hfe hft
    case isFalse hload =>
      have hin : i ≠ n := fun e => hload (e ▸ h.2)
      exact memAt_relocated he htype haddr hdis (by omega) ⟨by have := h.1; omega, h.2⟩

end Philix.Inky
