/-
# Whether the segments go where the kernel is linked

`linear_alloc` does not look at the address it is asked for.  For a kernel linked at
`kernelStart` the entry point is not moved, so its segments have to be where they are linked;
they are exactly when they follow each other page by page, in the order of the headers.
-/
import Philix.Inky.Sample

namespace Philix.Inky

open ByteMem Loop Lts

/-- The first address of the first page of the segment, as it is linked. -/
def pageStart (m : Mem) (p : Nat) : Nat := pVaddr m p / 4096 * 4096

/-- The first address behind its last page. -/
def pageEnd (m : Mem) (p : Nat) : Nat := (pVaddr m p + pMemsz m p + 4095) / 4096 * 4096

/-- A kernel linked at `kernelStart`, with segments that share no page. -/
structure Linked (c : Setup) : Prop where
  pages_le : ∀ {i}, c.Seg i → pageEnd c.mem (c.hdr i) ≤ 18446744073709551616
  pages_disjoint : ∀ {i j}, c.Seg i → c.Seg j → i ≠ j →
    pageEnd c.mem (c.hdr i) ≤ pageStart c.mem (c.hdr j) ∨
      pageEnd c.mem (c.hdr j) ≤ pageStart c.mem (c.hdr i)
  lowest : ∃ i, c.Seg i ∧ pVaddr c.mem (c.hdr i) = kernelStart
  above : ∀ {i}, c.Seg i → kernelStart ≤ pVaddr c.mem (c.hdr i)

/-- The address is in a word that is relocated. -/
def Relocated (c : Setup) (t : Tables) (v : Nat) : Prop :=
  ∃ e < relaCount t, rType c.mem (c.reloc t e) = rX866464 ∧
    Range (rOffset c.mem (c.reloc t e)) 8 v

/-- Every segment goes to its own address; so every byte of it that is not relocated is found at
its address, and the one at the entry point is the one the file has for it. -/
structure PlacedAtVaddr (c : Setup) (t : Tables) (kernelEntry : Nat) (m' : Mem) : Prop where
  placed : ∀ i s, Reached c.mem c.base t i s → i < ePhnum s.mem c.base →
    pType s.mem (c.hdr i) = ptLoad → ∀ dest a,
    linearAlloc s.alloc (pVaddr s.mem (c.hdr i)) (pMemsz s.mem (c.hdr i))
      (pFlags s.mem (c.hdr i)) = .ok (dest, a) → dest = pVaddr s.mem (c.hdr i)
  bytes : ∀ i k, c.Seg i → k < pMemsz c.mem (c.hdr i) →
    ¬ Relocated c t (pVaddr c.mem (c.hdr i) + k) →
    m' (pVaddr c.mem (c.hdr i) + k) = segByte c.mem c.base (c.hdr i) k
  entry : ∀ i k, c.Seg i → k < pMemsz c.mem (c.hdr i) →
    pVaddr c.mem (c.hdr i) + k = eEntry c.mem c.base →
    ¬ Relocated c t (eEntry c.mem c.base) →
    m' kernelEntry = segByte c.mem c.base (c.hdr i) k

/-- The segments follow each other page by page from `kernelStart`, in the order of the
headers. -/
def Packed (c : Setup) : Prop :=
  ∀ i, c.Seg i → pVaddr c.mem (c.hdr i) = segStart c.mem c.base i

section Placement

variable {R : Nat → Prop} {c : Setup} {t : Tables} {i : Nat} {s : LoadState Nat}

theorem pVaddr_lt (m : Mem) (p : Nat) : pVaddr m p < 18446744073709551616 := readLE_lt 8 _

/-- Where a relocation stores when the segment is displaced by `d`. -/
theorem storeAddr_displaced {m : Mem} {base p dest d e : Nat}
    (hdest : dest = wrap (pVaddr m p + d)) :
    storeAddr m base t p dest e = wrap (rOffset m (entry (relaTable m base t) e) + d) := by
  have := pVaddr_lt m p
  rw [storeAddr, entryAddr, sub64, hdest, wrap, wrap, wrap]
  omega

/-- A segment at its own address is relocated there. -/
theorem relocated_of_stored {x : Nat}
    (h : StoredAt c.mem c.base t (c.hdr i) (pVaddr c.mem (c.hdr i)) x) : Relocated c t x := by
  obtain ⟨e, he, htype, hx⟩ := h
  have hself : pVaddr c.mem (c.hdr i) = wrap (pVaddr c.mem (c.hdr i) + 0) := by
    rw [Nat.add_zero, wrap_of_lt (pVaddr_lt _ _)]
  rw [storeAddr_displaced hself, Nat.add_zero, range_wrap] at hx
  exact ⟨e, he, htype, hx⟩

/-- Where the next segment goes. -/
theorem placed_iff {S : Nat → Nat → Prop} (C : Covers c.mem c.base t S)
    (T : Tracks c.mem c.base t i s) (hag : Agree (S i) c.mem s.mem) (hi : i < ePhnum c.mem c.base) :
    (i < ePhnum s.mem c.base → pType s.mem (c.hdr i) = ptLoad → ∀ dest a,
      linearAlloc s.alloc (pVaddr s.mem (c.hdr i)) (pMemsz s.mem (c.hdr i))
        (pFlags s.mem (c.hdr i)) = .ok (dest, a) → dest = pVaddr s.mem (c.hdr i)) ↔
    (pType c.mem (c.hdr i) = ptLoad → segStart c.mem c.base i = pVaddr c.mem (c.hdr i)) := by
  have hround := C.round hag hi
  have hvaddr : pType c.mem (c.hdr i) = ptLoad →
      pVaddr s.mem (c.hdr i) = pVaddr c.mem (c.hdr i) := fun hload =>
    load_field hround hload (by decide)
  rw [C.ePhnum_eq hag, pType_frozen hround, alloc_of_tracks T]
  constructor
  · intro h hload
    exact (h hi hload _ _ rfl).trans (hvaddr hload)
  · intro h _ hload dest a halloc
    cases halloc
    exact (h hload).trans (hvaddr hload).symm

/-- Segments that share no page and go where they are linked are laid out well. -/
theorem Linked.laid (L : Linked c) (U : Undisturbed R c t) (hp : Packed c) :
    Laid (KeptAt c.mem c.base t R) c.mem c.base t (segStart c.mem c.base)
      (ePhnum c.mem c.base) := by
  refine U.laid fun {i j} hi hj hij x hxi hxj => ?_
  have h1 := L.pages_disjoint hi hj hij
  have h2 := L.pages_le hi
  have h3 := L.pages_le hj
  have hpi := hp i hi
  have hpj := hp j hj
  simp only [pageEnd, pageStart, Setup.hdr] at h1 h2 h3 hpi hpj hxi hxj
  rw [← hpi, range_iff (by omega)] at hxi
  rw [← hpj, range_iff (by omega)] at hxj
  omega

/-- A kernel linked at `kernelStart` keeps its entry point. -/
theorem Linked.elfbase_eq (L : Linked c) : elfVirtualBase64 c.mem c.base = kernelStart := by
  obtain ⟨i, hi, hv⟩ := L.lowest
  exact virtualBase_of_lowest (by decide) (fun j hj hload => L.above ⟨hj, hload⟩)
    ⟨i, hi.1, hi.2, hv⟩

theorem packed_of_placed (U : Undisturbed R c t) (E : Enters c t) {kernelEntry : Nat} {m' : Mem}
    (hrun : startKernel c = .ok (kernelEntry, m')) (P : PlacedAtVaddr c t kernelEntry m') :
    Packed c := by
  obtain ⟨s, l, hload, -, -⟩ := startKernel_eq_ok hrun
  obtain ⟨T, -, -⟩ := loaded_of_accepted E (covers_kept R) (fun _ => U.nextApart) hload
  intro i hi
  obtain ⟨s', hreached, T', hag⟩ := Rounds.reached_of_passes (covers_kept R) (Nat.le_of_lt hi.1)
    (fun j hj => T.passed j (by have := hi.1; omega))
    fun j hj _ _ _ _ => U.nextApart (by have := hi.1; omega)
  exact ((placed_iff (covers_kept R) T' hag hi.1).mp (P.placed i s' hreached) hi.2).symm

/-- The bytes of the segments of a kernel that is packed. -/
theorem Linked.byte_eq (L : Linked c) (U : Undisturbed R c t) (hp : Packed c) {k : Nat}
    (hi : c.Seg i) (hk : k < pMemsz c.mem (c.hdr i))
    (hrel : ¬ Relocated c t (pVaddr c.mem (c.hdr i) + k)) :
    memAt c.mem c.base t (segStart c.mem c.base) (ePhnum c.mem c.base)
      (pVaddr c.mem (c.hdr i) + k) = segByte c.mem c.base (c.hdr i) k := by
  have h1 := L.pages_le hi
  rw [pageEnd] at h1
  have hwrap : wrap (pVaddr c.mem (c.hdr i) + k) = pVaddr c.mem (c.hdr i) + k :=
    wrap_of_lt (by omega)
  have hseg := memAt_segment (L.laid U hp) (Nat.le_refl _) hi hk fun j hj hst => by
    rw [← hp j hj, ← hp i hi, hwrap] at hst
    exact hrel (relocated_of_stored hst)
  rwa [← hp i hi, hwrap] at hseg

theorem Linked.placed_of_packed (L : Linked c) (U : Undisturbed R c t) (E : Enters c t)
    {kernelEntry : Nat} {m' : Mem} (hrun : startKernel c = .ok (kernelEntry, m'))
    (hp : Packed c) : PlacedAtVaddr c t kernelEntry m' := by
  obtain ⟨s, l, hload, hentry, hmem⟩ := startKernel_eq_ok hrun
  obtain ⟨T, hag, hl⟩ := loaded_of_accepted E (covers_kept R) (fun _ => U.nextApart) hload
  have hbytes : ∀ i k, c.Seg i → k < pMemsz c.mem (c.hdr i) →
      ¬ Relocated c t (pVaddr c.mem (c.hdr i) + k) →
      m' (pVaddr c.mem (c.hdr i) + k) = segByte c.mem c.base (c.hdr i) k := by
    intro i k hi hk hrel
    have h1 := L.above hi
    have hport : statusPort < kernelStart := by decide
    rw [hmem _ (by omega), T.mem]
    exact L.byte_eq U hp hi hk hrel
  refine ⟨fun i s hreached => ?_, hbytes, fun i k hi hk hv hrel => ?_⟩
  · obtain ⟨T, hag⟩ :=
      Rounds.tracks_of_reached (covers_kept R) (fun _ _ _ _ _ => U.nextApart) hreached
    by_cases hi : i < ePhnum c.mem c.base
    · exact (placed_iff (covers_kept R) T hag hi).mpr fun hload => (hp i ⟨hi, hload⟩).symm
    · rw [(covers_kept R).ePhnum_eq hag]
      exact fun h => absurd h hi
  · have hlt : eEntry c.mem c.base < 18446744073709551616 := readLE_lt 8 _
    have hlow := L.above hi
    have hkeep : kernelEntry = eEntry c.mem c.base := by
      rw [hentry, hl, elfVirtualBase64_kept hag, L.elfbase_eq, sub64_eq (by omega) hlt,
        wrap_of_lt (by omega)]
      omega
    rw [hkeep, ← hv]
    exact hbytes i k hi hk (hv ▸ hrel)

/-- **The segments go where the kernel is linked exactly when they are packed**, as long as
loading does not overwrite what it reads. -/
theorem placed_iff_packed {endBootloader magic bpAddr kernelEntry : Nat} {bp : BootParams}
    {mbi : MultibootInfo} {m m' : Mem}
    (_hprep : prepare endBootloader magic bpAddr bp mbi m = .ok c)
    (hrun : startKernel c = .ok (kernelEntry, m')) (E : Enters c t) (L : Linked c) :
    (Packed c ∧ Undisturbed R c t → PlacedAtVaddr c t kernelEntry m') ∧
      (PlacedAtVaddr c t kernelEntry m' ∧ Undisturbed R c t → Packed c) :=
  ⟨fun ⟨hp, U⟩ => L.placed_of_packed U E hrun hp, fun ⟨P, U⟩ => packed_of_placed U E hrun P⟩

end Placement

/-! ## 1. One page, and two pages with a gap -/

section Pages

variable {f : Mem} {vaddrs : List Nat} {c : Setup} (F : Pages f vaddrs) (H : Called c f)

include F H

/-- Distinct pages from `kernelStart` on are well linked. -/
theorem Pages.linked (hlow : ∃ i < vaddrs.length, vaddrs.getD i 0 = kernelStart)
    (hpage : ∀ i < vaddrs.length, kernelStart ≤ vaddrs.getD i 0 ∧ vaddrs.getD i 0 % 4096 = 0 ∧
      vaddrs.getD i 0 < 4294967296)
    (hne : ∀ i < vaddrs.length, ∀ j < vaddrs.length, i ≠ j →
      vaddrs.getD i 0 ≠ vaddrs.getD j 0) : Linked c := by
  refine ⟨fun {i} hi => ?_, fun {i j} hi hj hij => ?_, ?_, fun {i} hi => ?_⟩
  · have hi' := (F.seg_iff H).mp hi
    have := hpage i hi'
    rw [pageEnd, F.pVaddr_eq H hi', F.pMemsz_eq H hi']
    omega
  · have hi' := (F.seg_iff H).mp hi
    have hj' := (F.seg_iff H).mp hj
    have h1 := hpage i hi'
    have h2 := hpage j hj'
    have h3 := hne i hi' j hj' hij
    simp only [pageEnd, pageStart, F.pVaddr_eq H hi', F.pMemsz_eq H hi', F.pVaddr_eq H hj',
      F.pMemsz_eq H hj']
    omega
  · obtain ⟨i, hi, hv⟩ := hlow
    exact ⟨i, (F.seg_iff H).mpr hi, (F.pVaddr_eq H hi).trans hv⟩
  · have hi' := (F.seg_iff H).mp hi
    rw [F.pVaddr_eq H hi']
    exact (hpage i hi').1

/-- The module is apart from the pages. -/
theorem Pages.undisturbed : Undisturbed c.Module c noTables := by
  have hmodule : ∀ x, Range c.base 0x1000 x → c.Module x := fun x hx => by
    rwa [Setup.Module, H.size_eq]
  refine (F.wellFormed H hmodule).undisturbed
    (fun x hx => hmodule x (F.virtualBaseReads H.holds H.base_lt hx)) (fun hi x hx => ?_)
    fun hi x hx hS => ?_
  · rw [F.pFilesz_eq H ((F.seg_iff H).mp hi), range_zero] at hx
    exact hx.elim
  · have hsmall := F.small
    have hi' := (F.seg_iff H).mp hi
    have := H.module_iff.mp hS
    rw [F.segStart_eq H (Nat.le_of_lt hi'), F.pMemsz_eq H hi', range_iff (by omega)] at hx
    omega

/-- Such a kernel is started. -/
theorem Pages.started : ∃ entry m', startKernel c = .ok (entry, m') := by
  have U := F.undisturbed H
  obtain ⟨s, l, h⟩ := accepted_of_passes ((F.enters_iff H).mpr rfl) (covers_kept c.Module)
    (fun j hj => F.passes H (by rwa [F.phnum_eq H.holds] at hj)) fun j hj => U.nextApart hj
  exact started_of_accepted h

end Pages

/-- One page at `kernelStart` is placed where it is linked. -/
theorem placed_iff_packed_one_page : ∃ c kernelEntry m',
    prepare 0x700000 k1omBootMagic 0 (sampleParams 0x1000) sampleMbi
      (ramdiskMem (zeroPages [0x1000000])) = .ok c ∧
    startKernel c = .ok (kernelEntry, m') ∧ PlacedAtVaddr c noTables kernelEntry m' := by
  obtain ⟨moved, c, harr, H⟩ := arrives_with (zeroPages [0x1000000]) (n := 0x1000)
    (by decide) (by decide)
  have F := pages_one
  have hprep := prepare_eq_ok_iff.mpr ⟨moved, harr⟩
  obtain ⟨kernelEntry, m', hrun⟩ := F.started H
  refine ⟨c, kernelEntry, m', hprep, hrun, (placed_iff_packed hprep hrun ((F.enters_iff H).mpr rfl)
    (F.linked H (by decide) (by decide) (by decide))).1 ⟨fun i hi => ?_, F.undisturbed H⟩⟩
  have hi' := (F.seg_iff H).mp hi
  have hvaddr := F.pVaddr_eq H hi'
  obtain rfl : i = 0 := by simpa using hi'
  rw [hvaddr]
  rfl

/-- Of two pages with a page between them, the second is placed in the gap. -/
theorem gap_not_placed : ∃ c kernelEntry m',
    prepare 0x700000 k1omBootMagic 0 (sampleParams 0x1000) sampleMbi
      (ramdiskMem (zeroPages [0x1000000, 0x1002000])) = .ok c ∧
    startKernel c = .ok (kernelEntry, m') ∧ Enters c noTables ∧ Linked c ∧
    Undisturbed c.Module c noTables ∧ ¬ PlacedAtVaddr c noTables kernelEntry m' := by
  obtain ⟨moved, c, harr, H⟩ := arrives_with (zeroPages [0x1000000, 0x1002000]) (n := 0x1000)
    (by decide) (by decide)
  have F := pages_gap
  have hprep := prepare_eq_ok_iff.mpr ⟨moved, harr⟩
  have E := (F.enters_iff H).mpr rfl
  have L := F.linked H (by decide) (by decide) (by decide)
  obtain ⟨kernelEntry, m', hrun⟩ := F.started H
  have U := F.undisturbed H
  refine ⟨c, kernelEntry, m', hprep, hrun, E, L, U, fun P => ?_⟩
  have hpacked := packed_of_placed U E hrun P 1 ((F.seg_iff H).mpr (by decide))
  rw [F.pVaddr_eq H (by decide), F.segStart_eq H (by decide)] at hpacked
  exact absurd hpacked (by decide)

end Philix.Inky
