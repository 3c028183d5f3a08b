/-
# Whether loading overwrites the image it loads from

The segments go to the hardcoded address `kernelStart` and up, whatever is there; the multiboot
image has just been moved to `mb_img_start`, wherever that is.  And the status byte is printed
into memory.  The image survives exactly when neither falls in it.
-/
import Philix.Inky.Sample

namespace Philix.Inky

open ByteMem Loop Lts

/-- Whenever the loop gets to a header, and when it is done, the image is as it was moved; and
if the header loads a segment, the memory `linear_alloc` hands out for it is not in the image. -/
def ImagePreserved (S : Nat → Prop) (moved : Mem) (c : Setup) : Prop :=
  ∀ t, Enters c t → ∀ i s, Reached c.mem c.base t i s → Agree S moved s.mem ∧
    ∀ dest a, i < ePhnum s.mem c.base → pType s.mem (phdr c.mem c.base i) = ptLoad →
      linearAlloc s.alloc (pVaddr s.mem (phdr c.mem c.base i))
        (pMemsz s.mem (phdr c.mem c.base i)) (pFlags s.mem (phdr c.mem c.base i)) =
        .ok (dest, a) →
      ∀ x, Range dest (pMemsz s.mem (phdr c.mem c.base i)) x → ¬ S x

/-- The places of the segments, page by page from `kernelStart`, are not in the image, nor is
the status byte, unless it is what the image holds there. -/
def PlacesClear (S : Nat → Prop) (moved : Mem) (c : Setup) : Prop :=
  ∀ t, Enters c t → (S statusPort → moved statusPort = c.bp.xeonPhiId.toUInt8) ∧
    ∀ i, GetsTo c.mem c.base t i → pType c.mem (phdr c.mem c.base i) = ptLoad →
      ∀ x, Range (segStart c.mem c.base i) (pMemsz c.mem (phdr c.mem c.base i)) x → ¬ S x

section Overwrite

variable {S : Nat → Prop} {m moved : Mem} {c : Setup} {t : Tables} {i : Nat}
  {s : LoadState Nat}

/-! ## 1. The status bytes -/

theorem agree_status_iff {a : UInt8} :
    Agree S moved (printStatus a (printStatus 90 (printStatus 83 moved))) ↔
      (S statusPort → moved statusPort = a) := by
  constructor
  · intro h hport
    rw [h _ hport, printStatus_self]
  · intro h x hx
    by_cases hport : x = statusPort
    · subst hport
      rw [printStatus_self]
      exact h hx
    · rw [printStatus_of_ne hport, printStatus_of_ne hport, printStatus_of_ne hport]

/-! ## 2. The segments -/

/-- What the loop hands out next, in terms of the memory it started with. -/
theorem handed_out_iff (C : Covers c.mem c.base t fun _ => S) (hag : Agree S c.mem s.mem)
    (T : Tracks c.mem c.base t i s) (hi : i < ePhnum c.mem c.base) :
    (∀ dest a, i < ePhnum s.mem c.base → pType s.mem (phdr c.mem c.base i) = ptLoad →
      linearAlloc s.alloc (pVaddr s.mem (phdr c.mem c.base i))
        (pMemsz s.mem (phdr c.mem c.base i)) (pFlags s.mem (phdr c.mem c.base i)) =
        .ok (dest, a) →
      ∀ x, Range dest (pMemsz s.mem (phdr c.mem c.base i)) x → ¬ S x) ↔
    (pType c.mem (phdr c.mem c.base i) = ptLoad →
      ∀ x, Range (segStart c.mem c.base i) (pMemsz c.mem (phdr c.mem c.base i)) x → ¬ S x) := by
  have hround := C.round (i := i) hag hi
  have hmemsz : pType c.mem (phdr c.mem c.base i) = ptLoad →
      pMemsz s.mem (phdr c.mem c.base i) = pMemsz c.mem (phdr c.mem c.base i) := fun hload =>
    load_field hround hload (by decide)
  rw [pType_frozen hround, C.ePhnum_eq (i := i) hag, alloc_of_tracks T]
  constructor
  · intro h hload
    rw [← hmemsz hload]
    exact h _ _ hi hload rfl
  · intro h dest a _ hload halloc
    cases halloc
    rw [hmemsz hload]
    exact h hload

theorem status_iff {endBootloader bpAddr : Nat} {bp bp' : BootParams} {mbi : MultibootInfo}
    (h : locate bpAddr (mbImgStart endBootloader bp) bp' mbi moved = .ok c) :
    Agree S moved c.mem ↔ (S statusPort → moved statusPort = c.bp.xeonPhiId.toUInt8) := by
  rw [locate_mem h]
  exact agree_status_iff

/-- **The image survives loading exactly when the places of the segments are clear of it**, for
a kernel that is well formed. -/
theorem image_preserved_iff {endBootloader magic bpAddr : Nat} {bp : BootParams}
    {mbi : MultibootInfo} (harr : Arrives endBootloader magic bpAddr bp mbi m moved c) :
    (PlacesClear (Image endBootloader bp) moved c ∧
        (∀ t, Enters c t → WellFormed (Image endBootloader bp) c t) →
      ImagePreserved (Image endBootloader bp) moved c) ∧
    (ImagePreserved (Image endBootloader bp) moved c ∧
        (∀ t, Enters c t → WellFormed (Image endBootloader bp) c t) →
      PlacesClear (Image endBootloader bp) moved c) := by
  obtain ⟨-, -, bp', -, hlocate⟩ := harr
  constructor
  · rintro ⟨hclear, hwf⟩ t E i s hreached
    have W := hwf t E
    obtain ⟨hport, hQ⟩ := hclear t E
    obtain ⟨T, hag⟩ := Rounds.tracks_of_reached W.covers
      (fun j s _ T hag hj => W.nextApart hj (hQ j ⟨hj, T.passed⟩)) hreached
    refine ⟨((status_iff hlocate).mpr hport).trans hag, fun dest a hi => ?_⟩
    have hi' : i < ePhnum c.mem c.base := by rwa [W.covers.ePhnum_eq (i := i) hag] at hi
    exact (handed_out_iff W.covers hag T hi').mpr (hQ i ⟨hi', T.passed⟩) dest a hi
  · rintro ⟨hP, hwf⟩ t E
    have W := hwf t E
    refine ⟨(status_iff hlocate).mp (hP t E 0 _ Rounds.reached_zero).1, fun i hi => ?_⟩
    obtain ⟨s, hreached, T, hag⟩ := Rounds.reached_of_passes W.covers (Nat.le_of_lt hi.1) hi.2
      fun j hj s hreached T hag => W.nextApart (by have := hi.1; omega)
        ((handed_out_iff W.covers hag T (by have := hi.1; omega)).mp (hP t E j s hreached).2)
    exact (handed_out_iff W.covers hag T hi.1).mp (hP t E i s hreached).2

end Overwrite

/-! ## 3. A small ramdisk, and a large one -/

/-- A ramdisk of one page is preserved. -/
theorem image_preserved_iff_one_page : ∃ moved c, Arrives 0x700000 k1omBootMagic 0
    (sampleParams 0x1000) sampleMbi (ramdiskMem (zeroPages [0x1000000])) moved c ∧
    ImagePreserved (Image 0x700000 (sampleParams 0x1000)) moved c := by
  obtain ⟨moved, c, harr, H⟩ := arrives_with (zeroPages [0x1000000]) (n := 0x1000)
    (by decide) (by decide)
  have F := pages_one
  have himage : ∀ x, Image 0x700000 (sampleParams 0x1000) x ↔ 0x800000 ≤ x ∧ x < 0x801000 :=
    fun x => image_sample_iff (by decide)
  refine ⟨moved, c, harr, (image_preserved_iff harr).1 ⟨fun t E => ?_, fun t E => ?_⟩⟩
  · obtain rfl := (F.enters_iff H).mp E
    refine ⟨fun hport => absurd ((himage _).mp hport) (by decide), fun i hi hload x hx hS => ?_⟩
    have hi' := (F.seg_iff H).mp ⟨hi.1, hload⟩
    have hmemsz : pMemsz c.mem (phdr c.mem c.base i) = 0x1000 := F.pMemsz_eq H hi'
    obtain rfl : i = 0 := by simpa using hi'
    have := (himage x).mp hS
    rw [F.segStart_eq H (Nat.zero_le _), hmemsz, range_iff (by decide)] at hx
    omega
  · obtain rfl := (F.enters_iff H).mp E
    refine F.wellFormed H fun x hx => ?_
    rw [H.base_eq, range_iff (by decide)] at hx
    exact (himage x).mpr hx

/-- A ramdisk of 9 MiB is not: it is moved to `0x800000` and covers `kernelStart`. -/
theorem image_overwritten : ∃ moved c, Arrives 0x700000 k1omBootMagic 0
    (sampleParams 0x900000) sampleMbi (ramdiskMem (zeroPages [0x1000000])) moved c ∧
    (∀ t, Enters c t → WellFormed (Image 0x700000 (sampleParams 0x900000)) c t) ∧
    ¬ ImagePreserved (Image 0x700000 (sampleParams 0x900000)) moved c := by
  obtain ⟨moved, c, harr, H⟩ := arrives_with (zeroPages [0x1000000]) (n := 0x900000)
    (by decide) (by decide)
  have F := pages_one
  have himage : ∀ x, Image 0x700000 (sampleParams 0x900000) x ↔ 0x800000 ≤ x ∧ x < 0x1100000 :=
    fun x => image_sample_iff (by decide)
  refine ⟨moved, c, harr, fun t E => ?_, fun hP => ?_⟩
  · obtain rfl := (F.enters_iff H).mp E
    refine F.wellFormed H fun x hx => ?_
    rw [H.base_eq, range_iff (by decide)] at hx
    exact (himage x).mpr (by omega)
  · have hseg : c.Seg 0 := (F.seg_iff H).mpr (by decide)
    have hmemsz : pMemsz c.mem (phdr c.mem c.base 0) = 0x1000 := F.pMemsz_eq H (by decide)
    have hout := (hP noTables ((F.enters_iff H).mpr rfl) 0 _ Rounds.reached_zero).2 kernelStart _
      hseg.1 hseg.2 rfl kernelStart
    refine hout ?_ ((himage _).mpr (by decide))
    rw [Rounds.initial, hmemsz, range_iff (by decide)]
    decide

end Philix.Inky
