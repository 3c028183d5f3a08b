/-
# Moving the multiboot image: the copying phase of `loader`

The command line is copied behind the boot loader and the ramdisk to the next megabyte after
it.  When the ramdisk would be copied onto itself it first goes to a bounce position behind
its own end, which is taken without asking whether the final place overlaps *that*, and a
status byte is printed into memory in between.

The boot parameters are a record here, not memory: the copies are taken not to run over them.
-/
import Philix.Inky.Lib

namespace Philix.Inky

open ByteMem Loop

/-- The fields of `struct xeon_phi_boot_params` the loader uses. -/
structure BootParams where
  cmdlinePtr : UInt32
  cmdlineSize : UInt32
  ramdiskImage : UInt32
  ramdiskSize : UInt32
  xeonPhiId : UInt32
  deriving DecidableEq, Repr

/-- The byte of memory the status port is. -/
def statusPort : Nat := 0x6a6a6a

/-- `print_status(a, b)`: only `a` is stored. -/
def printStatus (a : UInt8) (m : Mem) : Mem := writeByte m statusPort a

/-- `print_status('C', '1')` stores this. -/
def statusC : UInt8 := 67

/-- Where the command line is copied to. -/
def cmdlineStart (endBootloader : Nat) : Nat := roundUp endBootloader basePageSize

/-- `mb_img_start`, where the ramdisk is copied to. -/
def mbImgStart (endBootloader : Nat) (bp : BootParams) : Nat :=
  roundUp (wrap (cmdlineStart endBootloader + bp.cmdlineSize.toNat)) (1 <<< 20)

/-- The copy to the bounce position, when `mb_img_start` plus the size is beyond the start of
the ramdisk: `mb_img_orig` and the memory. -/
def bounce (start : Nat) (bp : BootParams) (m : Mem) : Except Halt (Nat × Mem) :=
  if wrap (start + bp.ramdiskSize.toNat) > bp.ramdiskImage.toNat then do
    let orig := (bp.ramdiskImage + bp.ramdiskSize + 0x1000).toNat
    let m ← memcpy orig bp.ramdiskImage.toNat bp.ramdiskSize.toNat m
    pure (orig, printStatus statusC m)
  else pure (bp.ramdiskImage.toNat, m)

/-- The copying phase of `loader`: `mb_img_start`, the boot parameters and the memory. -/
def moveImage (endBootloader : Nat) (bp : BootParams) (m : Mem) :
    Except Halt (Nat × BootParams × Mem) := do
  let m ← memcpy (cmdlineStart endBootloader) bp.cmdlinePtr.toNat bp.cmdlineSize.toNat m
  let (orig, m) ← bounce (mbImgStart endBootloader bp) bp m
  let m ← memcpy (mbImgStart endBootloader bp) orig bp.ramdiskSize.toNat m
  pure (mbImgStart endBootloader bp, { bp with
    cmdlinePtr := .ofNat (cmdlineStart endBootloader)
    ramdiskImage := .ofNat (mbImgStart endBootloader bp) }, m)

/-! ## 1. When the move preserves the ramdisk -/

section Move

variable (endBootloader : Nat) (bp : BootParams)

/-- The bounce position. -/
def bounceStart : Nat := bp.ramdiskImage.toNat + bp.ramdiskSize.toNat + 4096

/-- The setting: all addresses below 4 GiB, the copied command line apart from its source,
and the ramdisk above it. -/
structure Movable : Prop where
  loader_lt : endBootloader < 4294967296
  source_le : bp.cmdlinePtr.toNat + bp.cmdlineSize.toNat ≤ 4294967296
  cmdline_le : cmdlineStart endBootloader + bp.cmdlineSize.toNat ≤ 4294967296
  ramdisk_le : bp.ramdiskImage.toNat + bp.ramdiskSize.toNat ≤ 4294967296
  image_le : mbImgStart endBootloader bp + bp.ramdiskSize.toNat ≤ 4294967296
  bounce_le : bp.ramdiskImage.toNat < mbImgStart endBootloader bp + bp.ramdiskSize.toNat →
    bounceStart bp < 4294967296 ∧ bounceStart bp + bp.ramdiskSize.toNat ≤ 4294967296
  apart : cmdlineStart endBootloader + bp.cmdlineSize.toNat ≤ bp.cmdlinePtr.toNat ∨
    bp.cmdlinePtr.toNat + bp.cmdlineSize.toNat ≤ cmdlineStart endBootloader
  above : cmdlineStart endBootloader + bp.cmdlineSize.toNat ≤ bp.ramdiskImage.toNat

/-- The ramdisk has been moved: no assertion failed, and its bytes are at `mb_img_start`. -/
def Moved (m : Mem) : Prop :=
  ∃ bp' m', moveImage endBootloader bp m = .ok (mbImgStart endBootloader bp, bp', m') ∧
    ∀ i < bp.ramdiskSize.toNat,
      m' (mbImgStart endBootloader bp + i) = m (bp.ramdiskImage.toNat + i)

/-- When the move works: the command line is not an empty one at its own destination; without
a bounce the ramdisk is not an empty one at its own destination; with a bounce its place does
not overlap the bounce position, and the status byte does not change the bounced copy. -/
def MoveWorks (m : Mem) : Prop :=
  (bp.cmdlineSize = 0 → bp.cmdlinePtr.toNat ≠ cmdlineStart endBootloader) ∧
  if bp.ramdiskImage.toNat < mbImgStart endBootloader bp + bp.ramdiskSize.toNat then
    (mbImgStart endBootloader bp ≤ bp.ramdiskImage.toNat + 4096 ∨
      bp.ramdiskImage.toNat + 2 * bp.ramdiskSize.toNat + 4096 ≤ mbImgStart endBootloader bp) ∧
    mbImgStart endBootloader bp ≠ bounceStart bp ∧
    ∀ i < bp.ramdiskSize.toNat, bounceStart bp + i = statusPort →
      m (bp.ramdiskImage.toNat + i) = statusC
  else mbImgStart endBootloader bp ≠ bp.ramdiskImage.toNat

variable {endBootloader : Nat} {bp : BootParams} {m : Mem}

/-- The ramdisk once the command line has been copied. -/
theorem ramdisk_after_cmdline (D : Movable endBootloader bp) {i : Nat} :
    copy bp.cmdlineSize.toNat (cmdlineStart endBootloader) bp.cmdlinePtr.toNat m
      (bp.ramdiskImage.toNat + i) = m (bp.ramdiskImage.toNat + i) := by
  have h1 := D.above
  have h2 := D.cmdline_le
  exact copy_frame (by omega) (Or.inr (by omega))

/-- The first copy. -/
theorem cmdline_noOverlap_iff (D : Movable endBootloader bp) :
    NoOverlap (cmdlineStart endBootloader) bp.cmdlinePtr.toNat bp.cmdlineSize.toNat ↔
      (bp.cmdlineSize = 0 → bp.cmdlinePtr.toNat ≠ cmdlineStart endBootloader) := by
  have h1 := D.apart
  have h2 := D.cmdline_le
  have h3 := D.source_le
  have hsize : bp.cmdlineSize = 0 ↔ bp.cmdlineSize.toNat = 0 := by
    rw [← UInt32.toNat_inj, UInt32.toNat_zero]
  rw [noOverlap_iff (by omega) (by omega), hsize]
  constructor
  · rintro ⟨-, hne⟩ -
    exact hne
  · intro h
    refine ⟨by omega, ?_⟩
    by_cases h0 : bp.cmdlineSize.toNat = 0
    · exact h h0
    · omega

/-- **The last copy, without a bounce.** -/
theorem move_direct (D : Movable endBootloader bp)
    (hb : ¬ bp.ramdiskImage.toNat < mbImgStart endBootloader bp + bp.ramdiskSize.toNat) :
    (∃ m', memcpy (mbImgStart endBootloader bp) bp.ramdiskImage.toNat bp.ramdiskSize.toNat m =
        .ok m' ∧ ∀ i < bp.ramdiskSize.toNat,
          m' (mbImgStart endBootloader bp + i) = m (bp.ramdiskImage.toNat + i)) ↔
      mbImgStart endBootloader bp ≠ bp.ramdiskImage.toNat := by
  have h1 := D.ramdisk_le
  have h2 := D.image_le
  have hno := noOverlap_iff (d := mbImgStart endBootloader bp) (s := bp.ramdiskImage.toNat)
    (n := bp.ramdiskSize.toNat) (by omega) (by omega)
  constructor
  · rintro ⟨m', h, -⟩
    exact (hno.mp (memcpy_eq_ok_iff.mp h).1).2.symm
  · intro hne
    have h := hno.mpr ⟨Or.inr (by omega), hne.symm⟩
    exact ⟨_, memcpy_of_noOverlap h, fun i hi => copy_byte h (by omega) (by omega) hi⟩

/-- **The two copies of a bounce**, with the status byte between them. -/
theorem move_bounced (D : Movable endBootloader bp)
    (hb : bp.ramdiskImage.toNat < mbImgStart endBootloader bp + bp.ramdiskSize.toNat) :
    (∃ m₁ m', memcpy (bounceStart bp) bp.ramdiskImage.toNat bp.ramdiskSize.toNat m = .ok m₁ ∧
        memcpy (mbImgStart endBootloader bp) (bounceStart bp) bp.ramdiskSize.toNat
          (printStatus statusC m₁) = .ok m' ∧
        ∀ i < bp.ramdiskSize.toNat,
          m' (mbImgStart endBootloader bp + i) = m (bp.ramdiskImage.toNat + i)) ↔
      (mbImgStart endBootloader bp ≤ bp.ramdiskImage.toNat + 4096 ∨
        bp.ramdiskImage.toNat + 2 * bp.ramdiskSize.toNat + 4096 ≤ mbImgStart endBootloader bp) ∧
      mbImgStart endBootloader bp ≠ bounceStart bp ∧
      ∀ i < bp.ramdiskSize.toNat, bounceStart bp + i = statusPort →
        m (bp.ramdiskImage.toNat + i) = statusC := by
  have h1 := D.ramdisk_le
  have h2 := D.image_le
  obtain ⟨h3, h4⟩ := D.bounce_le hb
  have hO : bounceStart bp = bp.ramdiskImage.toNat + bp.ramdiskSize.toNat + 4096 := rfl
  -- the bounce position is behind the ramdisk
  have hbounce : NoOverlap (bounceStart bp) bp.ramdiskImage.toNat bp.ramdiskSize.toNat :=
    (noOverlap_iff (by omega) (by omega)).mpr ⟨Or.inl (by omega), by omega⟩
  have hno := noOverlap_iff (d := mbImgStart endBootloader bp) (s := bounceStart bp)
    (n := bp.ramdiskSize.toNat) (by omega) (by omega)
  -- what is bounced, after the status byte
  have hbyte : ∀ i < bp.ramdiskSize.toNat, printStatus statusC
      (copy bp.ramdiskSize.toNat (bounceStart bp) bp.ramdiskImage.toNat m) (bounceStart bp + i) =
      if bounceStart bp + i = statusPort then statusC else m (bp.ramdiskImage.toNat + i) := by
    intro i hi
    by_cases hport : bounceStart bp + i = statusPort
    · rw [if_pos hport, hport]
      exact writeByte_self _ _
    · rw [if_neg hport, printStatus, writeByte_of_ne hport]
      exact copy_byte hbounce (by omega) (by omega) hi
  constructor
  · rintro ⟨m₁, m', hm₁, hm', hbytes⟩
    obtain ⟨-, rfl⟩ := memcpy_eq_ok_iff.mp hm₁
    obtain ⟨h, rfl⟩ := memcpy_eq_ok_iff.mp hm'
    refine ⟨by have := (hno.mp h).1; omega, (hno.mp h).2.symm, fun i hi hport => ?_⟩
    have hcopied := (copy_byte h (by omega) (by omega) hi).symm.trans (hbytes i hi)
    have := (hbyte i hi).symm.trans hcopied
    rw [if_pos hport] at this
    exact this.symm
  · rintro ⟨hplace, hne, hstatus⟩
    have h := hno.mpr ⟨by omega, hne.symm⟩
    refine ⟨_, _, memcpy_of_noOverlap hbounce, memcpy_of_noOverlap h, fun i hi => ?_⟩
    rw [copy_byte h (by omega) (by omega) hi, hbyte i hi]
    by_cases hport : bounceStart bp + i = statusPort
    · rw [if_pos hport, hstatus i hi hport]
    · rw [if_neg hport]

/-- The bounce position as the code computes it, with 32-bit sums. -/
theorem bounce_toNat (D : Movable endBootloader bp)
    (hb : bp.ramdiskImage.toNat < mbImgStart endBootloader bp + bp.ramdiskSize.toNat) :
    (bp.ramdiskImage + bp.ramdiskSize + 0x1000).toNat = bounceStart bp := by
  obtain ⟨h, -⟩ := D.bounce_le hb
  rw [bounceStart] at h ⊢
  rw [UInt32.toNat_add, UInt32.toNat_add, show (0x1000 : UInt32).toNat = 4096 from rfl]
  omega

theorem image_end (D : Movable endBootloader bp) :
    wrap (mbImgStart endBootloader bp + bp.ramdiskSize.toNat) =
      mbImgStart endBootloader bp + bp.ramdiskSize.toNat := by
  have := D.image_le
  exact wrap_of_lt (by omega)

theorem bounce_of_lt (D : Movable endBootloader bp)
    (hb : bp.ramdiskImage.toNat < mbImgStart endBootloader bp + bp.ramdiskSize.toNat) :
    bounce (mbImgStart endBootloader bp) bp m =
      memcpy (bounceStart bp) bp.ramdiskImage.toNat bp.ramdiskSize.toNat m >>= fun m₂ =>
        .ok (bounceStart bp, printStatus statusC m₂) := by
  rw [bounce, image_end D, if_pos hb, bounce_toNat D hb]
  rfl

theorem bounce_of_not_lt (D : Movable endBootloader bp)
    (hb : ¬ bp.ramdiskImage.toNat < mbImgStart endBootloader bp + bp.ramdiskSize.toNat) :
    bounce (mbImgStart endBootloader bp) bp m = .ok (bp.ramdiskImage.toNat, m) := by
  rw [bounce, image_end D, if_neg hb, pure_eq_ok]

/-- The copying phase has succeeded: the memory after each of its copies. -/
theorem moveImage_eq_ok_iff {P : Mem → Prop} :
    (∃ bp' m', moveImage endBootloader bp m = .ok (mbImgStart endBootloader bp, bp', m') ∧ P m') ↔
      ∃ m₁ o m₂ m', memcpy (cmdlineStart endBootloader) bp.cmdlinePtr.toNat
          bp.cmdlineSize.toNat m = .ok m₁ ∧
        bounce (mbImgStart endBootloader bp) bp m₁ = .ok (o, m₂) ∧
        memcpy (mbImgStart endBootloader bp) o bp.ramdiskSize.toNat m₂ = .ok m' ∧ P m' := by
  simp only [moveImage, bind_eq_ok_iff, pure_eq_ok, Except.ok.injEq, Prod.mk.injEq, Prod.exists]
  constructor
  · rintro ⟨bp', m', ⟨m₁, h₁, o, m₂, h₂, _, h₃, -, -, rfl⟩, hP⟩
    exact ⟨m₁, o, m₂, _, h₁, h₂, h₃, hP⟩
  · rintro ⟨m₁, o, m₂, m', h₁, h₂, h₃, hP⟩
    exact ⟨_, m', ⟨m₁, h₁, o, m₂, h₂, m', h₃, trivial, rfl, rfl⟩, hP⟩

/-- What is left after the command line has been copied; the ramdisk is as it was. -/
theorem moved_iff_bounce (D : Movable endBootloader bp) :
    Moved endBootloader bp m ↔
      (bp.cmdlineSize = 0 → bp.cmdlinePtr.toNat ≠ cmdlineStart endBootloader) ∧
      ∃ o m₂ m', bounce (mbImgStart endBootloader bp) bp
          (copy bp.cmdlineSize.toNat (cmdlineStart endBootloader) bp.cmdlinePtr.toNat m) =
            .ok (o, m₂) ∧
        memcpy (mbImgStart endBootloader bp) o bp.ramdiskSize.toNat m₂ = .ok m' ∧
        ∀ i < bp.ramdiskSize.toNat,
          m' (mbImgStart endBootloader bp + i) = m (bp.ramdiskImage.toNat + i) := by
  rw [Moved, moveImage_eq_ok_iff]
  simp only [memcpy_eq_ok_iff (s := bp.cmdlinePtr.toNat), cmdline_noOverlap_iff D]
  constructor
  · rintro ⟨_, o, m₂, m', ⟨hne, rfl⟩, h⟩
    exact ⟨hne, o, m₂, m', h⟩
  · rintro ⟨hne, o, m₂, m', h⟩
    exact ⟨_, o, m₂, m', ⟨hne, rfl⟩, h⟩

theorem moved_iff_of_lt (D : Movable endBootloader bp)
    (hb : bp.ramdiskImage.toNat < mbImgStart endBootloader bp + bp.ramdiskSize.toNat) :
    Moved endBootloader bp m ↔
      (bp.cmdlineSize = 0 → bp.cmdlinePtr.toNat ≠ cmdlineStart endBootloader) ∧
      (mbImgStart endBootloader bp ≤ bp.ramdiskImage.toNat + 4096 ∨
        bp.ramdiskImage.toNat + 2 * bp.ramdiskSize.toNat + 4096 ≤ mbImgStart endBootloader bp) ∧
      mbImgStart endBootloader bp ≠ bounceStart bp ∧
      ∀ i < bp.ramdiskSize.toNat, bounceStart bp + i = statusPort →
        m (bp.ramdiskImage.toNat + i) = statusC := by
  have hmove := move_bounced (m := copy bp.cmdlineSize.toNat (cmdlineStart endBootloader)
    bp.cmdlinePtr.toNat m) D hb
  simp only [ramdisk_after_cmdline D] at hmove
  rw [moved_iff_bounce D, ← hmove, bounce_of_lt D hb]
  refine and_congr_right fun _ => ⟨?_, ?_⟩
  · rintro ⟨o, m₂, m', h₂, h₃, hres⟩
    obtain ⟨m₃, hm₃, h⟩ := bind_eq_ok_iff.mp h₂
    cases h
    exact ⟨m₃, m', hm₃, h₃, hres⟩
  · rintro ⟨m₃, m', hm₃, h₃, hres⟩
    refine ⟨_, _, m', ?_, h₃, hres⟩
    rw [hm₃, ok_bind]

theorem moved_iff_of_not_lt (D : Movable endBootloader bp)
    (hb : ¬ bp.ramdiskImage.toNat < mbImgStart endBootloader bp + bp.ramdiskSize.toNat) :
    Moved endBootloader bp m ↔
      (bp.cmdlineSize = 0 → bp.cmdlinePtr.toNat ≠ cmdlineStart endBootloader) ∧
      mbImgStart endBootloader bp ≠ bp.ramdiskImage.toNat := by
  have hmove := move_direct (m := copy bp.cmdlineSize.toNat (cmdlineStart endBootloader)
    bp.cmdlinePtr.toNat m) D hb
  simp only [ramdisk_after_cmdline D] at hmove
  rw [moved_iff_bounce D, ← hmove, bounce_of_not_lt D hb]
  refine and_congr_right fun _ => ⟨?_, ?_⟩
  · rintro ⟨o, m₂, m', h₂, h₃, hres⟩
    cases h₂
    exact ⟨m', h₃, hres⟩
  · rintro ⟨m', h₃, hres⟩
    exact ⟨_, _, m', rfl, h₃, hres⟩

/-- **The ramdisk is moved exactly when `MoveWorks`.** -/
theorem moved_iff (D : Movable endBootloader bp) :
    Moved endBootloader bp m ↔ MoveWorks endBootloader bp m := by
  rw [MoveWorks]
  by_cases hb : bp.ramdiskImage.toNat < mbImgStart endBootloader bp + bp.ramdiskSize.toNat
  · rw [if_pos hb, moved_iff_of_lt D hb]
  · rw [if_neg hb, moved_iff_of_not_lt D hb]

end Move

/-! ## 2. Two moves -/

/-- A ramdisk of one page at 64 MiB, behind a boot loader that ends at 1 MiB. -/
def farRamdisk : BootParams :=
  { cmdlinePtr := 0x90000, cmdlineSize := 0x100, ramdiskImage := 0x4000000,
    ramdiskSize := 0x1000, xeonPhiId := 0 }

/-- A ramdisk of two megabytes right behind the copied command line. -/
def nearRamdisk : BootParams :=
  { cmdlinePtr := 0x90000, cmdlineSize := 0x1000, ramdiskImage := 0x101000,
    ramdiskSize := 0x200000, xeonPhiId := 0 }

theorem movable_farRamdisk : Movable 0x100000 farRamdisk := by
  constructor <;> decide

theorem movable_nearRamdisk : Movable 0x100000 nearRamdisk := by
  constructor <;> decide

/-- The far ramdisk is moved. -/
theorem moved_iff_farRamdisk : Moved 0x100000 farRamdisk fun _ => 0 :=
  (moved_iff movable_farRamdisk).mpr ⟨by decide, by
    rw [if_neg (by decide)]
    decide⟩

/-- The near one goes to its bounce position at `0x302000`, which its final place overlaps: the
loader stops in `memcpy`. -/
theorem near_ramdisk_not_moved :
    Movable 0x100000 nearRamdisk ∧ ¬ Moved 0x100000 nearRamdisk fun _ => 0 := by
  refine ⟨movable_nearRamdisk, fun h => ?_⟩
  obtain ⟨-, hplace, -⟩ := (moved_iff_of_lt movable_nearRamdisk (by decide)).mp h
  exact absurd hplace (by decide)

end Philix.Inky
