/-
# The boot parameters in memory

`struct xeon_phi_boot_params` is packed; its members are listed here in order, so that their
offsets are what the compiler makes of them.  The header that `inky_patcher` puts in front of
the boot loader is the start of this struct, and `startup_32` has its first stack in it.

`moveImage` and `locate` take the boot parameters as a value.  `loader` has a pointer: it reads
the members when it needs them and stores into two of them, while it moves the command line
and the ramdisk about.  `prepareInPlace` is that code, and `prepare_in_place` says that it does
what `prepare` does, as long as the block is not in the way of the move.
-/
import Philix.Lib.Packed
import Philix.Inky.Sample

namespace Philix.Inky

open ByteMem Loop

/-! ## 1. The struct -/

/-- The members of `struct xeon_phi_boot_params`. -/
inductive Member
  | reserved | tbootAddr | pad3 | dummy | pad1 | scratch | pad6 | setupSects | rootFlags
  | syssize | pad2 | header | version | realmodeSwtch | startSys | kernelVersion
  | typeOfLoader | loadflags | setupMoveSize | code32Start | ramdiskImage | ramdiskSize
  | bootsectKludge | loaderName | extLoaderVer | extLoaderType | payloadOffset
  | initrdAddrMax | kernelAlignment | pad4 | cmdlineSize | hardwareSubarch
  | hardwareSubarchData | cmdlinePtr | xeonPhiId | msgBase | msgSizeBits | multiboot
  deriving DecidableEq, Repr

open Member in
/-- `struct xeon_phi_boot_params` -/
def xeonPhiBootParams : List (Member × Nat) :=
  [(reserved, 0x54), (tbootAddr, 8), (pad3, 128), (dummy, 256), (pad1, 4), (scratch, 4),
   (pad6, 13), (setupSects, 1), (rootFlags, 2), (syssize, 4), (pad2, 10), (header, 4),
   (version, 2), (realmodeSwtch, 4), (startSys, 2), (kernelVersion, 2), (typeOfLoader, 1),
   (loadflags, 1), (setupMoveSize, 2), (code32Start, 4), (ramdiskImage, 4), (ramdiskSize, 4),
   (bootsectKludge, 4), (loaderName, 2), (extLoaderVer, 1), (extLoaderType, 1),
   (payloadOffset, 4), (initrdAddrMax, 4), (kernelAlignment, 4), (pad4, 4), (cmdlineSize, 4),
   (hardwareSubarch, 4), (hardwareSubarchData, 8), (cmdlinePtr, 4), (xeonPhiId, 4),
   (msgBase, 8), (msgSizeBits, 1), (multiboot, 8)]

/-- "must be at this very location !!!" -/
example : [Member.setupSects, .syssize, .header].map (Packed.offsetOf · xeonPhiBootParams) =
    [0x1f1, 0x1f4, 0x202] := by decide

/-- `bp->f` -/
def field (m : Mem) (bpAddr : Nat) (f : Member) : Nat := Packed.get xeonPhiBootParams m bpAddr f

/-- `bp->f = v` -/
def setField (bpAddr : Nat) (f : Member) (v : Nat) (m : Mem) : Mem :=
  Packed.set xeonPhiBootParams bpAddr f v m

/-- The bytes of the struct. -/
def Block (bpAddr x : Nat) : Prop := Range bpAddr 609 x

/-- The members the loader uses, at one instant. -/
def BootParams.ofMem (m : Mem) (bpAddr : Nat) : BootParams where
  cmdlinePtr := .ofNat (field m bpAddr .cmdlinePtr)
  cmdlineSize := .ofNat (field m bpAddr .cmdlineSize)
  ramdiskImage := .ofNat (field m bpAddr .ramdiskImage)
  ramdiskSize := .ofNat (field m bpAddr .ramdiskSize)
  xeonPhiId := .ofNat (field m bpAddr .xeonPhiId)

/-! ## 2. The loader, with the pointer -/

/-- The copying phase of `loader`: `mb_img_start` and the memory. -/
def moveImageInPlace (endBootloader bpAddr : Nat) (m : Mem) : Except Halt (Nat × Mem) := do
  let bp := BootParams.ofMem m bpAddr
  let m ← memcpy (cmdlineStart endBootloader) bp.cmdlinePtr.toNat bp.cmdlineSize.toNat m
  let m := setField bpAddr .cmdlinePtr (cmdlineStart endBootloader) m
  let start := mbImgStart endBootloader (.ofMem m bpAddr)
  let (orig, m) ← bounce start (.ofMem m bpAddr) m
  let m ← memcpy start orig (BootParams.ofMem m bpAddr).ramdiskSize.toNat m
  pure (start, setField bpAddr .ramdiskImage start m)

/-- From the adjustment of the modules to the call of `elf64_load`. -/
def locateInPlace (bpAddr start : Nat) (mbi : MultibootInfo) (m : Mem) : Except Halt Setup :=
  let mods := adjustMods start mbi.mods
  let m := printStatus 83 m
  match (multibootFindModule mods ['c', 'p', 'u']).or
      (multibootFindModule mods ['k', 'e', 'r', 'n', 'e', 'l']) with
  | none => .error (.aborted 'E' '3')
  | some kernel =>
    let m := setField bpAddr .ramdiskImage start m
    let bp := BootParams.ofMem m bpAddr
    let m := printStatus 90 m
    let m := printStatus (BootParams.ofMem m bpAddr).xeonPhiId.toUInt8 m
    .ok {
      bp := .ofMem m bpAddr
      kernel
      mbi := {
        flags := mbi.flags ||| 0x004 ||| 0x001 ||| 0x100
        memLower := bp.ramdiskImage
        memUpper := bp.ramdiskImage + bp.ramdiskSize
        cmdline := bp.cmdlinePtr
        mods
        configTable := .ofNat bpAddr
        xeonPhiId := (BootParams.ofMem m bpAddr).xeonPhiId.toUInt8 }
      mem := m }

/-- `loader`, up to the call of `elf64_load`. -/
def prepareInPlace (endBootloader magic bpAddr : Nat) (mbi : MultibootInfo) (m : Mem) :
    Except Halt Setup := do
  let m := printStatus 83 m
  if magic ≠ k1omBootMagic then .error (.aborted 'E' '0')
  else if bpAddr / 4294967296 ≠ 0 then .error (.aborted 'E' 'a')
  else do
    let (start, m) ← moveImageInPlace endBootloader bpAddr (printStatus 83 m)
    locateInPlace bpAddr start mbi m

/-! ## 3. The block and the rest of memory -/

section Block

variable {bpAddr v : Nat} {m m' : Mem} {f g : Member}

theorem total_bootParams : Packed.total xeonPhiBootParams = 609 := by decide

theorem field_congr (h : Agree (Block bpAddr) m m') (f : Member) :
    field m bpAddr f = field m' bpAddr f := by
  refine Packed.get_congr ?_ f
  rwa [total_bootParams]

theorem ofMem_congr (h : ∀ f, field m bpAddr f = field m' bpAddr f) :
    BootParams.ofMem m bpAddr = .ofMem m' bpAddr := by
  simp only [BootParams.ofMem, h]

theorem setField_of_not_block {x : Nat} (h : ¬ Block bpAddr x) : setField bpAddr f v m x = m x := by
  refine Packed.set_of_not_range ?_
  rwa [total_bootParams]

theorem field_setField_self (hbp : bpAddr < 4294967296) :
    field (setField bpAddr f v m) bpAddr f = v % 256 ^ Packed.sizeOf f xeonPhiBootParams :=
  Packed.get_set_self (by rw [total_bootParams]; omega)

theorem field_setField_of_ne (hbp : bpAddr < 4294967296) (h : g ≠ f) :
    field (setField bpAddr f v m) bpAddr g = field m bpAddr g :=
  Packed.get_set_of_ne (by rw [total_bootParams]; omega) h

/-- A member of four bytes, stored and read back. -/
theorem ofNat_setField (hbp : bpAddr < 4294967296)
    (hsize : Packed.sizeOf f xeonPhiBootParams = 4) :
    UInt32.ofNat (field (setField bpAddr f v m) bpAddr f) = .ofNat v := by
  rw [field_setField_self hbp, hsize]
  exact UInt32.toNat_inj.mp (by simp)

theorem ofMem_set_cmdlinePtr (hbp : bpAddr < 4294967296) :
    BootParams.ofMem (setField bpAddr .cmdlinePtr v m) bpAddr =
      { BootParams.ofMem m bpAddr with cmdlinePtr := .ofNat v } := by
  simp (disch := decide) only [BootParams.ofMem, ofNat_setField hbp, field_setField_of_ne hbp]

theorem ofMem_set_ramdiskImage (hbp : bpAddr < 4294967296) :
    BootParams.ofMem (setField bpAddr .ramdiskImage v m) bpAddr =
      { BootParams.ofMem m bpAddr with ramdiskImage := .ofNat v } := by
  simp (disch := decide) only [BootParams.ofMem, ofNat_setField hbp, field_setField_of_ne hbp]

end Block

/-! ## 4. The two side by side

`InStep` relates the memory of the code, with the block in it, to the memory and the boot
parameters of the model.  The model stores nothing into the block, so that its memory is the
other's outside the block only. -/

/-- The block is not in the way: neither the status port nor what the move reads of the ramdisk
or writes is in it. -/
structure Clear (endBootloader bpAddr : Nat) (bp : BootParams) : Prop where
  status : ¬ Block bpAddr statusPort
  cmdline : ∀ x, Range (cmdlineStart endBootloader) bp.cmdlineSize.toNat x → ¬ Block bpAddr x
  ramdisk : ∀ x, Range bp.ramdiskImage.toNat bp.ramdiskSize.toNat x → ¬ Block bpAddr x
  bounced : ∀ x, Range (bp.ramdiskImage + bp.ramdiskSize + 0x1000).toNat bp.ramdiskSize.toNat x →
    ¬ Block bpAddr x
  image : ∀ x, Range (mbImgStart endBootloader bp) bp.ramdiskSize.toNat x → ¬ Block bpAddr x

/-- The members `loader` does not store into. -/
def Kept (f : Member) : Prop := f ≠ .cmdlinePtr ∧ f ≠ .ramdiskImage

/-- The code has come to `m` from `m₀`, where the model has `bp` and `mv`. -/
structure InStep (bpAddr : Nat) (m₀ m : Mem) (bp : BootParams) (mv : Mem) : Prop where
  params : BootParams.ofMem m bpAddr = bp
  kept : ∀ f, Kept f → field m bpAddr f = field m₀ bpAddr f
  rest : Agree (fun x => ¬ Block bpAddr x) m mv

section InStep

variable {endBootloader bpAddr start n d s v : Nat} {m₀ m mv : Mem} {bp : BootParams}
  {a : UInt8}

theorem InStep.refl (bpAddr : Nat) (m : Mem) : InStep bpAddr m m (.ofMem m bpAddr) m :=
  ⟨rfl, fun _ _ => rfl, .refl _ m⟩

/-- The memories change in the same way outside the block, and the block does not change. -/
theorem InStep.frame {m' mv' : Mem} (h : InStep bpAddr m₀ m bp mv)
    (hblock : Agree (Block bpAddr) m' m) (hrest : Agree (fun x => ¬ Block bpAddr x) m' mv') :
    InStep bpAddr m₀ m' bp mv' where
  params := (ofMem_congr (field_congr hblock)).trans h.params
  kept f hf := (field_congr hblock f).trans (h.kept f hf)
  rest := hrest

theorem agree_copy (hd : ∀ x, Range d n x → ¬ Block bpAddr x) :
    Agree (Block bpAddr) (copy n d s m) m :=
  fun x hx => copy_of_not_range fun hr => hd x hr hx

theorem InStep.printStatus (h : InStep bpAddr m₀ m bp mv) (hport : ¬ Block bpAddr statusPort) :
    InStep bpAddr m₀ (printStatus a m) bp (printStatus a mv) := by
  refine h.frame (fun x hx => printStatus_of_ne fun hxp => hport ?_) (h.rest.writeByte a)
  rwa [← hxp]

theorem InStep.set_cmdlinePtr (h : InStep bpAddr m₀ m bp mv) (hbp : bpAddr < 4294967296) :
    InStep bpAddr m₀ (setField bpAddr .cmdlinePtr v m) { bp with cmdlinePtr := .ofNat v } mv where
  params := by rw [ofMem_set_cmdlinePtr hbp, h.params]
  kept f hf := (field_setField_of_ne hbp hf.1).trans (h.kept f hf)
  rest x hx := (setField_of_not_block hx).trans (h.rest x hx)

theorem InStep.set_ramdiskImage (h : InStep bpAddr m₀ m bp mv) (hbp : bpAddr < 4294967296) :
    InStep bpAddr m₀ (setField bpAddr .ramdiskImage v m)
      { bp with ramdiskImage := .ofNat v } mv where
  params := by rw [ofMem_set_ramdiskImage hbp, h.params]
  kept f hf := (field_setField_of_ne hbp hf.2).trans (h.kept f hf)
  rest x hx := (setField_of_not_block hx).trans (h.rest x hx)

/-- The same `memcpy` on both sides. -/
theorem InStep.memcpy (h : InStep bpAddr m₀ m bp mv) (hd : ∀ x, Range d n x → ¬ Block bpAddr x)
    (hs : ∀ x, Range s n x → ¬ Block bpAddr x) :
    Alike (fun m mv => InStep bpAddr m₀ m bp mv) (memcpy d s n m) (memcpy d s n mv) := by
  by_cases hno : NoOverlap d s n
  · rw [memcpy_of_noOverlap hno, memcpy_of_noOverlap hno]
    exact .ok (h.frame (agree_copy hd) (h.rest.copy_both hs))
  · rw [memcpy_of_overlap hno, memcpy_of_overlap hno]
    exact .error _

/-- A `memcpy` before the first store: the source may be anywhere. -/
theorem InStep.memcpy_self (h : InStep bpAddr m₀ m bp m)
    (hd : ∀ x, Range d n x → ¬ Block bpAddr x) :
    Alike (fun m mv => InStep bpAddr m₀ m bp mv) (Inky.memcpy d s n m) (Inky.memcpy d s n m) := by
  by_cases hno : NoOverlap d s n
  · rw [memcpy_of_noOverlap hno]
    exact .ok (h.frame (agree_copy hd) (.refl _ _))
  · rw [memcpy_of_overlap hno]
    exact .error _

/-- The bounce: the place it leaves the ramdisk at is not in the block, either. -/
theorem InStep.bounce (h : InStep bpAddr m₀ m bp mv) (C : Clear endBootloader bpAddr bp) :
    Alike (fun r rv => r.1 = rv.1 ∧ InStep bpAddr m₀ r.2 bp rv.2 ∧
        ∀ x, Range r.1 bp.ramdiskSize.toNat x → ¬ Block bpAddr x)
      (Inky.bounce start bp m) (Inky.bounce start bp mv) := by
  rw [Inky.bounce, Inky.bounce]
  split
  · exact (h.memcpy C.bounced C.ramdisk).bind fun m mv h =>
      .ok ⟨rfl, h.printStatus C.status, C.bounced⟩
  · exact .ok ⟨rfl, h, C.ramdisk⟩

/-- **The move.** -/
theorem InStep.moveImage (h : InStep bpAddr m₀ m bp m) (C : Clear endBootloader bpAddr bp)
    (hbp : bpAddr < 4294967296) :
    Alike (fun r rv => r.1 = rv.1 ∧ InStep bpAddr m₀ r.2 rv.2.1 rv.2.2)
      (moveImageInPlace endBootloader bpAddr m) (Inky.moveImage endBootloader bp m) := by
  rw [moveImageInPlace, Inky.moveImage, h.params]
  refine (h.memcpy_self C.cmdline).bind fun m mv h => ?_
  replace h := h.set_cmdlinePtr (v := cmdlineStart endBootloader) hbp
  -- the members read from here on are those of `bp`, but for the command line's address
  generalize setField bpAddr .cmdlinePtr (cmdlineStart endBootloader) m = m at h ⊢
  have C' : Clear endBootloader bpAddr
      { bp with cmdlinePtr := .ofNat (cmdlineStart endBootloader) } :=
    ⟨C.status, C.cmdline, C.ramdisk, C.bounced, C.image⟩
  dsimp only
  rw [h.params]
  refine (h.bounce C').bind fun r rv hr => ?_
  obtain ⟨hfst, h, hsrc⟩ := hr
  rw [h.params, ← hfst]
  have hstart : mbImgStart endBootloader
      { bp with cmdlinePtr := .ofNat (cmdlineStart endBootloader) } =
        mbImgStart endBootloader bp := by rw [mbImgStart, mbImgStart]
  rw [hstart]
  refine (h.memcpy C.image hsrc).bind fun m mv h => ?_
  have hset := h.set_ramdiskImage (v := mbImgStart endBootloader bp) hbp
  exact .ok ⟨rfl, hset⟩

/-- What `loader` has on the two sides when it calls `elf64_load`. -/
structure SameSetup (bpAddr : Nat) (m₀ : Mem) (c cv : Setup) : Prop where
  bp : c.bp = cv.bp
  mbi : c.mbi = cv.mbi
  kernel : c.kernel = cv.kernel
  mem : InStep bpAddr m₀ c.mem c.bp cv.mem

theorem InStep.locate {mbi : MultibootInfo} (h : InStep bpAddr m₀ m bp mv)
    (hport : ¬ Block bpAddr statusPort) (hbp : bpAddr < 4294967296) :
    Alike (SameSetup bpAddr m₀) (locateInPlace bpAddr start mbi m)
      (Inky.locate bpAddr start bp mbi mv) := by
  rw [locateInPlace, Inky.locate]
  dsimp only
  generalize (multibootFindModule (adjustMods start mbi.mods) ['c', 'p', 'u']).or
    (multibootFindModule (adjustMods start mbi.mods) ['k', 'e', 'r', 'n', 'e', 'l']) = found
  cases found with
  | none => exact .error _
  | some kernel =>
    have h₁ := (h.printStatus (a := 83) hport).set_ramdiskImage (v := start) hbp
    have h₂ := h₁.printStatus (a := 90) hport
    have h₃ := h₂.printStatus (a := bp.xeonPhiId.toUInt8) hport
    dsimp only
    rw [h₁.params, h₂.params, h₃.params]
    exact .ok ⟨rfl, rfl, rfl, h₃⟩

/-- What follows the two checks. -/
theorem move_and_locate {mbi : MultibootInfo}
    (C : Clear endBootloader bpAddr (.ofMem m bpAddr)) (hbp : bpAddr < 4294967296) :
    Alike (SameSetup bpAddr m)
      (do
        let (start, m) ← moveImageInPlace endBootloader bpAddr (Inky.printStatus 83
          (Inky.printStatus 83 m))
        locateInPlace bpAddr start mbi m)
      (do
        let (start, bp, m) ← Inky.moveImage endBootloader (.ofMem m bpAddr) (Inky.printStatus 83
          (Inky.printStatus 83 m))
        Inky.locate bpAddr start bp mbi m) := by
  have h := ((InStep.refl bpAddr m).printStatus (a := 83) C.status).printStatus (a := 83) C.status
  refine (h.moveImage C hbp).bind fun ⟨start, m⟩ ⟨startv, bp, mv⟩ hr => ?_
  obtain ⟨rfl, h⟩ := hr
  exact h.locate C.status hbp

/-- Where the two checks pass. -/
theorem prepareInPlace_alike {mbi : MultibootInfo}
    (C : Clear endBootloader bpAddr (.ofMem m bpAddr)) (hbp : bpAddr < 4294967296) :
    Alike (SameSetup bpAddr m) (prepareInPlace endBootloader k1omBootMagic bpAddr mbi m)
      (prepare endBootloader k1omBootMagic bpAddr (.ofMem m bpAddr) mbi m) := by
  have hcheck : ¬ bpAddr / 4294967296 ≠ 0 := not_not.mpr (Nat.div_eq_of_lt hbp)
  rw [prepareInPlace, prepare]
  dsimp only
  rw [if_neg (not_not.mpr rfl), if_neg hcheck, if_neg (not_not.mpr rfl), if_neg hcheck]
  exact move_and_locate C hbp

end InStep

/-- **The loader with the boot parameters in memory.**  As long as the block is clear of the
move and of the status port, the code that reads them through the pointer and stores into them
on the way stops where the model stops, or calls `elf64_load` with the same parameters,
multiboot information and kernel; memory is the same outside the block, and in the block only
`cmdline_ptr` and `ramdisk_image` have changed. -/
theorem prepare_in_place (endBootloader magic bpAddr : Nat) (mbi : MultibootInfo) (m : Mem)
    (C : Clear endBootloader bpAddr (.ofMem m bpAddr)) :
    Alike (SameSetup bpAddr m) (prepareInPlace endBootloader magic bpAddr mbi m)
      (prepare endBootloader magic bpAddr (.ofMem m bpAddr) mbi m) := by
  by_cases hmagic : magic = k1omBootMagic
  · subst hmagic
    by_cases haddr : bpAddr < 4294967296
    · exact prepareInPlace_alike C haddr
    · have hcheck : bpAddr / 4294967296 ≠ 0 := by omega
      rw [prepareInPlace, prepare]
      dsimp only
      rw [if_neg (not_not.mpr rfl), if_pos hcheck, if_neg (not_not.mpr rfl), if_pos hcheck]
      exact .error _
  · rw [prepareInPlace, prepare]
    dsimp only
    rw [if_pos hmagic, if_pos hmagic]
    exact .error _

/-- Memory with the block of `farRamdisk` at `0x8f000`. -/
def farBlock : Mem := fun x =>
  match x - 0x8f000 with
  | 539 => 0x04
  | 541 => 0x10
  | 569 => 0x01
  | 586 => 0x09
  | _ => 0

theorem ofMem_farBlock : BootParams.ofMem farBlock 0x8f000 = farRamdisk := by decide

/-- The block is below everything that is moved. -/
theorem clear_farRamdisk {endBootloader : Nat} (D : Movable endBootloader farRamdisk)
    (hcmdline : 0x90000 ≤ cmdlineStart endBootloader)
    (himage : 0x90000 ≤ mbImgStart endBootloader farRamdisk) :
    Clear endBootloader 0x8f000 farRamdisk := by
  have hcmdline_le := D.cmdline_le
  have himage_le := D.image_le
  have hbounce : (farRamdisk.ramdiskImage + farRamdisk.ramdiskSize + 0x1000).toNat = 0x4002000 := by
    decide
  have hblock : ∀ x, Block 0x8f000 x → 0x8f000 ≤ x ∧ x < 0x8f000 + 609 := fun x hx =>
    (range_iff (by decide)).mp hx
  have hdisk : farRamdisk.ramdiskImage.toNat = 0x4000000 := by decide
  have hsize : farRamdisk.ramdiskSize.toNat = 0x1000 := by decide
  have hlen : farRamdisk.cmdlineSize.toNat = 0x100 := by decide
  have hport : statusPort = 0x6a6a6a := rfl
  constructor
  case status =>
    intro hx
    have := hblock _ hx
    omega
  all_goals
    intro x hr hx
    have := hblock x hx
    simp only [hbounce, hdisk, hsize, hlen] at hr
    rw [range_iff (by omega)] at hr
    omega

/-- Both find the module in the ramdisk they have moved. -/
theorem prepare_in_place_far : ∃ c c',
    prepareInPlace 0x100000 k1omBootMagic 0x8f000 sampleMbi farBlock = .ok c ∧
      prepare 0x100000 k1omBootMagic 0x8f000 farRamdisk sampleMbi farBlock = .ok c' ∧
      SameSetup 0x8f000 farBlock c c' := by
  obtain ⟨bp', moved, hmove, -⟩ : Moved 0x100000 farRamdisk
      (printStatus 83 (printStatus 83 farBlock)) :=
    (moved_iff_of_not_lt movable_farRamdisk (by decide)).mpr ⟨by decide, by decide⟩
  obtain ⟨c', hlocate⟩ :
      ∃ c', locate 0x8f000 (mbImgStart 0x100000 farRamdisk) bp' sampleMbi moved = .ok c' :=
    ⟨_, rfl⟩
  have hprep : prepare 0x100000 k1omBootMagic 0x8f000 farRamdisk sampleMbi farBlock = .ok c' :=
    prepare_eq_ok_iff.mpr ⟨moved, rfl, by decide, bp', hmove, hlocate⟩
  have halike := prepare_in_place 0x100000 k1omBootMagic 0x8f000 sampleMbi farBlock (by
    rw [ofMem_farBlock]
    exact clear_farRamdisk movable_farRamdisk (by decide) (by decide))
  rw [ofMem_farBlock, hprep] at halike
  obtain ⟨c, hc, same⟩ := halike.exists_left
  exact ⟨c, c', hc, hprep, same⟩

end Philix.Inky
