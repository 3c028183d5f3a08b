/-
# The image: `inky_patcher.c`

The patcher puts two sectors in front of the boot loader.  They start the boot parameters, and
three members of it are filled in: how many more sectors there are, the size of what follows in
paragraphs of 16 bytes, and the signature.  The bootstrap of the card finds the boot loader by
them.

`executable` reads an image as the bootstrap does.  `patcher_round_trip` says which members it
finds, and that it gets the boot loader back exactly as long as its size in paragraphs fits
into 32 bits.
-/
import Philix.Inky.BootParams
import Mathlib.Data.List.TakeDrop

namespace Philix.Inky

open ByteMem

/-! ## 1. The patcher -/

/-- `SETUP_SECTORS` -/
def setupSectors : Nat := 2

/-- `SECTOR_SIZE` -/
def sectorSize : Nat := 512

/-- `HEADER_SIZE` -/
def headerSize : Nat := setupSectors * sectorSize

/-- `sys_size`, an `unsigned int`. -/
def sysSize (stSize : Nat) : Nat := (stSize + 15) / 16 % 4294967296

/-- The stores into `buf`, in order, after it has been cleared; each keeps the low eight bits
of its value. -/
def bufStores (stSize : Nat) : List (Nat × UInt8) :=
  [(514, 0x48), (515, 0x64), (516, 0x72), (517, 0x53), (0x1f1, .ofNat (setupSectors - 1)),
   (0x1f4, .ofNat (sysSize stSize)), (0x1f5, .ofNat (sysSize stSize >>> 8)),
   (0x1f6, .ofNat (sysSize stSize >>> 16)), (0x1f7, .ofNat (sysSize stSize >>> 24))]

def store (buf : List UInt8) (p : Nat × UInt8) : List UInt8 := buf.set p.1 p.2

/-- `buf`, as much of it as is written. -/
def buf (stSize : Nat) : List UInt8 :=
  (bufStores stSize).foldl store (List.replicate headerSize 0)

/-- `main`, for the bytes of the file: an empty one cannot be mapped. -/
def patcher (file : List UInt8) : Option (List UInt8) :=
  if file.length = 0 then none else some (buf file.length ++ file)

/-! ## 2. Reading the image -/

/-- Bytes in memory, from address 0 on. -/
def imageMem (bytes : List UInt8) : Mem := fun x => bytes.getD x 0

/-- The boot loader in an image: behind the setup sectors, `syssize` paragraphs. -/
def executable (image : List UInt8) : List UInt8 :=
  let bp := field (imageMem image) 0
  (image.drop ((bp .setupSects + 1) * sectorSize)).take (bp .syssize * 16)

/-- `"HdrS"` -/
def signature : List Char := ['H', 'd', 'r', 'S']

/-- The members of a header for `stSize` bytes. -/
def headerField (stSize : Nat) : Member → Nat
  | .setupSects => setupSectors - 1
  | .syssize => sysSize stSize
  | .header => signature.foldr (fun c n => c.toNat + 256 * n) 0
  | _ => 0

/-! ## 3. The header -/

section Stores

variable {ps : List (Nat × UInt8)} {b : List UInt8} {i : Nat} {v : UInt8}

theorem length_stores : ∀ (ps : List (Nat × UInt8)) (b : List UInt8),
    (ps.foldl store b).length = b.length
  | [], _ => rfl
  | p :: ps, b => (length_stores ps (store b p)).trans List.length_set

/-- A byte that is not stored into. -/
theorem getD_stores_of_not_mem (h : i ∉ ps.map Prod.fst) :
    (ps.foldl store b).getD i 0 = b.getD i 0 := by
  induction ps generalizing b with
  | nil => rfl
  | cons p ps ih =>
    rw [List.map_cons, List.mem_cons, not_or] at h
    rw [List.foldl_cons, ih h.2, store, List.getD_eq_getElem?_getD,
      List.getElem?_set_ne (Ne.symm h.1), List.getD_eq_getElem?_getD]

/-- A byte that is stored into once. -/
theorem getD_stores (hi : i < b.length) (hnodup : (ps.map Prod.fst).Nodup) (h : (i, v) ∈ ps) :
    (ps.foldl store b).getD i 0 = v := by
  induction ps generalizing b with
  | nil => cases h
  | cons p ps ih =>
    rw [List.map_cons, List.nodup_cons] at hnodup
    rw [List.foldl_cons]
    rcases List.mem_cons.mp h with rfl | h
    · rw [getD_stores_of_not_mem hnodup.1, store, List.getD_eq_getElem?_getD,
        List.getElem?_set_self hi, Option.getD_some]
    · exact ih (by rwa [store, List.length_set]) hnodup.2 h

end Stores

section Header

variable {stSize : Nat}

theorem length_buf (stSize : Nat) : (buf stSize).length = headerSize :=
  (length_stores _ _).trans List.length_replicate

theorem fst_bufStores (stSize : Nat) : (bufStores stSize).map Prod.fst =
    [514, 515, 516, 517, 0x1f1, 0x1f4, 0x1f5, 0x1f6, 0x1f7] := rfl

theorem buf_of_mem {i : Nat} {v : UInt8} (hi : i < headerSize) (h : (i, v) ∈ bufStores stSize) :
    (buf stSize).getD i 0 = v := by
  refine getD_stores (by rwa [List.length_replicate]) ?_ h
  rw [fst_bufStores]
  decide

theorem buf_of_not_mem {i : Nat} (hi : i < headerSize)
    (h : i ∉ [514, 515, 516, 517, 0x1f1, 0x1f4, 0x1f5, 0x1f6, 0x1f7]) :
    (buf stSize).getD i 0 = 0 := by
  rw [buf, getD_stores_of_not_mem (by rwa [fst_bufStores]), List.getD_eq_getElem?_getD,
    List.getElem?_replicate_of_lt hi, Option.getD_some]

theorem readByte_image (file : List UInt8) {i : Nat} (hi : i < headerSize) :
    readByte (imageMem (buf stSize ++ file)) i = (buf stSize).getD i 0 := by
  have hlt : headerSize < 18446744073709551616 := by decide
  rw [readByte, wrap_of_lt (by omega), imageMem, List.getD_eq_getElem?_getD,
    List.getElem?_append_left (by rw [length_buf]; exact hi), List.getD_eq_getElem?_getD]

/-- Four bytes of a word, shifted out one after the other. -/
theorem fourBytes {w : Nat} (hw : w < 4294967296) :
    (UInt8.ofNat w).toNat + 256 * ((UInt8.ofNat (w >>> 8)).toNat +
      256 * ((UInt8.ofNat (w >>> 16)).toNat + 256 * (UInt8.ofNat (w >>> 24)).toNat)) = w := by
  simp only [UInt8.toNat_ofNat', Nat.shiftRight_eq_div_pow]
  omega

/-- **The members of the header.** -/
theorem field_image (stSize : Nat) (file : List UInt8) (f : Member) :
    field (imageMem (buf stSize ++ file)) 0 f = headerField stSize f := by
  -- the byte of the `k`th store
  have hbyte : ∀ k (hk : k < (bufStores stSize).length), (bufStores stSize)[k].1 < headerSize →
      readByte (imageMem (buf stSize ++ file)) (bufStores stSize)[k].1 =
        (bufStores stSize)[k].2 := fun k hk hlt =>
    (readByte_image file hlt).trans (buf_of_mem hlt (List.getElem_mem hk))
  have hlen : (bufStores stSize).length = 9 := rfl
  by_cases hs : f = .setupSects
  · subst hs
    have h₀ : readByte (imageMem (buf stSize ++ file)) 0x1f1 = .ofNat (setupSectors - 1) :=
      hbyte 4 (by omega) (by decide : 0x1f1 < headerSize)
    change (readByte _ 0x1f1).toNat + 256 * 0 = _
    rw [h₀]
    rfl
  by_cases hn : f = .syssize
  · subst hn
    have h₀ : readByte (imageMem (buf stSize ++ file)) 0x1f4 = .ofNat (sysSize stSize) :=
      hbyte 5 (by omega) (by decide : 0x1f4 < headerSize)
    have h₁ : readByte (imageMem (buf stSize ++ file)) 0x1f5 = .ofNat (sysSize stSize >>> 8) :=
      hbyte 6 (by omega) (by decide : 0x1f5 < headerSize)
    have h₂ : readByte (imageMem (buf stSize ++ file)) 0x1f6 = .ofNat (sysSize stSize >>> 16) :=
      hbyte 7 (by omega) (by decide : 0x1f6 < headerSize)
    have h₃ : readByte (imageMem (buf stSize ++ file)) 0x1f7 = .ofNat (sysSize stSize >>> 24) :=
      hbyte 8 (by omega) (by decide : 0x1f7 < headerSize)
    change (readByte _ 0x1f4).toNat + 256 * ((readByte _ 0x1f5).toNat +
      256 * ((readByte _ 0x1f6).toNat + 256 * ((readByte _ 0x1f7).toNat + 256 * 0))) = _
    rw [h₀, h₁, h₂, h₃]
    exact fourBytes (Nat.mod_lt _ (by decide))
  by_cases hh : f = .header
  · subst hh
    have h₀ : readByte (imageMem (buf stSize ++ file)) 514 = 0x48 :=
      hbyte 0 (by omega) (by decide : 514 < headerSize)
    have h₁ : readByte (imageMem (buf stSize ++ file)) 515 = 0x64 :=
      hbyte 1 (by omega) (by decide : 515 < headerSize)
    have h₂ : readByte (imageMem (buf stSize ++ file)) 516 = 0x72 :=
      hbyte 2 (by omega) (by decide : 516 < headerSize)
    have h₃ : readByte (imageMem (buf stSize ++ file)) 517 = 0x53 :=
      hbyte 3 (by omega) (by decide : 517 < headerSize)
    change (readByte _ 514).toNat + 256 * ((readByte _ 515).toNat +
      256 * ((readByte _ 516).toNat + 256 * ((readByte _ 517).toNat + 256 * 0))) = _
    rw [h₀, h₁, h₂, h₃]
    rfl
  · have hzero : headerField stSize f = 0 := by
      cases f <;> first | rfl | contradiction
    have hend := Packed.offsetOf_add_sizeOf_le f xeonPhiBootParams
    have hdis₁ := Packed.offsetOf_disjoint hs xeonPhiBootParams
    have hdis₂ := Packed.offsetOf_disjoint hn xeonPhiBootParams
    have hdis₃ := Packed.offsetOf_disjoint hh xeonPhiBootParams
    have hoff : Packed.offsetOf .setupSects xeonPhiBootParams = 0x1f1 ∧
        Packed.offsetOf .syssize xeonPhiBootParams = 0x1f4 ∧
        Packed.offsetOf .header xeonPhiBootParams = 514 := by decide
    have hsize : Packed.sizeOf .setupSects xeonPhiBootParams = 1 ∧
        Packed.sizeOf .syssize xeonPhiBootParams = 4 ∧
        Packed.sizeOf .header xeonPhiBootParams = 4 := by decide
    rw [hoff.1, hsize.1] at hdis₁
    rw [hoff.2.1, hsize.2.1] at hdis₂
    rw [hoff.2.2, hsize.2.2] at hdis₃
    rw [total_bootParams] at hend
    have hheader : headerSize = 1024 := rfl
    rw [hzero]
    refine readLE_eq_zero fun x hx => ?_
    rw [range_iff (by omega)] at hx
    have hlt : x < headerSize := by omega
    have hread := @readByte_image stSize file x hlt
    rw [readByte, wrap_of_lt (by omega)] at hread
    rw [hread]
    refine buf_of_not_mem hlt ?_
    simp only [List.mem_cons, List.not_mem_nil, or_false]
    omega

end Header

/-! ## 4. The round trip -/

/-- **The image and the file.**  Every file but the empty one gets an image.  Its first two
sectors are the header, with `headerField`'s members and zeroes; what is behind them is the
file, and the bootstrap gets the first `16 * syssize` bytes of it: all of it as long as its
paragraphs fit into 32 bits, and else not. -/
theorem patcher_round_trip (file : List UInt8) :
    (file = [] ∧ patcher file = none) ∨
    ∃ image, file ≠ [] ∧ patcher file = some image ∧
      (∀ f, field (imageMem image) 0 f = headerField file.length f) ∧
      image.drop headerSize = file ∧
      (executable image = file ↔ file.length ≤ 16 * 4294967295) := by
  by_cases hnil : file = []
  · exact Or.inl ⟨hnil, if_pos (List.length_eq_zero_iff.mpr hnil)⟩
  · have hdrop : (buf file.length ++ file).drop headerSize = file := by
      rw [← length_buf file.length, List.drop_left]
    refine Or.inr ⟨buf file.length ++ file, hnil,
      if_neg (fun h => hnil (List.length_eq_zero_iff.mp h)), field_image file.length file, hdrop,
      ?_⟩
    have hstart : (headerField file.length .setupSects + 1) * sectorSize = headerSize := rfl
    have hsize : headerField file.length .syssize = sysSize file.length := rfl
    rw [executable, field_image, field_image, hstart, hsize, hdrop, List.take_eq_self_iff, sysSize]
    omega

end Philix.Inky
