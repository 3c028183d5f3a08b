/-
# Loops of 32-bit stores

`storeLoop stride step n edi eax` is the loop of assembly that stores `%eax` at `%edi`, adds
`step` to the one and `stride` to the other, `n` times.  Registers have 32 bits and go round.

In a region below 4 GiB that starts at `base`, memory is read as dwords, `dword m base k`.  A
loop whose stride is `d` dwords changes every `d`th of them from its first one on
(`dword_storeLoop_hit`) and no other (`dword_storeLoop_miss`); `dword_quads` puts the two
together for a loop over quadwords.
-/
import Philix.Lib.ByteMem

namespace StoreLoop

open ByteMem

/-- 32-bit addition. -/
def add32 (a b : Nat) : Nat := (a + b) % 4294967296

/-- `n` stores. -/
def storeLoop (stride step : Nat) : Nat → Nat → Nat → Mem → Mem
  | 0, _, _, m => m
  | n + 1, edi, eax, m =>
    storeLoop stride step n (add32 edi stride) (add32 eax step) (writeLE 4 edi eax m)

/-- The `k`th dword from `base` on. -/
def dword (m : Mem) (base k : Nat) : Nat := readLE m 4 (base + 4 * k)

variable {m : Mem} {base size d step n j k i eax v : Nat}

/-! ## 1. One store -/

/-- A word is its low part and its high part. -/
theorem readLE_add (m : Mem) : ∀ (a b p : Nat),
    readLE m (a + b) p = readLE m a p + 256 ^ a * readLE m b (p + a)
  | 0, b, p => by
    rw [Nat.zero_add, readLE, Nat.zero_add, Nat.pow_zero, Nat.one_mul, Nat.add_zero]
  | a + 1, b, p => by
    have ih := readLE_add m a b (p + 1)
    rw [Nat.add_right_comm, readLE, ih, readLE, Nat.pow_succ', Nat.mul_add, ← Nat.mul_assoc,
      ← Nat.add_assoc, Nat.add_assoc p 1 a, Nat.add_comm 1 a]

/-- A quadword is two dwords. -/
theorem readLE_eight (m : Mem) (base k : Nat) :
    readLE m 8 (base + 8 * k) = dword m base (2 * k) + 4294967296 * dword m base (2 * k + 1) := by
  have hlow : base + 4 * (2 * k) = base + 8 * k := by omega
  have hhigh : base + 4 * (2 * k + 1) = base + 8 * k + 4 := by omega
  rw [readLE_add m 4 4, dword, dword, hlow, hhigh]
  rfl

theorem dword_writeLE_same (m : Mem) (base k v : Nat) :
    dword (writeLE 4 (base + 4 * k) v m) base k = v % 4294967296 :=
  readLE_writeLE (by decide)

theorem dword_writeLE_of_ne (hsize : base + 4 * size ≤ 4294967296) (hj : j < size) (hk : k < size)
    (hne : k ≠ j) : dword (writeLE 4 (base + 4 * j) v m) base k = dword m base k := by
  refine readLE_congr fun x hx => writeLE_of_not_range fun hx' => hne ?_
  rw [range_iff (by omega)] at hx hx'
  omega

/-! ## 2. The loop -/

/-- An address of a dword of the region, in a register. -/
theorem add32_dword (hsize : base + 4 * size ≤ 4294967296) (hj : j < size) :
    (base + 4 * j) % 4294967296 = base + 4 * j := Nat.mod_eq_of_lt (by omega)

/-- The address of the next round. -/
theorem add32_stride : add32 (base + 4 * j) (4 * d) = (base + 4 * (j + d)) % 4294967296 := by
  rw [add32, Nat.mul_add, Nat.add_assoc]

/-- A dword that is none of those the loop comes to. -/
theorem dword_storeLoop_miss (hsize : base + 4 * size ≤ 4294967296) (hk : k < size) :
    ∀ {n j eax : Nat} {m : Mem}, (∀ i < n, j + d * i < size ∧ k ≠ j + d * i) →
      dword (storeLoop (4 * d) step n ((base + 4 * j) % 4294967296) eax m) base k =
        dword m base k
  | 0, _, _, _, _ => rfl
  | n + 1, j, eax, m, h => by
    have hj := h 0 (Nat.succ_pos n)
    rw [Nat.mul_zero, Nat.add_zero] at hj
    rw [storeLoop, add32_dword hsize hj.1, add32_stride, dword_storeLoop_miss hsize hk,
      dword_writeLE_of_ne hsize hj.1 hk hj.2]
    intro i hi
    rw [← stride_succ]
    exact h (i + 1) (Nat.succ_lt_succ hi)

/-- The dword of the `i`th round. -/
theorem dword_storeLoop_hit (hsize : base + 4 * size ≤ 4294967296) (hd : 0 < d) :
    ∀ {n j eax i : Nat} {m : Mem}, i < n → (∀ i < n, j + d * i < size) →
      dword (storeLoop (4 * d) step n ((base + 4 * j) % 4294967296) eax m) base (j + d * i) =
        (eax + step * i) % 4294967296
  | n + 1, j, eax, i, m, hi, h => by
    have hj := h 0 (Nat.succ_pos n)
    rw [Nat.mul_zero, Nat.add_zero] at hj
    have hrest : ∀ i < n, j + d + d * i < size := by
      intro i hi
      rw [← stride_succ]
      exact h (i + 1) (Nat.succ_lt_succ hi)
    rw [storeLoop, add32_dword hsize hj, add32_stride]
    cases i with
    | zero =>
      rw [Nat.mul_zero, Nat.add_zero, dword_storeLoop_miss hsize hj, dword_writeLE_same,
        Nat.mul_zero, Nat.add_zero]
      intro i hi
      exact ⟨hrest i hi, by omega⟩
    | succ i =>
      rw [stride_succ, dword_storeLoop_hit hsize hd (Nat.lt_of_succ_lt_succ hi) hrest, add32,
        Nat.mod_add_mod, Nat.mul_succ, Nat.add_assoc, Nat.add_comm step]

/-- **A loop over quadwords**: every other dword from `j` on, as long as `%eax` does not go
round. -/
theorem dword_quads (hsize : base + 4 * size ≤ 4294967296) (hj : j + 2 * n ≤ size + 1)
    (hk : k < size) (hv : ∀ i < n, eax + step * i < 4294967296) :
    dword (storeLoop 8 step n ((base + 4 * j) % 4294967296) eax m) base k =
      if j ≤ k ∧ k < j + 2 * n ∧ (k - j) % 2 = 0 then eax + step * ((k - j) / 2)
      else dword m base k := by
  by_cases hin : j ≤ k ∧ k < j + 2 * n ∧ (k - j) % 2 = 0
  · obtain ⟨i, rfl⟩ : ∃ i, k = j + 2 * i := ⟨(k - j) / 2, by omega⟩
    have hi : i < n := by omega
    have h : dword (storeLoop (4 * 2) step n ((base + 4 * j) % 4294967296) eax m) base
        (j + 2 * i) = (eax + step * i) % 4294967296 :=
      dword_storeLoop_hit hsize (by decide) hi fun i hi => by omega
    rw [if_pos hin, h, Nat.mod_eq_of_lt (hv i hi), Nat.add_sub_cancel_left,
      Nat.mul_div_cancel_left _ (by decide)]
  · have h : dword (storeLoop (4 * 2) step n ((base + 4 * j) % 4294967296) eax m) base k =
        dword m base k :=
      dword_storeLoop_miss hsize hk fun i hi => ⟨by omega, by omega⟩
    rw [if_neg hin, h]

/-- Nothing outside the dwords of the rounds, and what is between them, changes. -/
theorem storeLoop_succ_of_not_range {stride edi x : Nat} (hs : 4 ≤ stride)
    (hend : edi + stride * n + 4 ≤ 4294967296) (hx : ¬ Range edi (stride * n + 4) x) :
    storeLoop stride step (n + 1) edi eax m x = m x := by
  induction n generalizing edi eax m with
  | zero => exact writeLE_of_not_range hx
  | succ n ih =>
    rw [Nat.mul_succ] at hend hx
    have hfirst : ¬ Range edi 4 x := fun h => hx (h.of_le (by omega))
    have hnext : add32 edi stride = edi + stride := Nat.mod_eq_of_lt (by omega)
    have hrest : ¬ Range (edi + stride) (stride * n + 4) x := fun h => hx (h.mono (by omega))
    rw [storeLoop, hnext, ih (by omega) hrest, writeLE_of_not_range hfirst]

/-- Nothing outside the `n` strides changes. -/
theorem storeLoop_of_not_range {stride edi x : Nat} (hs : 4 ≤ stride)
    (hend : edi + stride * n ≤ 4294967296) (hx : ¬ Range edi (stride * n) x) :
    storeLoop stride step n edi eax m x = m x := by
  cases n with
  | zero => rfl
  | succ n =>
    rw [Nat.mul_succ] at hend hx
    exact storeLoop_succ_of_not_range hs (by omega) fun h => hx (h.of_le (by omega))

end StoreLoop
