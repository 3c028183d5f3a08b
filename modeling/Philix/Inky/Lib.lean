/-
# The boot loader's library routines, and its macros

`memcpy` and `memset` of `lib.c`, and `ROUND_UP`.  Pointers are 64-bit numbers.  A failed
assertion and `eabort` both loop for ever; they are the two ways the loader can halt.
-/
import Philix.Lib.ByteMem
import Philix.Lib.Loop

namespace Philix.Inky

open ByteMem Loop

/-- How the loader can fail to return. -/
inductive Halt
  /-- `__assert` -/
  | assertFailed
  /-- `eabort`, with its status code -/
  | aborted (a b : Char)
  deriving DecidableEq, Repr

def assert (p : Prop) [Decidable p] : Except Halt Unit :=
  if p then .ok () else .error .assertFailed

/-- The assertion of `memcpy`: one range ends before the other starts. -/
def NoOverlap (dst src len : Nat) : Prop :=
  src < dst ∧ wrap (src + len) ≤ dst ∨ dst < src ∧ wrap (dst + len) ≤ src

instance (dst src len : Nat) : Decidable (NoOverlap dst src len) :=
  inferInstanceAs (Decidable (_ ∨ _))

/-- `memcpy`. -/
def memcpy (dst src len : Nat) (m : Mem) : Except Halt Mem := do
  assert (NoOverlap dst src len)
  pure (copy len dst src m)

/-- `memset`. -/
def memset (s : Nat) (c : UInt8) (n : Nat) (m : Mem) : Mem := fill c n s m

/-- `ROUND_UP`, for a `size` that is a power of two: the mask is `~(size - 1)`. -/
def roundUp (n size : Nat) : Nat := wrap (n + size - 1) &&& (18446744073709551616 - size)

def basePageSize : Nat := 0x1000

/-- 64-bit subtraction. -/
def sub64 (a b : Nat) : Nat := wrap (a + (18446744073709551616 - b))

/-! ## 1. Assertions and copies -/

theorem assert_of {p : Prop} [Decidable p] (h : p) : assert p = .ok () := if_pos h

theorem assert_of_not {p : Prop} [Decidable p] (h : ¬p) : assert p = .error .assertFailed :=
  if_neg h

section Memcpy

variable {d s n : Nat} {m : Mem}

theorem memcpy_of_overlap (h : ¬ NoOverlap d s n) :
    memcpy d s n m = .error .assertFailed := by
  rw [memcpy, assert_of_not h, error_bind]

theorem memcpy_of_noOverlap (h : NoOverlap d s n) :
    memcpy d s n m = .ok (copy n d s m) := by
  rw [memcpy, assert_of h, ok_bind, pure_eq_ok]

theorem memcpy_eq_ok_iff {m' : Mem} :
    memcpy d s n m = .ok m' ↔ NoOverlap d s n ∧ copy n d s m = m' := by
  by_cases h : NoOverlap d s n
  · simp [memcpy_of_noOverlap h, h]
  · simp [memcpy_of_overlap h, h]

/-- Two ranges that do not go round pass the assertion when they are disjoint, unless both
are empty at the same address. -/
theorem noOverlap_iff (hd : d + n < 18446744073709551616)
    (hs : s + n < 18446744073709551616) :
    NoOverlap d s n ↔ (s + n ≤ d ∨ d + n ≤ s) ∧ s ≠ d := by
  rw [NoOverlap, wrap_of_lt hd, wrap_of_lt hs]
  omega

theorem NoOverlap.disjoint (h : NoOverlap d s n) (hd : d + n < 18446744073709551616)
    (hs : s + n < 18446744073709551616) : ∀ x, Range d n x → ¬ Range s n x := by
  intro x hx hx'
  rw [range_iff (by omega)] at hx hx'
  have := (noOverlap_iff hd hs).mp h
  omega

/-- The copied bytes. -/
theorem copy_byte (h : NoOverlap d s n) (hd : d + n < 18446744073709551616)
    (hs : s + n < 18446744073709551616) {k : Nat} (hk : k < n) :
    copy n d s m (d + k) = m (s + k) := by
  have := copy_at (m := m) (n := n) (by omega) hk (h.disjoint hd hs)
  rwa [wrap_of_lt (by omega), wrap_of_lt (by omega)] at this

/-- The bytes around them. -/
theorem copy_frame (hd : d + n < 18446744073709551616) {x : Nat}
    (hx : x < d ∨ d + n ≤ x) : copy n d s m x = m x :=
  copy_of_not_range fun h => by
    rw [range_iff (by omega)] at h
    omega

end Memcpy

/-! ## 2. Rounding -/

theorem and_mask {x k : Nat} (hx : x < 2 ^ 64) (hk : k ≤ 64) :
    x &&& (2 ^ 64 - 2 ^ k) = x / 2 ^ k * 2 ^ k := by
  have hmask : 2 ^ 64 - 2 ^ k = (2 ^ (64 - k) - 1) * 2 ^ k := by
    rw [Nat.sub_mul, ← Nat.pow_add, Nat.sub_add_cancel hk, Nat.one_mul]
  refine Nat.eq_of_testBit_eq fun i => ?_
  rw [hmask, Nat.testBit_and, Nat.testBit_mul_two_pow, Nat.testBit_mul_two_pow,
    Nat.testBit_two_pow_sub_one, Nat.testBit_div_two_pow]
  by_cases hki : k ≤ i
  · by_cases hi : i < 64
    · have h1 : i - k < 64 - k := by omega
      have h2 : i - k + k = i := by omega
      simp [hki, h1, h2]
    · have hbit : x.testBit i = false :=
        Nat.testBit_lt_two_pow (Nat.lt_of_lt_of_le hx (Nat.pow_le_pow_right (by omega) (by omega)))
      have h2 : i - k + k = i := by omega
      simp [hki, h2, hbit]
  · simp [hki]

/-- **`ROUND_UP`** to a multiple of a power of two. -/
theorem roundUp_two_pow {n k : Nat} (hk : k ≤ 64) (h : n + 2 ^ k - 1 < 18446744073709551616) :
    roundUp n (2 ^ k) = (n + 2 ^ k - 1) / 2 ^ k * 2 ^ k := by
  rw [roundUp, wrap_of_lt h]
  exact and_mask h hk

end Philix.Inky
