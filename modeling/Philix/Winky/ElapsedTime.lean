/-
# The elapsed time counter: `phi_etc_read`

The SBOX counts elapsed time in 64 bits and shows them as two registers of 32 bits, which are
read one after the other while it counts on.  `phi_etc_read` reads the high half, the low half
and the high half again, and starts over when the two high halves differ.

Nothing is known of the counter but that it does not go back: between two reads it may advance
by any amount, so any number of carries may fall anywhere.  Equal high halves are enough all the
same, since the one in between, which was not read, lies between them (`high_between`).
-/
import Mathlib.Algebra.Group.Nat.Defs
import Mathlib.Order.Monotone.Basic
import Mathlib.Tactic.Common

namespace Philix.Winky

/-! ## 1. The registers -/

/-- The counter, by instants: every read of a register takes one, and more may pass. -/
structure Counter where
  value : Nat → UInt64
  mono : ∀ t, value t ≤ value (t + 1)

/-- `SBOX_ELAPSED_TIME_HIGH` and `SBOX_ELAPSED_TIME_LOW`. -/
inductive EtcReg
  | high
  | low
  deriving DecidableEq, Repr

/-- The instant, and the one at which the low half was read last. -/
structure Clock where
  now : Nat
  lowRead : Nat
  deriving DecidableEq, Repr

/-- Time passes without a read of the counter. -/
def Clock.wait (k : Clock) (n : Nat) : Clock := { k with now := k.now + n }

section Code

variable (c : Counter)

/-- `phi_sbox_read`, of a register of the counter. -/
def phiSboxRead : EtcReg → Clock → UInt32 × Clock
  | .high, k => ((c.value k.now >>> 32).toUInt32, { k with now := k.now + 1 })
  | .low, k => ((c.value k.now).toUInt32, { now := k.now + 1, lowRead := k.now })

/-- `phi_etc_read`, for at most so many rounds of its loop. -/
def phiEtcRead : Nat → Clock → Option (UInt64 × Clock)
  | 0, _ => none
  | rounds + 1, k =>
    let (hi1Reg, k) := phiSboxRead c .high k
    let (low1Reg, k) := phiSboxRead c .low k
    let (hi2Reg, k) := phiSboxRead c .high k
    if hi1Reg ≠ hi2Reg then phiEtcRead rounds k
    else some ((hi1Reg.toUInt64 <<< 32) ||| low1Reg.toUInt64, k)

/-- `phi_etc_get_cycles`. -/
def phiEtcGetCycles (rounds : Nat) (k : Clock) : Option (UInt64 × Clock) := do
  let (v, k) ← phiEtcRead c rounds k
  return (v >>> 5, k)

end Code

/-- Calls one after another: how long until each, and how many rounds it gets. -/
def successive (call : Nat → Clock → Option (UInt64 × Clock)) :
    List (Nat × Nat) → Clock → Option (List UInt64)
  | [], _ => some []
  | (delay, rounds) :: calls, k => do
    let (v, k) ← call rounds (k.wait delay)
    let vs ← successive call calls k
    return v :: vs

/-! ## 2. The two halves -/

/-- The high half, as a number. -/
def high (v : UInt64) : Nat := v.toNat / 2 ^ 32

section Halves

variable {v w : UInt64}

theorem high_lt (v : UInt64) : high v < 2 ^ 32 :=
  Nat.div_lt_of_lt_mul v.toNat_lt

theorem high_mono (h : v ≤ w) : high v ≤ high w :=
  Nat.div_le_div_right h

theorem toNat_highReg (v : UInt64) : (v >>> 32).toUInt32.toNat = high v := by
  have hshift : (v >>> 32).toNat = high v := by
    rw [UInt64.toNat_shiftRight]
    exact Nat.shiftRight_eq_div_pow _ 32
  rw [UInt64.toNat_toUInt32, hshift, Nat.mod_eq_of_lt (high_lt v)]

theorem highReg_eq_iff : (v >>> 32).toUInt32 = (w >>> 32).toUInt32 ↔ high v = high w := by
  rw [← toNat_highReg, ← toNat_highReg, UInt32.toNat_inj]

/-- Halves of one value, or of two with the same high half, make up the one with the low half. -/
theorem join_halves (h : high v = high w) :
    ((v >>> 32).toUInt32.toUInt64 <<< 32) ||| w.toUInt32.toUInt64 = w := by
  have hlt := high_lt v
  have hhigh : ((v >>> 32).toUInt32.toUInt64 <<< 32).toNat = 2 ^ 32 * high v := by
    rw [UInt64.toNat_shiftLeft, UInt32.toNat_toUInt64, toNat_highReg, Nat.shiftLeft_eq,
      Nat.mul_comm]
    exact Nat.mod_eq_of_lt (show 2 ^ 32 * high v < 2 ^ 64 by omega)
  have hlow : w.toUInt32.toUInt64.toNat = w.toNat % 2 ^ 32 := by
    rw [UInt32.toNat_toUInt64, UInt64.toNat_toUInt32]
  rw [← UInt64.toNat_inj, UInt64.toNat_or, hhigh, hlow,
    ← Nat.two_pow_add_eq_or_of_lt (Nat.mod_lt _ (by decide)), h]
  exact Nat.div_add_mod _ _

end Halves

/-! ## 3. The loop -/

section Loop

variable {c : Counter} {rounds s t : Nat} {k k' : Clock} {v : UInt64}

theorem Counter.value_mono (c : Counter) (h : s ≤ t) : c.value s ≤ c.value t :=
  monotone_nat_of_le_succ (f := fun t => (c.value t).toNat) c.mono h

/-- Between equal high halves there is no other. -/
theorem high_between (c : Counter) (h : high (c.value t) = high (c.value (t + 2))) :
    high (c.value t) = high (c.value (t + 1)) := by
  have h₁ := high_mono (c.mono t)
  have h₂ := high_mono (c.mono (t + 1))
  exact Nat.le_antisymm h₁ (h ▸ h₂)

/-- A round whose high halves differ. -/
theorem phiEtcRead_retry (h : high (c.value k.now) ≠ high (c.value (k.now + 2))) :
    phiEtcRead c (rounds + 1) k = phiEtcRead c rounds ⟨k.now + 3, k.now + 1⟩ :=
  if_pos (mt highReg_eq_iff.mp h)

/-- The round that ends the loop. -/
theorem phiEtcRead_exit (h : high (c.value k.now) = high (c.value (k.now + 2))) :
    phiEtcRead c (rounds + 1) k = some (c.value (k.now + 1), ⟨k.now + 3, k.now + 1⟩) := by
  have hjoin := join_halves (high_between c h)
  have hexit : phiEtcRead c (rounds + 1) k = some (_, ⟨k.now + 3, k.now + 1⟩) :=
    if_neg (not_not_intro (highReg_eq_iff.mpr h))
  rw [hexit, hjoin]

/-- **What the loop returns**: the counter at the last read of the low half, which is one of
this call's reads. -/
theorem phiEtcRead_eq (h : phiEtcRead c rounds k = some (v, k')) :
    v = c.value k'.lowRead ∧ k.now < k'.lowRead ∧ k'.lowRead < k'.now := by
  induction rounds generalizing k with
  | zero => cases h
  | succ rounds ih =>
    by_cases heq : high (c.value k.now) = high (c.value (k.now + 2))
    · rw [phiEtcRead_exit heq] at h
      cases h
      exact ⟨rfl, Nat.lt_succ_self _, by simp only; omega⟩
    · rw [phiEtcRead_retry heq] at h
      obtain ⟨hv, hstart, hend⟩ := ih h
      exact ⟨hv, by simp only at hstart; omega, hend⟩

/-- Each round that is not the last one sees the high half grow. -/
theorem high_of_none (h : phiEtcRead c rounds k = none) :
    high (c.value k.now) + rounds ≤ high (c.value (k.now + 3 * rounds)) := by
  induction rounds generalizing k with
  | zero => exact Nat.le_refl _
  | succ rounds ih =>
    by_cases heq : high (c.value k.now) = high (c.value (k.now + 2))
    · rw [phiEtcRead_exit heq] at h
      cases h
    · rw [phiEtcRead_retry heq] at h
      have hrest := ih h
      have h₁ : high (c.value k.now) ≤ high (c.value (k.now + 2)) :=
        high_mono (c.value_mono (Nat.le_add_right _ _))
      have h₂ : high (c.value (k.now + 2)) ≤ high (c.value (k.now + 3)) :=
        high_mono (c.mono _)
      have hend : k.now + 3 + 3 * rounds = k.now + 3 * (rounds + 1) := by omega
      simp only [hend] at hrest
      omega

/-- The loop comes to an end: the high half cannot grow more than `2 ^ 32` times. -/
theorem phiEtcRead_exits (c : Counter) (k : Clock) : (phiEtcRead c (2 ^ 32) k).isSome := by
  rw [Option.isSome_iff_ne_none]
  intro h
  have hgrown := high_of_none h
  have hlt := high_lt (c.value (k.now + 3 * 2 ^ 32))
  omega

end Loop

/-! ## 4. Calls one after another -/

section Calls

variable {c : Counter} {f : UInt64 → UInt64} {call : Nat → Clock → Option (UInt64 × Clock)}
  {calls : List (Nat × Nat)} {k : Clock} {vs : List UInt64}

/-- Every call that returns does so with `f` of the counter at an instant within the call. -/
def ReadsWithin (c : Counter) (f : UInt64 → UInt64)
    (call : Nat → Clock → Option (UInt64 × Clock)) : Prop :=
  ∀ rounds k v k', call rounds k = some (v, k') →
    v = f (c.value k'.lowRead) ∧ k.now < k'.lowRead ∧ k'.lowRead < k'.now

theorem readsWithin_read (c : Counter) : ReadsWithin c id (phiEtcRead c) :=
  fun _ _ _ _ h => phiEtcRead_eq h

theorem readsWithin_getCycles (c : Counter) : ReadsWithin c (· >>> 5) (phiEtcGetCycles c) := by
  intro rounds k v k' h
  simp only [phiEtcGetCycles, Option.bind_eq_bind, Option.bind_eq_some_iff, Prod.exists] at h
  obtain ⟨w, k₁, hread, hret⟩ := h
  cases hret
  obtain ⟨rfl, hstart, hend⟩ := phiEtcRead_eq hread
  exact ⟨rfl, hstart, hend⟩

/-- One call of a run, and the rest. -/
theorem successive_cons {delay rounds : Nat}
    (h : successive call ((delay, rounds) :: calls) k = some vs) :
    ∃ v k' ws, call rounds (k.wait delay) = some (v, k') ∧ successive call calls k' = some ws ∧
      vs = v :: ws := by
  simp only [successive, Option.bind_eq_bind, Option.bind_eq_some_iff, Prod.exists] at h
  obtain ⟨v, k', hcall, ws, hrest, hret⟩ := h
  cases hret
  exact ⟨v, k', ws, hcall, hrest, rfl⟩

/-- The values of a run are read at or after its start. -/
theorem successive_after (hr : ReadsWithin c f call) (h : successive call calls k = some vs) :
    ∀ v ∈ vs, ∃ t, k.now ≤ t ∧ v = f (c.value t) := by
  induction calls generalizing k vs with
  | nil =>
    cases h
    exact List.forall_mem_nil _
  | cons d calls ih =>
    intro v hv
    obtain ⟨w, k', ws, hcall, hrest, rfl⟩ := successive_cons h
    obtain ⟨hw, hstart, hend⟩ := hr _ _ _ _ hcall
    have hwait : (k.wait d.1).now = k.now + d.1 := rfl
    rcases List.mem_cons.mp hv with rfl | hv
    · exact ⟨k'.lowRead, by omega, hw⟩
    · obtain ⟨t, ht, hvt⟩ := ih hrest v hv
      exact ⟨t, by omega, hvt⟩

/-- **Successive calls return values that do not decrease.** -/
theorem successive_sorted (hf : ∀ {v w}, v ≤ w → f v ≤ f w) (hr : ReadsWithin c f call)
    (h : successive call calls k = some vs) : vs.Pairwise (· ≤ ·) := by
  induction calls generalizing k vs with
  | nil =>
    cases h
    exact List.Pairwise.nil
  | cons d calls ih =>
    obtain ⟨v, k', ws, hcall, hrest, rfl⟩ := successive_cons h
    obtain ⟨rfl, -, hend⟩ := hr _ _ _ _ hcall
    refine List.Pairwise.cons ?_ (ih hrest)
    intro w hw
    obtain ⟨t, ht, rfl⟩ := successive_after hr hrest w hw
    exact hf (c.value_mono (by omega))

theorem shiftRight_mono {v w : UInt64} (h : v ≤ w) : v >>> 5 ≤ w >>> 5 := by
  rw [UInt64.le_iff_toNat_le, UInt64.toNat_shiftRight, UInt64.toNat_shiftRight,
    Nat.shiftRight_eq_div_pow, Nat.shiftRight_eq_div_pow]
  exact Nat.div_le_div_right h

/-- **Reads of the elapsed time are not torn.**  Whatever the counter does between two reads of a
register, as long as it does not go back: the loop exits, and when it does, after any number of
rounds, the value is that of the counter at the last read of its low half; and however many calls
there are, with whatever delays, their values do not decrease. -/
theorem etc_reads_not_torn (c : Counter) (k : Clock) :
    (phiEtcRead c (2 ^ 32) k).isSome ∧
    (∀ rounds v k', phiEtcRead c rounds k = some (v, k') →
      v = c.value k'.lowRead ∧ k.now < k'.lowRead ∧ k'.lowRead < k'.now) ∧
    (∀ calls vs, successive (phiEtcRead c) calls k = some vs → vs.Pairwise (· ≤ ·)) ∧
    (∀ calls vs, successive (phiEtcGetCycles c) calls k = some vs → vs.Pairwise (· ≤ ·)) :=
  ⟨phiEtcRead_exits c k, fun rounds v k' => readsWithin_read c rounds k v k',
    fun _ _ => successive_sorted id (readsWithin_read c),
    fun _ _ => successive_sorted shiftRight_mono (readsWithin_getCycles c)⟩

end Calls

/-- A carry into the high half between the first two reads of a high and a low half. -/
def carrying : Counter where
  value t := if t < 1 then 0xFFFFFFFF else 0x100000000
  mono t := by
    cases t with
    | zero => decide
    | succ t => exact Nat.le_refl _

/-- The first round sees the high half before and after the carry and is made again.  A call 10
instants later gets the same value. -/
theorem etc_reads_not_torn_carry :
    phiEtcRead carrying 2 ⟨0, 0⟩ = some (0x100000000, ⟨6, 4⟩) ∧
    (0x100000000 = carrying.value 4 ∧ 0 < 4 ∧ 4 < 6) ∧
    successive (phiEtcRead carrying) [(0, 2), (10, 1)] ⟨0, 0⟩ = some [0x100000000, 0x100000000] ∧
    [0x100000000, 0x100000000].Pairwise (fun v w : UInt64 => v ≤ w) ∧
    successive (phiEtcGetCycles carrying) [(0, 2), (10, 1)] ⟨0, 0⟩ =
      some [0x8000000, 0x8000000] ∧
    [0x8000000, 0x8000000].Pairwise (fun v w : UInt64 => v ≤ w) := by
  obtain ⟨-, hread, hreads, hcycles⟩ := etc_reads_not_torn carrying ⟨0, 0⟩
  have hrun : phiEtcRead carrying 2 ⟨0, 0⟩ = some (0x100000000, ⟨6, 4⟩) := by decide
  have hcalls : successive (phiEtcRead carrying) [(0, 2), (10, 1)] ⟨0, 0⟩ =
      some [0x100000000, 0x100000000] := by decide
  have hcycled : successive (phiEtcGetCycles carrying) [(0, 2), (10, 1)] ⟨0, 0⟩ =
      some [0x8000000, 0x8000000] := by decide
  exact ⟨hrun, hread _ _ _ hrun, hcalls, hreads _ _ hcalls, hcycled, hcycles _ _ hcycled⟩

end Philix.Winky
