/-
# A flat byte memory with 64-bit addresses

Addresses are numbers; `wrap` takes a sum of them round the end of the address space, and
every access wraps.  `Range a n` is the set of the `n` addresses from `a` on.

For each of the loops that write memory (`copy`, `fill`, `writeLE`) there is a frame lemma,
which says that nothing outside the range of the destination changes, and a lemma that says
what the range holds afterwards; reads of a range depend on that range only.
-/
import Mathlib.Algebra.Group.Nat.Defs
import Mathlib.Logic.Function.Basic
import Mathlib.Tactic.Common

namespace ByteMem

/-- The contents of memory, by address. -/
abbrev Mem := Nat → UInt8

/-- An address, after arithmetic. -/
def wrap (a : Nat) : Nat := a % 18446744073709551616

/-- The `n` bytes from `a` on. -/
def Range (a n x : Nat) : Prop := ∃ k < n, x = wrap (a + k)

/-- The memories hold the same on the addresses in `S`. -/
def Agree (S : Nat → Prop) (m m' : Mem) : Prop := ∀ x, S x → m x = m' x

/-! ## 1. Accesses -/

def readByte (m : Mem) (a : Nat) : UInt8 := m (wrap a)

def writeByte (m : Mem) (a : Nat) (v : UInt8) : Mem := Function.update m (wrap a) v

/-- A little-endian word of `n` bytes. -/
def readLE (m : Mem) : Nat → Nat → Nat
  | 0, _ => 0
  | n + 1, a => (readByte m a).toNat + 256 * readLE m n (a + 1)

def writeLE : Nat → Nat → Nat → Mem → Mem
  | 0, _, _, m => m
  | n + 1, a, v, m => writeLE n (a + 1) (v / 256) (writeByte m a (.ofNat (v % 256)))

/-- `while (n--) *d++ = *s++`. -/
def copy : Nat → Nat → Nat → Mem → Mem
  | 0, _, _, m => m
  | n + 1, d, s, m => copy n (d + 1) (s + 1) (writeByte m d (readByte m s))

/-- `while (n--) *p++ = c`. -/
def fill (c : UInt8) : Nat → Nat → Mem → Mem
  | 0, _, m => m
  | n + 1, p, m => fill c n (p + 1) (writeByte m p c)

/-! ## 2. Addresses and ranges -/

theorem wrap_of_lt {a : Nat} (h : a < 18446744073709551616) : wrap a = a := Nat.mod_eq_of_lt h

theorem wrap_lt (a : Nat) : wrap a < 18446744073709551616 := Nat.mod_lt _ (by omega)

@[simp] theorem wrap_wrap (a : Nat) : wrap (wrap a) = wrap a := Nat.mod_mod _ _

theorem wrap_add_left (a b : Nat) : wrap (wrap a + b) = wrap (a + b) := by
  simp only [wrap]
  omega

@[simp] theorem range_zero (a x : Nat) : Range a 0 x ↔ False := by simp [Range]

theorem range_succ {a n x : Nat} : Range a (n + 1) x ↔ x = wrap a ∨ Range (a + 1) n x := by
  constructor
  · rintro ⟨k, hk, rfl⟩
    cases k with
    | zero => exact Or.inl rfl
    | succ k => exact Or.inr ⟨k, by omega, by rw [Nat.add_assoc, Nat.add_comm 1]⟩
  · rintro (rfl | ⟨k, hk, rfl⟩)
    · exact ⟨0, by omega, rfl⟩
    · exact ⟨k + 1, by omega, by rw [Nat.add_assoc, Nat.add_comm 1]⟩

/-- An element of a table, seen from its second one. -/
theorem stride_succ {a stride i : Nat} : a + stride * (i + 1) = a + stride + stride * i := by
  rw [Nat.mul_succ, Nat.add_comm (stride * i), Nat.add_assoc]

theorem range_add {a n k : Nat} (hk : k < n) : Range a n (wrap (a + k)) := ⟨k, hk, rfl⟩

/-- A part of a range. -/
theorem Range.mono {a n k j x : Nat} (h : Range (a + k) j x) (hle : k + j ≤ n) : Range a n x := by
  obtain ⟨i, hi, rfl⟩ := h
  exact ⟨k + i, by omega, by rw [Nat.add_assoc]⟩

theorem Range.of_le {a n j x : Nat} (h : Range a j x) (hle : j ≤ n) : Range a n x := by
  obtain ⟨i, hi, rfl⟩ := h
  exact ⟨i, Nat.lt_of_lt_of_le hi hle, rfl⟩

/-- A range in two parts. -/
theorem range_append {a n k x : Nat} : Range a (n + k) x ↔ Range a n x ∨ Range (a + n) k x := by
  constructor
  · rintro ⟨i, hi, rfl⟩
    by_cases hin : i < n
    · exact Or.inl (range_add hin)
    · exact Or.inr ⟨i - n, by omega, by rw [Nat.add_assoc, Nat.add_sub_cancel' (by omega)]⟩
  · rintro (h | h)
    · exact h.of_le (by omega)
    · exact h.mono (by omega)

/-- A part of an element of a table. -/
theorem Range.element {a stride n i j k x : Nat} (h : Range (a + stride * i + j) k x) (hi : i < n)
    (hkj : j + k ≤ stride) : Range a (stride * n) x := by
  have hle : stride * (i + 1) ≤ stride * n := Nat.mul_le_mul_left _ hi
  rw [Nat.mul_succ] at hle
  rw [Nat.add_assoc] at h
  exact h.mono (by omega)

theorem range_wrap {a n x : Nat} : Range (wrap a) n x ↔ Range a n x := by
  simp only [Range, wrap_add_left]

/-- A range that does not go round. -/
theorem range_iff {a n x : Nat} (h : a + n ≤ 18446744073709551616) :
    Range a n x ↔ a ≤ x ∧ x < a + n := by
  constructor
  · rintro ⟨k, hk, rfl⟩
    rw [wrap_of_lt (by omega)]
    omega
  · rintro ⟨h1, h2⟩
    exact ⟨x - a, by omega, by rw [wrap_of_lt (by omega)]; omega⟩

/-- Within one turn of the address space the offset in a range is determined. -/
theorem wrap_add_inj {a j k n : Nat} (hn : n ≤ 18446744073709551616) (hj : j < n) (hk : k < n)
    (h : wrap (a + j) = wrap (a + k)) : j = k := by
  simp only [wrap] at h
  omega

/-! ## 3. Reads depend on their range only -/

section Read

variable {S T : Nat → Prop} {m m' m'' : Mem}

theorem Agree.refl (S : Nat → Prop) (m : Mem) : Agree S m m := fun _ _ => rfl

theorem Agree.symm (h : Agree S m m') : Agree S m' m := fun x hx => (h x hx).symm

theorem Agree.trans (h : Agree S m m') (h' : Agree S m' m'') : Agree S m m'' :=
  fun x hx => (h x hx).trans (h' x hx)

theorem Agree.mono (h : Agree S m m') (hsub : ∀ x, T x → S x) : Agree T m m' :=
  fun x hx => h x (hsub x hx)

/-- Words that hold the same bytes. -/
theorem readLE_ext : ∀ {n a a' : Nat}, (∀ k < n, m (wrap (a + k)) = m' (wrap (a' + k))) →
    readLE m n a = readLE m' n a'
  | 0, _, _, _ => rfl
  | n + 1, a, a', h => by
    have hfirst : readByte m a = readByte m' a' := h 0 (by omega)
    have hrest : readLE m n (a + 1) = readLE m' n (a' + 1) := readLE_ext fun k hk => by
      rw [Nat.add_assoc, Nat.add_assoc, Nat.add_comm 1]
      exact h (k + 1) (by omega)
    rw [readLE, readLE, hfirst, hrest]

theorem readLE_congr {n a : Nat} (h : Agree (Range a n) m m') : readLE m n a = readLE m' n a :=
  readLE_ext fun _ hk => h _ (range_add hk)

theorem readLE_eq_zero {n a : Nat} (h : ∀ x, Range a n x → m x = 0) : readLE m n a = 0 := by
  induction n generalizing a with
  | zero => rfl
  | succ n ih =>
    have hfirst : readByte m a = 0 := h _ (range_succ.mpr (Or.inl rfl))
    have hrest : readLE m n (a + 1) = 0 := ih fun x hx => h x (range_succ.mpr (Or.inr hx))
    rw [readLE, hfirst, hrest]
    rfl

theorem readLE_lt : ∀ (n a : Nat), readLE m n a < 256 ^ n
  | 0, _ => by simp [readLE]
  | n + 1, a => by
    have h1 := readLE_lt n (a + 1)
    have h2 := (readByte m a).toNat_lt
    rw [readLE, Nat.pow_succ]
    omega

theorem readLE_wrap : ∀ (n a : Nat), readLE m n (wrap a) = readLE m n a
  | 0, _ => rfl
  | n + 1, a => by
    rw [readLE, readLE, readByte, readByte, wrap_wrap, ← readLE_wrap n (wrap a + 1), wrap_add_left,
      readLE_wrap n (a + 1)]

end Read

/-! ## 4. What a loop leaves alone, and what it writes -/

section Write

variable {m : Mem} {x : Nat}

theorem writeByte_of_ne {a : Nat} (h : x ≠ wrap a) (v : UInt8) : writeByte m a v x = m x :=
  Function.update_of_ne h _ _

theorem writeByte_self (a : Nat) (v : UInt8) : writeByte m a v (wrap a) = v :=
  Function.update_self _ _ _

theorem copy_of_not_range : ∀ {n d s : Nat} {m : Mem}, ¬ Range d n x → copy n d s m x = m x
  | 0, _, _, _, _ => rfl
  | n + 1, d, s, m, h => by
    rw [range_succ, not_or] at h
    rw [copy, copy_of_not_range h.2, writeByte_of_ne h.1]

/-- **A copy between disjoint ranges.** -/
theorem copy_at : ∀ {n d s : Nat} {m : Mem} {k : Nat}, n ≤ 18446744073709551616 → k < n →
    (∀ x, Range d n x → ¬ Range s n x) → copy n d s m (wrap (d + k)) = m (wrap (s + k))
  | n + 1, d, s, m, 0, hn, _, hdis => by
    have hout : ¬ Range (d + 1) n (wrap d) := by
      rintro ⟨j, hj, e⟩
      have := wrap_add_inj (a := d) (j := 0) (k := 1 + j) hn (by omega) (by omega)
        (by rw [Nat.add_zero, ← Nat.add_assoc, e])
      omega
    change copy n (d + 1) (s + 1) (writeByte m d (readByte m s)) (wrap d) = m (wrap s)
    rw [copy_of_not_range hout, writeByte_self]
    rfl
  | n + 1, d, s, m, k + 1, hn, hk, hdis => by
    have hsub : ∀ x, Range (d + 1) n x → ¬ Range (s + 1) n x := fun x hx hs =>
      hdis x (range_succ.mpr (Or.inr hx)) (range_succ.mpr (Or.inr hs))
    have hsrc : wrap (s + 1 + k) ≠ wrap d := fun e =>
      hdis (wrap d) (range_succ.mpr (Or.inl rfl)) (range_succ.mpr (Or.inr ⟨k, by omega, e.symm⟩))
    rw [copy, show d + (k + 1) = d + 1 + k by omega, show s + (k + 1) = s + 1 + k by omega,
      copy_at (by omega) (by omega) hsub, writeByte_of_ne hsrc]

theorem fill_of_not_range {c : UInt8} : ∀ {n p : Nat} {m : Mem}, ¬ Range p n x →
    fill c n p m x = m x
  | 0, _, _, _ => rfl
  | n + 1, p, m, h => by
    rw [range_succ, not_or] at h
    rw [fill, fill_of_not_range h.2, writeByte_of_ne h.1]

theorem fill_of_range {c : UInt8} : ∀ {n p : Nat} {m : Mem}, Range p n x → fill c n p m x = c
  | n + 1, p, m, h => by
    rw [fill]
    by_cases hrest : Range (p + 1) n x
    · exact fill_of_range hrest
    · obtain rfl := (range_succ.mp h).resolve_right hrest
      rw [fill_of_not_range hrest, writeByte_self]

theorem writeLE_of_not_range : ∀ {n a v : Nat} {m : Mem}, ¬ Range a n x → writeLE n a v m x = m x
  | 0, _, _, _, _ => rfl
  | n + 1, a, v, m, h => by
    rw [range_succ, not_or] at h
    rw [writeLE, writeLE_of_not_range h.2, writeByte_of_ne h.1]

/-- A word reads back as it was written. -/
theorem readLE_writeLE : ∀ {n a v : Nat} {m : Mem}, n ≤ 18446744073709551616 →
    readLE (writeLE n a v m) n a = v % 256 ^ n
  | 0, _, _, _, _ => by simp [readLE, Nat.mod_one]
  | n + 1, a, v, m, hn => by
    have hout : ¬ Range (a + 1) n (wrap a) := by
      rintro ⟨j, hj, e⟩
      have := wrap_add_inj (a := a) (j := 0) (k := 1 + j) hn (by omega) (by omega)
        (by rw [Nat.add_zero, ← Nat.add_assoc, e])
      omega
    rw [readLE, writeLE, readLE_writeLE (by omega), readByte, writeLE_of_not_range hout,
      writeByte_self, UInt8.toNat_ofNat_of_lt' (Nat.mod_lt _ (by decide)), Nat.pow_succ,
      Nat.mul_comm (256 ^ n), Nat.mod_mul]

/-- A written range does not depend on the memory before. -/
theorem writeLE_of_range : ∀ {n a v : Nat} {m m' : Mem}, Range a n x →
    writeLE n a v m x = writeLE n a v m' x
  | n + 1, a, v, m, m', h => by
    rw [writeLE, writeLE]
    by_cases hrest : Range (a + 1) n x
    · exact writeLE_of_range hrest
    · obtain rfl := (range_succ.mp h).resolve_right hrest
      rw [writeLE_of_not_range hrest, writeLE_of_not_range hrest, writeByte_self, writeByte_self]

/-- The second of two writes of a word stays. -/
theorem writeLE_writeLE (n a v w : Nat) (m : Mem) :
    writeLE n a w (writeLE n a v m) = writeLE n a w m := by
  funext x
  by_cases hx : Range a n x
  · exact writeLE_of_range hx
  · rw [writeLE_of_not_range hx, writeLE_of_not_range hx, writeLE_of_not_range hx]

/-- **Writes to disjoint ranges commute.** -/
theorem writeLE_comm {n a v k b w : Nat} (h : ∀ x, Range a n x → ¬ Range b k x) (m : Mem) :
    writeLE n a v (writeLE k b w m) = writeLE k b w (writeLE n a v m) := by
  funext x
  by_cases ha : Range a n x
  · rw [writeLE_of_not_range (h x ha)]
    exact writeLE_of_range ha
  · rw [writeLE_of_not_range ha]
    by_cases hb : Range b k x
    · exact writeLE_of_range hb
    · rw [writeLE_of_not_range hb, writeLE_of_not_range hb, writeLE_of_not_range ha]

/-- Writing back the word that is there changes nothing. -/
theorem writeLE_readLE : ∀ (n a : Nat) (m : Mem), writeLE n a (readLE m n a) m = m
  | 0, _, _ => rfl
  | n + 1, a, m => by
    have hb := (readByte m a).toNat_lt
    have hfirst : UInt8.ofNat (((readByte m a).toNat + 256 * readLE m n (a + 1)) % 256) =
        readByte m a := by
      rw [Nat.add_mul_mod_self_left, Nat.mod_eq_of_lt hb, UInt8.ofNat_toNat]
    have hrest : ((readByte m a).toNat + 256 * readLE m n (a + 1)) / 256 = readLE m n (a + 1) := by
      omega
    rw [readLE, writeLE, hfirst, hrest, writeByte, readByte, Function.update_eq_self,
      writeLE_readLE n (a + 1) m]

/-- Words that are the same hold the same bytes. -/
theorem bytes_of_readLE_eq : ∀ {n a a' : Nat} {m m' : Mem}, readLE m n a = readLE m' n a' →
    ∀ k < n, m (wrap (a + k)) = m' (wrap (a' + k))
  | n + 1, a, a', m, m', h, k, hk => by
    rw [readLE, readLE] at h
    have h₁ := (readByte m a).toNat_lt
    have h₂ := (readByte m' a').toNat_lt
    cases k with
    | zero =>
      refine UInt8.toNat.inj ?_
      show (readByte m a).toNat = (readByte m' a').toNat
      omega
    | succ k =>
      have hrest : readLE m n (a + 1) = readLE m' n (a' + 1) := by omega
      have := bytes_of_readLE_eq hrest k (Nat.lt_of_succ_lt_succ hk)
      rwa [Nat.add_assoc, Nat.add_comm 1, Nat.add_assoc, Nat.add_comm 1] at this

/-- Memories with the same word hold the same bytes there. -/
theorem agree_of_readLE_eq {n a : Nat} {m m' : Mem} (h : readLE m n a = readLE m' n a) :
    Agree (Range a n) m m' := by
  rintro x ⟨k, hk, rfl⟩
  exact bytes_of_readLE_eq h k hk

/-- A word written elsewhere, byte by byte. -/
theorem writeLE_readLE_at {n d s : Nat} (m m' : Mem) (hn : n ≤ 18446744073709551616) {k : Nat}
    (hk : k < n) : writeLE n d (readLE m n s) m' (wrap (d + k)) = m (wrap (s + k)) := by
  refine bytes_of_readLE_eq ?_ k hk
  rw [readLE_writeLE hn, Nat.mod_eq_of_lt (readLE_lt n s)]

end Write

/-! ## 5. Writes that keep an agreement -/

section Keep

variable {S : Nat → Prop} {m₀ m : Mem} {n a : Nat}

theorem Agree.frame {m' : Mem} (h : Agree S m₀ m) (hS : ∀ x, S x → m' x = m x) : Agree S m₀ m' :=
  fun x hx => (h x hx).trans (hS x hx).symm

theorem Agree.copy (h : Agree S m₀ m) (hd : ∀ x, Range a n x → ¬ S x) (s : Nat) :
    Agree S m₀ (copy n a s m) :=
  h.frame fun x hx => copy_of_not_range fun hr => hd x hr hx

theorem Agree.fill (h : Agree S m₀ m) (hd : ∀ x, Range a n x → ¬ S x) (c : UInt8) :
    Agree S m₀ (fill c n a m) :=
  h.frame fun x hx => fill_of_not_range fun hr => hd x hr hx

theorem Agree.writeLE (h : Agree S m₀ m) (hd : ∀ x, Range a n x → ¬ S x) (v : Nat) :
    Agree S m₀ (writeLE n a v m) :=
  h.frame fun x hx => writeLE_of_not_range fun hr => hd x hr hx

/-- The same byte written to both. -/
theorem Agree.writeByte (h : Agree S m₀ m) (v : UInt8) :
    Agree S (writeByte m₀ a v) (writeByte m a v) := by
  intro x hx
  by_cases hxa : x = wrap a
  · rw [hxa, writeByte_self, writeByte_self]
  · rw [writeByte_of_ne hxa, writeByte_of_ne hxa, h x hx]

/-- The same copy in both, of bytes on which they agree. -/
theorem Agree.copy_both : ∀ {n d s : Nat} {m₀ m : Mem}, Agree S m₀ m →
    (∀ x, Range s n x → S x) → Agree S (ByteMem.copy n d s m₀) (ByteMem.copy n d s m)
  | 0, _, _, _, _, h, _ => h
  | n + 1, d, s, m₀, m, h, hsrc => by
    have hbyte : readByte m₀ s = readByte m s := h _ (hsrc _ (range_succ.mpr (Or.inl rfl)))
    rw [ByteMem.copy, ByteMem.copy, hbyte]
    exact (h.writeByte _).copy_both fun x hx => hsrc x (range_succ.mpr (Or.inr hx))

theorem Agree.readLE (h : Agree S m₀ m) (hS : ∀ x, Range a n x → S x) :
    readLE m n a = readLE m₀ n a :=
  readLE_congr (h.symm.mono hS)

end Keep

end ByteMem
