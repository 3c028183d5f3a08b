/-
# `philix_sbox_dump`: the text and the registers

The tool prints the registers of the SBOX, four words on a line behind their offset.  The text
has them all: reading it back gives every offset with the four words found there, and two
dumps are the same exactly if the registers are.
-/
import Mathlib.Data.List.Basic
import Philix.Lib.Scan

namespace Philix.SboxDump

open Scan

/-! ## 1. The tool -/

def sboxSize : Nat := 1024 * 64

/-- `printf("0x%08x: %08x %08x %08x %08x\n", offset, *buf, ...)` -/
def printLine (words : Nat → UInt32) (offset buf : Nat) : List Char :=
  '0' :: 'x' :: (printHex08 offset ++ ':' ::
    (' ' :: (printHex08 (words buf).toNat ++
      (' ' :: (printHex08 (words (buf + 1)).toNat ++
        (' ' :: (printHex08 (words (buf + 2)).toNat ++
          (' ' :: (printHex08 (words (buf + 3)).toNat ++ ['\n'])))))))))

/-- The loop of `main`, on the words from `SBOX_BASE` on. -/
def dumpFrom (words : Nat → UInt32) : Nat → Nat → Nat → List Char
  | 0, _, _ => []
  | fuel + 1, offset, buf =>
    if offset < sboxSize then
      printLine words offset buf ++ dumpFrom words fuel (offset + 16) (buf + 4)
    else []

def sboxDump (words : Nat → UInt32) : List Char := dumpFrom words sboxSize 0 0

/-! ## 2. Reading it -/

/-- The offset, and the words behind the colon. -/
def readLine (l : List Char) : List Value :=
  sscanf [.hex] (l.takeWhile (· ≠ ':')) ++
    sscanf [.hex, .hex, .hex, .hex] (l.dropWhile (· ≠ ':')).tail

/-- The first `n` lines. -/
def readLines : Nat → List Char → List (List Value)
  | 0, _ => []
  | n + 1, text =>
    readLine (text.takeWhile (· ≠ '\n')) :: readLines n (text.dropWhile (· ≠ '\n')).tail

/-- The values of a line. -/
def line (words : Nat → UInt32) (offset buf : Nat) : List Value :=
  [offset, (words buf).toNat, (words (buf + 1)).toNat, (words (buf + 2)).toNat,
    (words (buf + 3)).toNat].map fun n => .ulong (.ofNat n)

section

variable {words words' : Nat → UInt32} {offset buf n : Nat}

theorem dumpFrom_eq : ∀ {n fuel : Nat} (offset buf : Nat), n < fuel →
    offset + 16 * n = sboxSize → dumpFrom words fuel offset buf =
      (List.range n).flatMap fun i => printLine words (offset + 16 * i) (buf + 4 * i)
  | 0, fuel + 1, offset, buf, _, h => by
    rw [dumpFrom, if_neg (by omega)]
    rfl
  | n + 1, fuel + 1, offset, buf, hlt, h => by
    have hrest := dumpFrom_eq (offset + 16) (buf + 4) (Nat.lt_of_succ_lt_succ hlt) (by omega)
    rw [dumpFrom, if_pos (by omega), hrest, List.range_succ_eq_map, List.flatMap_cons,
      List.flatMap_map]
    refine congrArg (printLine words offset buf ++ ·) (List.flatMap_congr fun i _ => ?_)
    rw [Nat.mul_succ, Nat.mul_succ, Nat.add_assoc, Nat.add_assoc, Nat.add_comm 16, Nat.add_comm 4]

theorem sboxDump_eq (words : Nat → UInt32) : sboxDump words =
    (List.range 4096).flatMap fun i => printLine words (16 * i) (4 * i) := by
  have h : dumpFrom words sboxSize 0 0 =
      (List.range 4096).flatMap fun i => printLine words (0 + 16 * i) (0 + 4 * i) :=
    dumpFrom_eq 0 0 (by decide) (by decide)
  simp only [Nat.zero_add] at h
  exact h

theorem toULong_of_lt {n : Nat} (hn : n < 2 ^ 64) : toULong false n = .ofNat n := by
  rw [toULong, if_neg (by omega)]
  rfl

/-- A blank, and a word as it is printed. -/
theorem convert_word {n : Nat} (hn : n < 2 ^ 32) {r : List Char} (hr : Ends (!isSpace ·) r) :
    convert .hex (' ' :: (printHex08 n ++ r)) = some (.ulong (.ofNat n), r) := by
  obtain ⟨h, hval⟩ := hexNumber_printHex08 n
  have hconv := convert_hex (b := [' ']) (by decide) h hr
  rwa [hval, toULong_of_lt (by omega)] at hconv

theorem ends_blank (r : List Char) : Ends (!isSpace ·) (' ' :: r) := by
  intro c hc
  obtain rfl : ' ' = c := by simpa using hc
  decide

/-- A digit is neither a colon nor the end of a line. -/
theorem ne_of_mem_printHex08 {n : Nat} {c : Char} (hc : c ∈ printHex08 n) : c ≠ ':' ∧ c ≠ '\n' := by
  have hdigit := (digits_printHex08 n).2 c hc
  constructor <;>
  · rintro rfl
    exact absurd hdigit (by decide)

/-- A line without its newline. -/
theorem printLine_eq (words : Nat → UInt32) (offset buf : Nat) : ∃ l,
    printLine words offset buf = l ++ ['\n'] ∧ (∀ c ∈ l, c ≠ '\n') ∧
      (offset < 2 ^ 32 → readLine l = line words offset buf) := by
  refine ⟨'0' :: 'x' :: (printHex08 offset ++ ':' ::
    (' ' :: (printHex08 (words buf).toNat ++
      (' ' :: (printHex08 (words (buf + 1)).toNat ++
        (' ' :: (printHex08 (words (buf + 2)).toNat ++
          (' ' :: (printHex08 (words (buf + 3)).toNat ++ []))))))))), ?_, ?_, fun hlt => ?_⟩
  · simp [printLine]
  · intro c hc
    simp only [List.mem_cons, List.mem_append, List.not_mem_nil, or_false] at hc
    rcases hc with rfl | rfl | hc | rfl | rfl | hc | rfl | hc | rfl | hc | rfl | hc <;>
      first | exact (ne_of_mem_printHex08 hc).2 | decide
  · have hhead : ∀ c ∈ '0' :: 'x' :: printHex08 offset, (decide (c ≠ ':')) = true := by
      intro c hc
      simp only [List.mem_cons] at hc
      rcases hc with rfl | rfl | hc
      · decide
      · decide
      · exact decide_eq_true (ne_of_mem_printHex08 hc).1
    have hcolon : ∀ r, Ends (fun c => decide (c ≠ ':')) (':' :: r) := by
      intro r c hc
      obtain rfl : ':' = c := by simpa using hc
      decide
    have hw := fun k => (words k).toNat_lt
    have hnumber : HexNumber ('0' :: 'x' :: printHex08 offset) := digits_printHex08 offset
    have hoffset : convert .hex ('0' :: 'x' :: printHex08 offset) =
        some (.ulong (.ofNat offset), []) := by
      have hconv := convert_hex (b := []) (r := []) (by decide) hnumber (by decide)
      rw [List.nil_append, List.append_nil] at hconv
      have hvalue : hexValue ('0' :: 'x' :: printHex08 offset) = offset :=
        calc hexValue ('0' :: 'x' :: printHex08 offset)
            = value 16 (printHex08 offset) := rfl
          _ = hexValue (printHex08 offset) :=
            (hexNumber_of_digits (digits_printHex08 offset)).2.symm
          _ = offset := (hexNumber_printHex08 offset).2
      rwa [hvalue, toULong_of_lt (by omega)] at hconv
    rw [readLine, ← List.cons_append, ← List.cons_append, takeWhile_of_ends hhead (hcolon _),
      dropWhile_of_ends hhead (hcolon _), List.tail_cons]
    rw [sscanf_cons hoffset, sscanf_cons (convert_word (hw _) (ends_blank _)),
      sscanf_cons (convert_word (hw _) (ends_blank _)),
      sscanf_cons (convert_word (hw _) (ends_blank _)),
      sscanf_cons (convert_word (hw _) (by decide))]
    rfl

theorem readLines_eq : ∀ {n : Nat} (start : Nat), 16 * (start + n) ≤ sboxSize →
    readLines n ((List.range' start n).flatMap fun i => printLine words (16 * i) (4 * i)) =
      (List.range' start n).map fun i => line words (16 * i) (4 * i)
  | 0, _, _ => rfl
  | n + 1, start, h => by
    obtain ⟨l, hl, hno, hread⟩ := printLine_eq words (16 * start) (4 * start)
    have hsize : sboxSize = 65536 := rfl
    have hin : ∀ c ∈ l, (decide (c ≠ '\n')) = true := fun c hc => decide_eq_true (hno c hc)
    have hend : ∀ r, Ends (fun c => decide (c ≠ '\n')) ('\n' :: r) := by
      intro r c hc
      obtain rfl : '\n' = c := by simpa using hc
      decide
    have hrest := readLines_eq (n := n) (start + 1) (by omega)
    rw [List.range'_succ, List.flatMap_cons, List.map_cons, hl, List.append_assoc, readLines,
      List.singleton_append, takeWhile_of_ends hin (hend _), dropWhile_of_ends hin (hend _),
      List.tail_cons, hread (by omega), hrest]

/-- A line has each of its words. -/
theorem line_inj (h : line words offset buf = line words' offset buf) :
    ∀ j < 4, words (buf + j) = words' (buf + j) := by
  have hword : ∀ {k}, UInt64.ofNat (words k).toNat = UInt64.ofNat (words' k).toNat →
      words k = words' k := by
    intro k h
    have hlt : ∀ w : UInt32, (UInt64.ofNat w.toNat).toNat = w.toNat := fun w =>
      UInt64.toNat_ofNat_of_lt' (Nat.lt_of_lt_of_le w.toNat_lt (by decide))
    rw [← UInt32.toNat_inj, ← hlt, h, hlt]
  simp only [line, List.map_cons, List.map_nil, List.cons.injEq, Value.ulong.injEq] at h
  obtain ⟨-, h₀, h₁, h₂, h₃, -⟩ := h
  intro j hj
  match j with
  | 0 => exact hword h₀
  | 1 => exact hword h₁
  | 2 => exact hword h₂
  | 3 => exact hword h₃

end

end Philix.SboxDump
