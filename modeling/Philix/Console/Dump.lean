/-
# Dumping the console: `dump_console_to_file`

The file is modelled by the bytes written to it.  The two walks over the history follow
`next` and `prev` for at most `fuel` nodes; on a history of `h` lines `h + 1` is enough, so
running out is not one of their outcomes there.
-/
import Philix.Console.Scrollup

namespace Philix.Console

open HalfRing Loop

/-- The character of a cell: the byte at its address. -/
def cellChar (c : UInt16) : UInt8 := c.toUInt8

/-- What both output functions write for a line: its 80 characters and a newline. -/
def lineBytes (line : Line) : List UInt8 :=
  (List.ofFn fun i => cellChar (line i)) ++ [10]

/-- `output_fb_to_file`. -/
def outputFbToFile (s : Cons) : List UInt8 :=
  (List.range phiFbHeight).flatMap fun i => lineBytes (fbLine s.fb i)

/-- `while (cur->next) cur = cur->next`. -/
def seekLast (heap : Heap) : Nat → Ptr → Except Stop Ptr
  | 0, _ => .error .diverged
  | fuel + 1, cur => do
    match (← heap.load cur).next with
    | some next => seekLast heap fuel (some next)
    | none => .ok cur

/-- The second loop of `output_hist_to_file`. -/
def outputHistLoop (s : Cons) : Nat → Ptr → Except Stop (List UInt8)
  | 0, _ => .error .diverged
  | fuel + 1, cur =>
    if cur = s.lineHist then .ok []
    else do
      let e ← s.heap.load cur
      pure (lineBytes e.val ++ (← outputHistLoop s fuel e.prev))

/-- `output_hist_to_file`. -/
def outputHistToFile (fuel : Nat) (s : Cons) : Except Stop (List UInt8) := do
  outputHistLoop s fuel (← seekLast s.heap fuel s.lineHist)

/-- `dump_console_to_file`; `opened` is whether `fopen` gave a stream. -/
def dumpConsoleToFile (opened : Bool) (fuel : Nat) (s : Cons) : Except Stop (List UInt8) :=
  if opened then do
    let _ ← seekLast s.heap fuel s.lineHist
    let hist ← outputHistToFile fuel s
    pure (hist ++ outputFbToFile s)
  else .error .exited

/-- The file for the lines `ls`, oldest first, and the framebuffer of `s`. -/
def fileOf (ls : List Line) (s : Cons) : List UInt8 := ls.flatMap lineBytes ++ outputFbToFile s

/-! ## 1. The walks, by position -/

section Walk

variable {s : Cons} {l : List (Addr × Line)}

theorem seekLast_eq (H : Chain s.heap s.lineHist l) :
    ∀ (fuel p : Nat), p < l.length → l.length - p ≤ fuel →
      seekLast s.heap fuel (addrAt l p) = .ok (addrAt l (l.length - 1))
  | 0, p, hp, hf => by omega
  | fuel + 1, p, hp, hf => by
    obtain ⟨q, hcell⟩ := H.cell p hp
    rw [seekLast, addrAt_of_lt hp, load_some hcell, ok_bind]
    by_cases hp1 : p + 1 < l.length
    · rw [addrAt_of_lt hp1]
      simp only [← addrAt_of_lt hp1]
      exact seekLast_eq H fuel (p + 1) hp1 (by omega)
    · rw [addrAt_eq_none_iff.mpr (by omega : l.length ≤ p + 1)]
      have hlast : addrAt l p = addrAt l (l.length - 1) := congrArg (addrAt l) (by omega)
      rw [← addrAt_of_lt hp, hlast]

/-- **The output loop from position `p`** writes the lines at `p, p - 1, .., 1` and leaves out
the one at `0`. -/
theorem outputHistLoop_eq (H : Chain s.heap s.lineHist l) :
    ∀ (fuel p : Nat), p < l.length → p < fuel →
      outputHistLoop s fuel (addrAt l p) =
        .ok (((l.take (p + 1)).tail.reverse.map Prod.snd).flatMap lineBytes)
  | 0, p, hp, hf => by omega
  | fuel + 1, 0, hp, hf => by
    rw [outputHistLoop, if_pos H.head_eq.symm]
    cases l with
    | nil => simp at hp
    | cons x l => simp
  | fuel + 1, p + 1, hp, hf => by
    have hne : addrAt l (p + 1) ≠ s.lineHist := by
      rw [H.head_eq, addrAt_of_lt hp]
      intro e
      exact absurd (addrAt_inj H.nodup e.symm (addrAt_of_lt hp)) (by omega)
    rw [outputHistLoop, if_neg hne, addrAt_of_lt hp, load_some (H.cell_succ hp), ok_bind,
      outputHistLoop_eq H fuel p (by omega) (by omega)]
    have htail : (l.take (p + 2)).tail = (l.take (p + 1)).tail ++ [l[p + 1]] := by
      rw [List.take_succ_eq_append_getElem hp, List.tail_append_of_ne_nil]
      simp
      rintro rfl
      simp at hp
    simp [htail]

theorem fileOf_length (ls : List Line) (s : Cons) :
    (fileOf ls s).length = (ls.length + phiFbHeight) * (phiFbWidth + 1) := by
  simp [fileOf, outputFbToFile, lineBytes, List.length_flatMap, Nat.add_mul]

end Walk

/-- **What the dump does.**  On an empty history it loads through a null pointer; otherwise it
writes every line but the newest.  It follows the chain of the history, and reads neither the
head's `prev` nor any other node. -/
theorem dumpConsoleToFile_of_chain {s : Cons} {l : List (Addr × Line)}
    (H : Chain s.heap s.lineHist l) {fuel : Nat} (hf : l.length < fuel) :
    dumpConsoleToFile true fuel s =
      if l = [] then .error .nullDeref else .ok (fileOf (l.tail.reverse.map Prod.snd) s) := by
  obtain ⟨fuel, rfl⟩ := Nat.exists_eq_add_of_lt hf
  by_cases hl : l = []
  · have hh : s.lineHist = none := by rw [H.head_eq, hl, addrAt_nil]
    simp [dumpConsoleToFile, seekLast, hh, hl]
  · have hpos : 0 < l.length := List.length_pos_iff.mpr hl
    have hseek := seekLast_eq H (l.length + fuel + 1) 0 hpos (by omega)
    have hout := outputHistLoop_eq H (l.length + fuel + 1) (l.length - 1) (by omega) (by omega)
    rw [← H.head_eq] at hseek
    rw [Nat.sub_add_cancel hpos, List.take_length] at hout
    simp [dumpConsoleToFile, outputHistToFile, hseek, hout, hl, fileOf]

theorem dumpConsoleToFile_eq {s : Cons} {l : List (Addr × Line)} (H : Ring s.heap s.lineHist l)
    {fuel : Nat} (hf : l.length < fuel) :
    dumpConsoleToFile true fuel s =
      if l = [] then .error .nullDeref else .ok (fileOf (l.tail.reverse.map Prod.snd) s) :=
  dumpConsoleToFile_of_chain H.chain hf

end Philix.Console
