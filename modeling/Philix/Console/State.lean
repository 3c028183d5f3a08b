/-
# The host console's data

`phi_console.h` and `console_init`: the constants, the update types, the saved line and the
part of `struct cons_struct` that the update handlers and the view keys read or write.

Line nodes live in an explicit heap.  A pointer is an optional address, with null as `none`,
and `free` takes the block away, so a load through a stale pointer is an observable fault.
`malloc` may hand out any address that is not live; in particular a freed one may come back.
-/
import Philix.Lib.HalfRing
import Philix.Lib.Loop
import Mathlib.Logic.Function.Basic

namespace Philix.Console

open HalfRing Loop

/-! ## 1. Constants and update types -/

def phiFbWidth : Nat := 80
def phiFbHeight : Nat := 25
def maxHistLines : Nat := 100000

/-- `update_type_t`. -/
inductive UpdateType
  | noUpdate | charDrawn | lineDrawn | cursorUpdate | screenRedraw | consoleShutdown
  | scrollup | inval
  deriving DecidableEq, Repr

/-- The value the device stores in the `OUTPUT_AVAIL` register for an update. -/
def UpdateType.code : UpdateType → Nat
  | .noUpdate => 0
  | .charDrawn => 1
  | .lineDrawn => 2
  | .cursorUpdate => 3
  | .screenRedraw => 4
  | .consoleShutdown => 5
  | .scrollup => 6
  | .inval => 7

/-- How a run of the host can end. -/
inductive Stop
  /-- a load or a store through a null pointer -/
  | nullDeref
  /-- a load or a store through a pointer to a block that is not live -/
  | useAfterFree
  /-- a failed `assert` -/
  | assertFailed
  /-- `exit` -/
  | exited
  /-- the main loop returned `-1` -/
  | returned
  /-- a loop went round more often than the model follows it -/
  | diverged
  deriving DecidableEq, Repr

/-! ## 2. Lines, nodes, the heap -/

abbrev Addr := Nat

/-- A pointer; `none` is `NULL`. -/
abbrev Ptr := Option Addr

/-- One row of framebuffer cells, the character in the low byte and the colour in the high. -/
abbrev Line := Fin phiFbWidth → UInt16

/-- `struct line_elm`. -/
abbrev LineElm := Node Addr Line

abbrev Heap := HalfRing.Heap Addr Line

/-- The device memory from `PHI_FB_ADDR` on, in cells. -/
abbrev Framebuffer := Nat → UInt16

/-- Row `i` of the framebuffer. -/
def fbLine (fb : Framebuffer) (i : Nat) : Line := fun j => fb (i * phiFbWidth + j)

namespace Heap

/-- The environment proposes an address; a live one cannot be handed out again. -/
def malloc (h : Heap) (choice : Ptr) : Ptr :=
  choice.filter fun a => (h a).isNone

def load (h : Heap) : Ptr → Except Stop LineElm
  | none => .error .nullDeref
  | some a =>
    match h a with
    | none => .error .useAfterFree
    | some e => .ok e

/-- A store to one field of the node at `p`. -/
def store (h : Heap) (p : Ptr) (f : LineElm → LineElm) : Except Stop Heap :=
  match p with
  | none => .error .nullDeref
  | some a =>
    match h a with
    | none => .error .useAfterFree
    | some e => .ok (Function.update h a (some (f e)))

/-- `free`; freeing null does nothing. -/
def free (h : Heap) : Ptr → Heap
  | none => h
  | some a => Function.update h a none

end Heap

/-- `assert`, compiled in. -/
def assert (b : Bool) : Except Stop Unit := if b then .ok () else .error .assertFailed

/-! ## 3. The console -/

/-- The part of `struct cons_struct` the handlers work on, with the heap its pointers point
into, the framebuffer it maps, and the addresses passed to `free` so far, oldest first. -/
structure Cons where
  fb : Framebuffer
  heap : Heap
  lineHist : Ptr
  winPtr : Ptr
  lineIdx : Int
  histCnt : Nat
  freed : List Addr

/-- `console_init`, on a mapped framebuffer. -/
def consoleInit (fb : Framebuffer) : Cons where
  fb := fb
  heap := fun _ => none
  lineHist := none
  winPtr := none
  lineIdx := 0
  histCnt := 0
  freed := []

/-! ## 4. Loads and stores on a live node -/

section Access

variable {h : Heap} {a : Addr} {e : LineElm}

@[simp] theorem load_null : Heap.load h none = .error .nullDeref := rfl

theorem load_some (he : h a = some e) : Heap.load h (some a) = .ok e := by
  simp [Heap.load, he]

@[simp] theorem assert_true : assert true = .ok () := rfl

@[simp] theorem assert_false : assert false = .error .assertFailed := rfl

theorem malloc_eq_some_iff {c : Ptr} : Heap.malloc h c = some a ↔ c = some a ∧ h a = none := by
  simp [Heap.malloc, Option.filter_eq_some_iff]

end Access

end Philix.Console
