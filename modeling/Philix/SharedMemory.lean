/-
# Host and card on the one memory

The terminal, the mailbox and the host have each been modelled with a state of their own.  On
the card there is one memory: the device stores cells and writes registers, the host has it
mapped and polls, and one of them may be anywhere while the other is at its next access.

This is that system, an access at a time.  It refines the mailbox protocol with its registers
in memory (`simulated`).  And what the model has assumed of the framebuffer holds in it: as
long as no poll gives up, each update is handled on the framebuffer it was posted on, which
does not change while its case runs (`handled_as_posted`).
-/
import Philix.Confined
import Philix.Lib.ByteMem
import Philix.Mailbox.LockStep
import Philix.Winky.Stores

namespace Philix

open Console Winky Lts Loop
open ByteMem (Mem Agree Range readLE writeLE wrap range_iff writeLE_of_not_range readLE_writeLE
  readLE_congr readLE_ext wrap_of_lt writeLE_readLE_at)
open Mailbox (Post ParamReg Act State HostPc DevPc Handled Phase answers)

/-! ## 1. The window -/

/-- The registers that the two sides use. -/
inductive Reg
  | outputAvail | outputDrawn | char | line
  deriving DecidableEq, Repr

def Reg.offset : Reg → Nat
  | .outputAvail => 0x0
  | .outputDrawn => 0x1
  | .char => 0x2
  | .line => 0x4

/-- The address of a register on the card: `(uint32_t*)PHI_FB_CTRL_REG_ADDR + off`. -/
def phiConsReg (r : Reg) : Nat := phiFbCtrlRegAddr + 4 * r.offset

def phiFbAddr : Nat := 0xb8000

def phiFbRegsOffset : Nat := phiFbWidth * phiFbHeight * 2

/-- The host's: `console.ctrl_regs + reg`, from the start of the mapped memory. -/
def consoleReg (r : Reg) : Nat := phiFbAddr + phiFbRegsOffset + 4 * r.offset

/-- The two mean the same registers. -/
theorem consoleReg_eq (r : Reg) : consoleReg r = phiConsReg r := rfl

def readReg (a : Nat) (m : Mem) : UInt32 := .ofNat (readLE m 4 a)

def writeReg (a : Nat) (v : UInt32) (m : Mem) : Mem := writeLE 4 a v.toNat m

/-- The framebuffer, `console.fb` and `term.buf`. -/
def screen (m : Mem) : Framebuffer := fun k =>
  if k < vgaHeight * vgaWidth then .ofNat (readLE m 2 (cellAddr k)) else 0

/-- What the terminal does to memory. -/
def Winky.DevOp.write : DevOp → Mem → Mem
  | .store index v, m => writeLE 2 (cellAddr index) v.toNat m
  | .copy i, m => writeLE 8 (vgaBaseAddr + 8 * i) (readLE m 8 (vgaBaseAddr + 8 * (i + 20))) m
  | .notify _, m => m

/-- The framebuffer and the registers behind it. -/
def InWindow (x : Nat) : Prop := vgaBaseAddr ≤ x ∧ x < phiFbCtrlRegAddr + 20

section Memory

variable {m : Mem} {r r' : Reg} {v : UInt32} {k : Nat}

theorem range_cell (hk : k < vgaHeight * vgaWidth) (x : Nat) :
    Range (cellAddr k) 2 x ↔ vgaBaseAddr + 2 * k ≤ x ∧ x < vgaBaseAddr + 2 * k + 2 := by
  have hlt : cellAddr k + 2 ≤ phiFbCtrlRegAddr := cell_below_ctrlReg.mp hk
  have htop : phiFbCtrlRegAddr ≤ 18446744073709551616 := by decide
  rw [range_iff (Nat.le_trans hlt htop), cellAddr]

theorem range_reg (r : Reg) (x : Nat) :
    Range (phiConsReg r) 4 x ↔ phiFbCtrlRegAddr + 4 * r.offset ≤ x ∧
      x < phiFbCtrlRegAddr + 4 * r.offset + 4 := by
  refine range_iff ?_
  cases r <;> decide

theorem range_long {i : Nat} (hi : i < 500) (x : Nat) :
    Range (vgaBaseAddr + 8 * i) 8 x ↔
      vgaBaseAddr + 8 * i ≤ x ∧ x < vgaBaseAddr + 8 * i + 8 := by
  refine range_iff ?_
  simp only [vgaBaseAddr]
  omega

/-- The cells end where the registers start. -/
theorem cells_end : phiFbCtrlRegAddr = vgaBaseAddr + 2 * (vgaHeight * vgaWidth) := rfl

theorem readReg_writeReg_self (r : Reg) (v : UInt32) (m : Mem) :
    readReg (phiConsReg r) (writeReg (phiConsReg r) v m) = v := by
  have hlt : v.toNat < 256 ^ 4 := v.toNat_lt
  rw [readReg, writeReg, readLE_writeLE (by decide), Nat.mod_eq_of_lt hlt, UInt32.ofNat_toNat]

theorem readReg_writeReg_of_ne (h : r' ≠ r) (v : UInt32) (m : Mem) :
    readReg (phiConsReg r') (writeReg (phiConsReg r) v m) = readReg (phiConsReg r') m := by
  refine congrArg UInt32.ofNat (readLE_congr fun x hx => writeLE_of_not_range fun hx' => ?_)
  rw [range_reg] at hx hx'
  cases r <;> cases r' <;> simp only [Reg.offset, ne_eq, not_true_eq_false] at * <;> omega

theorem screen_writeReg (r : Reg) (v : UInt32) (m : Mem) :
    screen (writeReg (phiConsReg r) v m) = screen m := by
  funext k
  rw [screen, screen]
  by_cases hk : k < vgaHeight * vgaWidth
  · rw [if_pos hk, if_pos hk]
    refine congrArg UInt16.ofNat (readLE_congr fun x hx => writeLE_of_not_range fun hx' => ?_)
    rw [range_cell hk] at hx
    rw [range_reg, cells_end] at hx'
    omega
  · rw [if_neg hk, if_neg hk]

/-- What is stored keeps off the registers. -/
theorem readReg_write {op : DevOp} (h : op.Inside) (r : Reg) (m : Mem) :
    readReg (phiConsReg r) (op.write m) = readReg (phiConsReg r) m := by
  refine congrArg UInt32.ofNat (readLE_congr fun x hx => ?_)
  rw [range_reg, cells_end] at hx
  cases op with
  | store index v =>
    refine writeLE_of_not_range fun hx' => ?_
    have hlt : index < vgaHeight * vgaWidth := h
    rw [range_cell hlt] at hx'
    omega
  | copy i =>
    refine writeLE_of_not_range fun hx' => ?_
    have hlt : i < 480 := h
    rw [range_long (by omega)] at hx'
    simp only [vgaHeight, vgaWidth] at hx
    omega
  | notify p => rfl

theorem screen_store {index : Nat} (h : index < vgaHeight * vgaWidth) (v : UInt16) (m : Mem) :
    screen (writeLE 2 (cellAddr index) v.toNat m) = Function.update (screen m) index v := by
  funext k
  by_cases hk : k = index
  · subst hk
    have hlt : v.toNat < 256 ^ 2 := v.toNat_lt
    rw [Function.update_self, screen, if_pos h, readLE_writeLE (by decide), Nat.mod_eq_of_lt hlt,
      UInt16.ofNat_toNat]
  · rw [Function.update_of_ne hk, screen, screen]
    by_cases hlt : k < vgaHeight * vgaWidth
    · rw [if_pos hlt, if_pos hlt]
      refine congrArg UInt16.ofNat (readLE_congr fun x hx => writeLE_of_not_range fun hx' => ?_)
      rw [range_cell hlt] at hx
      rw [range_cell h] at hx'
      omega
    · rw [if_neg hlt, if_neg hlt]

/-- A `long` is four cells. -/
theorem screen_copy {i : Nat} (hi : i < 480) (m : Mem) :
    screen (DevOp.write (.copy i) m) = fun k =>
      if 4 * i ≤ k ∧ k < 4 * i + 4 then screen m (k + vgaWidth) else screen m k := by
  funext k
  have hsize : vgaHeight * vgaWidth = 2000 := rfl
  have hwidth : vgaWidth = 80 := rfl
  by_cases hin : 4 * i ≤ k ∧ k < 4 * i + 4
  · have hk : k < vgaHeight * vgaWidth := by omega
    have hsrc : k + vgaWidth < vgaHeight * vgaWidth := by omega
    rw [if_pos hin, screen, screen, if_pos hk, if_pos hsrc]
    refine congrArg UInt16.ofNat (readLE_ext fun j hj => ?_)
    obtain ⟨b, rfl⟩ := Nat.exists_eq_add_of_le hin.1
    have hd : cellAddr (4 * i + b) + j = vgaBaseAddr + 8 * i + (2 * b + j) := by
      rw [cellAddr]
      omega
    have hs : cellAddr (4 * i + b + vgaWidth) + j =
        vgaBaseAddr + 8 * (i + 20) + (2 * b + j) := by
      rw [cellAddr]
      omega
    rw [hd, hs]
    exact writeLE_readLE_at m m (by decide) (by omega)
  · rw [if_neg hin, screen, screen]
    by_cases hlt : k < vgaHeight * vgaWidth
    · rw [if_pos hlt, if_pos hlt]
      refine congrArg UInt16.ofNat (readLE_congr fun x hx => writeLE_of_not_range fun hx' => ?_)
      rw [range_cell hlt] at hx
      rw [range_long (by omega)] at hx'
      omega
    · rw [if_neg hlt, if_neg hlt]

/-- **A store in memory** is one in the framebuffer. -/
theorem screen_write {op : DevOp} (h : op.Inside) (m : Mem) (ps : List (Post × Framebuffer)) :
    screen (op.write m) = (op.exec (screen m, ps)).1 := by
  cases op with
  | store index v => exact screen_store h v m
  | copy i => exact screen_copy h m
  | notify p => rfl

theorem agree_writeReg (r : Reg) (v : UInt32) (m : Mem) :
    Agree (fun x => ¬ InWindow x) m (writeReg (phiConsReg r) v m) := by
  refine (Agree.refl _ m).writeLE (fun x hx hout => hout ?_) _
  rw [range_reg] at hx
  have hlow : vgaBaseAddr ≤ phiFbCtrlRegAddr := by decide
  cases r <;> simp only [Reg.offset] at hx <;> constructor <;> omega

theorem agree_write {op : DevOp} (h : op.Inside) (m : Mem) :
    Agree (fun x => ¬ InWindow x) m (op.write m) := by
  have hsize : vgaHeight * vgaWidth = 2000 := rfl
  cases op with
  | store index v =>
    refine (Agree.refl _ m).writeLE (fun x hx hout => hout ?_) _
    have hlt : index < vgaHeight * vgaWidth := h
    rw [range_cell hlt] at hx
    rw [InWindow, cells_end]
    omega
  | copy i =>
    refine (Agree.refl _ m).writeLE (fun x hx hout => hout ?_) _
    have hlt : i < 480 := h
    rw [range_long (by omega)] at hx
    rw [InWindow, cells_end]
    omega
  | notify p => exact Agree.refl _ m

/-- The window is all that the registers and the framebuffer are read from. -/
theorem readReg_window {m m' : Mem} (h : Agree InWindow m m') (r : Reg) :
    readReg (consoleReg r) m = readReg (consoleReg r) m' := by
  refine congrArg UInt32.ofNat (readLE_congr fun x hx => h x ?_)
  rw [consoleReg_eq, range_reg] at hx
  have hlow : vgaBaseAddr ≤ phiFbCtrlRegAddr := by decide
  cases r <;> simp only [Reg.offset] at hx <;> constructor <;> omega

theorem screen_window {m m' : Mem} (h : Agree InWindow m m') : screen m = screen m' := by
  funext k
  rw [screen, screen]
  by_cases hk : k < vgaHeight * vgaWidth
  · rw [if_pos hk, if_pos hk]
    refine congrArg UInt16.ofNat (readLE_congr fun x hx => h x ?_)
    rw [range_cell hk] at hx
    rw [InWindow, cells_end]
    omega
  · rw [if_neg hk, if_neg hk]

end Memory

/-! ## 2. The two processes -/

/-- `todo` is what the device has still to do.  The last four fields are history only: what it
has done, what the host has handled and on which framebuffer, and how many calls have
returned. -/
structure Shared where
  mem : Mem
  host : HostPc
  dev : DevPc
  todo : List DevOp
  done : List DevOp
  handled : List Handled
  seen : List Framebuffer
  returned : Nat

/-- The host at its first poll, the device before `ops`. -/
def Shared.start (m : Mem) (ops : List DevOp) : Shared where
  mem := m
  host := .polling
  dev := .idle
  todo := ops
  done := []
  handled := []
  seen := []
  returned := 0

def Shared.write (s : Shared) (a : Nat) (v : UInt32) : Shared :=
  { s with mem := writeReg a v s.mem }

/-- The register of a parameter. -/
def paramReg : ParamReg → Reg
  | .char => .char
  | .line => .line

/-- The write to `OUTPUT_AVAIL`; the device spins after it. -/
def Shared.post (s : Shared) (p : Post) (ops : List DevOp) : Shared :=
  { s.write (phiConsReg .outputAvail) p.avail with
    dev := .spinning
    todo := ops
    done := s.done ++ [.notify p] }

/-- What the case for `u` reads. -/
def Shared.readParam (s : Shared) (nocurses : Bool) (u : UpdateType) : Option UInt32 :=
  match nocurses, u with
  | false, .charDrawn => some (readReg (consoleReg .char) s.mem)
  | false, .lineDrawn => some (readReg (consoleReg .line) s.mem)
  | _, _ => none

/-- The host has run the case for `u`, read from the `nth` post. -/
def Shared.handle (s : Shared) (nocurses : Bool) (u : UpdateType) (nth : Nat) (pc : HostPc) :
    Shared :=
  { s with
    host := pc
    handled := s.handled ++ [⟨nth, u, s.readParam nocurses u⟩]
    seen := s.seen ++ [screen s.mem] }

/-- A store of the device to the framebuffer, or a step of the mailbox. -/
inductive Access
  | store
  | mailbox (a : Act)
  deriving DecidableEq

inductive SharedStep (nocurses : Bool) : Shared → Access → Shared → Prop
  /-- The device, between two notifications. -/
  | store {s : Shared} {op : DevOp} {ops : List DevOp} : s.dev = .idle → s.todo = op :: ops →
      (∀ p, op ≠ .notify p) → SharedStep nocurses s .store
        { s with mem := op.write s.mem, todo := ops, done := s.done ++ [op] }
  | pollEmpty {s : Shared} : s.host = .polling → readReg (consoleReg .outputAvail) s.mem = 0 →
      SharedStep nocurses s (.mailbox .poll) s
  | pollFull {s : Shared} : s.host = .polling → readReg (consoleReg .outputAvail) s.mem ≠ 0 →
      SharedStep nocurses s (.mailbox .poll) { s with
        host := .switching (Mailbox.typeOf (readReg (consoleReg .outputAvail) s.mem))
          ((notified s.done).length - 1) }
  | giveUp {s : Shared} : s.host = .polling → readReg (consoleReg .outputAvail) s.mem = 0 →
      SharedStep nocurses s (.mailbox .giveUp) { s with host := .switching .noUpdate 0 }
  | runNothing {s : Shared} {nth : Nat} : s.host = .switching .noUpdate nth →
      SharedStep nocurses s (.mailbox .run) { s with host := .clearing .noUpdate }
  | run {s : Shared} {u : UpdateType} {nth : Nat} : s.host = .switching u nth →
      u ≠ .noUpdate → u ≠ .inval →
      SharedStep nocurses s (.mailbox .run) (s.handle nocurses u nth (.clearing u))
  | fail {s : Shared} {u : UpdateType} {nth : Nat} : s.host = .switching u nth →
      u ≠ .noUpdate → u ≠ .inval → u ≠ .consoleShutdown →
      SharedStep nocurses s (.mailbox .fail) (s.handle nocurses u nth .stopped)
  | failUnknown {s : Shared} {nth : Nat} : s.host = .switching .inval nth →
      SharedStep nocurses s (.mailbox .fail) { s with host := .stopped }
  | clear {s : Shared} {u : UpdateType} : s.host = .clearing u →
      SharedStep nocurses s (.mailbox .clear)
        { s.write (consoleReg .outputAvail) 0 with host := .acking u }
  | ack {s : Shared} {u : UpdateType} : s.host = .acking u →
      SharedStep nocurses s (.mailbox .ack) { s.write (consoleReg .outputDrawn) 1 with
        host := if u = .consoleShutdown then .stopped else .polling }
  | call {s : Shared} {p : Post} {ops : List DevOp} : s.dev = .idle → s.todo = .notify p :: ops →
      p.param = none → SharedStep nocurses s (.mailbox (.call p)) (s.post p ops)
  | callParam {s : Shared} {p : Post} {ops : List DevOp} {r : ParamReg} {v : UInt32} :
      s.dev = .idle → s.todo = .notify p :: ops → p.param = some (r, v) →
      SharedStep nocurses s (.mailbox (.call p))
        { s.write (phiConsReg (paramReg r)) v with dev := .posting p }
  | post {s : Shared} {p : Post} {ops : List DevOp} : s.dev = .posting p →
      s.todo = .notify p :: ops → SharedStep nocurses s (.mailbox .post) (s.post p ops)
  | spinAgain {s : Shared} : s.dev = .spinning → readReg (phiConsReg .outputDrawn) s.mem = 0 →
      SharedStep nocurses s (.mailbox .spin) s
  | spinDone {s : Shared} : s.dev = .spinning → readReg (phiConsReg .outputDrawn) s.mem ≠ 0 →
      SharedStep nocurses s (.mailbox .spin) { s with dev := .clearing }
  | clearDrawn {s : Shared} : s.dev = .clearing →
      SharedStep nocurses s (.mailbox .clearDrawn) { s.write (phiConsReg .outputDrawn) 0 with
        dev := .idle
        returned := s.returned + 1 }

/-- The steps of a run in which no poll gives up. -/
abbrev Patient (nocurses : Bool) : Shared → Access → Shared → Prop :=
  Restrict (SharedStep nocurses) fun _ a => a ≠ .mailbox .giveUp

/-! ## 3. The mailbox in it -/

/-- The state of the mailbox protocol. -/
def Shared.mailbox (s : Shared) : State where
  avail := readReg (phiConsReg .outputAvail) s.mem
  drawn := readReg (phiConsReg .outputDrawn) s.mem
  charReg := readReg (phiConsReg .char) s.mem
  lineReg := readReg (phiConsReg .line) s.mem
  host := s.host
  dev := s.dev
  posted := notified s.done
  handled := s.handled
  returned := s.returned

/-- The step of the protocol an access is, if it is one. -/
def Access.acts : Access → List Act
  | .store => []
  | .mailbox a => [a]

/-- A register of the protocol, written. -/
def putReg (s : State) (v : UInt32) : Reg → State
  | .outputAvail => { s with avail := v }
  | .outputDrawn => { s with drawn := v }
  | .char => { s with charReg := v }
  | .line => { s with lineReg := v }

section Refines

variable {nocurses : Bool} {s t : Shared} {a : Access} {op : DevOp} {ops : List DevOp}

theorem mailbox_write (s : Shared) (r : Reg) (v : UInt32) :
    (s.write (phiConsReg r) v).mailbox = putReg s.mailbox v r := by
  cases r <;>
    simp only [Shared.mailbox, Shared.write, putReg, readReg_writeReg_self, ne_eq, reduceCtorEq,
      not_false_eq_true, readReg_writeReg_of_ne]

theorem notified_append (ops ops' : List DevOp) :
    notified (ops ++ ops') = notified ops ++ notified ops' := List.filterMap_append

theorem notified_of_ne (h : ∀ p, op ≠ .notify p) : notified [op] = [] := by
  cases op with
  | notify p => exact absurd rfl (h p)
  | _ => rfl

/-- A store of the device is no step of the mailbox. -/
theorem mailbox_store (hin : op.Inside) (h : ∀ p, op ≠ .notify p) :
    Shared.mailbox { s with mem := op.write s.mem, todo := ops, done := s.done ++ [op] } =
      s.mailbox := by
  simp only [Shared.mailbox, readReg_write hin, notified_append, notified_of_ne h,
    List.append_nil]

theorem mailbox_post (s : Shared) (p : Post) (ops : List DevOp) :
    (s.post p ops).mailbox = s.mailbox.post p := by
  have hwrite := mailbox_write s .outputAvail p.avail
  calc (s.post p ops).mailbox
      = { (s.write (phiConsReg .outputAvail) p.avail).mailbox with
          dev := .spinning
          posted := notified (s.done ++ [.notify p]) } := rfl
    _ = s.mailbox.post p := by
        rw [hwrite, notified_append]
        rfl

/-- **One access** is one step of the protocol, or none. -/
theorem simulate_step (hin : ∀ op ∈ s.todo, op.Inside) (h : SharedStep nocurses s a t) :
    Run (Mailbox.Step nocurses) s.mailbox a.acts t.mailbox ∧ ∀ op ∈ t.todo, op.Inside := by
  have htail : ∀ {op : DevOp} {ops : List DevOp}, s.todo = op :: ops → ∀ op ∈ ops, op.Inside :=
    fun h op hop => hin op (h ▸ List.mem_cons_of_mem _ hop)
  cases h with
  | @store op ops _ htodo hne =>
    have hop : op.Inside := hin op (htodo ▸ List.mem_cons_self)
    rw [mailbox_store hop hne]
    exact ⟨.refl _, htail htodo⟩
  | pollEmpty hpc h0 => exact ⟨.cons (.pollEmpty hpc h0) (.refl _), hin⟩
  | pollFull hpc h0 => exact ⟨.cons (.pollFull hpc h0) (.refl _), hin⟩
  | giveUp hpc h0 => exact ⟨.cons (.giveUp hpc h0) (.refl _), hin⟩
  | runNothing hpc => exact ⟨.cons (.runNothing hpc) (.refl _), hin⟩
  | run hpc h₁ h₂ => exact ⟨.cons (.run hpc h₁ h₂) (.refl _), hin⟩
  | fail hpc h₁ h₂ h₃ => exact ⟨.cons (.fail hpc h₁ h₂ h₃) (.refl _), hin⟩
  | failUnknown hpc => exact ⟨.cons (.failUnknown hpc) (.refl _), hin⟩
  | @clear u hpc =>
    have hmem : Shared.mailbox { s.write (consoleReg .outputAvail) 0 with host := .acking u } =
        { putReg s.mailbox 0 .outputAvail with host := .acking u } := by
      rw [← mailbox_write]
      rfl
    rw [hmem]
    exact ⟨.cons (.clear hpc) (.refl _), hin⟩
  | @ack u hpc =>
    have hmem : Shared.mailbox { s.write (consoleReg .outputDrawn) 1 with
          host := if u = .consoleShutdown then .stopped else .polling } =
        { putReg s.mailbox 1 .outputDrawn with
          host := if u = .consoleShutdown then .stopped else .polling } := by
      rw [← mailbox_write]
      rfl
    rw [hmem]
    exact ⟨.cons (.ack hpc) (.refl _), hin⟩
  | call hdev htodo hparam =>
    rw [mailbox_post]
    exact ⟨.cons (.call hdev hparam) (.refl _), htail htodo⟩
  | @callParam p _ r v hdev htodo hparam =>
    have hmem : Shared.mailbox { s.write (phiConsReg (paramReg r)) v with dev := .posting p } =
        { s.mailbox.writeParam (r, v) with dev := .posting p } := by
      have hput : putReg s.mailbox v (paramReg r) = s.mailbox.writeParam (r, v) := by
        cases r <;> rfl
      rw [← hput, ← mailbox_write]
      rfl
    rw [hmem]
    exact ⟨.cons (.callParam hdev hparam) (.refl _), hin⟩
  | post hdev htodo =>
    rw [mailbox_post]
    exact ⟨.cons (.post hdev) (.refl _), htail htodo⟩
  | spinAgain hdev h0 => exact ⟨.cons (.spinAgain hdev h0) (.refl _), hin⟩
  | spinDone hdev h0 => exact ⟨.cons (.spinDone hdev h0) (.refl _), hin⟩
  | clearDrawn hdev =>
    have hmem : Shared.mailbox { s.write (phiConsReg .outputDrawn) 0 with
          dev := .idle
          returned := s.returned + 1 } =
        { putReg s.mailbox 0 .outputDrawn with
          dev := .idle
          returned := s.returned + 1 } := by
      rw [← mailbox_write]
      rfl
    rw [hmem]
    exact ⟨.cons (.clearDrawn hdev) (.refl _), hin⟩

/-- **The system refines the mailbox protocol.** -/
theorem simulated {as : List Access} (hin : ∀ op ∈ s.todo, op.Inside)
    (h : Run (SharedStep nocurses) s as t) :
    Run (Mailbox.Step nocurses) s.mailbox (as.flatMap Access.acts) t.mailbox := by
  have hsim : ∀ (s : Shared) (a : Access) (t : Shared) (m : State),
      (s.mailbox = m ∧ ∀ op ∈ s.todo, op.Inside) → SharedStep nocurses s a t →
      ∃ m', Run (Mailbox.Step nocurses) m a.acts m' ∧
        (t.mailbox = m' ∧ ∀ op ∈ t.todo, op.Inside) := by
    rintro s a t _ ⟨rfl, hin⟩ hst
    obtain ⟨hrun, hin'⟩ := simulate_step hin hst
    exact ⟨_, hrun, rfl, hin'⟩
  obtain ⟨_, hrun, rfl, -⟩ := h.simulate hsim ⟨rfl, hin⟩
  exact hrun

end Refines

/-! ## 4. Each update on its framebuffer -/

/-- The notifications so far, each with the framebuffer it was made on. -/
def Shared.posts (m₀ : Mem) (s : Shared) : List (Post × Framebuffer) :=
  (execs s.done (screen m₀, [])).2

/-- What holds while no poll gives up: memory is what the device has made of it, and from the
notification on until its call returns it is what was notified. -/
structure Faithful (nocurses : Bool) (m₀ : Mem) (ops : List DevOp) (s : Shared) : Prop where
  split : s.done ++ s.todo = ops
  phase : Phase nocurses s.mailbox
  screen : Philix.screen s.mem = (execs s.done (Philix.screen m₀, [])).1
  last : s.dev = .spinning ∨ s.dev = .clearing →
    ∃ ps p, s.posts m₀ = ps ++ [(p, Philix.screen s.mem)]
  seen : s.seen = ((s.posts m₀).map Prod.snd).take s.handled.length
  frame : Agree (fun x => ¬ InWindow x) m₀ s.mem

section Run

variable {nocurses : Bool} {m₀ : Mem} {ops : List DevOp} {s t : Shared} {a : Access} {op : DevOp}

theorem map_fst_execs : ∀ (ops : List DevOp) (fb : Framebuffer) (ps : List (Post × Framebuffer)),
    (execs ops (fb, ps)).2.map Prod.fst = ps.map Prod.fst ++ notified ops
  | [], _, _ => (List.append_nil _).symm
  | .store _ _ :: ops, _, _ => map_fst_execs ops _ _
  | .copy _ :: ops, _, _ => map_fst_execs ops _ _
  | .notify p :: ops, fb, ps => by
    have h := map_fst_execs ops fb (ps ++ [(p, fb)])
    rw [List.map_append, List.append_assoc] at h
    exact h

theorem prefix_execs : ∀ (ops : List DevOp) (fb : Framebuffer) (ps : List (Post × Framebuffer)),
    ps <+: (execs ops (fb, ps)).2
  | [], _, _ => List.prefix_rfl
  | .store _ _ :: ops, _, _ => prefix_execs ops _ _
  | .copy _ :: ops, _, _ => prefix_execs ops _ _
  | .notify _ :: ops, fb, ps => (List.prefix_append ps _).trans (prefix_execs ops fb _)

theorem map_fst_posts (m₀ : Mem) (s : Shared) : (s.posts m₀).map Prod.fst = notified s.done :=
  map_fst_execs s.done _ []

theorem Faithful.posts_prefix (F : Faithful nocurses m₀ ops s) :
    s.posts m₀ <+: (execs ops (Philix.screen m₀, [])).2 := by
  rw [← F.split, execs_append]
  exact prefix_execs s.todo _ _

theorem length_answers (ps : List Post) : (answers nocurses ps).length = ps.length :=
  List.length_mapIdx

/-- The updates handled are the first ones posted. -/
theorem handled_of_phase {s : State} (h : Phase nocurses s) :
    s.handled.length ≤ s.posted.length ∧
      s.handled = answers nocurses (s.posted.take s.handled.length) := by
  have key : ∀ ps rest, s.posted = ps ++ rest → s.handled = answers nocurses ps →
      s.handled.length ≤ s.posted.length ∧
        s.handled = answers nocurses (s.posted.take s.handled.length) := by
    intro ps rest hps hans
    rw [hans, length_answers, hps, List.take_left, List.length_append]
    exact ⟨Nat.le_add_right _ _, rfl⟩
  cases h with
  | quiet _ _ _ _ _ hans => exact key _ [] (List.append_nil _).symm hans
  | posted ps p _ hps _ _ _ _ _ hans => exact key ps [p] hps hans
  | handled _ _ _ _ hans => exact key _ [] (List.append_nil _).symm hans
  | acked _ _ _ _ _ hans => exact key _ [] (List.append_nil _).symm hans

/-- The host at an update: it is the last one posted, and the device waits. -/
theorem switching_of_phase {s : State} (h : Phase nocurses s) {u : UpdateType} {nth : Nat}
    (hhost : s.host = .switching u nth) :
    ∃ ps p, s.posted = ps ++ [p] ∧ u = p.type ∧ nth = ps.length ∧ s.dev = .spinning ∧
      s.handled = answers nocurses ps ∧ s.readParam nocurses p.type = p.seen nocurses := by
  cases h with
  | quiet _ hpc => simp [hhost] at hpc
  | posted ps p hdev hps hpc _ _ hready _ hans =>
    obtain ⟨rfl, rfl⟩ : u = p.type ∧ nth = ps.length := by simpa [hhost] using hpc
    exact ⟨ps, p, hps, rfl, rfl, hdev, hans, hready⟩
  | handled _ hpc => simp [hhost] at hpc
  | acked _ hpc => simp [hhost] at hpc

theorem Faithful.handled_le (F : Faithful nocurses m₀ ops s) :
    s.handled.length ≤ (s.posts m₀).length := by
  have hle : s.handled.length ≤ (notified s.done).length := (handled_of_phase F.phase).1
  rwa [← map_fst_posts m₀, List.length_map] at hle

/-- **The host at an update**, with the framebuffer as it was posted. -/
theorem Faithful.switching (F : Faithful nocurses m₀ ops s) {u : UpdateType} {nth : Nat}
    (hhost : s.host = .switching u nth) :
    ∃ ps p, s.posts m₀ = ps ++ [(p, Philix.screen s.mem)] ∧ u = p.type ∧ nth = ps.length ∧
      s.handled.length = ps.length ∧ s.readParam nocurses u = p.seen nocurses := by
  obtain ⟨ps, p, hps, rfl, rfl, hdev, hans, hready⟩ := switching_of_phase F.phase hhost
  obtain ⟨qs, q, hqs⟩ := F.last (Or.inl hdev)
  have hposted : notified s.done = ps ++ [p] := hps
  rw [← map_fst_posts m₀, hqs, List.map_append] at hposted
  obtain ⟨hqs', hq⟩ := List.append_inj' hposted rfl
  obtain rfl : q = p := List.singleton_inj.mp hq
  have hlen : ps.length = qs.length := by rw [← hqs', List.length_map]
  have hhandled : s.handled.length = ps.length := by
    have hans : s.handled = answers nocurses ps := hans
    rw [hans, length_answers]
  have hread : s.readParam nocurses q.type = s.mailbox.readParam nocurses q.type := by
    cases q <;> cases nocurses <;> rfl
  exact ⟨qs, q, hqs, rfl, hlen, hhandled.trans hlen, hread.trans hready⟩

theorem phase_step (hs : Phase nocurses s.mailbox) (hin : ∀ op ∈ s.todo, op.Inside)
    (h : SharedStep nocurses s a t) (ha : a ≠ .mailbox .giveUp) : Phase nocurses t.mailbox := by
  have hrun := (simulate_step hin h).1
  cases a with
  | store =>
    rw [Access.acts, run_nil_iff] at hrun
    rwa [← hrun]
  | mailbox a =>
    rw [Access.acts, run_cons_iff] at hrun
    obtain ⟨u, hstep, hu⟩ := hrun
    rw [run_nil_iff] at hu
    rw [← hu]
    exact hs.step hstep fun h => ha (congrArg _ h)

/-- A step that leaves the framebuffer and the histories alone. -/
theorem Faithful.congr (F : Faithful nocurses m₀ ops s) (hphase : Phase nocurses t.mailbox)
    (hdone : t.done = s.done) (htodo : t.todo = s.todo) (hhandled : t.handled = s.handled)
    (hseen : t.seen = s.seen) (hscreen : Philix.screen t.mem = Philix.screen s.mem)
    (hmem : Agree (fun x => ¬ InWindow x) s.mem t.mem)
    (hdev : t.dev = .spinning ∨ t.dev = .clearing → s.dev = .spinning ∨ s.dev = .clearing) :
    Faithful nocurses m₀ ops t := by
  have hposts : t.posts m₀ = s.posts m₀ := by rw [Shared.posts, hdone, Shared.posts]
  refine ⟨?_, hphase, ?_, fun h => ?_, ?_, F.frame.trans hmem⟩
  · rw [hdone, htodo, F.split]
  · rw [hscreen, hdone, F.screen]
  · rw [hposts, hscreen]
    exact F.last (hdev h)
  · rw [hseen, hposts, hhandled, F.seen]

/-- The case of an update runs. -/
theorem Faithful.handle (F : Faithful nocurses m₀ ops s) {u : UpdateType} {nth : Nat}
    {pc : HostPc} (hhost : s.host = .switching u nth)
    (hphase : Phase nocurses (s.handle nocurses u nth pc).mailbox) :
    Faithful nocurses m₀ ops (s.handle nocurses u nth pc) := by
  obtain ⟨ps, p, hps, -, -, hlen, -⟩ := F.switching hhost
  refine ⟨F.split, hphase, F.screen, F.last, ?_, F.frame⟩
  show s.seen ++ [Philix.screen s.mem] =
    ((s.posts m₀).map Prod.snd).take (s.handled ++ [_]).length
  rw [F.seen, hps, List.length_append, List.length_singleton, hlen, List.map_append]
  have hmap : ps.length = (ps.map (Prod.snd : Post × Framebuffer → Framebuffer)).length :=
    (List.length_map _).symm
  rw [hmap, List.take_left, List.take_of_length_le (by simp)]
  rfl

/-- The device has posted an update. -/
theorem Faithful.post (F : Faithful nocurses m₀ ops s) {p : Post} {rest : List DevOp}
    (htodo : s.todo = .notify p :: rest) (hphase : Phase nocurses (s.post p rest).mailbox) :
    Faithful nocurses m₀ ops (s.post p rest) := by
  have hscreen : Philix.screen (s.post p rest).mem = Philix.screen s.mem :=
    screen_writeReg .outputAvail p.avail s.mem
  have hexecs : execs (s.post p rest).done (Philix.screen m₀, []) =
      (Philix.screen s.mem, s.posts m₀ ++ [(p, Philix.screen s.mem)]) := by
    show execs (s.done ++ [.notify p]) (Philix.screen m₀, []) = _
    rw [execs_append, F.screen, Shared.posts]
    rfl
  have hposts : (s.post p rest).posts m₀ = s.posts m₀ ++ [(p, Philix.screen s.mem)] := by
    rw [Shared.posts, hexecs]
  refine ⟨?_, hphase, ?_, fun _ => ⟨s.posts m₀, p, ?_⟩, ?_,
    F.frame.trans (agree_writeReg .outputAvail p.avail s.mem)⟩
  · show s.done ++ [.notify p] ++ rest = ops
    rw [List.append_assoc, List.singleton_append, ← htodo, F.split]
  · rw [hscreen, hexecs]
  · rw [hposts, hscreen]
  · show s.seen = (((s.post p rest).posts m₀).map Prod.snd).take s.handled.length
    rw [hposts, List.map_append, List.take_append_of_le_length, F.seen]
    rw [List.length_map]
    exact F.handled_le

/-- The device stores to the framebuffer. -/
theorem Faithful.store (F : Faithful nocurses m₀ ops s) {rest : List DevOp}
    (hdev : s.dev = .idle) (htodo : s.todo = op :: rest) (hin : op.Inside)
    (hne : ∀ p, op ≠ .notify p) :
    Faithful nocurses m₀ ops
      { s with mem := op.write s.mem, todo := rest, done := s.done ++ [op] } := by
  have hexecs : execs (s.done ++ [op]) (Philix.screen m₀, []) =
      (Philix.screen (op.write s.mem), s.posts m₀) := by
    rw [execs_append]
    have hpair : execs s.done (Philix.screen m₀, []) = (Philix.screen s.mem, s.posts m₀) := by
      rw [F.screen, Shared.posts]
    rw [hpair, screen_write hin s.mem (s.posts m₀)]
    cases op with
    | notify p => exact absurd rfl (hne p)
    | _ => rfl
  refine ⟨?_, ?_, ?_, ?_, ?_, F.frame.trans (agree_write hin s.mem)⟩
  · show s.done ++ [op] ++ rest = ops
    rw [List.append_assoc, List.singleton_append, ← htodo, F.split]
  · rw [mailbox_store hin hne]
    exact F.phase
  · show Philix.screen (op.write s.mem) = (execs (s.done ++ [op]) (Philix.screen m₀, [])).1
    rw [hexecs]
  · intro h
    simp [hdev] at h
  · show s.seen = ((execs (s.done ++ [op]) (Philix.screen m₀, [])).2.map Prod.snd).take
      s.handled.length
    rw [hexecs, F.seen]

/-- **The step lemma.** -/
theorem Faithful.step (F : Faithful nocurses m₀ ops s) (hin : ∀ op ∈ s.todo, op.Inside)
    (h : SharedStep nocurses s a t) (ha : a ≠ .mailbox .giveUp) :
    Faithful nocurses m₀ ops t := by
  have hphase := phase_step F.phase hin h ha
  have hsame : Agree (fun x => ¬ InWindow x) s.mem s.mem := Agree.refl _ _
  cases h with
  | store hdev htodo hne => exact F.store hdev htodo (hin _ (htodo ▸ List.mem_cons_self)) hne
  | pollEmpty => exact F
  | pollFull => exact F.congr hphase rfl rfl rfl rfl rfl hsame id
  | giveUp => exact absurd rfl ha
  | runNothing => exact F.congr hphase rfl rfl rfl rfl rfl hsame id
  | run hpc => exact F.handle hpc hphase
  | fail hpc => exact F.handle hpc hphase
  | failUnknown => exact F.congr hphase rfl rfl rfl rfl rfl hsame id
  | clear =>
    exact F.congr hphase rfl rfl rfl rfl (screen_writeReg .outputAvail 0 s.mem)
      (agree_writeReg .outputAvail 0 s.mem) id
  | ack =>
    exact F.congr hphase rfl rfl rfl rfl (screen_writeReg .outputDrawn 1 s.mem)
      (agree_writeReg .outputDrawn 1 s.mem) id
  | call _ htodo => exact F.post htodo hphase
  | @callParam p _ r v =>
    refine F.congr hphase rfl rfl rfl rfl (screen_writeReg (paramReg r) v s.mem)
      (agree_writeReg (paramReg r) v s.mem) ?_
    rintro (h | h) <;> cases h
  | post _ htodo => exact F.post htodo hphase
  | spinAgain => exact F
  | spinDone hdev =>
    exact F.congr hphase rfl rfl rfl rfl rfl hsame fun _ => Or.inl hdev
  | clearDrawn =>
    refine F.congr hphase rfl rfl rfl rfl (screen_writeReg .outputDrawn 0 s.mem)
      (agree_writeReg .outputDrawn 0 s.mem) ?_
    rintro (h | h) <;> cases h

theorem faithful_start (m : Mem) (ops : List DevOp)
    (havail : readReg (consoleReg .outputAvail) m = 0)
    (hdrawn : readReg (consoleReg .outputDrawn) m = 0) :
    Faithful nocurses m ops (.start m ops) := by
  refine ⟨rfl, .quiet (Or.inl rfl) (Or.inl rfl) havail hdrawn rfl rfl, rfl, ?_, rfl,
    Agree.refl _ _⟩
  rintro (h | h) <;> cases h

/-- The run lemma. -/
theorem faithful_of_run {m : Mem} {as : List Access} (hin : ∀ op ∈ ops, op.Inside)
    (havail : readReg (consoleReg .outputAvail) m = 0)
    (hdrawn : readReg (consoleReg .outputDrawn) m = 0)
    (h : Run (Patient nocurses) (.start m ops) as s) :
    Faithful nocurses m ops s := by
  refine h.preserves (fun s a t F hst => F.step (fun op hop => hin op ?_) hst.1 hst.2)
    (faithful_start m ops havail hdrawn)
  rw [← F.split]
  exact List.mem_append_right _ hop

end Run

/-! ## 5. The terminal and the host -/

/-- A call of the terminal. -/
def Output.ops : Output → Cursor → Code
  | .clear, c => termClearOps c
  | .print call, c => putcharsOps call.bytes c

/-- The calls, one after the other. -/
def outputsOps : List Output → Cursor → Code
  | [], c => ([], c)
  | out :: outs, c => (out.ops c).andThen (outputsOps outs)

/-- The card's program: `term_init`, the calls, and the shutdown of the console. -/
def program (outs : List Output) : List DevOp :=
  (termInitOps.andThen (outputsOps outs)).1 ++ [.notify .shutdown]

/-- What the host has done by `s` for the posts of `t`: it has handled the first ones, each with
its own parameter and on the framebuffer it was posted on; the one it is at is the next of
them, and its framebuffer is there while the case runs; and after the last of them, the
framebuffer is the terminal's. -/
structure AsPosted (nocurses : Bool) (m : Mem) (t : Term) (s : Shared) : Prop where
  handled : s.handled = answers nocurses ((t.posts.take s.handled.length).map Prod.fst)
  seen : s.seen = (t.posts.take s.handled.length).map Prod.snd
  now : ∀ u nth, s.host = .switching u nth →
    ∃ p fb, t.posts[s.handled.length]? = some (p, fb) ∧ u = p.type ∧ nth = s.handled.length ∧
      s.readParam nocurses u = p.seen nocurses ∧ screen s.mem = fb
  shutdown : s.handled.length = t.posts.length → screen s.mem = t.buf
  outside : ∀ x, ¬ InWindow x → s.mem x = m x

section Terminal

variable {nocurses : Bool} {m : Mem} {ops : List DevOp} {s : Shared}

theorem does_output {t : Term} {c : Cursor} (F : Follows t c) (out : Output) :
    Does t (out.run t) (out.ops c) := by
  cases out with
  | clear => exact does_termClear F
  | print call =>
    rw [Output.run, call_run_eq]
    exact does_putchars call.bytes F

theorem does_outputs : ∀ (outs : List Output) {t : Term} {c : Cursor}, Follows t c →
    Does t (outs.foldlM (fun t out => out.run t) t) (outputsOps outs c)
  | [], t, _, F => ⟨t, rfl, F, rfl, fun _ hop => absurd hop List.not_mem_nil⟩
  | out :: outs, _, _, F => (does_output F out).andThen fun _ F' => does_outputs outs F'

/-- **The program is the terminal's**, up to any call of it. -/
theorem does_calls (fb : Framebuffer) (outs : List Output) :
    ∃ t, outputRun fb outs = .ok t ∧
      execs (termInitOps.andThen (outputsOps outs)).1 (fb, []) = (t.buf, t.posts) ∧
      ∀ op ∈ (termInitOps.andThen (outputsOps outs)).1, op.Inside := by
  obtain ⟨t₀, h₀, F₀, hx₀, hin₀⟩ := does_termInit fb
  obtain ⟨t, h, -, hx, hin⟩ := does_outputs outs F₀
  refine ⟨t, by rw [outputRun, h₀, ok_bind, h], ?_, ?_⟩
  · rw [Code.andThen, execs_append, hx₀, hx]
  · intro op hop
    rcases List.mem_append.mp hop with hop | hop
    · exact hin₀ op hop
    · exact hin op hop

/-- And with the shutdown at its end. -/
theorem does_program (fb : Framebuffer) (outs : List Output) :
    ∃ t, outputRun fb outs = .ok t ∧
      execs (program outs) (fb, []) = ((t.notify .shutdown).buf, (t.notify .shutdown).posts) ∧
      ∀ op ∈ program outs, op.Inside := by
  obtain ⟨t, ht, hx, hin⟩ := does_calls fb outs
  refine ⟨t, ht, ?_, ?_⟩
  · rw [program, execs_append, hx]
    rfl
  · intro op hop
    rcases List.mem_append.mp hop with hop | hop
    · exact hin op hop
    · obtain rfl := List.mem_singleton.mp hop
      trivial

/-- A device that has made all the notifications of a program that ends in one is through
with it. -/
theorem done_of_notified {rest : List DevOp} {p : Post} (hops : ops = rest ++ [.notify p])
    (hsplit : s.done ++ s.todo = ops)
    (hlen : (notified ops).length ≤ (notified s.done).length) : s.done = ops := by
  rcases List.eq_nil_or_concat s.todo with htodo | ⟨todo, op, htodo⟩
  · rw [← hsplit, htodo, List.append_nil]
  · rw [List.concat_eq_append] at htodo
    rw [hops, htodo, ← List.append_assoc] at hsplit
    have hlast := (List.append_inj' hsplit rfl).1
    have hone : notified [DevOp.notify p] = [p] := rfl
    rw [hops, ← hlast, notified_append, notified_append, hone, List.length_append,
      List.length_append, List.length_singleton] at hlen
    omega

theorem Faithful.asPosted {t : Term} (F : Faithful nocurses m (program outs) s)
    (hexecs : execs (program outs) (Philix.screen m, []) = (t.buf, t.posts)) :
    AsPosted nocurses m t s := by
  have hpre : s.posts m <+: t.posts := by
    have h := F.posts_prefix
    rwa [hexecs] at h
  have htake : t.posts.take s.handled.length = (s.posts m).take s.handled.length := by
    obtain ⟨rest, hrest⟩ := hpre
    rw [← hrest, List.take_append_of_le_length F.handled_le]
  refine ⟨?_, ?_, ?_, ?_, fun x hx => (F.frame x hx).symm⟩
  · rw [htake, List.map_take, map_fst_posts]
    exact (handled_of_phase F.phase).2
  · rw [htake, List.map_take]
    exact F.seen
  · intro u nth hhost
    obtain ⟨ps, p, hps, hu, hnth, hlen, hread⟩ := F.switching hhost
    refine ⟨p, Philix.screen s.mem, ?_, hu, hnth.trans hlen.symm, hread, rfl⟩
    obtain ⟨rest, hrest⟩ := hpre
    rw [← hrest, hps, hlen, List.append_assoc, List.getElem?_append_right (Nat.le_refl _),
      Nat.sub_self]
    rfl
  · intro hall
    have hnotified : notified (program outs) = t.posts.map Prod.fst := by
      have h := map_fst_execs (program outs) (Philix.screen m) []
      rw [hexecs, List.map_nil, List.nil_append] at h
      exact h.symm
    have hlen : (notified (program outs)).length ≤ (notified s.done).length := by
      rw [hnotified, List.length_map, ← hall]
      exact (handled_of_phase F.phase).1
    have hdone : s.done = program outs := done_of_notified (by rw [program]) F.split hlen
    rw [F.screen, hdone, hexecs]

end Terminal

/-- **Every update is handled as it was posted.**  A card that runs the terminal and shuts the
console down, and its host, one access of one of them at a time on the one memory: every run is
one of the mailbox protocol; and in every run in which no poll gives up, all that the model of
the host has been told of the device holds. -/
theorem handled_as_posted (nocurses : Bool) (outs : List Output) (m : Mem)
    (havail : readReg (consoleReg .outputAvail) m = 0)
    (hdrawn : readReg (consoleReg .outputDrawn) m = 0) :
    ∃ t, outputRun (screen m) outs = .ok t ∧
      (∀ as s, Run (SharedStep nocurses) (.start m (program outs)) as s →
        Run (Mailbox.Step nocurses) (Shared.start m (program outs)).mailbox
          (as.flatMap Access.acts) s.mailbox) ∧
      ∀ as s, Run (Patient nocurses) (.start m (program outs)) as s →
        AsPosted nocurses m (t.notify .shutdown) s := by
  obtain ⟨t, ht, hexecs, hin⟩ := does_program (screen m) outs
  refine ⟨t, ht, fun as s h => simulated hin h, fun as s h => ?_⟩
  exact (faithful_of_run hin havail hdrawn h).asPosted hexecs

/-- One line printed to a card with cleared memory. -/
theorem handled_as_posted_one_line :
    ∃ t, outputRun (screen fun _ => 0) [.print (.puts [72, 105])] = .ok t ∧
      (∀ as s, Run (SharedStep true) (.start (fun _ => 0) (program [.print (.puts [72, 105])]))
          as s →
        Run (Mailbox.Step true)
          (Shared.start (fun _ => 0) (program [.print (.puts [72, 105])])).mailbox
          (as.flatMap Access.acts) s.mailbox) ∧
      ∀ as s, Run (Patient true) (.start (fun _ => 0) (program [.print (.puts [72, 105])])) as s →
        AsPosted true (fun _ => 0) (t.notify .shutdown) s :=
  handled_as_posted true [.print (.puts [72, 105])] (fun _ => 0) rfl rfl

end Philix
