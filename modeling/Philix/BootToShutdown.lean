/-
# From `startup_32` to the last update

Two runs meet in one memory.  The card boots, up to the call of `main`; then it prints, with the
host at the other end of the window.  What the second needs, the first has to leave: the
registers of the handshake clear, if they were.  And what the first has set up, the second has to
leave: the window is memory because the page tables say so, and nothing printed changes them.
-/
import Philix.BootToMain
import Philix.Completion

namespace Philix

open Inky Winky Lts ByteMem PageWalk

/-- Nothing the boot writes is in the window: not the data of the boot loader, nor the
parameters, nor what is behind the boot loader's end, nor the kernel, whose loading keeps `R`. -/
structure OffWindow (S : Symbols) (load endBootloader : Nat) (c₀ : Cpu) (R : Nat → Prop) :
    Prop where
  startup : ∀ x, InWindow x → ¬ Written S load c₀ x
  params : ∀ x, InWindow x → ¬ Block c₀.esi x
  below : ∀ x, InWindow x → x < endBootloader
  kernel : ∀ x, InWindow x → R x

section

variable {S : Symbols} {load endBootloader entry x : Nat} {c₀ : Cpu} {mbi : MultibootInfo}
  {c : Setup} {m : Mem} {K : Labels} {t : Tables} {R : Nat → Prop}
  (L : Loaded32 S load c₀)

theorem statusPort_not_inWindow : ¬ InWindow statusPort := by
  rintro ⟨-, h⟩
  exact absurd h (by decide)

theorem not_tables_of_window (W : OffWindow S load endBootloader c₀ R) (hx : InWindow x) :
    ¬ TablePages (load + S.pgtable) x :=
  fun h => W.startup x hx (Or.inl (Or.inr (Or.inr h)))

include L

/-- **The boot leaves the window alone.** -/
theorem window_kept (C : Clear endBootloader c₀.esi (.ofMem c₀.mem c₀.esi))
    (D : Movable endBootloader (.ofMem c₀.mem c₀.esi))
    (hprep : prepareInPlace endBootloader (called S load c₀).rdi (called S load c₀).rsi mbi
      (called S load c₀).cpu.mem = .ok c) (hstart : startKernel c = .ok (entry, m))
    (B : Bootable K (load + S.pgtable) c t R) (W : OffWindow S load endBootloader c₀ R) :
    Agree InWindow c₀.mem (entryMem K m) := by
  intro x hx
  have hport : x ≠ statusPort := by
    rintro rfl
    exact statusPort_not_inWindow hx
  rw [B.entryMem_of_read (W.kernel x hx), memory_kept L C D hprep hstart B (W.kernel x hx)
    (W.params x hx) (W.below x hx) hport]
  exact ((atLoader L).kept x (W.startup x hx)).symm

end

/-- Nothing that boots `stackKernel` is in the window. -/
theorem offWindow_boot {c : Setup} :
    OffWindow lowSymbols 0x100000 0x700000 bootCpu fun x => x < 0x1000000 ∨ c.Module x where
  startup x hx := by
    have hload : 0x100000 + lowSymbols.gdt = 0x101000 := rfl
    have hstack : 0x100000 + lowSymbols.bootStackEnd = 0x105030 := rfl
    have hpg : 0x100000 + lowSymbols.pgtable = 0x106000 := rfl
    have hesi : bootCpu.esi = 0x8f000 := rfl
    have hin : 0xb8000 ≤ x ∧ x < 0xb8fb4 := hx
    simp only [Written, Written32, TablePages, hload, hstack, hpg, hesi, not_or]
    rw [range_iff (by decide), range_iff (by decide), range_iff (by decide),
      range_iff (by decide)]
    omega
  params x hx := by
    have hesi : bootCpu.esi = 0x8f000 := rfl
    have hin : 0xb8000 ≤ x ∧ x < 0xb8fb4 := hx
    rw [Block, hesi, range_iff (by decide)]
    omega
  below x hx := by
    have hin : 0xb8000 ≤ x ∧ x < 0xb8fb4 := hx
    omega
  kernel x hx := by
    have hin : 0xb8000 ≤ x ∧ x < 0xb8fb4 := hx
    exact Or.inl (by omega)

end Philix
