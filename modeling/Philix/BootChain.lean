/-
# From the menu file to the kernel

The generator turns a menu file into `get_multiboot`, and the boot loader runs it: it moves
the image of all modules, shifts their addresses, looks the kernel up by name and passes it to
`elf64_load`, with the multiboot information that the kernel will be handed.  Put together: for
a menu file of well-formed lines, which line's image is loaded, from where, and what the
kernel is told.
-/
import Philix.Inky.FindModule
import Philix.Mbgen.Reflects

namespace Philix

open Mbgen Inky Scan AfterLast ByteMem Loop

/-! ## 1. The structure `get_multiboot` returns -/

/-- The lines that get an entry, in the order of the table: the last kernel line, then the
module lines. -/
def menuEntries (ls : List MenuLine) : List EntryLine :=
  (ls.filterMap kernelLine?).getLast?.toList ++ ls.filterMap moduleLine?

/-- The flags the generated code sets: command line, modules, ELF symbols, memory map. -/
def menuFlags : UInt32 := flagHasCmdline ||| flagHasMods ||| flagHasElfSyms ||| flagHasMmap

/-- `struct multiboot_info` as the loader finds it; `cmdline` is where the compiler put the
kernel's command line. -/
def Mbgen.Mbi.multibootInfo (mbi : Mbi) (cmdline : UInt32) : MultibootInfo where
  flags := mbi.flags
  memLower := 0
  memUpper := 0
  cmdline := cmdline
  mods := mbi.mods
  configTable := 0
  xeonPhiId := 0

section Structure

variable {u : Undef} {ls : List MenuLine} {e : EntryLine}

theorem wellFormed_of_mem_entries (hwf : ∀ l ∈ ls, l.WellFormed) (he : e ∈ menuEntries ls) :
    (MenuLine.entry e).WellFormed := by
  rcases List.mem_append.mp he with he | he
  · refine hwf _ (mem_of_kernelLine ?_)
    exact List.mem_of_getLast? (Option.mem_toList.mp he)
  · exact hwf _ (mem_of_moduleLine he)

/-- The generator's output, run: the flags and the table. -/
theorem multiboot_of_menu (hwf : ∀ l ∈ ls, l.WellFormed) (hkernel : ls.filterMap kernelLine? ≠ [])
    (hmodules : (ls.filterMap moduleLine?).length ≤ maxModules) :
    ∃ out mbi, main u (joinLines (ls.map MenuLine.text)) = .ok out ∧
      getMultiboot out = some mbi ∧ mbi.flags = menuFlags ∧
      mbi.mods = (menuEntries ls).map EntryLine.info := by
  obtain ⟨g, hrun, hg⟩ := collected_run ls [] (start u) (collected_start u) hwf hmodules
  rw [List.nil_append] at hg
  have hlast := List.getLast?_eq_some_getLast hkernel
  have hk : kernelOf g = some ((ls.filterMap kernelLine?).getLast hkernel).toModule := by
    rw [hg.kernel, hlast, Option.map_some]
  have htable : ((ls.filterMap kernelLine?).getLast hkernel).toModule :: g.modules =
      (menuEntries ls).map EntryLine.toModule := by
    rw [menuEntries, hlast, hg.modules]
    rfl
  have hplain : ∀ m ∈ ((ls.filterMap kernelLine?).getLast hkernel).toModule :: g.modules,
      m.Plain := by
    rw [htable]
    intro m hm
    obtain ⟨e, he, rfl⟩ := List.mem_map.mp hm
    exact plain_of_wellFormed (wellFormed_of_mem_entries hwf he)
  have hlines : ∀ t ∈ ls.map MenuLine.text, TextLine t := by
    intro t ht
    obtain ⟨l, hl, rfl⟩ := List.mem_map.mp ht
    exact (hwf l hl).textLine
  have hparse := parse_joinLines u hlines (start u)
  rw [hrun] at hparse
  have hemit := emit_eq hk
  obtain ⟨mbi, hget, hflags, -, -, -, hmods, -⟩ :=
    getMultiboot_emit hk hemit hg.out (by rw [hg.count, List.length_map]) hplain
  refine ⟨_, mbi, main_eq_ok_iff.mpr ⟨g, _, hparse, hemit, rfl⟩, hget, hflags, ?_⟩
  rw [hmods, htable, List.map_map]
  exact List.map_congr_left fun e he =>
    e.info_toModule (wellFormed_of_mem_entries hwf he).inRange.1

end Structure

/-! ## 2. The kernel's line -/

/-- Whether the last component of the image path begins with the name. -/
def Named (name : List Char) (e : EntryLine) : Prop := name <+: afterLast '/' e.image

instance (name : List Char) (e : EntryLine) : Decidable (Named name e) :=
  inferInstanceAs (Decidable (_ <+: _))

/-- The line whose image is the kernel: the first named `cpu`, or else the first named
`kernel`. -/
def kernelEntry (es : List EntryLine) : Option EntryLine :=
  (es.find? fun e => decide (Named ['c', 'p', 'u'] e)).or
    (es.find? fun e => decide (Named ['k', 'e', 'r', 'n', 'e', 'l'] e))

/-- The arguments have no `/`, and the path none that is its first character and its last `/`:
the lines the search reads as they are meant. -/
def Plainly (e : EntryLine) : Prop :=
  '/' ∉ e.args ∧ ¬ (e.image.head? = some '/' ∧ '/' ∉ e.image.tail)

instance (e : EntryLine) : Decidable (Plainly e) := inferInstanceAs (Decidable (_ ∧ ¬ (_ ∧ _)))

/-- The element of the table once the image is at `start`. -/
def Mbgen.EntryLine.shifted (start : Nat) (e : EntryLine) : ModInfo :=
  ⟨.ofNat (start + value 10 e.offset), .ofNat (start + (value 10 e.offset + value 10 e.length)),
    e.image ++ ' ' :: e.args⟩

section Kernel

variable {es : List EntryLine} {e : EntryLine} {start : Nat} {name : List Char}

theorem adjustMods_info (start : Nat) (es : List EntryLine) :
    adjustMods start (es.map EntryLine.info) = es.map (EntryLine.shifted start) := by
  rw [adjustMods, List.map_map]
  refine List.map_congr_left fun e _ => ?_
  simp only [Function.comp_apply, EntryLine.info, EntryLine.shifted, ← UInt32.ofNat_add,
    Nat.add_comm start]

theorem imagePath_line (h : Token e.image) : imagePath (e.image ++ ' ' :: e.args) = e.image := by
  have hno : ∀ c ∈ e.image, decide (c ≠ ' ') = true := by
    intro c hc
    refine decide_eq_true ?_
    rintro rfl
    exact absurd (h.2 _ hc) (by decide)
  rw [imagePath, List.takeWhile_append_of_pos hno, List.takeWhile_cons_of_neg (by simp),
    List.append_nil]

theorem arguments_line (h : Token e.image) :
    arguments (e.image ++ ' ' :: e.args) = ' ' :: e.args := by
  have hpath := path_append_arguments (e.image ++ ' ' :: e.args)
  rw [imagePath_line h] at hpath
  exact List.append_cancel_left hpath

theorem cString_line (h : (MenuLine.entry e).WellFormed) : CString (e.image ++ ' ' :: e.args) := by
  obtain ⟨-, hnul, hlen⟩ := h.textLine
  have hsub : ∀ c, c ∈ e.image ∨ c ∈ e.args → c ∈ e.text := by
    rintro c (hc | hc)
    · unfold EntryLine.text
      simp only [List.mem_append, hc, true_or, or_true]
    · exact e.args_subset hc
  refine ⟨?_, ?_⟩
  · intro hmem
    rcases List.mem_append.mp hmem with hc | hc
    · exact hnul (hsub _ (Or.inl hc))
    · rcases List.mem_cons.mp hc with hc | hc
      · exact absurd hc (by decide)
      · exact hnul (hsub _ (Or.inr hc))
  · have hlen' : e.text.length ≤ 2046 := hlen
    unfold EntryLine.text at hlen'
    simp only [List.length_append, List.length_cons] at hlen' ⊢
    omega

/-- **The search finds the line that is named.** -/
theorem find_shifted (hname : '\x00' ∉ name) (hspace : ' ' ∉ name)
    (hwf : ∀ e ∈ es, (MenuLine.entry e).WellFormed) (hplain : ∀ e ∈ es, Plainly e) :
    multibootFindModule (es.map (EntryLine.shifted start)) name =
      (es.find? fun e => decide (Named name e)).map (EntryLine.shifted start) := by
  have hall : ∀ (P : ModInfo → Prop), (∀ e ∈ es, P (e.shifted start)) →
      ∀ mod ∈ es.map (EntryLine.shifted start), P mod := by
    intro P h mod hmod
    obtain ⟨e, he, rfl⟩ := List.mem_map.mp hmod
    exact h e he
  rw [find_module_of_plain hname (hall _ fun e he => cString_line (hwf e he)) hspace
    (hall _ fun e he => ?_) (hall _ fun e he => ?_), findByPath, List.find?_map]
  · congr 1
    refine List.find?_congr fun e _ => ?_
    simp only [Function.comp_apply, EntryLine.shifted, imageName, imagePath_line e.image_token]
    rfl
  · rw [EntryLine.shifted, arguments_line e.image_token, List.mem_cons, not_or]
    exact ⟨by decide, (hplain e he).1⟩
  · rw [EntryLine.shifted, imagePath_line e.image_token]
    exact (hplain e he).2

end Kernel

/-! ## 3. The image and the command line in memory -/

section Memory

variable {endBootloader : Nat} {bp bp' : BootParams} {m m' : Mem} {start : Nat}

/-- The boot parameters after the move. -/
def movedParams (endBootloader : Nat) (bp : BootParams) : BootParams :=
  { bp with
    cmdlinePtr := .ofNat (cmdlineStart endBootloader)
    ramdiskImage := .ofNat (mbImgStart endBootloader bp) }

theorem moveImage_params (h : moveImage endBootloader bp m = .ok (start, bp', m')) :
    bp' = movedParams endBootloader bp := by
  rw [moveImage, bind_eq_ok_iff] at h
  obtain ⟨_, -, h⟩ := h
  obtain ⟨_, -, h⟩ := bind_eq_ok_iff.mp h
  obtain ⟨_, -, h⟩ := bind_eq_ok_iff.mp h
  cases h
  rfl

/-- The image comes behind the copied command line. -/
theorem cmdline_end_le (D : Movable endBootloader bp) :
    cmdlineStart endBootloader + bp.cmdlineSize.toNat ≤ mbImgStart endBootloader bp := by
  have hend := D.cmdline_le
  have hround := roundUp_two_pow (n := cmdlineStart endBootloader + bp.cmdlineSize.toNat) (k := 20)
    (by omega) (by omega)
  rw [mbImgStart, wrap_of_lt (by omega)]
  have hmeg : (1 <<< 20 : Nat) = 2 ^ 20 := by decide
  rw [hmeg, hround]
  omega

/-- The copies of the ramdisk and the status byte leave the command line alone. -/
theorem bounce_frame (D : Movable endBootloader bp) {o : Nat}
    (h : bounce (mbImgStart endBootloader bp) bp m = .ok (o, m')) {x : Nat}
    (hx : x < cmdlineStart endBootloader + bp.cmdlineSize.toNat) (hport : x ≠ statusPort) :
    m' x = m x := by
  have habove := D.above
  by_cases hb : bp.ramdiskImage.toNat < mbImgStart endBootloader bp + bp.ramdiskSize.toNat
  · obtain ⟨hlt, hle⟩ := D.bounce_le hb
    have hO : bounceStart bp = bp.ramdiskImage.toNat + bp.ramdiskSize.toNat + 4096 := rfl
    rw [bounce_of_lt D hb, bind_eq_ok_iff] at h
    obtain ⟨m₂, hm₂, h⟩ := h
    cases h
    obtain ⟨-, rfl⟩ := memcpy_eq_ok_iff.mp hm₂
    rw [printStatus, writeByte_of_ne hport, copy_frame (by omega) (Or.inl (by omega))]
  · rw [bounce_of_not_lt D hb] at h
    cases h
    rfl

/-- **The command line has been moved.** -/
theorem cmdline_moved (D : Movable endBootloader bp)
    (h : moveImage endBootloader bp m = .ok (start, bp', m')) {i : Nat}
    (hi : i < bp.cmdlineSize.toNat) (hport : cmdlineStart endBootloader + i ≠ statusPort) :
    m' (cmdlineStart endBootloader + i) = m (bp.cmdlinePtr.toNat + i) := by
  have h1 := D.cmdline_le
  have h2 := D.source_le
  have h3 := D.image_le
  have h4 := cmdline_end_le D
  rw [moveImage, bind_eq_ok_iff] at h
  obtain ⟨m₁, hm₁, h⟩ := h
  obtain ⟨⟨o, m₂⟩, hm₂, h⟩ := bind_eq_ok_iff.mp h
  obtain ⟨m₃, hm₃, h⟩ := bind_eq_ok_iff.mp h
  cases h
  obtain ⟨hno, rfl⟩ := memcpy_eq_ok_iff.mp hm₁
  obtain ⟨-, rfl⟩ := memcpy_eq_ok_iff.mp hm₃
  rw [copy_frame (by omega) (Or.inl (by omega)), bounce_frame D hm₂ (by omega) hport]
  exact copy_byte hno (by omega) (by omega) hi

end Memory

/-! ## 4. What is loaded, and what the kernel is told -/

/-- What the kernel is handed: the generated flags, ELF symbols among them, which nothing has
filled in; the command line of the host in place of the generated one; the place of the image
in the fields for the memory size; the boot parameters in the one for the configuration
table. -/
def handedInfo (endBootloader bpAddr : Nat) (bp : BootParams) (es : List EntryLine) :
    MultibootInfo where
  flags := menuFlags ||| 0x004 ||| 0x001 ||| 0x100
  memLower := .ofNat (mbImgStart endBootloader bp)
  memUpper := .ofNat (mbImgStart endBootloader bp) + bp.ramdiskSize
  cmdline := .ofNat (cmdlineStart endBootloader)
  mods := es.map (EntryLine.shifted (mbImgStart endBootloader bp))
  configTable := .ofNat bpAddr
  xeonPhiId := bp.xeonPhiId.toUInt8

/-- `loader` calls `elf64_load` on the image of the line `e`. -/
structure Handover (endBootloader bpAddr : Nat) (bp : BootParams) (m : Mem) (es : List EntryLine)
    (e : EntryLine) (c : Setup) : Prop where
  base : c.base = mbImgStart endBootloader bp + value 10 e.offset
  size : c.kernel.size = value 10 e.length
  line : c.kernel.string = e.image ++ ' ' :: e.args
  /-- The image of the modules, but for the byte that the status port is. -/
  image : ∀ i < bp.ramdiskSize.toNat, mbImgStart endBootloader bp + i ≠ statusPort →
    bp.ramdiskImage.toNat + i ≠ statusPort →
    c.mem (mbImgStart endBootloader bp + i) = m (bp.ramdiskImage.toNat + i)
  cmdline : ∀ i < bp.cmdlineSize.toNat, cmdlineStart endBootloader + i ≠ statusPort →
    bp.cmdlinePtr.toNat + i ≠ statusPort →
    c.mem (cmdlineStart endBootloader + i) = m (bp.cmdlinePtr.toNat + i)
  info : c.mbi = handedInfo endBootloader bpAddr bp es

section Handover

variable {endBootloader bpAddr start : Nat} {bp : BootParams} {m moved : Mem}
  {es : List EntryLine} {e : EntryLine}

/-- The addresses of a line's module do not go round. -/
def FitsBelow (start : Nat) (e : EntryLine) : Prop :=
  start + (value 10 e.offset + value 10 e.length) < 2 ^ 32

instance (start : Nat) (e : EntryLine) : Decidable (FitsBelow start e) :=
  inferInstanceAs (Decidable (_ < _))

theorem shifted_base (h : FitsBelow start e) :
    (e.shifted start).modStart.toNat = start + value 10 e.offset := by
  rw [FitsBelow] at h
  exact UInt32.toNat_ofNat_of_lt' (by simp only [UInt32.size]; omega)

theorem shifted_size (h : FitsBelow start e) : (e.shifted start).size = value 10 e.length := by
  rw [FitsBelow] at h
  have hend : (UInt32.ofNat (start + (value 10 e.offset + value 10 e.length))).toNat =
      start + (value 10 e.offset + value 10 e.length) :=
    UInt32.toNat_ofNat_of_lt' (by simp only [UInt32.size]; omega)
  have hstart : (UInt32.ofNat (start + value 10 e.offset)).toNat = start + value 10 e.offset :=
    UInt32.toNat_ofNat_of_lt' (by simp only [UInt32.size]; omega)
  rw [ModInfo.size, EntryLine.shifted, UInt32.toNat_sub_of_le, hend, hstart]
  · omega
  · rw [UInt32.le_iff_toNat_le, hend, hstart]
    omega

/-- The two searches of the loader. -/
theorem kernel_search (hwf : ∀ e ∈ es, (MenuLine.entry e).WellFormed)
    (hplain : ∀ e ∈ es, Plainly e) :
    (multibootFindModule (es.map (EntryLine.shifted start)) ['c', 'p', 'u']).or
        (multibootFindModule (es.map (EntryLine.shifted start)) ['k', 'e', 'r', 'n', 'e', 'l']) =
      (kernelEntry es).map (EntryLine.shifted start) := by
  rw [find_shifted (by decide) (by decide) hwf hplain,
    find_shifted (by decide) (by decide) hwf hplain, kernelEntry, ← Option.map_or]

/-- What the loader makes of the moved image, when the kernel is the line `e`. -/
def handover (endBootloader bpAddr : Nat) (bp : BootParams) (es : List EntryLine) (e : EntryLine)
    (moved : Mem) : Setup where
  bp := movedParams endBootloader bp
  kernel := e.shifted (mbImgStart endBootloader bp)
  mbi := handedInfo endBootloader bpAddr bp es
  mem := printStatus bp.xeonPhiId.toUInt8 (printStatus 90 (printStatus 83 moved))

/-- **The loader up to `elf64_load`**, on a table whose lines are read as they are meant. -/
theorem prepare_of_entries {mbi : MultibootInfo} (hbp : bpAddr < 2 ^ 32) {bp' : BootParams}
    (hmove : moveImage endBootloader bp (printStatus 83 (printStatus 83 m)) =
      .ok (mbImgStart endBootloader bp, bp', moved))
    (hflags : mbi.flags = menuFlags) (hmods : mbi.mods = es.map EntryLine.info)
    (hwf : ∀ e ∈ es, (MenuLine.entry e).WellFormed) (hplain : ∀ e ∈ es, Plainly e) :
    prepare endBootloader k1omBootMagic bpAddr bp mbi m =
      match kernelEntry es with
      | none => .error (.aborted 'E' '3')
      | some e => .ok (handover endBootloader bpAddr bp es e moved) := by
  have hhigh : ¬ bpAddr / 4294967296 ≠ 0 := not_not.mpr (Nat.div_eq_of_lt hbp)
  obtain rfl := moveImage_params hmove
  rw [prepare]
  dsimp only
  rw [if_neg (not_not.mpr rfl), if_neg hhigh, hmove, ok_bind]
  simp only [locate, hmods, hflags, adjustMods_info, kernel_search hwf hplain]
  cases kernelEntry es <;> rfl

/-- The call of `elf64_load`, with the memory as the move and the status bytes leave it. -/
theorem handover_of_moved (D : Movable endBootloader bp) {bp' : BootParams}
    (hmove : moveImage endBootloader bp (printStatus 83 (printStatus 83 m)) =
      .ok (mbImgStart endBootloader bp, bp', moved))
    (hbytes : ∀ i < bp.ramdiskSize.toNat, moved (mbImgStart endBootloader bp + i) =
      printStatus 83 (printStatus 83 m) (bp.ramdiskImage.toNat + i))
    (hfits : FitsBelow (mbImgStart endBootloader bp) e) :
    Handover endBootloader bpAddr bp m es e (handover endBootloader bpAddr bp es e moved) := by
  have hmem : ∀ x, x ≠ statusPort → (handover endBootloader bpAddr bp es e moved).mem x = moved x :=
    fun x hx => by
      show printStatus _ (printStatus _ (printStatus _ moved)) x = moved x
      rw [printStatus_of_ne hx, printStatus_of_ne hx, printStatus_of_ne hx]
  have hsource : ∀ x, x ≠ statusPort → printStatus 83 (printStatus 83 m) x = m x := fun x hx => by
    rw [printStatus_of_ne hx, printStatus_of_ne hx]
  refine ⟨shifted_base hfits, shifted_size hfits, rfl, ?_, ?_, rfl⟩
  · intro i hi hport hfrom
    rw [hmem _ hport, hbytes i hi, hsource _ hfrom]
  · intro i hi hport hfrom
    rw [hmem _ hport, cmdline_moved D hmove hi hport, hsource _ hfrom]

end Handover

/-- **From the menu file to the kernel.**  For a menu file of well-formed lines with a kernel
line, whose paths and arguments the search reads as they are meant: the generator completes,
its output compiles, and with its structure the loader, wherever the move works and the
addresses fit, calls `elf64_load` on the image of the first line named `cpu`, or else `kernel`,
with the image, the command line and the multiboot information in place; if no line is named so
it stops with `E3`. -/
theorem boot_from_menu (u : Undef) (ls : List MenuLine) (hwf : ∀ l ∈ ls, l.WellFormed)
    (hkernel : ls.filterMap kernelLine? ≠ [])
    (hmodules : (ls.filterMap moduleLine?).length ≤ maxModules)
    (hplain : ∀ e ∈ menuEntries ls, Plainly e) :
    ∃ out mbi, Mbgen.main u (joinLines (ls.map MenuLine.text)) = .ok out ∧
      getMultiboot out = some mbi ∧
      ∀ (endBootloader bpAddr : Nat) (bp : BootParams) (cmdline : UInt32) (m : Mem),
        bpAddr < 2 ^ 32 → Movable endBootloader bp →
        MoveWorks endBootloader bp (printStatus 83 (printStatus 83 m)) →
        (∀ e ∈ menuEntries ls, FitsBelow (mbImgStart endBootloader bp) e) →
        (∀ e, kernelEntry (menuEntries ls) = some e →
          ∃ c, prepare endBootloader k1omBootMagic bpAddr bp (mbi.multibootInfo cmdline) m = .ok c ∧
            Handover endBootloader bpAddr bp m (menuEntries ls) e c) ∧
        (kernelEntry (menuEntries ls) = none →
          prepare endBootloader k1omBootMagic bpAddr bp (mbi.multibootInfo cmdline) m =
            .error (.aborted 'E' '3')) := by
  obtain ⟨out, mbi, hmain, hget, hflags, hmods⟩ := multiboot_of_menu (u := u) hwf hkernel hmodules
  refine ⟨out, mbi, hmain, hget, fun endBootloader bpAddr bp cmdline m hbp D hworks hfits => ?_⟩
  obtain ⟨bp', moved, hmove, hbytes⟩ := (moved_iff D).mpr hworks
  have hmbi : (mbi.multibootInfo cmdline).flags = menuFlags := hflags
  have hprepare := prepare_of_entries hbp hmove hmbi hmods
    (fun e he => wellFormed_of_mem_entries hwf he) hplain
  constructor
  · intro e he
    have hmem : e ∈ menuEntries ls := by
      rcases Option.or_eq_some_iff.mp he with he | ⟨-, he⟩
      · exact List.mem_of_find?_eq_some he
      · exact List.mem_of_find?_eq_some he
    rw [he] at hprepare
    exact ⟨_, hprepare, handover_of_moved D hmove hbytes (hfits e hmem)⟩
  · intro hnone
    rwa [hnone] at hprepare

/-- The kernel of the sample is the first seven bytes of the image. -/
theorem boot_from_menu_sample :
    ∃ out mbi c, Mbgen.main zeroed (joinLines (sampleMenu.map MenuLine.text)) = .ok out ∧
      getMultiboot out = some mbi ∧
      prepare 0x100000 k1omBootMagic 0x90000 farRamdisk (mbi.multibootInfo 0) (fun x => .ofNat x) =
        .ok c ∧
      Handover 0x100000 0x90000 farRamdisk (fun x => .ofNat x) [sampleKernel, sampleModule]
        sampleKernel c := by
  have hentries : menuEntries sampleMenu = [sampleKernel, sampleModule] := rfl
  have hplain : ∀ e ∈ menuEntries sampleMenu, Plainly e := by
    intro e he
    rw [hentries, List.mem_cons, List.mem_singleton] at he
    rcases he with rfl | rfl <;> decide
  obtain ⟨out, mbi, hmain, hget, hboot⟩ :=
    boot_from_menu zeroed _ wellFormed_sampleMenu (by decide) (by decide) hplain
  have hworks : MoveWorks 0x100000 farRamdisk (printStatus 83 (printStatus 83 fun x => .ofNat x)) :=
    ⟨by decide, by
      rw [if_neg (by decide)]
      decide⟩
  obtain ⟨c, hc, hover⟩ := (hboot 0x100000 0x90000 farRamdisk 0 (fun x => .ofNat x) (by decide)
    movable_farRamdisk hworks (by
      rw [hentries]
      intro e he
      rw [List.mem_cons, List.mem_singleton] at he
      rcases he with rfl | rfl <;> decide)).1 sampleKernel rfl
  exact ⟨out, mbi, c, hmain, hget, hc, hover⟩

end Philix
