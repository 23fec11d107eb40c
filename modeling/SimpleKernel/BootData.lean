import SimpleKernel.Elf
import SimpleKernel.RealMemory

/-!
# Boot data in free frames

`init_debug` keeps pointers to the symbol and string tables that the boot loader placed behind the
kernel image.  `init_pmm` knows the image only, so it pushes the frames of the tables with all
others, up to where its scan ends.
-/

namespace SimpleKernel

open ByteStore ProgramLogic

/-- The frame `f` and the `n` bytes from `x` on have a byte in common. -/
def Shares (f x n : Word) : Prop :=
  ∃ b : ℕ, (f.toNat ≤ b ∧ b < f.toNat + 4096) ∧ x.toNat ≤ b ∧ b < x.toNat + n.toNat

/-- There are no bytes, or the frame of the first one is behind the end of every usable entry, as
`init_pmm` computes it, or above 512 MB. -/
def BehindScan (m : Machine) (x n : Word) : Prop :=
  n = 0 ∨ ∀ a ∈ examinedEntries m, Usable m a →
    (regionEnd m a).toNat ≤ x.toNat / 4096 * 4096 ∨ pmmMaxSize.toNat < x.toNat / 4096 * 4096

section Tables

variable {kernEnd x n : Word} {m : Machine}

/-- The scan misses the bytes behind the image exactly if they are behind its end. -/
theorem not_shares_iff (aligned : kernEnd.toNat % 4096 = 0) (above : kernStart.toNat ≤ kernEnd.toNat)
    (behind : (frameAfter kernEnd).toNat ≤ x.toNat) :
    (∀ f ∈ framesFrom kernEnd m, ¬ Shares f x n) ↔ BehindScan m x n := by
  have start : kernStart.toNat = 0xC0100000 := rfl
  have limit : pmmMaxSize.toNat = 0x20000000 := rfl
  have first := frameAfter_toNat kernEnd (by omega)
  constructor
  · intro apart
    by_cases empty : n = 0
    · exact .inl empty
    · right
      intro a ha usable
      by_contra inside
      rw [not_or, Nat.not_le, Nat.not_lt] at inside
      have some_byte : n.toNat ≠ 0 := fun h => empty (BitVec.eq_of_toNat_eq h)
      have frame : (BitVec.ofNat 32 (x.toNat / 4096 * 4096)).toNat = x.toNat / 4096 * 4096 :=
        toNat_small (by omega)
      apply apart (BitVec.ofNat 32 (x.toNat / 4096 * 4096))
      · refine mem_framesFrom_iff.2 ⟨a, ha, usable, mem_regionFrames.2 ?_⟩
        rw [frame]
        omega
      · refine ⟨x.toNat, ?_, le_rfl, by omega⟩
        rw [frame]
        omega
  · rintro behindScan f hf ⟨b, inFrame, inTable⟩
    obtain ⟨a, ha, usable, hf⟩ := mem_framesFrom_iff.1 hf
    obtain ⟨inside, low, lower, step⟩ := mem_regionFrames.1 hf
    rcases behindScan with rfl | behindScan
    · have : (0 : Word).toNat = 0 := rfl
      omega
    · have := behindScan a ha usable
      omega

end Tables

/-- When the boot loader placed both tables behind the kernel image, `init_debug` keeps where they
are, and none of their bytes is in a frame that `init_pmm` pushes exactly if both are behind the
end of its scan. -/
theorem initPmm_bootData_iff (kernEnd : Word) (m : Machine) {x n y k : Word}
    (aligned : kernEnd.toNat % 4096 = 0) (above : kernStart.toNat ≤ kernEnd.toNat)
    (empty : frames m = []) (symtab : HasSection m m.glbMbootPtr dotSymtab x n)
    (strtab : HasSection m m.glbMbootPtr dotStrtab y k)
    (hx : (frameAfter kernEnd).toNat ≤ x.toNat) (hy : (frameAfter kernEnd).toNat ≤ y.toNat) :
    ∀ elf u t, Returns initDebug m elf u → Returns (initPmmAt kernEnd) u () t →
      elf = ⟨some (x + pageOffset), some n, some (y + pageOffset), some k⟩ ∧
        ((∀ f ∈ frames t, ¬ Shares f x n ∧ ¬ Shares f y k) ↔
          BehindScan m x n ∧ BehindScan m y k) := by
  intro elf u t debug run
  obtain ⟨rfl, rfl⟩ := (initDebug_spec m).returned debug
  have spec := initPmmAt_spec kernEnd u (by rw [empty]; exact Nat.zero_le _)
  rw [empty, List.nil_append] at spec
  obtain ⟨-, pushed⟩ := spec.returned run
  constructor
  · obtain ⟨table, size⟩ := symtab.symtab
    obtain ⟨table', size'⟩ := strtab.strtab
    rw [← table, ← size, ← table', ← size']
  · rw [pushed, ← not_shares_iff aligned above hx, ← not_shares_iff aligned above hy]
    exact forall₂_and

/-! ## Concrete section tables -/

theorem Spells.congr {mem mem' : Store 32} {p q : Word} {s : List Byte}
    (same : ∀ j ≤ s.length, mem' (p + BitVec.ofNat 32 j) = mem (q + BitVec.ofNat 32 j))
    (h : Spells mem q s) : Spells mem' p s := by
  have first := same 0 (Nat.zero_le _)
  rw [BitVec.add_zero, BitVec.add_zero] at first
  induction s generalizing p q with
  | nil => exact first.trans h
  | cons c s ih =>
    refine ⟨first.trans h.1, ih (fun j hj => ?_) h.2 (same 1 (by simp))⟩
    rw [next_offset, next_offset]
    exact same (j + 1) (by simpa using hj)

/-- Three section headers at 72 KB: the names, at 76 KB, then `.symtab` and `.strtab`. -/
structure TwoTables (mem : Store 32) (x n y k : Word) : Prop where
  num : readWord mem (0x10000 + MutilbootField.num.offset) = 3
  addr : readWord mem (0x10000 + MutilbootField.addr.offset) = 0x12000
  shndx : readWord mem (0x10000 + MutilbootField.shndx.offset) = 0
  names : readWord mem (sectionAt 0x12000 0 .addr) = 0x13000
  noName : readWord mem (sectionAt 0x12000 0 .name) = 0
  symtabName : readWord mem (sectionAt 0x12000 1 .name) = 1
  symtabAddr : readWord mem (sectionAt 0x12000 1 .addr) = x
  symtabSize : readWord mem (sectionAt 0x12000 1 .size) = n
  strtabName : readWord mem (sectionAt 0x12000 2 .name) = 9
  strtabAddr : readWord mem (sectionAt 0x12000 2 .addr) = y
  strtabSize : readWord mem (sectionAt 0x12000 2 .size) = k
  dotSymtab : Spells mem 0x13001 dotSymtab
  dotStrtab : Spells mem 0x13009 dotStrtab

/-- The memory of `bootInformation`, with `.symtab` in the page at `x` and `.strtab` behind it. -/
def bootSections (lengthLow x : Word) : Store 32 :=
  List.foldr (fun w mem => writeWord mem w.1 w.2) (bootInformation lengthLow)
    [(0x10000 + MutilbootField.num.offset, 3), (0x10000 + MutilbootField.addr.offset, 0x12000),
      (sectionAt 0x12000 0 .addr, 0x13000), (sectionAt 0x12000 1 .name, 1),
      (sectionAt 0x12000 1 .addr, x), (sectionAt 0x12000 1 .size, 4096),
      (sectionAt 0x12000 2 .name, 9), (sectionAt 0x12000 2 .addr, x + 4096),
      (sectionAt 0x12000 2 .size, 4096), (0x13000, 0x79732e00), (0x13004, 0x6261746d),
      (0x13008, 0x74732e00), (0x1300c, 0x62617472)]

namespace Booted

variable {mem : Store 32} {m : Machine} {x n y k : Word}

theorem bootWord_eq (booted : Booted mem m) (f : MutilbootField) :
    bootWord m m.glbMbootPtr f = readWord mem (0x10000 + f.offset) := by
  rw [bootWord, booted.info]
  apply booted.word <;> cases f <;> decide

theorem sectionWord_eq (booted : Booted mem m) (tables : TwoTables mem x n y k) {i : Word}
    (hi : i < 3) (f : SectionField) :
    sectionWord m m.glbMbootPtr i f = readWord mem (sectionAt 0x12000 i f) := by
  obtain rfl | rfl | rfl : i = 0 ∨ i = 1 ∨ i = 2 := by bv_omega
  all_goals
    rw [sectionWord, booted.bootWord_eq, tables.addr]
    apply booted.word <;> cases f <;> decide

/-- The names, through the kernel alias of the boot loader's memory. -/
theorem named (booted : Booted mem m) (tables : TwoTables mem x n y k) {i a : Word}
    {s : List Byte} (hi : i < 3)
    (name : readWord mem (sectionAt 0x12000 i .name) = a - 0x13000) (lo : 0x4000 ≤ a.toNat)
    (high : a.toNat + s.length < 0x400000) (spells : Spells mem a s) :
    Named m m.glbMbootPtr i s := by
  have place : sectionName m m.glbMbootPtr i = a + pageOffset := by
    rw [sectionName, booted.bootWord_eq, tables.shndx, booted.sectionWord_eq tables (by decide),
      booted.sectionWord_eq tables hi, tables.names, name]
    bv_omega
  rw [Named, place]
  refine Spells.congr (fun j hj => ?_) spells
  have offset : (a + BitVec.ofNat 32 j).toNat = a.toNat + j := toNat_offset (by omega)
  have high : (a + pageOffset + BitVec.ofNat 32 j).toNat = a.toNat + j + 0xC0000000 := by
    have up : pageOffset.toNat = 0xC0000000 := rfl
    have : (a + pageOffset).toNat = a.toNat + 0xC0000000 := toNat_offset (i := 0xC0000000) (by omega)
    rw [toNat_offset (by omega)]
    omega
  have low : a + pageOffset + BitVec.ofNat 32 j - pageOffset = a + BitVec.ofNat 32 j := by bv_omega
  rw [SimpleKernel.view_eq (booted.temp.window.translate (by omega) (by omega)), low]
  exact booted.outside _ fun table => by have := table.2; omega

theorem num_eq (booted : Booted mem m) (tables : TwoTables mem x n y k) :
    bootWord m m.glbMbootPtr .num = 3 := by
  rw [booted.bootWord_eq, tables.num]

theorem namedStrtab (booted : Booted mem m) (tables : TwoTables mem x n y k) :
    Named m m.glbMbootPtr 2 SimpleKernel.dotStrtab :=
  booted.named tables (by decide) tables.strtabName (by decide) (by decide) tables.dotStrtab

theorem hasSymtab (booted : Booted mem m) (tables : TwoTables mem x n y k) :
    HasSection m m.glbMbootPtr SimpleKernel.dotSymtab x n := by
  refine ⟨1, by rw [booted.num_eq tables]; decide, ?_, ?_, ?_, ?_⟩
  · exact booted.named tables (by decide) tables.symtabName (by decide) (by decide)
      tables.dotSymtab
  · rw [booted.sectionWord_eq tables (by decide), tables.symtabAddr]
  · rw [booted.sectionWord_eq tables (by decide), tables.symtabSize]
  · intro j hj later name
    rw [booted.num_eq tables] at hj
    obtain rfl : j = 2 := by bv_omega
    exact not_dotStrtab_of_dotSymtab name (booted.namedStrtab tables)

theorem hasStrtab (booted : Booted mem m) (tables : TwoTables mem x n y k) :
    HasSection m m.glbMbootPtr SimpleKernel.dotStrtab y k := by
  refine ⟨2, by rw [booted.num_eq tables]; decide, booted.namedStrtab tables, ?_, ?_, ?_⟩
  · rw [booted.sectionWord_eq tables (by decide), tables.strtabAddr]
  · rw [booted.sectionWord_eq tables (by decide), tables.strtabSize]
  · intro j hj later
    rw [booted.num_eq tables] at hj
    bv_omega

/-- All that the search looks at is in the memory that the temporary tables map. -/
theorem elfReads_mapped (booted : Booted mem m) (tables : TwoTables mem x n y k) :
    ∀ va ∈ elfReads m m.glbMbootPtr, translate m va ≠ none := by
  have low (a : Word) (i : ℕ) (hi : i < 4) (ha : a.toNat + 4 ≤ 0x400000) :
      translate m (a + BitVec.ofNat 32 i) ≠ none := by
    have offset : (a + BitVec.ofNat 32 i).toNat = a.toNat + i := toNat_offset (by omega)
    rw [booted.temp.identity.translate (Nat.zero_le _) (by omega)]
    exact Option.some_ne_none _
  rintro va (⟨f, -, i, hi, rfl⟩ | ⟨i, f, which, j, hj, rfl⟩ | ⟨i, which, j, hj, rfl⟩)
  · apply low _ i hi
    rw [booted.info]
    cases f <;> decide
  · apply low _ j hj
    rw [booted.bootWord_eq, booted.num_eq tables, tables.shndx] at which
    rw [booted.bootWord_eq, tables.addr]
    obtain rfl | rfl | rfl : i = 0 ∨ i = 1 ∨ i = 2 := by bv_omega
    all_goals cases f <;> decide
  · rw [booted.num_eq tables] at which
    have place : ∃ o : Word, o.toNat ≤ 9 ∧ sectionName m m.glbMbootPtr i = 0xC0013000 + o := by
      refine ⟨sectionWord m m.glbMbootPtr i .name, ?_, ?_⟩
      · rw [booted.sectionWord_eq tables which]
        obtain rfl | rfl | rfl : i = 0 ∨ i = 1 ∨ i = 2 := by bv_omega
        · rw [tables.noName]
          decide
        · rw [tables.symtabName]
          decide
        · rw [tables.strtabName]
          decide
      · rw [sectionName, booted.bootWord_eq, tables.shndx,
          booted.sectionWord_eq tables (by decide), tables.names]
        unfold pageOffset
        bv_omega
    obtain ⟨o, small, place⟩ := place
    have offset : (sectionName m m.glbMbootPtr i + BitVec.ofNat 32 j).toNat =
        0xC0013000 + o.toNat + j := by
      rw [place, BitVec.toNat_add, BitVec.toNat_add, BitVec.toNat_ofNat]
      have base : (0xC0013000 : Word).toNat = 0xC0013000 := rfl
      omega
    rw [booted.temp.window.translate (by omega) (by omega)]
    exact Option.some_ne_none _

end Booted

/-- Boot information that puts `.symtab` in the first frame behind a 1 MB image. -/
theorem twoTables_128M : TwoTables (bootSections 0x7F00000 0x200000) 0x200000 4096 0x201000 4096 :=
  ⟨by decide +kernel, by decide +kernel, by decide +kernel, by decide +kernel, by decide +kernel,
    by decide +kernel, by decide +kernel, by decide +kernel, by decide +kernel, by decide +kernel,
    by decide +kernel, by decide +kernel, by decide +kernel⟩

theorem singleRegion_128M : SingleRegion (bootSections 0x7F00000 0x200000) 0x7F00000 :=
  ⟨by decide +kernel, by decide +kernel, by decide +kernel, by decide +kernel, by decide +kernel⟩

/-- With 1 GB of memory and the tables in its upper half. -/
theorem twoTables_1G :
    TwoTables (bootSections 0x3FF00000 0x30000000) 0x30000000 4096 0x30001000 4096 :=
  ⟨by decide +kernel, by decide +kernel, by decide +kernel, by decide +kernel, by decide +kernel,
    by decide +kernel, by decide +kernel, by decide +kernel, by decide +kernel, by decide +kernel,
    by decide +kernel, by decide +kernel, by decide +kernel⟩

theorem singleRegion_1G : SingleRegion (bootSections 0x3FF00000 0x30000000) 0x3FF00000 :=
  ⟨by decide +kernel, by decide +kernel, by decide +kernel, by decide +kernel, by decide +kernel⟩

/-- The first frame that is pushed is the one that `kernel_elf` points to. -/
theorem symtab_in_frame_128M : ∃ m t elf, Booted (bootSections 0x7F00000 0x200000) m ∧
    HasSection m m.glbMbootPtr dotSymtab 0x200000 4096 ∧
    HasSection m m.glbMbootPtr dotStrtab 0x201000 4096 ∧
    Usable m 0x11000 ∧ regionEnd m 0x11000 = 0x8000000 ∧
    Returns initDebug m elf m ∧ Returns (initPmmAt smallImage.kernEnd) m () t ∧
    elf.symtab = some (0x200000 + pageOffset) ∧ 0x200000 ∈ frames t ∧
    Shares 0x200000 0x200000 4096 := by
  obtain ⟨m, booted⟩ := exists_booted (bootSections 0x7F00000 0x200000)
  obtain ⟨t, run, pushed⟩ := booted.scanned singleRegion_128M
  have symtab := booted.hasSymtab twoTables_128M
  have debug := initDebug_returns (booted.elfReads_mapped twoTables_128M)
  refine ⟨m, t, _, booted, symtab, booted.hasStrtab twoTables_128M,
    booted.usable singleRegion_128M, booted.regionEnd_eq singleRegion_128M, debug, run,
    symtab.symtab.1, ?_, 0x200000, by decide, by decide⟩
  rw [pushed]
  exact mem_regionFrames.2 (by decide)

theorem initPmm_bootData_iff_1G : ∃ m t elf, Booted (bootSections 0x3FF00000 0x30000000) m ∧
    Returns initDebug m elf m ∧ Returns (initPmmAt smallImage.kernEnd) m () t ∧
    elf = ⟨some (0x30000000 + pageOffset), some 4096, some (0x30001000 + pageOffset), some 4096⟩ ∧
    ∀ f ∈ frames t, ¬ Shares f 0x30000000 4096 ∧ ¬ Shares f 0x30001000 4096 := by
  obtain ⟨m, booted⟩ := exists_booted (bootSections 0x3FF00000 0x30000000)
  obtain ⟨t, run, -⟩ := booted.scanned singleRegion_1G
  have debug := initDebug_returns (booted.elfReads_mapped twoTables_1G)
  obtain ⟨stored, exact⟩ := initPmm_bootData_iff smallImage.kernEnd m (by decide) (by decide)
    booted.frames_eq_nil (booted.hasSymtab twoTables_1G) (booted.hasStrtab twoTables_1G)
    (by decide) (by decide) _ _ t debug run
  exact ⟨m, t, _, booted, debug, run, stored, exact.2
    ⟨.inr fun _ _ _ => .inr (by decide), .inr fun _ _ _ => .inr (by decide)⟩⟩

end SimpleKernel
