import SimpleKernel.Layout
import SimpleKernel.Mstring

/-!
# The kernel's symbol tables

`melf.c` and `init_debug`: the search for `.symtab` and `.strtab` in the section table that the boot
loader describes.  The search only looks, so its result is a function of the bytes in view.
-/

namespace SimpleKernel

open ByteStore ProgramLogic

/-! ## `melf.h` -/

/-- The members of `struct elf_section_header`, in order; each is a `uint32_t` and the struct is
packed. -/
inductive SectionField where
  | name | type | flags | addr | offset | size | link | info | addralign | entsize
  deriving DecidableEq, Repr

namespace SectionField

def displacement (f : SectionField) : Word := BitVec.ofNat 32 (4 * f.ctorIdx)

end SectionField

/-- `sizeof(elf_section_header_t)`. -/
def sizeofSectionHeader : Word := SectionField.entsize.displacement + 4

/-- `elf_t`, with `none` for a member that was never assigned. -/
structure Elf where
  symtab : Option Word
  symtabsz : Option Word
  strtab : Option Word
  strtabsz : Option Word
  deriving DecidableEq

def dotStrtab : List Byte := ['.', 's', 't', 'r', 't', 'a', 'b'].map (BitVec.ofNat 8 ·.toNat)

def dotSymtab : List Byte := ['.', 's', 'y', 'm', 't', 'a', 'b'].map (BitVec.ofNat 8 ·.toNat)

/-! ## `melf.c` -/

/-- The address of `sh[i].f`. -/
def sectionAt (sh i : Word) (f : SectionField) : Word :=
  sh + sizeofSectionHeader * i + f.displacement

/-- The body of the loop in `elf_from_mutilboot`. -/
def scanSection (sh shstrtab i : Word) (elf : Elf) : Kernel Elf := do
  let name := shstrtab + (← load32 (sectionAt sh i .name)) + pageOffset
  if (← strcmp (charsAt name) (literal dotStrtab)) = 0 then
    let strtab := (← load32 (sectionAt sh i .addr)) + pageOffset
    let strtabsz ← load32 (sectionAt sh i .size)
    return { elf with strtab := some strtab, strtabsz := some strtabsz }
  else if (← strcmp (charsAt name) (literal dotSymtab)) = 0 then
    let symtab := (← load32 (sectionAt sh i .addr)) + pageOffset
    let symtabsz ← load32 (sectionAt sh i .size)
    return { elf with symtab := some symtab, symtabsz := some symtabsz }
  else
    return elf

def elfFromMutilboot (mb : Word) : Kernel Elf := do
  let sh ← load32 (mb + MutilbootField.addr.offset)
  let shndx ← load32 (mb + MutilbootField.shndx.offset)
  let shstrtab ← load32 (sectionAt sh shndx .addr)
  let x ← whileM .hang
    (fun x : Word × Elf => return decide (x.1 < (← load32 (mb + MutilbootField.num.offset))))
    (fun x => return (x.1 + 1, ← scanSection sh shstrtab x.1 x.2)) roundLimit
    (0, ⟨none, none, none, none⟩)
  return x.2

/-- `init_debug`, with what it stores in `kernel_elf`. -/
def initDebug : Kernel Elf := do
  elfFromMutilboot (← get).glbMbootPtr

/-! ## The section table in view -/

section View

variable (m : Machine) (mb : Word)

def bootWord (f : MutilbootField) : Word := readWord (view m) (mb + f.offset)

/-- `sh[i].f`. -/
def sectionWord (i : Word) (f : SectionField) : Word :=
  readWord (view m) (sectionAt (bootWord m mb .addr) i f)

/-- Where the name of section `i` is looked up. -/
def sectionName (i : Word) : Word :=
  sectionWord m mb (bootWord m mb .shndx) .addr + sectionWord m mb i .name + pageOffset

/-- Section `i` is called `s`. -/
abbrev Named (i : Word) (s : List Byte) : Prop := Spells (view m) (sectionName m mb i) s

/-- What one round of the loop makes of `elf`. -/
def elfStep (i : Word) (elf : Elf) : Elf :=
  if Named m mb i dotStrtab then
    { elf with
      strtab := some (sectionWord m mb i .addr + pageOffset)
      strtabsz := some (sectionWord m mb i .size) }
  else if Named m mb i dotSymtab then
    { elf with
      symtab := some (sectionWord m mb i .addr + pageOffset)
      symtabsz := some (sectionWord m mb i .size) }
  else elf

/-- What the loop has found in the sections before the `n`-th. -/
def elfUpTo : ℕ → Elf
  | 0 => ⟨none, none, none, none⟩
  | n + 1 => elfStep m mb (BitVec.ofNat 32 n) (elfUpTo n)

/-- The addresses that `elf_from_mutilboot` looks at: members of the boot information and of the
section headers, and the beginnings of the names. -/
def elfReads : Set Word :=
  {va | ∃ f ∈ [MutilbootField.num, .addr, .shndx], va ∈ wordBytes (mb + f.offset)} ∪
    ({va | ∃ i f, (i = bootWord m mb .shndx ∨ i < bootWord m mb .num) ∧
      va ∈ wordBytes (sectionAt (bootWord m mb .addr) i f)} ∪
    {va | ∃ i < bootWord m mb .num, ∃ j ≤ 7, va = sectionName m mb i + BitVec.ofNat 32 j})

end View

/-- A fault at one of the addresses in `reads`. -/
def FaultIn (m : Machine) (reads : Set Word) (e : Stop) (t : Machine) : Prop :=
  t = m ∧ ∃ va ∈ reads, e = .pageFault va ∧ translate m va = none

section Spec

variable {m : Machine} {mb : Word}

/-- A program that faults in `reads` only returns if these are mapped. -/
theorem returns_of_mapped {α : Type} {c : Kernel α} {r : α} {reads : Set Word}
    (spec : WP c (FaultIn m reads) (fun a t => a = r ∧ t = m) m)
    (mapped : ∀ va ∈ reads, translate m va ≠ none) : Returns c m r m := by
  rcases spec.outcome with ⟨a, t, run, rfl, rfl⟩ | ⟨e, t, -, -, va, hva, -, fault⟩
  · exact run
  · exact absurd fault (mapped va hva)

theorem load32_reads {reads : Set Word} {a : Word} {Q : Word → Machine → Prop}
    (seen : wordBytes a ⊆ reads) (hQ : Q (readWord (view m) a) m) :
    WP (load32 a) (FaultIn m reads) Q m :=
  load32_view (fun i hi fault => ⟨rfl, _, seen ⟨i, hi, rfl⟩, rfl, fault⟩) hQ

theorem scanSection_spec {i : Word} (hi : i < bootWord m mb .num) (elf : Elf) :
    WP (scanSection (bootWord m mb .addr) (sectionWord m mb (bootWord m mb .shndx) .addr) i elf)
      (FaultIn m (elfReads m mb)) (fun elf' t => elf' = elfStep m mb i elf ∧ t = m) m := by
  have header (f : SectionField) :
      wordBytes (sectionAt (bootWord m mb .addr) i f) ⊆ elfReads m mb :=
    fun va hva => .inr (.inl ⟨i, f, .inr hi, hva⟩)
  have compare (s : List Byte) (len : s.length = 7) (hs : 0 ∉ s) {Q : ℤ → Machine → Prop}
      (hQ : ∀ r, (r = 0 ↔ Named m mb i s) → Q r m) :
      WP (strcmp (charsAt (sectionName m mb i)) (literal s)) (FaultIn m (elfReads m mb)) Q m := by
    refine strcmp_spec (by rw [len]; decide) hs (fun j hj fault => ?_) hQ
    exact ⟨rfl, _, .inr (.inr ⟨i, hi, j, by omega, rfl⟩), rfl, fault⟩
  simp only [scanSection, wp_bind]
  apply load32_reads (header .name)
  apply compare dotStrtab rfl (by decide)
  intro r hr
  unfold elfStep
  by_cases isStrtab : Named m mb i dotStrtab
  · rw [if_pos (hr.2 isStrtab), if_pos isStrtab, wp_bind]
    apply load32_reads (header .addr)
    rw [wp_bind]
    exact load32_reads (header .size) ⟨rfl, rfl⟩
  · rw [if_neg (mt hr.1 isStrtab), if_neg isStrtab, wp_bind]
    apply compare dotSymtab rfl (by decide)
    intro r hr
    by_cases isSymtab : Named m mb i dotSymtab
    · rw [if_pos (hr.2 isSymtab), if_pos isSymtab, wp_bind]
      apply load32_reads (header .addr)
      rw [wp_bind]
      exact load32_reads (header .size) ⟨rfl, rfl⟩
    · rw [if_neg (mt hr.1 isSymtab), if_neg isSymtab]
      exact ⟨rfl, rfl⟩

/-- The search looks at the section table once and changes nothing. -/
theorem elfFromMutilboot_spec (m : Machine) (mb : Word) :
    WP (elfFromMutilboot mb) (FaultIn m (elfReads m mb))
      (fun elf t => elf = elfUpTo m mb (bootWord m mb .num).toNat ∧ t = m) m := by
  have member (f : MutilbootField) (hf : f ∈ [MutilbootField.num, .addr, .shndx]) :
      wordBytes (mb + f.offset) ⊆ elfReads m mb := fun va hva => .inl ⟨f, hf, hva⟩
  simp only [elfFromMutilboot, wp_bind]
  apply load32_reads (member .addr (by decide))
  apply load32_reads (member .shndx (by decide))
  apply load32_reads fun va hva => .inr (.inl ⟨_, .addr, .inl rfl, hva⟩)
  refine WP.whileM
    (fun x t => ∃ n ≤ (bootWord m mb .num).toNat,
      x = (BitVec.ofNat 32 n, elfUpTo m mb n) ∧ t = m)
    (fun x _ => (bootWord m mb .num).toNat - x.1.toNat) ?_ roundLimit
    ⟨0, Nat.zero_le _, rfl, rfl⟩ ?_
  · rintro _ t ⟨n, hn, rfl, rfl⟩
    have index : (BitVec.ofNat 32 n).toNat = n := toNat_small (by omega)
    rw [wp_bind]
    apply load32_reads (member .num (by decide))
    show WP (pure (decide (BitVec.ofNat 32 n < bootWord t mb .num))) _ _ _
    rw [wp_pure]
    by_cases more : n < (bootWord t mb .num).toNat
    · have inside : BitVec.ofNat 32 n < bootWord t mb .num := by rwa [BitVec.lt_def, index]
      have next : BitVec.ofNat 32 n + 1 = BitVec.ofNat 32 (n + 1) := ofNat_succ n
      rw [if_pos (decide_eq_true inside), wp_bind]
      refine (scanSection_spec inside _).mono fun elf u scanned => ?_
      obtain ⟨found, same⟩ := scanned
      rw [wp_pure]
      refine ⟨⟨n + 1, more, ?_, same⟩, ?_⟩
      · rw [next, found]
        rfl
      · show _ - (BitVec.ofNat 32 n + 1).toNat < _ - (BitVec.ofNat 32 n).toNat
        rw [next, index, toNat_small (by omega)]
        omega
    · have outside : ¬ BitVec.ofNat 32 n < bootWord t mb .num := by rwa [BitVec.lt_def, index]
      rw [if_neg (by simpa using outside), wp_pure]
      obtain rfl : n = (bootWord t mb .num).toNat := by omega
      exact ⟨rfl, rfl⟩
  · exact lt_of_le_of_lt (Nat.sub_le _ _) (bootWord m mb .num).isLt

theorem initDebug_spec (m : Machine) : WP initDebug (FaultIn m (elfReads m m.glbMbootPtr))
    (fun elf t => elf = elfUpTo m m.glbMbootPtr (bootWord m m.glbMbootPtr .num).toNat ∧ t = m)
    m := by
  rw [initDebug, wp_bind, wp_get]
  exact elfFromMutilboot_spec m m.glbMbootPtr

/-- `init_debug` returns if all that it looks at is mapped. -/
theorem initDebug_returns (mapped : ∀ va ∈ elfReads m m.glbMbootPtr, translate m va ≠ none) :
    Returns initDebug m (elfUpTo m m.glbMbootPtr (bootWord m m.glbMbootPtr .num).toNat) m := by
  rcases (initDebug_spec m).outcome with
    ⟨elf, t, run, rfl, rfl⟩ | ⟨e, t, -, -, va, reads, -, fault⟩
  · exact run
  · exact absurd fault (mapped va reads)

end Spec

/-! ## Sections by name -/

section Sections

variable {m : Machine} {mb x n : Word} {s : List Byte}

/-- The section table puts the section called `s`, the last one of that name, at the `n` bytes from
the physical address `x` on. -/
structure HasSection (m : Machine) (mb : Word) (s : List Byte) (x n : Word) : Prop where
  found : ∃ i < bootWord m mb .num, Named m mb i s ∧ sectionWord m mb i .addr = x ∧
    sectionWord m mb i .size = n ∧ ∀ j < bootWord m mb .num, i < j → ¬ Named m mb j s

theorem not_dotStrtab_of_dotSymtab {i : Word} (h : Named m mb i dotSymtab) :
    ¬ Named m mb i dotStrtab := fun h' =>
  absurd (Spells.unique h h' (by decide) (by decide)) (by decide)

/-- What a round that assigns a pair of members leaves in them stays there if no later section has
the name for which they are assigned. -/
theorem HasSection.elfUpTo (has : HasSection m mb s x n) (table : Elf → Option Word × Option Word)
    (assign : ∀ i elf, Named m mb i s → table (elfStep m mb i elf) =
      (some (sectionWord m mb i .addr + pageOffset), some (sectionWord m mb i .size)))
    (keep : ∀ i elf, ¬ Named m mb i s → table (elfStep m mb i elf) = table elf) :
    table (elfUpTo m mb (bootWord m mb .num).toNat) = (some (x + pageOffset), some n) := by
  obtain ⟨i, hi, name, rfl, rfl, last⟩ := has.found
  rw [BitVec.lt_def] at hi
  suffices upTo : ∀ k, i.toNat < k → k ≤ (bootWord m mb .num).toNat →
      table (SimpleKernel.elfUpTo m mb k) =
        (some (sectionWord m mb i .addr + pageOffset), some (sectionWord m mb i .size)) from
    upTo _ hi le_rfl
  intro k
  induction k with
  | zero => omega
  | succ k ih =>
    intro above below
    have index : (BitVec.ofNat 32 k).toNat = k := toNat_small (by omega)
    rw [SimpleKernel.elfUpTo]
    rcases Nat.lt_or_ge i.toNat k with later | here
    · have other : ¬ Named m mb (BitVec.ofNat 32 k) s := by
        apply last
        · rw [BitVec.lt_def, index]
          omega
        · rwa [BitVec.lt_def, index]
      rw [keep _ _ other]
      exact ih later (by omega)
    · obtain rfl : i = BitVec.ofNat 32 k := BitVec.eq_of_toNat_eq (by rw [index]; omega)
      exact assign _ _ name

theorem HasSection.strtab (has : HasSection m mb dotStrtab x n) :
    (SimpleKernel.elfUpTo m mb (bootWord m mb .num).toNat).strtab = some (x + pageOffset) ∧
      (SimpleKernel.elfUpTo m mb (bootWord m mb .num).toNat).strtabsz = some n := by
  have found := has.elfUpTo (fun elf => (elf.strtab, elf.strtabsz))
    (fun i elf name => by rw [elfStep, if_pos name]) (fun i elf other => by
      rw [elfStep, if_neg other]
      split_ifs <;> rfl)
  simpa only [Prod.mk.injEq] using found

theorem HasSection.symtab (has : HasSection m mb dotSymtab x n) :
    (SimpleKernel.elfUpTo m mb (bootWord m mb .num).toNat).symtab = some (x + pageOffset) ∧
      (SimpleKernel.elfUpTo m mb (bootWord m mb .num).toNat).symtabsz = some n := by
  have found := has.elfUpTo (fun elf => (elf.symtab, elf.symtabsz))
    (fun i elf name => by rw [elfStep, if_neg (not_dotStrtab_of_dotSymtab name), if_pos name])
    (fun i elf other => by
      rw [elfStep, if_neg other]
      split_ifs <;> rfl)
  simpa only [Prod.mk.injEq] using found

end Sections

end SimpleKernel
