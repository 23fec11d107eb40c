import Mathlib.Data.List.Pairwise
import SimpleKernel.BootData

/-!
# Names of addresses

`elf_lookup_symbol` of `melf.c`.  It gives the name of the first function symbol whose range contains
the address, so as long as the ranges are disjoint neither the order of the symbols nor that of the
sections they were found through matters.
-/

namespace SimpleKernel

open ByteStore ProgramLogic

/-! ## `melf.h` -/

/-- The members of `struct elf_symbol`, in order; the struct is packed. -/
inductive SymbolField where
  | name | value | size | info | other | shndx
  deriving DecidableEq, Repr

def SymbolField.displacement : SymbolField → Word
  | name => 0
  | value => 4
  | size => 8
  | info => 12
  | other => 13
  | shndx => 14

/-- `sizeof(elf_symbol_t)`. -/
def sizeofSymbol : Word := SymbolField.shndx.displacement + 2

def elf32StType (i : Byte) : Byte := i &&& 0xf

/-! ## `melf.c` -/

/-- The address of `symtab[i].f`. -/
def symbolAt (symtab i : Word) (f : SymbolField) : Word :=
  symtab + sizeofSymbol * i + f.displacement

/-- Read a member of `elf_t`. -/
def assigned : Option Word → Kernel Word
  | some x => pure x
  | none => throw .uninitialised

/-- The loop of `elf_lookup_symbol` from index `i` on. -/
def elfLookupSymbolFrom (addr : Word) (elf : Elf) : ℕ → Word → Kernel Word
  | 0, _ => throw .hang
  | fuel + 1, i => do
    if i < (← assigned elf.symtabsz) / sizeofSymbol then
      if elf32StType (← load8 (symbolAt (← assigned elf.symtab) i .info)) ≠ 2 then
        elfLookupSymbolFrom addr elf fuel (i + 1)
      else
        let value ← load32 (symbolAt (← assigned elf.symtab) i .value)
        if value ≤ addr then
          let stop := value + (← load32 (symbolAt (← assigned elf.symtab) i .size))
          if addr < stop then
            return (← assigned elf.strtab) + (← load32 (symbolAt (← assigned elf.symtab) i .name))
          else
            elfLookupSymbolFrom addr elf fuel (i + 1)
        else
          elfLookupSymbolFrom addr elf fuel (i + 1)
    else
      return 0

def elfLookupSymbol (addr : Word) (elf : Elf) : Kernel Word :=
  elfLookupSymbolFrom addr elf roundLimit 0

/-! ## The symbol table in view -/

structure Symbol where
  name : Word
  value : Word
  size : Word
  info : Byte
  deriving DecidableEq, Repr

namespace Symbol

def IsFunction (s : Symbol) : Prop := elf32StType s.info = 2

/-- The address is in `[value, value + size)`. -/
def Contains (s : Symbol) (addr : Word) : Prop :=
  s.value.toNat ≤ addr.toNat ∧ addr.toNat < s.value.toNat + s.size.toNat

/-- The test that `elf_lookup_symbol` makes. -/
def Matches (addr : Word) (s : Symbol) : Prop :=
  s.IsFunction ∧ s.value ≤ addr ∧ addr < s.value + s.size

instance (s : Symbol) : Decidable s.IsFunction := inferInstanceAs (Decidable (_ = _))

instance (s : Symbol) (addr : Word) : Decidable (s.Contains addr) :=
  inferInstanceAs (Decidable (_ ∧ _))

instance (s : Symbol) (addr : Word) : Decidable (s.Matches addr) :=
  inferInstanceAs (Decidable (_ ∧ _))

/-- The two symbols are not functions with an address in common. -/
def Apart (s t : Symbol) : Prop :=
  s.IsFunction → t.IsFunction → ∀ addr, ¬ (s.Contains addr ∧ t.Contains addr)

instance : Std.Symm Apart := ⟨fun _ _ h ft fs addr both => h fs ft addr both.symm⟩

/-- If `value + size` is an address, the test is the one meant. -/
theorem matches_iff {s : Symbol} {addr : Word} (noWrap : s.value.toNat + s.size.toNat < 2 ^ 32) :
    s.Matches addr ↔ s.IsFunction ∧ s.Contains addr := by
  have stop : (s.value + s.size).toNat = s.value.toNat + s.size.toNat := by
    rw [BitVec.toNat_add, Nat.mod_eq_of_lt noWrap]
  rw [Matches, Contains, BitVec.le_def, BitVec.lt_def, stop]

end Symbol

/-- `symtab[i]`. -/
def symbolOf (m : Machine) (symtab i : Word) : Symbol where
  name := readWord (view m) (symbolAt symtab i .name)
  value := readWord (view m) (symbolAt symtab i .value)
  size := readWord (view m) (symbolAt symtab i .size)
  info := view m (symbolAt symtab i .info)

/-- How many symbols a table of `symtabsz` bytes has. -/
def symbolCount (symtabsz : Word) : ℕ := (symtabsz / sizeofSymbol).toNat

/-- The symbols of the table of `symtabsz` bytes from `symtab` on. -/
def symbols (m : Machine) (symtab symtabsz : Word) : List Symbol :=
  (List.range (symbolCount symtabsz)).map fun i => symbolOf m symtab (BitVec.ofNat 32 i)

/-- The address of the name that the table has for `addr`, 0 for none. -/
def nameIn (table : List Symbol) (strtab addr : Word) : Word :=
  match table.find? (Symbol.Matches addr) with
  | some s => strtab + s.name
  | none => 0

/-- The addresses of a symbol table. -/
def symbolReads (symtab symtabsz : Word) : Set Word :=
  {va | ∃ i < symtabsz / sizeofSymbol, ∃ j < 16, va = symtab + sizeofSymbol * i + BitVec.ofNat 32 j}

section Lookup

variable {m : Machine} {symtab symtabsz strtab addr : Word} {strtabsz : Option Word}

theorem symbolWord_reads {i : Word} {f : SymbolField} (hi : i < symtabsz / sizeofSymbol)
    (hf : f = .name ∨ f = .value ∨ f = .size) :
    wordBytes (symbolAt symtab i f) ⊆ symbolReads symtab symtabsz := by
  rintro va ⟨j, hj, rfl⟩
  obtain ⟨k, low, place⟩ : ∃ k ≤ 8, f.displacement = BitVec.ofNat 32 k := by
    rcases hf with rfl | rfl | rfl
    · exact ⟨0, by decide, rfl⟩
    · exact ⟨4, by decide, rfl⟩
    · exact ⟨8, by decide, rfl⟩
  refine ⟨i, hi, k + j, by omega, ?_⟩
  rw [symbolAt, place, offset_offset]

theorem symbolInfo_reads {i : Word} (hi : i < symtabsz / sizeofSymbol) :
    symbolAt symtab i .info ∈ symbolReads symtab symtabsz := ⟨i, hi, 12, by decide, rfl⟩

/-- One round looks at one symbol. -/
theorem elfLookupSymbolFrom_succ {fuel : ℕ} {i : Word} {Q : Word → Machine → Prop}
    (hi : i < symtabsz / sizeofSymbol)
    (found : (symbolOf m symtab i).Matches addr → Q (strtab + (symbolOf m symtab i).name) m)
    (next : ¬ (symbolOf m symtab i).Matches addr →
      WP (elfLookupSymbolFrom addr ⟨some symtab, some symtabsz, some strtab, strtabsz⟩ fuel (i + 1))
        (FaultIn m (symbolReads symtab symtabsz)) Q m) :
    WP (elfLookupSymbolFrom addr ⟨some symtab, some symtabsz, some strtab, strtabsz⟩ (fuel + 1) i)
      (FaultIn m (symbolReads symtab symtabsz)) Q m := by
  simp only [elfLookupSymbolFrom, assigned, pure_bind]
  rw [if_pos hi, wp_bind]
  refine load8_view (fun fault => ⟨rfl, _, symbolInfo_reads hi, rfl, fault⟩) ?_
  by_cases function : elf32StType (view m (symbolAt symtab i .info)) = 2
  · rw [if_neg (not_not_intro function), wp_bind]
    apply load32_reads (symbolWord_reads hi (by decide))
    by_cases above : readWord (view m) (symbolAt symtab i .value) ≤ addr
    · rw [if_pos above, wp_bind]
      apply load32_reads (symbolWord_reads hi (by decide))
      by_cases below : addr < readWord (view m) (symbolAt symtab i .value) +
          readWord (view m) (symbolAt symtab i .size)
      · rw [if_pos below, wp_bind]
        apply load32_reads (symbolWord_reads hi (by decide))
        exact found ⟨function, above, below⟩
      · rw [if_neg below]
        exact next fun h => below h.2.2
    · rw [if_neg above]
      exact next fun h => above h.2.1
  · rw [if_pos function]
    exact next fun h => function h.1

/-- From index `i` on the loop searches the symbols from the `i`-th on. -/
theorem elfLookupSymbolFrom_spec {i fuel : ℕ} (hi : i ≤ symbolCount symtabsz)
    (enough : symbolCount symtabsz - i < fuel) :
    WP (elfLookupSymbolFrom addr ⟨some symtab, some symtabsz, some strtab, strtabsz⟩ fuel
        (BitVec.ofNat 32 i)) (FaultIn m (symbolReads symtab symtabsz))
      (fun r t => r = nameIn ((symbols m symtab symtabsz).drop i) strtab addr ∧ t = m) m := by
  have limit : symbolCount symtabsz < 2 ^ 32 := BitVec.isLt _
  have length : (symbols m symtab symtabsz).length = symbolCount symtabsz := by
    rw [symbols, List.length_map, List.length_range]
  induction fuel generalizing i with
  | zero => omega
  | succ fuel ih =>
    have index : (BitVec.ofNat 32 i).toNat = i := toNat_small (by omega)
    have next : BitVec.ofNat 32 i + 1 = BitVec.ofNat 32 (i + 1) := ofNat_succ i
    rcases Nat.lt_or_ge i (symbolCount symtabsz) with inside | out
    · have rest : (symbols m symtab symtabsz).drop i =
          symbolOf m symtab (BitVec.ofNat 32 i) :: (symbols m symtab symtabsz).drop (i + 1) := by
        rw [List.drop_eq_getElem_cons (by omega)]
        congr 1
        simp [symbols]
      have more : BitVec.ofNat 32 i < symtabsz / sizeofSymbol := by
        rwa [BitVec.lt_def, index]
      rw [rest]
      refine elfLookupSymbolFrom_succ more (fun found => ⟨?_, rfl⟩) fun other => ?_
      · rw [nameIn, List.find?_cons_of_pos (by simpa using found)]
      · rw [next]
        refine (ih inside (by omega)).mono fun r t both => ⟨?_, both.2⟩
        rw [both.1, nameIn, nameIn, List.find?_cons_of_neg (by simpa using other)]
    · have done : ¬ BitVec.ofNat 32 i < symtabsz / sizeofSymbol := by
        rw [BitVec.lt_def, index]
        exact Nat.not_lt.2 out
      simp only [elfLookupSymbolFrom, assigned, pure_bind]
      rw [if_neg done, wp_pure, List.drop_eq_nil_of_le (by omega)]
      exact ⟨rfl, rfl⟩

/-- The lookup reads the table only, and gives the name of the first symbol that matches. -/
theorem elfLookupSymbol_spec :
    WP (elfLookupSymbol addr ⟨some symtab, some symtabsz, some strtab, strtabsz⟩)
      (FaultIn m (symbolReads symtab symtabsz))
      (fun r t => r = nameIn (symbols m symtab symtabsz) strtab addr ∧ t = m) m :=
  elfLookupSymbolFrom_spec (i := 0) (Nat.zero_le _) (BitVec.isLt _)

end Lookup

/-! ## Tables with disjoint functions -/

section Disjoint

variable {table table' : List Symbol} {strtab addr : Word}

/-- The ranges of the functions do not wrap around and have no address in common. -/
structure DisjointFunctions (table : List Symbol) : Prop where
  noWrap : ∀ s ∈ table, s.IsFunction → s.value.toNat + s.size.toNat < 2 ^ 32
  apart : table.Pairwise Symbol.Apart

theorem DisjointFunctions.matches_iff (disjoint : DisjointFunctions table) {s : Symbol}
    (hs : s ∈ table) : s.Matches addr ↔ s.IsFunction ∧ s.Contains addr := by
  by_cases function : s.IsFunction
  · exact Symbol.matches_iff (disjoint.noWrap s hs function)
  · exact iff_of_false (fun h => function h.1) fun h => function h.1

/-- An address has one name at most. -/
theorem DisjointFunctions.unique (disjoint : DisjointFunctions table) {s t : Symbol}
    (hs : s ∈ table) (ht : t ∈ table) (ms : s.Matches addr) (mt : t.Matches addr) : s = t := by
  by_contra differ
  obtain ⟨fs, cs⟩ := (disjoint.matches_iff hs).1 ms
  obtain ⟨ft, ct⟩ := (disjoint.matches_iff ht).1 mt
  exact disjoint.apart.forall hs ht differ fs ft addr ⟨cs, ct⟩

theorem DisjointFunctions.nameIn_eq (disjoint : DisjointFunctions table) {s : Symbol}
    (hs : s ∈ table) (function : s.IsFunction) (contains : s.Contains addr) :
    nameIn table strtab addr = strtab + s.name := by
  have ms := (disjoint.matches_iff hs).2 ⟨function, contains⟩
  have some_match : (table.find? (Symbol.Matches addr)).isSome := by
    rw [List.find?_isSome]
    exact ⟨s, hs, decide_eq_true ms⟩
  obtain ⟨t, found⟩ := Option.isSome_iff_exists.1 some_match
  have mt : t.Matches addr := by simpa using List.find?_some found
  rw [nameIn, found, disjoint.unique hs (List.mem_of_find?_eq_some found) ms mt]

theorem DisjointFunctions.nameIn_eq_zero (disjoint : DisjointFunctions table)
    (unknown : ∀ s ∈ table, s.IsFunction → ¬ s.Contains addr) : nameIn table strtab addr = 0 := by
  rw [nameIn, List.find?_eq_none.2]
  intro s hs
  rw [decide_eq_true_iff, disjoint.matches_iff hs]
  exact fun known => unknown s hs known.1 known.2

theorem DisjointFunctions.perm (disjoint : DisjointFunctions table) (perm : table'.Perm table) :
    DisjointFunctions table' where
  noWrap s hs := disjoint.noWrap s (perm.subset hs)
  apart := perm.symm.pairwise disjoint.apart fun h => symm h

/-- The order of the symbols does not matter. -/
theorem DisjointFunctions.nameIn_perm (disjoint : DisjointFunctions table)
    (perm : table'.Perm table) : nameIn table' strtab addr = nameIn table strtab addr := by
  have disjoint' := disjoint.perm perm
  by_cases known : ∃ s ∈ table, s.IsFunction ∧ s.Contains addr
  · obtain ⟨s, hs, function, contains⟩ := known
    rw [disjoint.nameIn_eq hs function contains,
      disjoint'.nameIn_eq (perm.symm.subset hs) function contains]
  · simp only [not_exists, not_and] at known
    rw [disjoint.nameIn_eq_zero known,
      disjoint'.nameIn_eq_zero fun s hs => known s (perm.subset hs)]

end Disjoint

/-! ## From the section table to the names -/

section Sections

variable {m m' : Machine} {mb x n y k : Word} {s : List Byte}

/-- Exactly one section is called `s`, and it is the `n` bytes from the physical address `x` on. -/
structure OnlySection (m : Machine) (mb : Word) (s : List Byte) (x n : Word) : Prop where
  found : ∃ i < bootWord m mb .num, Named m mb i s ∧ sectionWord m mb i .addr = x ∧
    sectionWord m mb i .size = n ∧ ∀ j < bootWord m mb .num, Named m mb j s → j = i

theorem OnlySection.hasSection (only : OnlySection m mb s x n) : HasSection m mb s x n := by
  obtain ⟨i, hi, name, addr, size, unique⟩ := only.found
  refine ⟨i, hi, name, addr, size, fun j hj later name' => ?_⟩
  rw [unique j hj name', BitVec.lt_def] at later
  exact Nat.lt_irrefl _ later

/-- The section table of `m'` is that of `m` with its headers in another order: the `i`-th was the
`σ i`-th, and `shndx` still leads to the table of the names. -/
structure Rearranged (σ : Equiv.Perm Word) (m m' : Machine) (mb : Word) : Prop where
  num : bootWord m' mb .num = bootWord m mb .num
  within : ∀ i, σ i < bootWord m mb .num ↔ i < bootWord m mb .num
  shndx : σ (bootWord m' mb .shndx) = bootWord m mb .shndx
  header : ∀ i, i < bootWord m mb .num ∨ i = bootWord m' mb .shndx →
    ∀ f, sectionWord m' mb i f = sectionWord m mb (σ i) f
  names : ∀ i < bootWord m mb .num, ∀ j ≤ 7,
    view m' (sectionName m mb i + BitVec.ofNat 32 j) =
      view m (sectionName m mb i + BitVec.ofNat 32 j)

theorem Rearranged.named_iff {σ : Equiv.Perm Word} (moved : Rearranged σ m m' mb) {i : Word}
    (hi : i < bootWord m mb .num) (len : s.length ≤ 7) :
    Named m' mb i s ↔ Named m mb (σ i) s := by
  have place : sectionName m' mb i = sectionName m mb (σ i) := by
    rw [sectionName, sectionName, moved.header _ (.inr rfl), moved.header i (.inl hi), moved.shndx]
  have same (j : ℕ) (hj : j ≤ s.length) := moved.names (σ i) ((moved.within i).2 hi) j (by omega)
  rw [Named, Named, place]
  exact ⟨Spells.congr fun j hj => (same j hj).symm, Spells.congr same⟩

/-- The sections keep their names, addresses and sizes. -/
theorem Rearranged.onlySection {σ : Equiv.Perm Word} (moved : Rearranged σ m m' mb)
    (only : OnlySection m mb s x n) (len : s.length ≤ 7) : OnlySection m' mb s x n := by
  obtain ⟨i, hi, name, addr, size, unique⟩ := only.found
  have hi' : σ.symm i < bootWord m mb .num := by
    rw [← moved.within, Equiv.apply_symm_apply]
    exact hi
  refine ⟨σ.symm i, by rwa [moved.num], ?_, ?_, ?_, fun j hj name' => ?_⟩
  · rw [moved.named_iff hi' len, Equiv.apply_symm_apply]
    exact name
  · rw [moved.header _ (.inl hi'), Equiv.apply_symm_apply, addr]
  · rw [moved.header _ (.inl hi'), Equiv.apply_symm_apply, size]
  · rw [moved.num] at hj
    rw [Equiv.eq_symm_apply]
    exact unique _ ((moved.within j).2 hj) ((moved.named_iff hj len).1 name')

theorem elfFromMutilboot_returns (symtab : OnlySection m mb dotSymtab x n)
    (strtab : OnlySection m mb dotStrtab y k)
    (mapped : ∀ va ∈ elfReads m mb, translate m va ≠ none) :
    Returns (elfFromMutilboot mb) m
      ⟨some (x + pageOffset), some n, some (y + pageOffset), some k⟩ m := by
  obtain ⟨table, size⟩ := symtab.hasSection.symtab
  obtain ⟨table', size'⟩ := strtab.hasSection.strtab
  rw [← table, ← size, ← table', ← size']
  exact returns_of_mapped (elfFromMutilboot_spec m mb) mapped

theorem elfLookupSymbol_returns {symtab symtabsz strtab addr : Word} {strtabsz : Option Word}
    (mapped : ∀ va ∈ symbolReads symtab symtabsz, translate m va ≠ none) :
    Returns (elfLookupSymbol addr ⟨some symtab, some symtabsz, some strtab, strtabsz⟩) m
      (nameIn (symbols m symtab symtabsz) strtab addr) m :=
  returns_of_mapped elfLookupSymbol_spec mapped

/-- With one `.symtab`, one `.strtab` and disjoint functions, every address gets the name of the
function that contains it, or none, however the sections and the symbols are ordered. -/
theorem elfLookupSymbol_names (symtab : OnlySection m mb dotSymtab x n)
    (strtab : OnlySection m mb dotStrtab y k)
    (mapped : ∀ va ∈ elfReads m mb ∪ symbolReads (x + pageOffset) n, translate m va ≠ none)
    (disjoint : DisjointFunctions (symbols m (x + pageOffset) n)) :
    ∃ elf, Returns (elfFromMutilboot mb) m elf m ∧
      ∀ addr, ∃ r, Returns (elfLookupSymbol addr elf) m r m ∧
        (∀ s ∈ symbols m (x + pageOffset) n, s.IsFunction → s.Contains addr →
          r = y + pageOffset + s.name) ∧
        ((∀ s ∈ symbols m (x + pageOffset) n, s.IsFunction → ¬ s.Contains addr) → r = 0) ∧
        ∀ m' σ, Rearranged σ m m' mb →
          (symbols m' (x + pageOffset) n).Perm (symbols m (x + pageOffset) n) →
          (∀ va ∈ elfReads m' mb ∪ symbolReads (x + pageOffset) n, translate m' va ≠ none) →
          ∃ elf', Returns (elfFromMutilboot mb) m' elf' m' ∧
            Returns (elfLookupSymbol addr elf') m' r m' := by
  refine ⟨_, elfFromMutilboot_returns symtab strtab fun va hva => mapped va (.inl hva),
    fun addr => ⟨_, elfLookupSymbol_returns fun va hva => mapped va (.inr hva),
      fun s hs => disjoint.nameIn_eq hs, disjoint.nameIn_eq_zero, ?_⟩⟩
  intro m' σ moved perm mapped'
  refine ⟨_, elfFromMutilboot_returns (moved.onlySection symtab (by decide))
    (moved.onlySection strtab (by decide)) fun va hva => mapped' va (.inl hva), ?_⟩
  rw [← disjoint.nameIn_perm perm]
  exact elfLookupSymbol_returns fun va hva => mapped' va (.inr hva)

end Sections

/-! ## A concrete symbol table -/

/-- The memory of `bootSections` with two functions in `.symtab`, one behind the other. -/
def bootSymbols : Store 32 :=
  List.foldr (fun w mem => writeWord mem w.1 w.2) (bootSections 0x7F00000 0x200000)
    [(sectionAt 0x12000 1 .size, 32), (0x200000, 1), (0x200004, 0xC0100000), (0x200008, 0x20),
      (0x20000c, 0x12), (0x200010, 7), (0x200014, 0xC0100020), (0x200018, 0x40), (0x20001c, 0x12)]

theorem twoTables_bootSymbols : TwoTables bootSymbols 0x200000 32 0x201000 4096 :=
  ⟨by decide +kernel, by decide +kernel, by decide +kernel, by decide +kernel, by decide +kernel,
    by decide +kernel, by decide +kernel, by decide +kernel, by decide +kernel, by decide +kernel,
    by decide +kernel, by decide +kernel, by decide +kernel⟩

namespace Booted

variable {mem : Store 32} {m : Machine} {x n y k : Word}

/-- The boot loader's bytes through the kernel window. -/
theorem high_view (booted : Booted mem m) {a : Word} (lo : 0x4000 ≤ a.toNat)
    (hi : a.toNat < 0x400000) : view m (a + pageOffset) = mem a := by
  have up : (a + pageOffset).toNat = a.toNat + 0xC0000000 :=
    toNat_offset (i := 0xC0000000) (by omega)
  have down : a + pageOffset - pageOffset = a := by bv_omega
  rw [SimpleKernel.view_eq (booted.temp.window.translate (by omega) (by omega)), down]
  exact booted.outside a fun table => by have := table.2; omega

theorem high_word (booted : Booted mem m) {a : Word} (lo : 0x4000 ≤ a.toNat)
    (hi : a.toNat + 4 ≤ 0x400000) : readWord (view m) (a + pageOffset) = readWord mem a := by
  have up : (a + pageOffset).toNat = a.toNat + 0xC0000000 :=
    toNat_offset (i := 0xC0000000) (by omega)
  have down : a + pageOffset - pageOffset = a := by bv_omega
  rw [booted.temp.window.readWord_view (by omega) (by omega) (by omega), down]
  refine readWord_congr (by omega) fun b _ _ => booted.outside b fun table => ?_
  have := table.2
  omega

/-- A symbol of a table in the kernel window. -/
theorem symbolOf_eq (booted : Booted mem m) {a i : Word} (lo : 0x4000 ≤ a.toNat)
    (hi : a.toNat + 16 * i.toNat + 16 ≤ 0x400000) :
    symbolOf m (a + pageOffset) i =
      ⟨readWord mem (symbolAt a i .name), readWord mem (symbolAt a i .value),
        readWord mem (symbolAt a i .size), mem (symbolAt a i .info)⟩ := by
  have place (f : SymbolField) :
      symbolAt (a + pageOffset) i f = symbolAt a i f + pageOffset := by
    unfold symbolAt
    bv_omega
  have low (f : SymbolField) :
      (symbolAt a i f).toNat = a.toNat + 16 * i.toNat + f.displacement.toNat := by
    have size : sizeofSymbol * i = 16#32 * i := rfl
    have small : f.displacement.toNat ≤ 14 := by cases f <;> decide
    rw [symbolAt, size]
    bv_omega
  have n := low .name
  have v := low .value
  have s := low .size
  have t := low .info
  have dn : SymbolField.name.displacement.toNat = 0 := rfl
  have dv : SymbolField.value.displacement.toNat = 4 := rfl
  have ds : SymbolField.size.displacement.toNat = 8 := rfl
  have dt : SymbolField.info.displacement.toNat = 12 := rfl
  rw [symbolOf, place, place, place, place, booted.high_word (by omega) (by omega),
    booted.high_word (by omega) (by omega), booted.high_word (by omega) (by omega),
    booted.high_view (by omega) (by omega)]

theorem symbolReads_mapped (booted : Booted mem m) {a : Word}
    (hi : a.toNat + 16 * (n / sizeofSymbol).toNat ≤ 0x400000) :
    ∀ va ∈ symbolReads (a + pageOffset) n, translate m va ≠ none := by
  rintro va ⟨i, below, j, hj, rfl⟩
  rw [BitVec.lt_def] at below
  have place : (a + pageOffset + sizeofSymbol * i + BitVec.ofNat 32 j).toNat =
      0xC0000000 + a.toNat + 16 * i.toNat + j := by
    have size : sizeofSymbol * i = 16#32 * i := rfl
    have up : pageOffset = 0xC0000000#32 := rfl
    rw [size, up]
    bv_omega
  rw [booted.temp.window.translate (by omega) (by omega)]
  exact Option.some_ne_none _

/-- The first section has no name. -/
theorem onlySections (booted : Booted mem m) (tables : TwoTables mem x n y k)
    (nul : mem 0x13000 = 0) : OnlySection m m.glbMbootPtr SimpleKernel.dotSymtab x n ∧
      OnlySection m m.glbMbootPtr SimpleKernel.dotStrtab y k := by
  have noName : Named m m.glbMbootPtr 0 [] :=
    booted.named tables (by decide) tables.noName (by decide) (by decide) nul
  have symtab : Named m m.glbMbootPtr 1 SimpleKernel.dotSymtab :=
    booted.named tables (by decide) tables.symtabName (by decide) (by decide) tables.dotSymtab
  have strtab := booted.namedStrtab tables
  constructor
  · refine ⟨1, by rw [booted.num_eq tables]; decide, symtab, ?_, ?_, fun j hj name => ?_⟩
    · rw [booted.sectionWord_eq tables (by decide), tables.symtabAddr]
    · rw [booted.sectionWord_eq tables (by decide), tables.symtabSize]
    · rw [booted.num_eq tables] at hj
      obtain rfl | rfl | rfl : j = 0 ∨ j = 1 ∨ j = 2 := by bv_omega
      · exact absurd (Spells.unique noName name (by decide) (by decide)) (by decide)
      · rfl
      · exact absurd strtab (not_dotStrtab_of_dotSymtab name)
  · refine ⟨2, by rw [booted.num_eq tables]; decide, strtab, ?_, ?_, fun j hj name => ?_⟩
    · rw [booted.sectionWord_eq tables (by decide), tables.strtabAddr]
    · rw [booted.sectionWord_eq tables (by decide), tables.strtabSize]
    · rw [booted.num_eq tables] at hj
      obtain rfl | rfl | rfl : j = 0 ∨ j = 1 ∨ j = 2 := by bv_omega
      · exact absurd (Spells.unique noName name (by decide) (by decide)) (by decide)
      · exact absurd name (not_dotStrtab_of_dotSymtab symtab)
      · rfl

end Booted

/-- The two functions of `bootSymbols`. -/
theorem symbols_bootSymbols {m : Machine} (booted : Booted bootSymbols m) :
    symbols m (0x200000 + pageOffset) 32 =
      [⟨1, 0xC0100000, 0x20, 0x12⟩, ⟨7, 0xC0100020, 0x40, 0x12⟩] := by
  have two : List.range (symbolCount 32) = [0, 1] := by decide
  rw [symbols, two, List.map_cons, List.map_singleton, booted.symbolOf_eq (by decide) (by decide),
    booted.symbolOf_eq (by decide) (by decide)]
  decide +kernel

/-- The address 0xC0100030 is in the second function, whose name is 7 bytes into `.strtab`. -/
theorem elfLookupSymbol_names_second : ∃ m elf, Booted bootSymbols m ∧
    Returns (elfFromMutilboot m.glbMbootPtr) m elf m ∧
    Returns (elfLookupSymbol 0xC0100030 elf) m (0x201000 + pageOffset + 7) m := by
  obtain ⟨m, booted⟩ := exists_booted bootSymbols
  obtain ⟨symtab, strtab⟩ := booted.onlySections twoTables_bootSymbols (by decide +kernel)
  have table := symbols_bootSymbols booted
  have disjoint : DisjointFunctions (symbols m (0x200000 + pageOffset) 32) := by
    rw [table]
    refine ⟨by decide, List.pairwise_pair.2 fun _ _ addr both => ?_⟩
    have below : addr.toNat < 0xC0100020 := both.1.2
    have above : 0xC0100020 ≤ addr.toNat := both.2.1
    omega
  obtain ⟨elf, found, names⟩ := elfLookupSymbol_names symtab strtab (fun va hva => hva.elim
    (booted.elfReads_mapped twoTables_bootSymbols va)
    (booted.symbolReads_mapped (by decide) va)) disjoint
  obtain ⟨r, run, name, -⟩ := names 0xC0100030
  rw [table] at name
  rw [name ⟨7, 0xC0100020, 0x40, 0x12⟩ (by decide) (by decide) (by decide)] at run
  exact ⟨m, elf, booted, found, run⟩

end SimpleKernel
