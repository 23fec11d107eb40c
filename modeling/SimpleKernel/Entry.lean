import SimpleKernel.Vmm

/-!
# The temporary tables

`kern_entry` turns paging on under a directory with two tables below 1 MB: they give the first
4 MB of memory both at their own addresses and at `PAGE_OFFSET`.
-/

namespace SimpleKernel

open ByteStore ProgramLogic

/-! ## Slots of directories and tables -/

theorem pgd_slot (a va : Word) :
    a + 4 * pgdIndex va = a + BitVec.ofNat 32 (4 * (va.toNat / 4194304)) := by
  have h := pgdIndex_toNat va
  congr 1
  bv_omega

theorem pte_slot (a va : Word) :
    a + 4 * pteIndex va = a + BitVec.ofNat 32 (4 * (va.toNat / 4096 % 1024)) := by
  have h := pteIndex_toNat va
  congr 1
  bv_omega

/-- The address of frame number `i`. -/
theorem frame_toNat {i : ℕ} (h : i < 1048576) : (BitVec.ofNat 32 i <<< 12).toNat = 4096 * i := by
  rw [BitVec.toNat_shiftLeft, BitVec.toNat_ofNat, Nat.shiftLeft_eq]
  omega

theorem frame_or_offset {i : ℕ} {va : Word} (h : i < 1048576) :
    (BitVec.ofNat 32 i <<< 12 ||| offsetIndex va).toNat = 4096 * i + va.toNat % 4096 := by
  rw [aligned_or_toNat (by rw [frame_toNat h]; omega) (by rw [offsetIndex_toNat]; omega),
    frame_toNat h, offsetIndex_toNat]

theorem word_slot (a : Word) (i : ℕ) :
    a + 4 * BitVec.ofNat 32 i = a + BitVec.ofNat 32 (4 * i) := by
  congr 1
  bv_omega

/-! ## The temporary tables -/

/-- The words that `kern_entry` writes below 1 MB. -/
structure TemporaryTables (mem : Store 32) : Prop where
  low : readWord mem pgdTmp = entry pteLow
  high : readWord mem (pgdTmp + BitVec.ofNat 32 (4 * 768)) = entry pteHigh
  lowPages : ∀ i < 1024,
    readWord mem (pteLow + BitVec.ofNat 32 (4 * i)) = entry (BitVec.ofNat 32 i <<< 12)
  highPages : ∀ i < 1024,
    readWord mem (pteHigh + BitVec.ofNat 32 (4 * i)) = entry (BitVec.ofNat 32 i <<< 12)

/-- The state of paging that `kern_entry` leaves behind. -/
structure TemporaryPaging (m : Machine) : Prop where
  enabled : m.cr0 &&& 0x80000000 ≠ 0
  directory : m.cr3 = pgdTmp
  tables : TemporaryTables m.mem

/-- The three pages of the temporary directory and tables. -/
def temporaryPages : Set Word := {a | 0x1000 ≤ a.toNat ∧ a.toNat < 0x4000}

theorem pteLow_slot {i : ℕ} (hi : i < 1024) :
    (pteLow + BitVec.ofNat 32 (4 * i)).toNat = 0x2000 + 4 * i :=
  toNat_offset (a := pteLow) (by simp [pteLow]; omega)

theorem pteHigh_slot {i : ℕ} (hi : i < 1024) :
    (pteHigh + BitVec.ofNat 32 (4 * i)).toNat = 0x3000 + 4 * i :=
  toNat_offset (a := pteHigh) (by simp [pteHigh]; omega)

theorem TemporaryTables.of_agree {mem mem' : Store 32} (tables : TemporaryTables mem)
    (h : ∀ a ∈ temporaryPages, mem' a = mem a) : TemporaryTables mem' := by
  have word (a : Word) (lo : 0x1000 ≤ a.toNat) (hi : a.toNat + 4 ≤ 0x4000) :
      readWord mem' a = readWord mem a :=
    readWord_congr (by omega) fun x hx hx' => h x ⟨by omega, by omega⟩
  refine ⟨?_, ?_, fun i hi => ?_, fun i hi => ?_⟩
  · exact (word _ (by decide) (by decide)).trans tables.low
  · exact (word _ (by decide) (by decide)).trans tables.high
  · have e := pteLow_slot hi
    exact (word _ (by omega) (by omega)).trans (tables.lowPages i hi)
  · have e := pteHigh_slot hi
    exact (word _ (by omega) (by omega)).trans (tables.highPages i hi)

namespace TemporaryPaging

variable {m m' : Machine}

theorem of_agree (temp : TemporaryPaging m) (h0 : m'.cr0 = m.cr0) (h3 : m'.cr3 = m.cr3)
    (h : ∀ a ∈ temporaryPages, m'.mem a = m.mem a) : TemporaryPaging m' :=
  ⟨by rw [h0]; exact temp.enabled, h3.trans temp.directory, temp.tables.of_agree h⟩

/-- One of the two temporary tables maps the 4 MB of its slot to physical memory from 0 on. -/
theorem translate_table (temp : TemporaryPaging m) {va : Word} (table : Word) (k : ℕ)
    (slot : va.toNat / 4194304 = k) (ht : table.toNat % 4096 = 0)
    (pde : readWord m.mem (pgdTmp + BitVec.ofNat 32 (4 * k)) = entry table)
    (pages : ∀ i < 1024,
      readWord m.mem (table + BitVec.ofNat 32 (4 * i)) = entry (BitVec.ofNat 32 i <<< 12)) :
    translate m va = some (va - BitVec.ofNat 32 (4194304 * k)) := by
  have index : va.toNat / 4096 % 1024 < 1024 := Nat.mod_lt _ (by decide)
  have frame := frame_toNat (i := va.toNat / 4096 % 1024) (by omega)
  rw [translate, if_neg temp.enabled, temp.directory,
    walk_eq_some (t := table) (f := BitVec.ofNat 32 (va.toNat / 4096 % 1024) <<< 12)
      (by decide) ht (by omega) (by rw [pgd_slot, slot, pde]) (by rw [pte_slot, pages _ index])]
  refine congrArg some (BitVec.eq_of_toNat_eq ?_)
  rw [frame_or_offset (by omega)]
  bv_omega

/-- Under the temporary tables the 4 MB above `PAGE_OFFSET` are the first 4 MB of memory. -/
theorem window (temp : TemporaryPaging m) :
    Window m temporaryPages 0xC0000000 0xC0400000 pageOffset := by
  intro mem h va lo hi
  have temp' : TemporaryPaging (m.setMem mem) := temp.of_agree rfl rfl h
  exact temp'.translate_table pteHigh 768 (by omega) (by decide) temp'.tables.high
    temp'.tables.highPages

/-- Under the temporary tables the first 4 MB of memory are also at their own addresses. -/
theorem identity (temp : TemporaryPaging m) : Window m temporaryPages 0 0x400000 0#32 := by
  intro mem h va lo hi
  have temp' : TemporaryPaging (m.setMem mem) := temp.of_agree rfl rfl h
  exact temp'.translate_table pteLow 0 (by omega) (by decide) temp'.tables.low
    temp'.tables.lowPages

end TemporaryPaging

/-! ## `kern_entry` -/

section KernEntry

variable {E : Stop → Machine → Prop} {m : Machine}

/-- With paging off every address is its own translation. -/
theorem Window.unpaged (off : m.cr0 &&& 0x80000000 = 0) : Window m ∅ 0 (2 ^ 32) 0#32 := by
  intro mem _ va _ _
  rw [SimpleKernel.translate, Machine.setMem_cr0, if_pos off, BitVec.sub_zero]

theorem store32_unpaged (off : m.cr0 &&& 0x80000000 = 0) {a v : Word} (h : a.toNat + 4 ≤ 2 ^ 32)
    {Q : Unit → Machine → Prop} (hQ : Q () (m.setMem (writeWord m.mem a v))) :
    WP (store32 a v) E Q m := by
  refine (Window.unpaged off).store32 (Nat.zero_le _) h h (fun b hb => hb.elim) ?_
  rwa [BitVec.sub_zero]

/-- What the loop of `kern_entry` has written after `n` rounds. -/
structure TablesUpTo (m : Machine) (n : ℕ) (mem : Store 32) : Prop where
  low : readWord mem pgdTmp = entry pteLow
  high : readWord mem (pgdTmp + BitVec.ofNat 32 (4 * 768)) = entry pteHigh
  lowPages : ∀ i < n,
    readWord mem (pteLow + BitVec.ofNat 32 (4 * i)) = entry (BitVec.ofNat 32 i <<< 12)
  highPages : ∀ i < n,
    readWord mem (pteHigh + BitVec.ofNat 32 (4 * i)) = entry (BitVec.ofNat 32 i <<< 12)
  outside : ∀ a ∉ temporaryPages, mem a = m.mem a

theorem TablesUpTo.step {n : ℕ} {mem : Store 32} (h : TablesUpTo m n mem) (hn : n < 1024) :
    TablesUpTo m (n + 1) (writeWord (writeWord mem (pteLow + BitVec.ofNat 32 (4 * n))
      (entry (BitVec.ofNat 32 n <<< 12))) (pteHigh + BitVec.ofNat 32 (4 * n))
      (entry (BitVec.ofNat 32 n <<< 12))) := by
  have el := pteLow_slot hn
  have eh := pteHigh_slot hn
  have keep (a : Word) (bound : a.toNat + 4 ≤ 2 ^ 32)
      (hl : a.toNat + 4 ≤ 0x2000 + 4 * n ∨ 0x2000 + 4 * n + 4 ≤ a.toNat)
      (hh : a.toNat + 4 ≤ 0x3000 + 4 * n ∨ 0x3000 + 4 * n + 4 ≤ a.toNat) :
      readWord (writeWord (writeWord mem (pteLow + BitVec.ofNat 32 (4 * n))
        (entry (BitVec.ofNat 32 n <<< 12))) (pteHigh + BitVec.ofNat 32 (4 * n))
        (entry (BitVec.ofNat 32 n <<< 12))) a = readWord mem a := by
    rw [readWord_writeWord_disjoint _ _ (by omega) bound (by omega),
      readWord_writeWord_disjoint _ _ (by omega) bound (by omega)]
  have pgd : pgdTmp.toNat = 0x1000 := rfl
  have pgd768 : (pgdTmp + BitVec.ofNat 32 (4 * 768)).toNat = 0x1c00 := rfl
  refine ⟨?_, ?_, fun i hi => ?_, fun i hi => ?_, fun a ha => ?_⟩
  · rw [keep _ (by omega) (by omega) (by omega), h.low]
  · rw [keep _ (by omega) (by omega) (by omega), h.high]
  · rcases Nat.lt_succ_iff_lt_or_eq.1 hi with lt | rfl
    · have e := pteLow_slot (i := i) (by omega)
      rw [keep _ (by omega) (by omega) (by omega), h.lowPages i lt]
    · rw [readWord_writeWord_disjoint _ _ (by omega) (by omega) (by omega),
        readWord_writeWord_self _ _ (by omega)]
  · rcases Nat.lt_succ_iff_lt_or_eq.1 hi with lt | rfl
    · have e := pteHigh_slot (i := i) (by omega)
      rw [keep _ (by omega) (by omega) (by omega), h.highPages i lt]
    · exact readWord_writeWord_self _ _ (by omega)
  · have out : ¬ (0x1000 ≤ a.toNat ∧ a.toNat < 0x4000) := ha
    rw [writeWord_outside _ _ (by omega) (by omega), writeWord_outside _ _ (by omega) (by omega)]
    exact h.outside a ha

/-- The first part of `kern_entry`, still with paging off. -/
theorem fillTemporaryTables_spec (off : m.cr0 &&& 0x80000000 = 0) :
    WP fillTemporaryTables E
      (fun _ t => ∃ mem, t = m.setMem mem ∧ TablesUpTo m pteSize mem) m := by
  have pgd : pgdTmp.toNat = 0x1000 := rfl
  have pgd768 : (pgdTmp + BitVec.ofNat 32 (4 * 768)).toNat = 0x1c00 := rfl
  have slot768 : pgdTmp + 4 * pgdIndex pageOffset = pgdTmp + BitVec.ofNat 32 (4 * 768) := rfl
  have slot0 : pgdTmp + 4 * 0 = pgdTmp := rfl
  have off' (mem : Store 32) : (m.setMem mem).cr0 &&& 0x80000000 = 0 := off
  simp only [fillTemporaryTables, wp_bind, slot0, slot768]
  refine store32_unpaged off (by omega) ?_
  refine store32_unpaged (off' _) (by omega) ?_
  generalize rounds : pteSize = n
  have small : n = 1024 := rounds.symm
  refine WP.forM_range (fun i t => ∃ mem, t = m.setMem mem ∧ TablesUpTo m i mem) n ?_ ?_
  · rintro i t hi ⟨mem, rfl, h⟩
    have el := pteLow_slot (i := i) (by omega)
    have eh := pteHigh_slot (i := i) (by omega)
    simp only [wp_bind, word_slot]
    refine store32_unpaged (off' mem) (by omega) ?_
    refine store32_unpaged (off' _) (by omega) ?_
    exact ⟨_, rfl, h.step (by omega)⟩
  · refine ⟨_, rfl, ?_, readWord_writeWord_self _ _ (by omega),
      fun i hi => absurd hi (Nat.not_lt_zero i), fun i hi => absurd hi (Nat.not_lt_zero i),
      fun a ha => ?_⟩
    · rw [readWord_writeWord_disjoint _ _ (by omega) (by omega) (by omega), Machine.setMem_mem,
        readWord_writeWord_self _ _ (by omega)]
    · have out : ¬ (0x1000 ≤ a.toNat ∧ a.toNat < 0x4000) := ha
      rw [writeWord_outside _ _ (by omega) (by omega), Machine.setMem_mem,
        writeWord_outside _ _ (by omega) (by omega)]

/-- `kern_entry` turns paging on under its tables; it changes no memory outside them. -/
theorem kernEntry_spec (im : Image) (off : m.cr0 &&& 0x80000000 = 0) {Q : Unit → Machine → Prop}
    (hQ : ∀ t, TemporaryPaging t → (∀ a ∉ temporaryPages, t.mem a = m.mem a) →
      t.glbMbootPtr = m.mbootPtrTmp + pageOffset * sizeofMutilboot →
      t.pmmStackTop = m.pmmStackTop → t.phyPageCount = m.phyPageCount → t.heapMax = m.heapMax →
      Q () t) :
    WP (kernEntry im) E Q m := by
  simp only [kernEntry, wp_bind, wp_modify]
  refine (fillTemporaryTables_spec off).mono ?_
  rintro _ t ⟨mem, rfl, h⟩
  refine hQ _ ⟨?_, rfl, h.low, h.high, h.lowPages, h.highPages⟩ h.outside rfl rfl rfl rfl
  show (m.cr0 ||| 0x80000000) &&& 0x80000000 ≠ 0
  intro zero
  have bit := congrArg (fun x => x.getLsbD 31) zero
  simp at bit

end KernEntry

end SimpleKernel
