import SimpleKernel.DirectMap

/-!
# The switch from the temporary directory to the kernel's

Both directories give the first megabytes above `PAGE_OFFSET` the same meaning, so the kernel does
not notice the switch of `cr3`.  The boot information pointer does not survive it.
-/

namespace SimpleKernel

open ByteStore ProgramLogic

/-- The page table entry of `va`, found from the directory at `pgdNow` as `get_mapping` finds it;
zero when the directory entry has no table. -/
def pteOf (m : Machine) (pgdNow va : Word) : Word :=
  let pte := readWord (view m) (pgdNow + 4 * pgdIndex va) &&& pageMask
  if pte = 0 then 0 else readWord (view m) (pte + pageOffset + 4 * pteIndex va)

section PteOf

variable {im : Image} {m : Machine} {va : Word}

theorem pgdKern_slot (paging : KernelPaging im m) (va : Word) :
    readWord (view m) (im.pgdKern + 4 * pgdIndex va) =
      readWord m.mem (im.pgdPhys + 4 * pgdIndex va) := by
  have hpgd := im.pgdPhys_range
  have e := im.pgdPhys_slot (i := va.toNat / 4194304) (by omega)
  rw [← paging.readWord_view (by rw [pgd_slot]; omega) (by rw [pgd_slot]; omega)]
  refine congrArg (readWord (view m)) ?_
  unfold Image.pgdPhys
  bv_omega

theorem pteOf_eq_zero (paging : KernelPaging im m)
    (pde : readWord m.mem (im.pgdPhys + 4 * pgdIndex va) = 0) : pteOf m im.pgdKern va = 0 := by
  simp only [pteOf, pgdKern_slot paging, pde]
  exact if_pos (by decide)

/-- Between `PAGE_OFFSET` and the heap, the entry is the one in the flat array `pte_kern`. -/
theorem pteOf_direct (paging : KernelPaging im m) (lo : 0xC0000000 ≤ va.toNat)
    (hi : va.toNat < 0xE0000000) : pteOf m im.pgdKern va =
      readWord m.mem (im.ptePhys + BitVec.ofNat 32 (4 * ((va - pageOffset).toNat / 4096))) := by
  have hpte := im.ptePhys_range
  have aligned := im.ptePhys_aligned
  have table := im.ptePhys_table (j := va.toNat / 4194304 - 768) (by omega)
  have sub : (va - pageOffset).toNat = va.toNat - 0xC0000000 := by
    unfold pageOffset
    bv_omega
  have slot := im.ptePhys_slot (i := (va - pageOffset).toNat / 4096) (by omega)
  have nonzero : im.ptePhys + BitVec.ofNat 32 (4096 * (va.toNat / 4194304 - 768)) ≠ 0 := by
    intro h
    rw [h] at table
    have : (0 : Word).toNat = 0 := rfl
    omega
  simp only [pteOf, pgdKern_slot paging, paging.pde_of_va lo hi, entry_frame (by omega :
    (im.ptePhys + BitVec.ofNat 32 (4096 * (va.toNat / 4194304 - 768))).toNat % 4096 = 0),
    if_neg nonzero]
  rw [BitVec.add_assoc, BitVec.add_comm pageOffset, ← BitVec.add_assoc,
    KernelPaging.pte_of_va im lo hi]
  exact paging.readWord_view (by omega) (by omega)

end PteOf

/-- `after` is the machine under the directory that `init_vmm` built, `before` the one under the
temporary directory. -/
structure SwitchOver (im : Image) (before after : Machine) : Prop where
  mapped : ∀ va : Word, 0xC0001000 ≤ va.toNat → va.toNat < 0xE0000000 →
    translate after va = some (va - pageOffset) ∧
      pteOf after im.pgdKern va = entry ((va - pageOffset) &&& pageMask)
  unmapped : ∀ va : Word, va.toNat < 0xC0001000 ∨ 0xE0000000 ≤ va.toNat →
    translate after va = none ∧ pteOf after im.pgdKern va = 0
  unchanged : ∀ va : Word, 0xC0001000 ≤ va.toNat → va.toNat < 0xC0400000 →
    translate after va = translate before va

/-- What the kernel leaves alone between `kern_entry` and `init_vmm`. -/
structure KeptForVmm (im : Image) (m₁ m₂ : Machine) : Prop where
  cr0 : m₂.cr0 = m₁.cr0
  cr3 : m₂.cr3 = m₁.cr3
  glbMbootPtr : m₂.glbMbootPtr = m₁.glbMbootPtr
  temporaryPages : ∀ a ∈ temporaryPages, m₂.mem a = m₁.mem a
  tablePages : ∀ a ∈ im.tablePages, m₂.mem a = m₁.mem a

theorem KeptForVmm.refl (im : Image) (m : Machine) : KeptForVmm im m m :=
  ⟨rfl, rfl, rfl, fun _ _ => rfl, fun _ _ => rfl⟩

theorem translate_direct_entry {im : Image} {m : Machine} (paging : KernelPaging im m) {va : Word}
    (lo : 0xC0001000 ≤ va.toNat) (hi : va.toNat < 0xE0000000) :
    pteOf m im.pgdKern va = entry ((va - pageOffset) &&& pageMask) := by
  have sub : (va - pageOffset).toNat = va.toNat - 0xC0000000 := by
    unfold pageOffset
    bv_omega
  rw [pteOf_direct paging (by omega) hi, paging.pte _ (by omega) (by omega)]
  refine congrArg entry (BitVec.eq_of_toNat_eq ?_)
  rw [frame_toNat (by omega), and_pageMask_toNat]
  omega

/-- `init_vmm` run under the temporary tables switches over without a change of meaning. -/
theorem switchOver_of_temporary {im : Image} {before m : Machine} (first : TemporaryPaging before)
    (temp : TemporaryPaging m) (zeroed : ∀ a ∈ im.tablePages, m.mem a = 0)
    (handlers : Byte → Word) : SwitchOver im before { m with
      mem := vmmMemory im m.mem
      interruptHandlers := handlers
      cr3 := im.pgdPhys } := by
  have paging := kernelPaging_of_initVmm im temp zeroed handlers
  have empty (i : ℕ) (hi : 896 ≤ i) (hi' : i < 1024) := vmmMemory_pde_zero im m.mem zeroed
    (i := i) (.inr hi) hi'
  refine ⟨fun va lo hi => ⟨paging.window.translate lo hi, translate_direct_entry paging lo hi⟩,
    fun va h => ?_, fun va lo hi => ?_⟩
  · rcases h with h | h
    · by_cases low : va.toNat < 0xC0000000
      · refine ⟨paging.translate_below low, pteOf_eq_zero paging ?_⟩
        rw [pgd_slot]
        exact paging.below _ (by omega)
      · have sub : (va - pageOffset).toNat = va.toNat - 0xC0000000 := by
          unfold pageOffset
          bv_omega
        refine ⟨paging.translate_guard (by omega) h, ?_⟩
        rw [pteOf_direct paging (by omega) (by omega), sub,
          show (va.toNat - 0xC0000000) / 4096 = 0 by omega, Nat.mul_zero, BitVec.add_zero]
        exact paging.guard
    · refine ⟨translate_heap_unmapped paging empty h, pteOf_eq_zero paging ?_⟩
      rw [pgd_slot]
      exact empty _ (by omega) (by omega)
  · rw [paging.window.translate lo (by omega), first.window.translate (by omega) hi]

/-- From a machine without paging whose table arrays are zero, `kern_entry` returns, and whenever
`init_vmm` runs later it returns too. -/
theorem boot_returns (im : Image) {m₀ : Machine} (off : m₀.cr0 &&& 0x80000000 = 0)
    (zeroed : ∀ a ∈ im.tablePages, m₀.mem a = 0) :
    ∃ m₁, Returns (kernEntry im) m₀ () m₁ ∧ TemporaryPaging m₁ ∧
      m₁.glbMbootPtr = m₀.mbootPtrTmp + pageOffset * sizeofMutilboot ∧
      ∀ m₂, KeptForVmm im m₁ m₂ →
        ∃ m₃, Returns (initVmm im) m₂ () m₃ ∧ m₃.cr3 = im.pgdPhys ∧ SwitchOver im m₁ m₃ := by
  obtain ⟨⟨⟩, m₁, run₁, temp₁, out₁, ptr₁⟩ := (kernEntry_spec (E := fun _ _ => False) im off
    (Q := fun _ t => TemporaryPaging t ∧ (∀ a ∉ temporaryPages, t.mem a = m₀.mem a) ∧
      t.glbMbootPtr = m₀.mbootPtrTmp + pageOffset * sizeofMutilboot)
    fun t temp out ptr _ _ _ => ⟨temp, out, ptr⟩).returns
  refine ⟨m₁, run₁, temp₁, ptr₁, fun m₂ kept => ?_⟩
  have temp₂ : TemporaryPaging m₂ := temp₁.of_agree kept.cr0 kept.cr3 kept.temporaryPages
  have zeroed₂ (a : Word) (ha : a ∈ im.tablePages) : m₂.mem a = 0 := by
    rw [kept.tablePages a ha, out₁ a (tablePages_high ha), zeroed a ha]
  obtain ⟨⟨⟩, m₃, run₃, rfl⟩ := (initVmm_spec (E := fun _ _ => False) im temp₂
    (Q := fun _ t => t = { m₂ with
      mem := vmmMemory im m₂.mem
      interruptHandlers := Function.update m₂.interruptHandlers 14 im.pageFault
      cr3 := im.pgdPhys }) rfl).returns
  exact ⟨_, run₃, rfl, switchOver_of_temporary temp₁ temp₂ zeroed₂ _⟩

/-! ## The switch of directories -/

/-- The directory that `init_vmm` loads maps `[0xC0001000, 0xE0000000)` to physical memory and
nothing else, and gives the kernel's own addresses the meaning they had under the temporary one. -/
theorem initVmm_switchOver (im : Image) (m₀ : Machine) (off : m₀.cr0 &&& 0x80000000 = 0)
    (zeroed : ∀ a ∈ im.tablePages, m₀.mem a = 0) :
    ∃ m₁, Returns (kernEntry im) m₀ () m₁ ∧ ∀ m₂, KeptForVmm im m₁ m₂ →
      ∃ m₃, Returns (initVmm im) m₂ () m₃ ∧ m₃.cr3 = im.pgdPhys ∧ SwitchOver im m₁ m₃ := by
  obtain ⟨m₁, run₁, -, -, later⟩ := boot_returns im off zeroed
  exact ⟨m₁, run₁, later⟩

theorem initVmm_switchOver_small :
    ∃ m₁, Returns (kernEntry smallImage) (bootMachine 0x10000) () m₁ ∧
      ∃ m₃, Returns (initVmm smallImage) m₁ () m₃ ∧ SwitchOver smallImage m₁ m₃ := by
  obtain ⟨m₁, run₁, later⟩ := initVmm_switchOver smallImage (bootMachine 0x10000) (by decide)
    fun _ _ => rfl
  obtain ⟨m₃, run₃, -, switched⟩ := later m₁ (KeptForVmm.refl _ _)
  exact ⟨m₁, run₁, m₃, run₃, switched⟩

/-! ## The boot information pointer -/

/-- `v` is a kernel address of the physical address `p`, before and after the switch. -/
def KernelAlias (before after : Machine) (v p : Word) : Prop :=
  translate before v = some p ∧ translate after v = some p

/-- Scaled by the 96 bytes of the struct, `PAGE_OFFSET` is a multiple of `2 ^ 32`. -/
theorem pageOffset_mul_sizeofMutilboot : pageOffset * sizeofMutilboot = 0 := by decide

/-- The relocated pointer is still the physical address: good under the temporary tables, unmapped
afterwards. -/
theorem glbMbootPtr_physical (im : Image) {m₀ : Machine} (off : m₀.cr0 &&& 0x80000000 = 0)
    (zeroed : ∀ a ∈ im.tablePages, m₀.mem a = 0) (bound : m₀.mbootPtrTmp.toNat < 0x400000) :
    ∃ m₁, Returns (kernEntry im) m₀ () m₁ ∧ m₁.glbMbootPtr = m₀.mbootPtrTmp ∧
      translate m₁ m₁.glbMbootPtr = some m₀.mbootPtrTmp ∧ ∀ m₂, KeptForVmm im m₁ m₂ →
        ∃ m₃, Returns (initVmm im) m₂ () m₃ ∧ translate m₃ m₁.glbMbootPtr = none := by
  obtain ⟨m₁, run₁, temp₁, ptr, later⟩ := boot_returns im off zeroed
  rw [pageOffset_mul_sizeofMutilboot] at ptr
  have same : m₁.glbMbootPtr = m₀.mbootPtrTmp := ptr.trans (BitVec.add_zero _)
  refine ⟨m₁, run₁, same, ?_, fun m₂ kept => ?_⟩
  · rw [same, temp₁.identity.translate (Nat.zero_le _) bound, BitVec.sub_zero]
  · obtain ⟨m₃, run₃, -, switched⟩ := later m₂ kept
    exact ⟨m₃, run₃, (switched.unmapped _ (.inl (by rw [same]; omega))).1⟩

/-- Wherever the boot loader left the structure, `glb_mboot_ptr` is no kernel alias of it. -/
theorem glbMbootPtr_not_kernelAlias (im : Image) (m₀ : Machine) (p : Word)
    (off : m₀.cr0 &&& 0x80000000 = 0) (zeroed : ∀ a ∈ im.tablePages, m₀.mem a = 0)
    (left : m₀.mbootPtrTmp = p) (lo : 0x1000 ≤ p.toNat) (hi : p.toNat < 0x400000) :
    ∃ m₁, Returns (kernEntry im) m₀ () m₁ ∧ m₁.glbMbootPtr = p ∧ translate m₁ p = some p ∧
      ∀ m₂, KeptForVmm im m₁ m₂ → ∃ m₃, Returns (initVmm im) m₂ () m₃ ∧
        ¬ KernelAlias m₁ m₃ m₁.glbMbootPtr p := by
  subst left
  obtain ⟨m₁, run₁, same, before, later⟩ := glbMbootPtr_physical im off zeroed hi
  refine ⟨m₁, run₁, same, by rwa [same] at before, fun m₂ kept => ?_⟩
  obtain ⟨m₃, run₃, none₃⟩ := later m₂ kept
  refine ⟨m₃, run₃, fun both => ?_⟩
  have := none₃.symm.trans both.2
  simp at this

theorem glbMbootPtr_not_kernelAlias_small :
    ∃ m₁, Returns (kernEntry smallImage) (bootMachine 0x10000) () m₁ ∧
      ∃ m₃, Returns (initVmm smallImage) m₁ () m₃ ∧
        ¬ KernelAlias m₁ m₃ m₁.glbMbootPtr 0x10000 := by
  obtain ⟨m₁, run₁, -, -, later⟩ := glbMbootPtr_not_kernelAlias smallImage (bootMachine 0x10000)
    0x10000 (by decide) (fun _ _ => rfl) rfl (by decide) (by decide)
  obtain ⟨m₃, run₃, lost⟩ := later m₁ (KeptForVmm.refl _ _)
  exact ⟨m₁, run₁, m₃, run₃, lost⟩

/-- With the boot information at 64 KB the pointer is unmapped once `init_vmm` has run. -/
theorem bootInformation_lost_at_64K :
    ¬ ∀ m₁ m₃, Returns (kernEntry smallImage) (bootMachine 0x10000) () m₁ →
      Returns (initVmm smallImage) m₁ () m₃ → KernelAlias m₁ m₃ m₁.glbMbootPtr 0x10000 := by
  intro claim
  obtain ⟨m₁, run₁, -, -, later⟩ := glbMbootPtr_physical smallImage
    (show (bootMachine 0x10000).cr0 &&& 0x80000000 = 0 by decide) (fun _ _ => rfl) (by decide)
  obtain ⟨m₃, run₃, lost⟩ := later m₁ (KeptForVmm.refl _ _)
  have := lost.symm.trans (claim m₁ m₃ run₁ run₃).2
  simp at this

end SimpleKernel
