import SimpleKernel.Entry

/-!
# The direct map

`init_vmm` builds the page directory of the kernel while the temporary tables are still in use.
Under it all physical memory below 512 MB, except for the first page, is found at `PAGE_OFFSET`.
-/

namespace SimpleKernel

open ByteStore ProgramLogic

/-- The state of paging once `init_vmm` has run: 128 tables give physical memory below 512 MB at
`PAGE_OFFSET`, except for its first page. -/
structure KernelPaging (im : Image) (m : Machine) : Prop where
  enabled : m.cr0 &&& 0x80000000 ≠ 0
  directory : m.cr3 = im.pgdPhys
  pde : ∀ j < 128, readWord m.mem (im.pgdPhys + BitVec.ofNat 32 (4 * (768 + j))) =
    entry (im.ptePhys + BitVec.ofNat 32 (4096 * j))
  pte : ∀ i, 1 ≤ i → i < 131072 → readWord m.mem (im.ptePhys + BitVec.ofNat 32 (4 * i)) =
    entry (BitVec.ofNat 32 i <<< 12)
  guard : readWord m.mem im.ptePhys = 0
  below : ∀ i < 768, readWord m.mem (im.pgdPhys + BitVec.ofNat 32 (4 * i)) = 0

namespace Image

variable (im : Image)

theorem pgdPhys_aligned : im.pgdPhys.toNat % 4096 = 0 := by
  have := im.pgdPhys_toNat
  have := im.pgdKern_aligned
  omega

theorem ptePhys_aligned : im.ptePhys.toNat % 4096 = 0 := by
  have := im.ptePhys_toNat
  have := im.pteKern_aligned
  omega

theorem pgdPhys_range : 0x100000 ≤ im.pgdPhys.toNat ∧ im.pgdPhys.toNat + 4096 ≤ 0x400000 := by
  have := im.pgdPhys_toNat
  have := im.pgdKern_start
  have := im.pgdKern_end
  have := im.kernEnd_mapped
  omega

theorem ptePhys_range :
    0x100000 ≤ im.ptePhys.toNat ∧ im.ptePhys.toNat + 128 * 4096 ≤ 0x400000 := by
  have := im.ptePhys_toNat
  have := im.pteKern_start
  have := im.pteKern_end
  have := im.kernEnd_mapped
  omega

theorem phys_apart : im.pgdPhys.toNat + 4096 ≤ im.ptePhys.toNat ∨
    im.ptePhys.toNat + 128 * 4096 ≤ im.pgdPhys.toNat := by
  have := im.pgdPhys_toNat
  have := im.ptePhys_toNat
  have := im.tables_apart
  omega

theorem pgdPhys_slot {i : ℕ} (hi : i < 1024) :
    (im.pgdPhys + BitVec.ofNat 32 (4 * i)).toNat = im.pgdPhys.toNat + 4 * i :=
  toNat_offset (by have := im.pgdPhys_range; omega)

theorem ptePhys_slot {i : ℕ} (hi : i < 131072) :
    (im.ptePhys + BitVec.ofNat 32 (4 * i)).toNat = im.ptePhys.toNat + 4 * i :=
  toNat_offset (by have := im.ptePhys_range; omega)

theorem ptePhys_table {j : ℕ} (hj : j < 128) :
    (im.ptePhys + BitVec.ofNat 32 (4096 * j)).toNat = im.ptePhys.toNat + 4096 * j :=
  toNat_offset (by have := im.ptePhys_range; omega)

/-- The physical bytes of the arrays `pgd_kern` and `pte_kern`. -/
def tablePages : Set Word :=
  {a | im.pgdPhys.toNat ≤ a.toNat ∧ a.toNat < im.pgdPhys.toNat + 4096 ∨
    im.ptePhys.toNat ≤ a.toNat ∧ a.toNat < im.ptePhys.toNat + 128 * 4096}

end Image

theorem tablePages_high {im : Image} {a : Word} (h : a ∈ im.tablePages) :
    a ∉ temporaryPages := by
  have hpgd := im.pgdPhys_range
  have hpte := im.ptePhys_range
  rintro ⟨-, hi⟩
  rcases h with h | h <;> omega

namespace KernelPaging

variable {im : Image} {m m' : Machine}

theorem of_agree (paging : KernelPaging im m) (h0 : m'.cr0 = m.cr0) (h3 : m'.cr3 = m.cr3)
    (h : ∀ a ∈ im.tables, m'.mem a = m.mem a) : KernelPaging im m' := by
  have hpgd := im.pgdPhys_range
  have hpte := im.ptePhys_range
  have pgdWord (i : ℕ) (hi : i < 896) :
      readWord m'.mem (im.pgdPhys + BitVec.ofNat 32 (4 * i)) =
        readWord m.mem (im.pgdPhys + BitVec.ofNat 32 (4 * i)) := by
    have e := im.pgdPhys_slot (i := i) (by omega)
    exact readWord_congr (by omega) fun x _ _ => h x (.inl ⟨by omega, by omega⟩)
  have pteWord (i : ℕ) (hi : i < 131072) :
      readWord m'.mem (im.ptePhys + BitVec.ofNat 32 (4 * i)) =
        readWord m.mem (im.ptePhys + BitVec.ofNat 32 (4 * i)) := by
    have e := im.ptePhys_slot hi
    exact readWord_congr (by omega) fun x _ _ => h x (.inr ⟨by omega, by omega⟩)
  have first := pteWord 0 (by omega)
  rw [Nat.mul_zero, BitVec.add_zero] at first
  exact ⟨by rw [h0]; exact paging.enabled, h3.trans paging.directory,
    fun j hj => (pgdWord _ (by omega)).trans (paging.pde j hj),
    fun i hi hi' => (pteWord i hi').trans (paging.pte i hi hi'), first.trans paging.guard,
    fun i hi => (pgdWord i (by omega)).trans (paging.below i hi)⟩

/-- The directory entry of an address above `PAGE_OFFSET` and below the heap. -/
theorem pde_of_va (paging : KernelPaging im m) {va : Word} (lo : 0xC0000000 ≤ va.toNat)
    (hi : va.toNat < 0xE0000000) :
    readWord m.mem (im.pgdPhys + 4 * pgdIndex va) =
      entry (im.ptePhys + BitVec.ofNat 32 (4096 * (va.toNat / 4194304 - 768))) := by
  obtain ⟨j, hj⟩ : ∃ j, va.toNat / 4194304 = 768 + j := ⟨va.toNat / 4194304 - 768, by omega⟩
  rw [pgd_slot, hj, Nat.add_sub_cancel_left]
  exact paging.pde j (by omega)

/-- The slot of an address in the flat array `pte_kern`. -/
theorem pte_of_va (im : Image) {va : Word} (lo : 0xC0000000 ≤ va.toNat)
    (hi : va.toNat < 0xE0000000) :
    im.ptePhys + BitVec.ofNat 32 (4096 * (va.toNat / 4194304 - 768)) + 4 * pteIndex va =
      im.ptePhys + BitVec.ofNat 32 (4 * ((va - pageOffset).toNat / 4096)) := by
  have sub : (va - pageOffset).toNat = va.toNat - 0xC0000000 := by
    unfold pageOffset
    bv_omega
  rw [pte_slot, sub, BitVec.add_assoc]
  congr 1
  rw [← BitVec.ofNat_add]
  congr 1
  omega

/-- The direct map. -/
theorem window (paging : KernelPaging im m) :
    Window m im.tables 0xC0001000 0xE0000000 pageOffset := by
  intro mem h va lo hi
  have paging' : KernelPaging im (m.setMem mem) := paging.of_agree rfl rfl h
  have sub : (va - pageOffset).toNat = va.toNat - 0xC0000000 := by
    unfold pageOffset
    bv_omega
  have frame := frame_toNat (i := (va - pageOffset).toNat / 4096) (by omega)
  have table := im.ptePhys_table (j := va.toNat / 4194304 - 768) (by omega)
  have aligned := im.ptePhys_aligned
  have entry_va : readWord mem (im.ptePhys +
      BitVec.ofNat 32 (4096 * (va.toNat / 4194304 - 768)) + 4 * pteIndex va) =
      entry (BitVec.ofNat 32 ((va - pageOffset).toNat / 4096) <<< 12) := by
    rw [pte_of_va im (by omega) hi]
    exact paging'.pte _ (by omega) (by omega)
  rw [SimpleKernel.translate, if_neg paging'.enabled, paging'.directory,
    walk_eq_some im.pgdPhys_aligned (by omega) (by omega) (paging'.pde_of_va (by omega) hi)
      entry_va]
  refine congrArg some (BitVec.eq_of_toNat_eq ?_)
  rw [frame_or_offset (by omega), sub]
  omega

/-- A word seen in the direct map. -/
theorem readWord_view (paging : KernelPaging im m) {a : Word} (lo : 0x1000 ≤ a.toNat)
    (hi : a.toNat + 4 ≤ 0x20000000) : readWord (view m) (a + pageOffset) = readWord m.mem a := by
  have e : (a + pageOffset).toNat = a.toNat + 0xC0000000 := by
    unfold pageOffset
    bv_omega
  rw [paging.window.readWord_view (by omega) (by omega) (by omega), BitVec.add_sub_cancel]

/-- Below 3 GB nothing is mapped. -/
theorem translate_below (paging : KernelPaging im m) {va : Word} (h : va.toNat < 0xC0000000) :
    translate m va = none := by
  rw [translate, if_neg paging.enabled, paging.directory]
  refine walk_eq_none_of_pde im.pgdPhys_aligned ?_
  rw [pgd_slot]
  exact paging.below _ (by omega)

/-- The first page above `PAGE_OFFSET` is left out, so that null pointers fault there too. -/
theorem translate_guard (paging : KernelPaging im m) {va : Word} (lo : 0xC0000000 ≤ va.toNat)
    (hi : va.toNat < 0xC0001000) : translate m va = none := by
  have aligned := im.ptePhys_aligned
  have table := im.ptePhys_table (j := va.toNat / 4194304 - 768) (by omega)
  rw [translate, if_neg paging.enabled, paging.directory]
  refine walk_eq_none_of_pte im.pgdPhys_aligned ?_ (paging.pde_of_va lo (by omega)) ?_
  · omega
  · have sub : (va - pageOffset).toNat = va.toNat - 0xC0000000 := by
      unfold pageOffset
      bv_omega
    rw [pte_of_va im lo (by omega), sub, show (va.toNat - 0xC0000000) / 4096 = 0 by omega,
      Nat.mul_zero, BitVec.add_zero]
    exact paging.guard

end KernelPaging

/-- No table serves the heap's part of the address space. -/
def HeapUnmapped (im : Image) (m : Machine) : Prop :=
  ∀ i, 896 ≤ i → i < 1024 → readWord m.mem (im.pgdPhys + BitVec.ofNat 32 (4 * i)) = 0

theorem translate_heap_unmapped {im : Image} {m : Machine} (paging : KernelPaging im m)
    (empty : HeapUnmapped im m) {va : Word} (h : 0xE0000000 ≤ va.toNat) :
    translate m va = none := by
  rw [translate, if_neg paging.enabled, paging.directory]
  refine walk_eq_none_of_pde im.pgdPhys_aligned ?_
  rw [pgd_slot]
  exact empty _ (by omega) (by omega)

/-! ## `init_vmm` -/

/-- The memory that the two loops of `init_vmm` leave behind. -/
def vmmMemory (im : Image) (mem : Store 32) : Store 32 :=
  writeWords (writeWords mem (im.pgdPhys + BitVec.ofNat 32 (4 * 768))
      (fun j => entry (im.pteKern + BitVec.ofNat 32 (4096 * j) - pageOffset)) 128)
    (im.ptePhys + BitVec.ofNat 32 (4 * 1)) (fun k => entry (BitVec.ofNat 32 (k + 1) <<< 12)) 131071

section VmmMemory

variable (im : Image) (mem : Store 32)

theorem vmmMemory_outside {a : Word} (h : a ∉ im.tablePages) : vmmMemory im mem a = mem a := by
  have hpgd := im.pgdPhys_range
  have hpte := im.ptePhys_range
  have e := im.pgdPhys_slot (i := 768) (by omega)
  have e' := im.ptePhys_slot (i := 1) (by omega)
  have out : ¬ (im.pgdPhys.toNat ≤ a.toNat ∧ a.toNat < im.pgdPhys.toNat + 4096 ∨
    im.ptePhys.toNat ≤ a.toNat ∧ a.toNat < im.ptePhys.toNat + 128 * 4096) := h
  rw [vmmMemory, writeWords_outside _ _ (by omega) (by omega),
    writeWords_outside _ _ (by omega) (by omega)]

theorem vmmMemory_pde {j : ℕ} (hj : j < 128) :
    readWord (vmmMemory im mem) (im.pgdPhys + BitVec.ofNat 32 (4 * (768 + j))) =
      entry (im.ptePhys + BitVec.ofNat 32 (4096 * j)) := by
  have hpgd := im.pgdPhys_range
  have hpte := im.ptePhys_range
  have apart := im.phys_apart
  have e := im.pgdPhys_slot (i := 768) (by omega)
  have e' := im.ptePhys_slot (i := 1) (by omega)
  have ej := im.pgdPhys_slot (i := 768 + j) (by omega)
  have slot : im.pgdPhys + BitVec.ofNat 32 (4 * (768 + j)) =
      im.pgdPhys + BitVec.ofNat 32 (4 * 768) + BitVec.ofNat 32 (4 * j) := by
    rw [BitVec.add_assoc, ← BitVec.ofNat_add, Nat.mul_add]
  have value : im.pteKern + BitVec.ofNat 32 (4096 * j) - pageOffset =
      im.ptePhys + BitVec.ofNat 32 (4096 * j) := by
    unfold Image.ptePhys
    bv_omega
  rw [vmmMemory, readWord_congr (by omega) fun x _ _ =>
    writeWords_outside _ _ (by omega) (by omega), slot, readWord_writeWords _ _ (by omega) hj,
    value]

theorem vmmMemory_pte {i : ℕ} (hi : 1 ≤ i) (hi' : i < 131072) :
    readWord (vmmMemory im mem) (im.ptePhys + BitVec.ofNat 32 (4 * i)) =
      entry (BitVec.ofNat 32 i <<< 12) := by
  have hpte := im.ptePhys_range
  have e' := im.ptePhys_slot (i := 1) (by omega)
  obtain ⟨k, rfl⟩ := Nat.exists_eq_add_of_le' hi
  have slot : im.ptePhys + BitVec.ofNat 32 (4 * (k + 1)) =
      im.ptePhys + BitVec.ofNat 32 (4 * 1) + BitVec.ofNat 32 (4 * k) := by
    rw [BitVec.add_assoc, ← BitVec.ofNat_add, Nat.add_comm k 1, Nat.mul_add]
  rw [vmmMemory, slot, readWord_writeWords _ _ (by omega) (by omega)]

theorem vmmMemory_guard (zeroed : ∀ a ∈ im.tablePages, mem a = 0) :
    readWord (vmmMemory im mem) im.ptePhys = 0 := by
  have hpgd := im.pgdPhys_range
  have hpte := im.ptePhys_range
  have apart := im.phys_apart
  have e := im.pgdPhys_slot (i := 768) (by omega)
  have e' := im.ptePhys_slot (i := 1) (by omega)
  refine readWord_zero (by omega) fun x hx hx' => ?_
  rw [vmmMemory, writeWords_outside _ _ (by omega) (by omega),
    writeWords_outside _ _ (by omega) (by omega)]
  exact zeroed x (.inr ⟨by omega, by omega⟩)

/-- Directory entries other than the 128 of the direct map stay zero. -/
theorem vmmMemory_pde_zero (zeroed : ∀ a ∈ im.tablePages, mem a = 0) {i : ℕ}
    (hi : i < 768 ∨ 896 ≤ i) (hi' : i < 1024) :
    readWord (vmmMemory im mem) (im.pgdPhys + BitVec.ofNat 32 (4 * i)) = 0 := by
  have hpgd := im.pgdPhys_range
  have hpte := im.ptePhys_range
  have apart := im.phys_apart
  have e := im.pgdPhys_slot (i := 768) (by omega)
  have e' := im.ptePhys_slot (i := 1) (by omega)
  have ei := im.pgdPhys_slot hi'
  refine readWord_zero (by omega) fun x hx hx' => ?_
  rw [vmmMemory, writeWords_outside _ _ (by omega) (by omega),
    writeWords_outside _ _ (by omega) (by omega)]
  exact zeroed x (.inl ⟨by omega, by omega⟩)

end VmmMemory

/-- `init_vmm` fills its tables, registers the page fault handler and switches to its directory. -/
theorem initVmm_spec {E : Stop → Machine → Prop} (im : Image) {m : Machine}
    (temp : TemporaryPaging m) {Q : Unit → Machine → Prop}
    (hQ : Q () { m with
      mem := vmmMemory im m.mem
      interruptHandlers := Function.update m.interruptHandlers 14 im.pageFault
      cr3 := im.pgdPhys }) :
    WP (initVmm im) E Q m := by
  have hpgd := im.pgdPhys_range
  have hpte := im.ptePhys_range
  have vpgd := im.pgdPhys_toNat
  have vpte := im.ptePhys_toNat
  have low (a : Word) (h : a ∈ temporaryPages) : a.toNat < 0x4000 := h.2
  have base : im.pgdKern + 3072 - pageOffset = im.pgdPhys + BitVec.ofNat 32 (4 * 768) := by
    unfold Image.pgdPhys pageOffset
    bv_omega
  have base' : im.pteKern + 4 - pageOffset = im.ptePhys + BitVec.ofNat 32 (4 * 1) := by
    unfold Image.ptePhys pageOffset
    bv_omega
  have ebase := im.pgdPhys_slot (i := 768) (by omega)
  have ebase' := im.ptePhys_slot (i := 1) (by omega)
  -- the counts stay variables, so that no loop is unrolled
  obtain ⟨k, rounds⟩ : ∃ k, k = 131071 := ⟨_, rfl⟩
  obtain ⟨n, rounds'⟩ : ∃ n, n = 128 := ⟨_, rfl⟩
  have count : pteCount * pteSize - 1 = k := rounds.symm
  have count' : pteCount = n := rounds'.symm
  rw [vmmMemory, ← rounds, ← rounds'] at hQ
  rw [initVmm, count, count', wp_bind]
  refine temp.window.storeWords (b := im.pgdKern + 3072)
    (fun i _ => by rw [show pgdIndex pageOffset = 768 from rfl]; bv_omega) (by bv_omega)
    (by bv_omega) (by bv_omega) (by rw [base]; omega)
    (fun a ha => by rw [base]; have := low a ha; omega) ?_
  rw [base]
  have win : Window (m.setMem (writeWords m.mem (im.pgdPhys + BitVec.ofNat 32 (4 * 768))
      (fun j => entry (im.pteKern + BitVec.ofNat 32 (4096 * j) - pageOffset)) n))
      temporaryPages 0xC0000000 0xC0400000 pageOffset :=
    temp.window.of_mem fun a ha =>
      writeWords_outside _ _ (by omega) (by have := low a ha; omega)
  rw [wp_bind]
  refine win.storeWords (b := im.pteKern + 4) (fun i _ => by bv_omega) (by bv_omega)
    (by bv_omega) (by bv_omega) (by rw [base']; omega)
    (fun a ha => by rw [base']; have := low a ha; omega) ?_
  rw [base', wp_bind]
  exact hQ

/-- What `init_vmm` leaves behind is the kernel's paging, with no table for the heap yet. -/
theorem kernelPaging_of_initVmm (im : Image) {m : Machine} (temp : TemporaryPaging m)
    (zeroed : ∀ a ∈ im.tablePages, m.mem a = 0) (handlers : Byte → Word) :
    KernelPaging im { m with
      mem := vmmMemory im m.mem
      interruptHandlers := handlers
      cr3 := im.pgdPhys } :=
  ⟨temp.enabled, rfl, fun _ hj => vmmMemory_pde im m.mem hj,
    fun _ hi hi' => vmmMemory_pte im m.mem hi hi', vmmMemory_guard im m.mem zeroed,
    fun _ hi => vmmMemory_pde_zero im m.mem zeroed (.inl hi) (by omega)⟩

end SimpleKernel
