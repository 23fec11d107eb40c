import Mathlib.Logic.Relation
import SimpleKernel.HeapPages
import SimpleKernel.PmmInit

/-!
# Who owns a frame

From `init_vmm` on, and through any sequence of heap growth and shrinking, every frame of the pool
is free, or a page of the heap, or a page table, and never two of these.
-/

namespace SimpleKernel

open ByteStore ProgramLogic

/-- One step of the heap's page accounting: `alloc_chunk` behind a chunk of the heap, or the page
loop of `free_chunk` for a chunk of the heap. -/
inductive PageStep (im : Image) : Machine → Machine → Prop where
  | grow {m t : Machine} (start len : Word) (lo : heapStart.toNat ≤ start.toNat)
      (hi : start.toNat ≤ m.heapMax.toNat) (room : start.toNat + len.toNat < 2 ^ 32)
      (run : Returns (allocChunk im start len) m () t) : PageStep im m t
  | shrink {m t : Machine} (chunk : Word) (lo : heapStart.toNat ≤ chunk.toNat)
      (hi : chunk.toNat ≤ m.heapMax.toNat) (run : Returns (freePages im chunk) m () t) :
      PageStep im m t

/-- The heap page at `va` is the frame `f`. -/
def HeapPage (m : Machine) (f va : Word) : Prop :=
  va.toNat % 4096 = 0 ∧ heapStart.toNat ≤ va.toNat ∧ va.toNat < m.heapMax.toNat ∧
    translate m va = some f

/-- Entry `i` of `pgd_kern` names the frame `f` as a page table. -/
def TableSlot (im : Image) (m : Machine) (f : Word) (i : ℕ) : Prop :=
  i < 1024 ∧ readWord m.mem (im.pgdPhys + BitVec.ofNat 32 (4 * i)) &&& pagePresent ≠ 0 ∧
    readWord m.mem (im.pgdPhys + BitVec.ofNat 32 (4 * i)) &&& pageMask = f

/-- `f` is once on the stack, or exactly one heap page, or exactly one page table. -/
def SoleOwner (im : Image) (m : Machine) (f : Word) : Prop :=
  ((frames m).count f = 1 ∧ (∀ va, ¬ HeapPage m f va) ∧ ∀ i, ¬ TableSlot im m f i) ∨
    ((frames m).count f = 0 ∧ (∃! va, HeapPage m f va) ∧ ∀ i, ¬ TableSlot im m f i) ∨
    ((frames m).count f = 0 ∧ (∀ va, ¬ HeapPage m f va) ∧ ∃! i, TableSlot im m f i)

/-- What holds of the frames `F` and of the address space in every state after `v`. -/
structure PageOwnership (im : Image) (F : List Word) (v m : Machine) : Prop where
  owner : ∀ f ∈ F, SoleOwner im m f
  mapped : ∀ va : Word, heapStart.toNat ≤ va.toNat →
    ((translate m va).isSome ↔ va.toNat < m.heapMax.toNat)
  heapMax_aligned : m.heapMax.toNat % 4096 = 0
  heapMax_ge : heapStart.toNat ≤ m.heapMax.toNat
  direct : ∀ va : Word, pageOffset.toNat ≤ va.toNat → va.toNat < heapStart.toNat →
    translate m va = translate v va

section Owners

variable {im : Image} {F pages tables : List Word} {m : Machine} {f va : Word}

/-- The heap pages are those of the list, each at its own place. -/
theorem Owned.heapPage_iff (own : Owned im F m pages tables) (pool : KernelFrames im F) :
    HeapPage m f va ↔ ∃ i, pages[i]? = some f ∧ va.toNat = 0xE0000000 + 4096 * i := by
  have heapMax := own.mapped.heapMax
  have start : heapStart.toNat = 0xE0000000 := rfl
  constructor
  · rintro ⟨aligned, lo, hi, walked⟩
    have lt : (va.toNat - 0xE0000000) / 4096 < pages.length := by omega
    have hit := List.getElem?_eq_getElem lt
    rw [own.mapped.translate (own.heap pool) (by omega) hit, Option.some_inj, aligned,
      BitVec.add_zero] at walked
    exact ⟨_, by rw [hit, walked], by omega⟩
  · rintro ⟨i, hit, place⟩
    have lt := (List.getElem?_eq_some_iff.1 hit).1
    have index : (va.toNat - 0xE0000000) / 4096 = i := by omega
    refine ⟨by omega, by omega, by omega, ?_⟩
    rw [own.mapped.translate (own.heap pool) (by omega) (by rw [index]; exact hit),
      show va.toNat % 4096 = 0 by omega, BitVec.add_zero]

/-- Among the frames of the pool, the page tables are those of the list. -/
theorem Owned.tableSlot_iff (own : Owned im F m pages tables) (pool : KernelFrames im F)
    (hf : f ∈ F) {i : ℕ} : TableSlot im m f i ↔ 896 ≤ i ∧ tables[i - 896]? = some f := by
  have inTables : KernelFrames im tables := (own.heap pool).of_sublist
    (List.sublist_append_right _ _)
  have slots := own.mapped.tables.slots
  have above := pool.above_tables hf
  have paging := own.mapped.paging
  constructor
  · rintro ⟨lt, present, frame⟩
    rcases Nat.lt_or_ge i 768 with low | high
    · rw [paging.below i low] at present
      exact absurd (by decide) present
    · obtain ⟨j, rfl⟩ := Nat.exists_eq_add_of_le high
      rcases Nat.lt_or_ge j 128 with direct | heap
      · have table := im.ptePhys_table direct
        have aligned := im.ptePhys_aligned
        rw [paging.pde j direct, entry_frame (by omega)] at frame
        subst frame
        omega
      · obtain ⟨k, rfl⟩ := Nat.exists_eq_add_of_le heap
        rw [← Nat.add_assoc] at present frame
        refine ⟨by omega, ?_⟩
        rw [show 768 + (128 + k) - 896 = k by omega]
        rcases ht : tables[k]? with _ | t
        · rw [own.mapped.tables.pdeFree k (List.getElem?_eq_none_iff.1 ht) (by omega)] at present
          exact absurd (by decide) present
        · rw [own.mapped.tables.pde k t ht,
            entry_frame (inTables.aligned t (List.mem_of_getElem? ht))] at frame
          rw [frame]
  · rintro ⟨le, hit⟩
    obtain ⟨k, rfl⟩ := Nat.exists_eq_add_of_le le
    rw [Nat.add_sub_cancel_left] at hit
    have lt := (List.getElem?_eq_some_iff.1 hit).1
    have aligned := inTables.aligned f (List.mem_of_getElem? hit)
    refine ⟨by omega, ?_, ?_⟩
    · rw [own.mapped.tables.pde k f hit]
      exact entry_present aligned
    · rw [own.mapped.tables.pde k f hit, entry_frame aligned]

theorem Owned.soleOwner (own : Owned im F m pages tables) (pool : KernelFrames im F)
    (hf : f ∈ F) : SoleOwner im m f := by
  have nodup := (own.all pool).nodup
  have mem := own.conserved.symm.subset hf
  obtain ⟨nodup', nodupTables, apart'⟩ := List.nodup_append'.1 nodup
  obtain ⟨nodupFree, nodupPages, apart⟩ := List.nodup_append'.1 nodup'
  have noPage (h : f ∉ pages) (va : Word) : ¬ HeapPage m f va := by
    rw [own.heapPage_iff pool]
    rintro ⟨i, hit, -⟩
    exact h (List.mem_of_getElem? hit)
  have noTable (h : f ∉ tables) (i : ℕ) : ¬ TableSlot im m f i := by
    rw [own.tableSlot_iff pool hf]
    rintro ⟨-, hit⟩
    exact h (List.mem_of_getElem? hit)
  rcases List.mem_append.1 mem with mem' | isTable
  · have notTable : f ∉ tables := fun h => apart' mem' h
    rcases List.mem_append.1 mem' with free | isPage
    · exact .inl ⟨List.count_eq_one_of_mem nodupFree free, noPage fun h => apart free h,
        noTable notTable⟩
    · refine .inr (.inl ⟨List.count_eq_zero.2 fun h => apart h isPage, ?_, noTable notTable⟩)
      obtain ⟨i, hit⟩ := List.getElem?_of_mem isPage
      have bound := own.heapMax_lt pool
      have heapMax := own.mapped.heapMax
      have lt := (List.getElem?_eq_some_iff.1 hit).1
      have place : (BitVec.ofNat 32 (0xE0000000 + 4096 * i)).toNat = 0xE0000000 + 4096 * i := by
        rw [BitVec.toNat_ofNat]
        exact Nat.mod_eq_of_lt (by omega)
      refine ⟨BitVec.ofNat 32 (0xE0000000 + 4096 * i), (own.heapPage_iff pool).2 ⟨i, hit, place⟩,
        fun va hva => BitVec.eq_of_toNat_eq ?_⟩
      obtain ⟨j, hit', place'⟩ := (own.heapPage_iff pool).1 hva
      have same : i = j := (List.getElem?_inj lt nodupPages).1 (hit.trans hit'.symm)
      rw [place, place', same]
  · have free : f ∉ frames m := fun h => apart' (List.mem_append_left _ h) isTable
    have notPage : f ∉ pages := fun h => apart' (List.mem_append_right _ h) isTable
    refine .inr (.inr ⟨List.count_eq_zero.2 free, noPage notPage, ?_⟩)
    obtain ⟨i, hit⟩ := List.getElem?_of_mem isTable
    have lt := (List.getElem?_eq_some_iff.1 hit).1
    refine ⟨896 + i, (own.tableSlot_iff pool hf).2 ⟨by omega, by rwa [Nat.add_sub_cancel_left]⟩,
      fun j hj => ?_⟩
    obtain ⟨le, hit'⟩ := (own.tableSlot_iff pool hf).1 hj
    have same : i = j - 896 := (List.getElem?_inj lt nodupTables).1 (hit.trans hit'.symm)
    omega

theorem KernelPaging.translate_direct (paging : KernelPaging im m) {v : Machine}
    (paging' : KernelPaging im v) (lo : pageOffset.toNat ≤ va.toNat)
    (hi : va.toNat < heapStart.toNat) : translate m va = translate v va := by
  have start : heapStart.toNat = 0xE0000000 := rfl
  have offset : pageOffset.toNat = 0xC0000000 := rfl
  rcases Nat.lt_or_ge va.toNat 0xC0001000 with guard | above
  · rw [paging.translate_guard (by omega) guard, paging'.translate_guard (by omega) guard]
  · rw [paging.window.translate above (by omega), paging'.window.translate above (by omega)]

theorem Owned.pageOwnership (own : Owned im F m pages tables) (pool : KernelFrames im F)
    {v : Machine} (paging : KernelPaging im v) : PageOwnership im F v m := by
  have heapMax := own.mapped.heapMax
  have start : heapStart.toNat = 0xE0000000 := rfl
  refine ⟨fun f hf => own.soleOwner pool hf, fun va lo => ?_, by omega, by omega,
    fun va lo hi => own.mapped.paging.translate_direct paging lo hi⟩
  rcases Nat.lt_or_ge va.toNat m.heapMax.toNat with below | behind
  · have lt : (va.toNat - 0xE0000000) / 4096 < pages.length := by omega
    rw [own.mapped.translate (own.heap pool) (by omega) (List.getElem?_eq_getElem lt)]
    simp [below]
  · have inTables := (own.heap pool).of_sublist (List.sublist_append_right _ _)
    rw [own.mapped.translate_behind inTables behind]
    simp [behind]

end Owners

/-! ## Runs -/

section Runs

variable {im : Image} {F pages tables : List Word} {m t : Machine}

/-- One step of page accounting keeps the ownership. -/
theorem Owned.step (own : Owned im F m pages tables) (pool : KernelFrames im F)
    (step : PageStep im m t) : ∃ pages' tables', Owned im F t pages' tables' := by
  cases step with
  | grow start len lo hi room run =>
    obtain ⟨more, new, own', -⟩ := (allocChunk_spec own pool (E := fun e _ => e = outOfMemory)
      room fun _ _ => rfl).returned run
    exact ⟨_, _, own'⟩
  | shrink chunk lo hi run =>
    obtain ⟨kept, -, -, own', -⟩ :=
      (freePages_spec own pool (E := fun _ _ => True) lo hi).returned run
    exact ⟨_, _, own'⟩

theorem Owned.run (own : Owned im F m pages tables) (pool : KernelFrames im F)
    (steps : Relation.ReflTransGen (PageStep im) m t) :
    ∃ pages' tables', Owned im F t pages' tables' := by
  induction steps with
  | refl => exact ⟨_, _, own⟩
  | tail _ step ih =>
    obtain ⟨pages', tables', own'⟩ := ih
    exact own'.step pool step

/-- Growth maps up to the end of the chunk, or stops because the frames have run out. -/
theorem Owned.grows (own : Owned im F m pages tables) (pool : KernelFrames im F)
    {start len : Word} (room : start.toNat + len.toNat < 2 ^ 32) :
    (∃ u, Returns (allocChunk im start len) m () u ∧
      u.heapMax.toNat = max m.heapMax.toNat (pageUp (start.toNat + len.toNat))) ∨
      ∃ u, Stops (allocChunk im start len) m outOfMemory u := by
  rcases (allocChunk_spec own pool (E := fun e _ => e = outOfMemory) room
    fun _ _ => rfl).outcome with ⟨⟨⟩, u, run, -, -, -, reached, -⟩ | ⟨e, u, run, rfl⟩
  · exact .inl ⟨u, run, reached⟩
  · exact .inr ⟨u, run⟩

theorem Owned.shrinks (own : Owned im F m pages tables) (pool : KernelFrames im F) {chunk : Word}
    (lo : heapStart.toNat ≤ chunk.toNat) (hi : chunk.toNat ≤ m.heapMax.toNat) :
    ∃ u, Returns (freePages im chunk) m () u ∧ u.heapMax.toNat = pageUp chunk.toNat := by
  obtain ⟨⟨⟩, u, run, -, -, -, -, -, reached, -⟩ :=
    (freePages_spec own pool (E := fun _ _ => False) lo hi).returns
  exact ⟨u, run, reached⟩

/-- After `init_vmm` all frames are free and the heap is empty. -/
theorem owned_of_initVmm (im : Image) {m v : Machine} (temp : TemporaryPaging m)
    (zeroed : ∀ a ∈ im.tablePages, m.mem a = 0) (empty : m.heapMax = heapStart)
    (run : Returns (initVmm im) m () v) :
    Owned im (frames m) v [] [] ∧ v.heapFirst = m.heapFirst := by
  have final : v = { m with
      mem := vmmMemory im m.mem
      interruptHandlers := Function.update m.interruptHandlers 14 im.pageFault
      cr3 := im.pgdPhys } :=
    (initVmm_spec (E := fun _ _ => True) im temp (Q := fun _ t => t = _) rfl).returned run
  subst final
  refine ⟨⟨⟨kernelPaging_of_initVmm im temp zeroed _, ?_, ?_⟩, ?_⟩, rfl⟩
  · refine ⟨Nat.zero_le _, by simp, fun j t ht => absurd ht (by simp), fun j _ hj => ?_,
      fun i f t hf => absurd hf (by simp), fun i t _ ht => absurd ht (by simp)⟩
    exact vmmMemory_pde_zero im m.mem zeroed (.inr (by omega)) (by omega)
  · show m.heapMax.toNat = _
    rw [empty]
    rfl
  · rw [List.append_nil, List.append_nil]
    exact List.Perm.refl _

end Runs

/-- The frames that `init_pmm` takes from a region that ends below 512 MB. -/
theorem kernelFrames_regionFrames (im : Image) {length : Word} (fit : length.toNat ≤ 0x20000000) :
    KernelFrames im (regionFrames (firstFrame im) length) := by
  have low := firstFrame_low im
  have first := firstFrame_toNat im
  have aligned := im.kernEnd_aligned
  refine ⟨regionFrames_nodup _ _, fun f hf => ?_, fun f hf => ?_, fun f hf => ?_⟩
  all_goals
    obtain ⟨below, limit, above, step⟩ := mem_regionFrames.1 hf
    omega

/-- A booted machine with 128 MB of memory. -/
theorem booted_128M : ∃ m v, TemporaryPaging m ∧ (∀ a ∈ smallImage.tablePages, m.mem a = 0) ∧
    m.heapMax = heapStart ∧ KernelFrames smallImage (frames m) ∧ (frames m).length = 32256 ∧
    Returns (initVmm smallImage) m () v := by
  obtain ⟨m, t, -, temp, zeroed, -, heapMax, -, -, ⟨stack, top, count, rfl⟩, pushed⟩ :=
    bootInformation_scanned 0x7F00000
  have temp' : TemporaryPaging (m.setFrames stack top count) := temp.of_agree rfl rfl fun _ _ => rfl
  obtain ⟨⟨⟩, v, run, -⟩ := (initVmm_spec (E := fun _ _ => False) smallImage temp'
    (Q := fun _ _ => True) trivial).returns
  refine ⟨_, v, temp', zeroed, heapMax, ?_, ?_, run⟩
  · rw [pushed]
    exact kernelFrames_regionFrames smallImage (by decide)
  · rw [pushed, regionFrames, List.length_map, List.length_range]
    decide

/-- In every run of growth and shrink steps after `init_vmm`, each frame that `init_pmm` pushed has
one owner, exactly the pages below `heap_max` are mapped, and the direct map is as `init_vmm` left
it; growth stops for want of frames only, and shrinking never stops. -/
theorem pageOwnership_of_run (im : Image) (m v t : Machine) (temp : TemporaryPaging m)
    (zeroed : ∀ a ∈ im.tablePages, m.mem a = 0) (empty : m.heapMax = heapStart)
    (pool : KernelFrames im (frames m)) (boot : Returns (initVmm im) m () v)
    (steps : Relation.ReflTransGen (PageStep im) v t) :
    PageOwnership im (frames m) v t ∧
      (∀ start len : Word, heapStart.toNat ≤ start.toNat → start.toNat ≤ t.heapMax.toNat →
        start.toNat + len.toNat < 2 ^ 32 →
        (∃ u, Returns (allocChunk im start len) t () u ∧
          u.heapMax.toNat = max t.heapMax.toNat (pageUp (start.toNat + len.toNat))) ∨
          ∃ u, Stops (allocChunk im start len) t outOfMemory u) ∧
      ∀ chunk : Word, heapStart.toNat ≤ chunk.toNat → chunk.toNat ≤ t.heapMax.toNat →
        ∃ u, Returns (freePages im chunk) t () u ∧ u.heapMax.toNat = pageUp chunk.toNat := by
  obtain ⟨own₀, -⟩ := owned_of_initVmm im temp zeroed empty boot
  obtain ⟨pages, tables, own⟩ := own₀.run pool steps
  exact ⟨own.pageOwnership pool own₀.mapped.paging, fun start len _ _ room => own.grows pool room,
    fun chunk lo hi => own.shrinks pool lo hi⟩

theorem pageOwnership_of_run_128M : ∃ m v t,
    Returns (initVmm smallImage) m () v ∧ Returns (allocChunk smallImage heapStart 50000) v () t ∧
      PageOwnership smallImage (frames m) v t := by
  obtain ⟨m, v, temp, zeroed, empty, pool, enough, boot⟩ := booted_128M
  obtain ⟨own, -⟩ := owned_of_initVmm smallImage temp zeroed empty boot
  have heapMax : v.heapMax.toNat = 0xE0000000 := own.mapped.heapMax
  have free := own.conserved.length_eq
  rw [List.append_nil, List.append_nil, enough] at free
  have room : ¬ (frames v).length + v.heapMax.toNat / 2048 < pageUp
      (heapStart.toNat + (50000 : Word).toNat) / 2048 := by
    rw [free, heapMax]
    decide
  obtain ⟨⟨⟩, t, run, -⟩ := (allocChunk_spec (E := fun _ _ => False) own pool
    (by decide : heapStart.toNat + (50000 : Word).toNat < 2 ^ 32) fun few => absurd few room).returns
  have step : PageStep smallImage v t :=
    .grow heapStart 50000 le_rfl (by rw [heapMax]; decide) (by decide) run
  exact ⟨m, v, t, boot, run, (pageOwnership_of_run smallImage m v t temp zeroed empty pool boot
    (.single step)).1⟩

end SimpleKernel
