import SimpleKernel.Heap
import SimpleKernel.HeapTables

/-!
# Growing and shrinking the heap

`alloc_chunk` and the page loop of `free_chunk` move frames between the free stack and the heap;
`map` takes further frames for page tables.  `Owned` says who owns each frame, and both loops keep
it.
-/

namespace SimpleKernel

open ByteStore ProgramLogic

/-! ## Physical memory through the direct map -/

namespace KernelPaging

variable {E : Stop → Machine → Prop} {im : Image} {m : Machine} {a v : Word}

theorem alias_toNat (hi : a.toNat < 0x20000000) :
    (a + pageOffset).toNat = a.toNat + 0xC0000000 := by
  unfold pageOffset
  bv_omega

theorem load32 (paging : KernelPaging im m) (lo : 0x1000 ≤ a.toNat)
    (hi : a.toNat + 4 ≤ 0x20000000) {Q : Word → Machine → Prop} (hQ : Q (readWord m.mem a) m) :
    WP (load32 (a + pageOffset)) E Q m := by
  have e := alias_toNat (a := a) (by omega)
  refine paging.window.load32 (by omega) (by omega) (by omega) ?_
  rwa [BitVec.add_sub_cancel]

/-- A store through the direct map that misses the tables of the direct map. -/
theorem store32 (paging : KernelPaging im m) (lo : 0x1000 ≤ a.toNat)
    (hi : a.toNat + 4 ≤ 0x20000000)
    (miss : ∀ x ∈ im.tables, x.toNat < a.toNat ∨ a.toNat + 4 ≤ x.toNat)
    {Q : Unit → Machine → Prop} (hQ : KernelPaging im (m.setMem (writeWord m.mem a v)) →
      Q () (m.setMem (writeWord m.mem a v))) : WP (store32 (a + pageOffset) v) E Q m := by
  have e := alias_toNat (a := a) (by omega)
  refine paging.window.store32 (by omega) (by omega) (by omega) (fun x hx i hi' => ?_) ?_
  · rintro rfl
    have := miss _ hx
    rw [BitVec.add_sub_cancel, toNat_offset (by omega)] at this
    omega
  · rw [BitVec.add_sub_cancel]
    exact hQ (paging.of_agree rfl rfl fun x hx =>
      writeWord_outside _ _ (by omega) (by have := miss x hx; omega))

theorem bzero (paging : KernelPaging im m) (lo : 0x1000 ≤ a.toNat) {n : ℕ}
    (hi : a.toNat + n ≤ 0x20000000)
    (miss : ∀ x ∈ im.tables, x.toNat < a.toNat ∨ a.toNat + n ≤ x.toNat)
    {Q : Unit → Machine → Prop} (hQ : KernelPaging im (m.setMem (zeroFill m.mem a n)) →
      Q () (m.setMem (zeroFill m.mem a n))) : WP (bzero (a + pageOffset) n) E Q m := by
  rcases Nat.eq_zero_or_pos n with rfl | pos
  · have same : m.setMem (zeroFill m.mem a 0) = m := by rw [zeroFill_zero, Machine.setMem_self]
    rw [same] at hQ
    exact hQ paging
  have e := alias_toNat (a := a) (by omega)
  refine paging.window.bzero (by omega) (by omega) (by omega) ?_ ?_ ?_
  · rw [BitVec.add_sub_cancel]
    omega
  · rwa [BitVec.add_sub_cancel]
  · rw [BitVec.add_sub_cancel]
    exact hQ (paging.of_agree rfl rfl fun x hx => zeroFill_outside _ (miss x hx))

end KernelPaging

/-- The bytes of a frame of the pool are no part of the tables of the direct map. -/
theorem KernelFrames.miss {im : Image} {fs : List Word} (frames : KernelFrames im fs) {f : Word}
    (hf : f ∈ fs) {x : Word} (hx : x ∈ im.tables) : x.toNat < f.toNat := by
  have := frames.above_tables hf
  rcases hx with hx | hx <;> omega

/-- Neither is the heap's half of the directory. -/
theorem directory_miss {im : Image} {j : ℕ} {x : Word} (hx : x ∈ im.tables) :
    x.toNat < im.pgdPhys.toNat + 4 * (896 + j) ∨ im.pgdPhys.toNat + 4096 ≤ x.toNat := by
  have := im.phys_apart
  rcases hx with hx | hx <;> omega

/-! ## Heap pages -/

/-- Under the kernel's paging, the heap consists of `pages`, mapped through `tables`. -/
structure HeapMapped (im : Image) (m : Machine) (pages tables : List Word) : Prop where
  paging : KernelPaging im m
  tables : HeapTables im m.mem pages tables
  heapMax : m.heapMax.toNat = 0xE0000000 + 4096 * pages.length

section Addresses

variable {im : Image} {va t : Word} {n : ℕ}

theorem directory_address (h : va.toNat = 0xE0000000 + 4096 * n) :
    im.pgdKern + 4 * pgdIndex va =
      im.pgdPhys + BitVec.ofNat 32 (4 * (896 + n / 1024)) + pageOffset := by
  rw [pgd_slot, show va.toNat / 4194304 = 896 + n / 1024 by omega]
  unfold Image.pgdPhys
  bv_omega

theorem table_address (h : va.toNat = 0xE0000000 + 4096 * n) :
    t + pageOffset + 4 * pteIndex va =
      t + BitVec.ofNat 32 (4 * (n % 1024)) + pageOffset := by
  rw [pte_slot, show va.toNat / 4096 % 1024 = n % 1024 by omega]
  bv_omega

end Addresses

section Translate

variable {im : Image} {m m' : Machine} {pages pages' tables tables' : List Word} {va f : Word}

theorem HeapMapped.index (heap : HeapMapped im m pages tables) (lo : 0xE0000000 ≤ va.toNat)
    (hi : va.toNat < m.heapMax.toNat) : (va.toNat - 0xE0000000) / 4096 < pages.length := by
  have := heap.heapMax
  omega

/-- The page walk for an address of the heap. -/
theorem HeapMapped.translate (heap : HeapMapped im m pages tables)
    (frames : KernelFrames im (pages ++ tables)) (lo : 0xE0000000 ≤ va.toNat)
    (hf : pages[(va.toNat - 0xE0000000) / 4096]? = some f) :
    translate m va = some (f + BitVec.ofNat 32 (va.toNat % 4096)) := by
  obtain ⟨i, hi⟩ : ∃ i, (va.toNat - 0xE0000000) / 4096 = i := ⟨_, rfl⟩
  rw [hi] at hf
  have covered := heap.tables.covered
  have slots := heap.tables.slots
  have inside := (List.getElem?_eq_some_iff.1 hf).1
  obtain ⟨t, ht⟩ := heap.tables.table_of_page inside
  have hf' : f ∈ pages ++ tables := List.mem_append_left _ (List.mem_of_getElem? hf)
  have ht' : t ∈ pages ++ tables := List.mem_append_right _ (List.mem_of_getElem? ht)
  have aligned := frames.aligned f hf'
  have below := frames.below f hf'
  rw [SimpleKernel.translate, if_neg heap.paging.enabled, heap.paging.directory,
    walk_eq_some im.pgdPhys_aligned (frames.aligned t ht') aligned
      (by rw [pgd_slot, show va.toNat / 4194304 = 896 + i / 1024 by omega]
          exact heap.tables.pde _ t ht)
      (by rw [pte_slot, show va.toNat / 4096 % 1024 = i % 1024 by omega]
          exact heap.tables.pte i f t hf ht)]
  refine congrArg some (BitVec.eq_of_toNat_eq ?_)
  rw [aligned_or_toNat aligned (by rw [offsetIndex_toNat]; omega), offsetIndex_toNat,
    toNat_offset (by omega)]

/-- Nothing is mapped behind the heap. -/
theorem HeapMapped.translate_behind (heap : HeapMapped im m pages tables)
    (frames : KernelFrames im tables) (h : m.heapMax.toNat ≤ va.toNat) :
    SimpleKernel.translate m va = none := by
  have heapMax := heap.heapMax
  obtain ⟨i, hi⟩ : ∃ i, (va.toNat - 0xE0000000) / 4096 = i := ⟨_, rfl⟩
  have pgd := pgd_slot im.pgdPhys va
  have pte (t : Word) := pte_slot t va
  rw [show va.toNat / 4194304 = 896 + i / 1024 by omega] at pgd
  rw [SimpleKernel.translate, if_neg heap.paging.enabled, heap.paging.directory]
  rcases ht : tables[i / 1024]? with _ | t
  · refine walk_eq_none_of_pde im.pgdPhys_aligned ?_
    rw [pgd]
    exact heap.tables.pdeFree _ (List.getElem?_eq_none_iff.1 ht) (by omega)
  · refine walk_eq_none_of_pte (t := t) im.pgdPhys_aligned
      (frames.aligned t (List.mem_of_getElem? ht)) ?_ ?_
    · rw [pgd]
      exact heap.tables.pde _ t ht
    · rw [pte, show va.toNat / 4096 % 1024 = i % 1024 by omega]
      exact heap.tables.pteFree i t (by omega) ht

/-- The heap is the same to its readers when the pages in question are kept with their contents. -/
theorem HeapMapped.view_congr (heap : HeapMapped im m pages tables)
    (frames : KernelFrames im (pages ++ tables)) (heap' : HeapMapped im m' pages' tables')
    (frames' : KernelFrames im (pages' ++ tables')) (lo : 0xE0000000 ≤ va.toNat)
    (hf : pages[(va.toNat - 0xE0000000) / 4096]? = some f)
    (hf' : pages'[(va.toNat - 0xE0000000) / 4096]? = some f)
    (kept : ∀ x : Word, f.toNat ≤ x.toNat → x.toNat < f.toNat + 4096 → m'.mem x = m.mem x) :
    view m' va = view m va := by
  have below := frames.below f (List.mem_append_left _ (List.mem_of_getElem? hf))
  have e := toNat_offset (a := f) (i := va.toNat % 4096) (by omega)
  rw [view_eq (heap.translate frames lo hf), view_eq (heap'.translate frames' lo hf')]
  exact kept _ (by omega) (by omega)

end Translate

/-! ## Single pages -/

section Pages

variable {E : Stop → Machine → Prop} {im : Image} {m : Machine} {pages tables : List Word} {f : Word}

theorem KernelFrames.ne_zero (frames : KernelFrames im tables) (hf : f ∈ tables) : f ≠ 0 := by
  rintro rfl
  have := frames.above_tables hf
  have := im.pgdPhys_range
  have : (0 : Word).toNat = 0 := rfl
  omega

/-- Loading the directory entry of the heap's page `n`. -/
theorem KernelPaging.load_pde (paging : KernelPaging im m) {va : Word} {n : ℕ}
    (h : va.toNat = 0xE0000000 + 4096 * n) {Q : Word → Machine → Prop}
    (hQ : Q (readWord m.mem (im.pgdPhys + BitVec.ofNat 32 (4 * (896 + n / 1024)))) m) :
    WP (SimpleKernel.load32 (im.pgdKern + 4 * pgdIndex va)) E Q m := by
  have hpgd := im.pgdPhys_range
  have e := im.pgdPhys_slot (i := 896 + n / 1024) (by omega)
  rw [directory_address h]
  exact paging.load32 (by omega) (by omega) hQ

/-- Loading a page table entry of the heap. -/
theorem KernelPaging.load_pte (paging : KernelPaging im m) (frames : KernelFrames im tables)
    {t va : Word} {n : ℕ} (ht : t ∈ tables) (h : va.toNat = 0xE0000000 + 4096 * n)
    {Q : Word → Machine → Prop}
    (hQ : Q (readWord m.mem (t + BitVec.ofNat 32 (4 * (n % 1024)))) m) :
    WP (SimpleKernel.load32 (t + pageOffset + 4 * pteIndex va)) E Q m := by
  have := frames.above_tables ht
  have := frames.below t ht
  have := im.pgdPhys_range
  have e := frames.slot_toNat ht n
  rw [table_address h]
  exact paging.load32 (by omega) (by omega) hQ

/-- Storing a page table entry of the heap. -/
theorem KernelPaging.store_pte (paging : KernelPaging im m) (frames : KernelFrames im tables)
    {t va v : Word} {n : ℕ} (ht : t ∈ tables) (h : va.toNat = 0xE0000000 + 4096 * n)
    {Q : Unit → Machine → Prop} (hQ : ∀ mem,
      mem = writeWord m.mem (t + BitVec.ofNat 32 (4 * (n % 1024))) v →
      KernelPaging im (m.setMem mem) → Q () (m.setMem mem)) :
    WP (SimpleKernel.store32 (t + pageOffset + 4 * pteIndex va) v) E Q m := by
  have := frames.above_tables ht
  have := frames.below t ht
  have := im.pgdPhys_range
  have e := frames.slot_toNat ht n
  rw [table_address h]
  refine paging.store32 (by omega) (by omega) (fun x hx => .inl ?_) (hQ _ rfl)
  have := frames.miss ht hx
  omega

/-- The first free slot of the directory, when the last table is full. -/
theorem HeapTables.full {mem : Store 32} (heap : HeapTables im mem pages tables)
    (none : tables[pages.length / 1024]? = none) :
    pages.length = 1024 * tables.length := by
  have := List.getElem?_eq_none_iff.1 none
  have := heap.covered
  omega

/-- A write to a table entry leaves the other frames alone. -/
theorem KernelFrames.slot_outside {fs : List Word} (owned : KernelFrames im fs) {t g x v : Word}
    {n : ℕ} {mem : Store 32} (ht : t ∈ fs) (hg : g ∈ fs) (ne : g ≠ t) (lo : g.toNat ≤ x.toNat)
    (hi : x.toNat < g.toNat + 4096) :
    writeWord mem (t + BitVec.ofNat 32 (4 * (n % 1024))) v x = mem x := by
  have := owned.below t ht
  have := owned.apart hg ht ne
  have e := owned.slot_toNat ht n
  exact writeWord_outside _ _ (by omega) (by omega)

/-- What `map` does when it appends a page to the heap: it may take a frame for a table first. -/
theorem map_spec (heap : HeapMapped im m pages tables)
    (owned : KernelFrames im (frames m ++ f :: pages ++ tables))
    (oom : frames m = [] → ∀ t, E outOfMemory t) {Q : Unit → Machine → Prop}
    (hQ : ∀ top mem new, new.length ≤ 1 →
      frames m = frames (m.setFrames m.pmmStack top m.phyPageCount) ++ new →
      KernelPaging im ((m.setFrames m.pmmStack top m.phyPageCount).setMem mem) →
      HeapTables im mem (pages ++ [f]) (tables ++ new) →
      (∀ g ∈ pages, ∀ x : Word, g.toNat ≤ x.toNat → x.toNat < g.toNat + 4096 → mem x = m.mem x) →
      Q () ((m.setFrames m.pmmStack top m.phyPageCount).setMem mem)) :
    WP (map im.pgdKern m.heapMax f (pagePresent ||| pageWrite)) E Q m := by
  have hf : f ∈ frames m ++ f :: pages ++ tables := by simp
  have leaf : (f &&& pageMask) ||| (pagePresent ||| pageWrite) = entry f := by
    rw [aligned_and_pageMask (owned.aligned f hf), entry, BitVec.or_assoc]
  have inTables : KernelFrames im tables := owned.of_sublist (List.sublist_append_right _ _)
  have bound := owned.length_le
  simp only [List.length_append, List.length_cons] at bound
  simp only [map, wp_bind, leaf]
  refine heap.paging.load_pde heap.heapMax ?_
  rcases ht : tables[pages.length / 1024]? with _ | t
  · have full := heap.tables.full ht
    have slot : pages.length / 1024 = tables.length := by omega
    rw [slot, heap.tables.pdeFree _ le_rfl (by omega), if_pos (by decide)]
    simp only [wp_bind, wp_pure]
    refine pmmAllocPage_spec (fun none => oom none _) fun t rest top split popped => ?_
    have reordered : (frames m ++ f :: pages ++ tables).Perm
        (rest ++ f :: pages ++ (tables ++ [t])) := by
      rw [split, List.perm_iff_count]
      intro a
      simp only [List.count_append]
      omega
    have all := owned.of_perm reordered.symm
    have inTables' : KernelFrames im (tables ++ [t]) :=
      all.of_sublist (List.sublist_append_right _ _)
    have ht : t ∈ tables ++ [t] := List.mem_append_right _ (List.mem_singleton_self t)
    have hpgd := im.pgdPhys_range
    have habove := inTables'.above_tables ht
    have hbelow := inTables'.below t ht
    have room : tables.length < 128 := by omega
    have ek := im.pgdPhys_slot (i := 896 + tables.length) (by omega)
    have paging₁ : KernelPaging im (m.setFrames m.pmmStack top m.phyPageCount) :=
      heap.paging.of_agree rfl rfl fun _ _ => rfl
    rw [directory_address heap.heapMax, slot]
    refine paging₁.store32 (by omega) (by omega) (fun x hx => ?_) fun paging₂ => ?_
    · have := directory_miss (j := tables.length) hx
      omega
    refine paging₂.bzero (by omega) (by omega) (fun x hx => ?_) fun paging₃ => ?_
    · exact .inl (inTables'.miss ht hx)
    have heap₃ := heap.tables.addTable inTables' room
    refine paging₃.store_pte inTables' ht heap.heapMax fun mem hmem paging₄ => ?_
    refine hQ top mem [t] le_rfl (by rw [popped, split]) paging₄ ?_ fun g hg x lo hi => ?_
    · rw [hmem]
      exact heap₃.addPage inTables' (by simp; omega) f (by rw [slot, List.getElem?_concat_length])
    · have hg' : g ∈ rest ++ f :: pages := List.mem_append_right _ (List.mem_cons_of_mem _ hg)
      have hg'' : g ∈ rest ++ f :: pages ++ (tables ++ [t]) := List.mem_append_left _ hg'
      have ht' : t ∈ rest ++ f :: pages ++ (tables ++ [t]) := List.mem_append_right _ ht
      have ne : g ≠ t := by
        rintro rfl
        exact List.disjoint_of_nodup_append all.nodup hg' ht
      have := all.apart hg'' ht' ne
      have := all.above_tables hg''
      rw [hmem, all.slot_outside ht' hg'' ne lo hi, Machine.setMem_mem,
        zeroFill_outside _ (by omega), Machine.setMem_mem,
        writeWord_outside _ _ (by omega) (by omega), Machine.setFrames_mem]
  · have ht' := List.mem_of_getElem? ht
    have room : pages.length < 1024 * tables.length := by
      have := (List.getElem?_eq_some_iff.1 ht).1
      omega
    rw [heap.tables.pde _ t ht, entry_frame (inTables.aligned t ht'), if_neg (inTables.ne_zero ht'),
      wp_bind, wp_pure]
    refine heap.paging.store_pte inTables ht' heap.heapMax fun mem hmem paging' => ?_
    refine hQ m.pmmStackTop mem [] (by simp) (List.append_nil _).symm paging' ?_ fun g hg x lo hi => ?_
    · rw [List.append_nil, hmem]
      exact heap.tables.addPage inTables room f ht
    · have hg' : g ∈ frames m ++ f :: pages := List.mem_append_right _ (List.mem_cons_of_mem _ hg)
      have ne : g ≠ t := by
        rintro rfl
        exact List.disjoint_of_nodup_append owned.nodup hg' ht'
      rw [hmem, owned.slot_outside (List.mem_append_right _ ht') (List.mem_append_left _ hg') ne lo
        hi]

/-- What `get_mapping` and `unmap` do for the last page of the heap. -/
theorem getMapping_spec (paging : KernelPaging im m) (heap : HeapTables im m.mem (pages ++ [f]) tables)
    (owned : KernelFrames im (f :: tables)) {va : Word}
    (h : va.toNat = 0xE0000000 + 4096 * pages.length)
    {Q : Option Word × Option Word → Machine → Prop} (hQ : Q (some 1, some f) m) :
    WP (getMapping im.pgdKern va true) E Q m := by
  have inTables : KernelFrames im tables := owned.of_sublist (List.sublist_cons_self _ _)
  obtain ⟨t, ht⟩ := heap.table_of_page (i := pages.length) (by simp)
  have ht' := List.mem_of_getElem? ht
  have aligned := owned.aligned f (List.mem_cons_self ..)
  have pte := heap.pte _ f t List.getElem?_concat_length ht
  have nonzero : entry f ≠ 0 := by
    intro zero
    exact entry_present aligned (by rw [zero]; decide)
  simp only [getMapping, wp_bind]
  refine paging.load_pde h ?_
  rw [heap.pde _ t ht, entry_frame (inTables.aligned t ht'), if_neg (inTables.ne_zero ht'), wp_bind]
  refine paging.load_pte inTables ht' h ?_
  rw [pte, if_pos ⟨nonzero, trivial⟩, wp_bind]
  refine paging.load_pte inTables ht' h ?_
  rw [pte, entry_frame aligned, wp_pure]
  exact hQ

theorem unmap_spec (paging : KernelPaging im m) (heap : HeapTables im m.mem (pages ++ [f]) tables)
    (inTables : KernelFrames im tables) {va : Word}
    (h : va.toNat = 0xE0000000 + 4096 * pages.length) {Q : Unit → Machine → Prop}
    (hQ : ∀ mem, KernelPaging im (m.setMem mem) → HeapTables im mem pages tables →
      (∀ x : Word, (∀ t ∈ tables, x.toNat < t.toNat ∨ t.toNat + 4096 ≤ x.toNat) →
        mem x = m.mem x) → Q () (m.setMem mem)) :
    WP (unmap im.pgdKern va) E Q m := by
  obtain ⟨t, ht⟩ := heap.table_of_page (i := pages.length) (by simp)
  have ht' := List.mem_of_getElem? ht
  simp only [unmap, wp_bind]
  refine paging.load_pde h ?_
  rw [heap.pde _ t ht, entry_frame (inTables.aligned t ht'), if_neg (inTables.ne_zero ht')]
  refine paging.store_pte inTables ht' h fun mem hmem paging' => ?_
  refine hQ mem paging' ?_ fun x hx => ?_
  · rw [hmem]
    exact heap.dropPage inTables ht
  · have := hx t ht'
    have := inTables.below t ht'
    have e := inTables.slot_toNat ht' pages.length
    rw [hmem, writeWord_outside _ _ (by omega) (by omega)]

end Pages

/-! ## Ownership -/

/-- Every frame of the pool `F` is free, a page of the heap or one of its tables. -/
structure Owned (im : Image) (F : List Word) (m : Machine) (pages tables : List Word) : Prop where
  mapped : HeapMapped im m pages tables
  conserved : (frames m ++ pages ++ tables).Perm F

/-- `t` has the heap contents of `m` below `hi`. -/
structure HeapKept (m t : Machine) (hi : ℕ) : Prop where
  heapFirst : t.heapFirst = m.heapFirst
  view : ∀ va : Word, 0xE0000000 ≤ va.toNat → va.toNat < hi → view t va = view m va

theorem HeapKept.refl (m : Machine) (hi : ℕ) : HeapKept m m hi := ⟨rfl, fun _ _ _ => rfl⟩

theorem HeapKept.trans {m t u : Machine} {hi hi' : ℕ} (h : HeapKept m t hi) (h' : HeapKept t u hi')
    (le : hi ≤ hi') : HeapKept m u hi :=
  ⟨h'.heapFirst.trans h.heapFirst,
    fun va lo lt => (h'.view va lo (by omega)).trans (h.view va lo lt)⟩

theorem HeapKept.mono {m t : Machine} {hi hi' : ℕ} (h : HeapKept m t hi) (le : hi' ≤ hi) :
    HeapKept m t hi' :=
  ⟨h.heapFirst, fun va lo lt => h.view va lo (by omega)⟩

/-- The end of the last page of a range that ends at `n`. -/
def pageUp (n : ℕ) : ℕ := (n + 4095) / 4096 * 4096

section Loops

variable {E : Stop → Machine → Prop} {im : Image} {F pages tables : List Word} {m : Machine}

namespace Owned

theorem all (own : Owned im F m pages tables) (pool : KernelFrames im F) :
    KernelFrames im (frames m ++ pages ++ tables) :=
  pool.of_perm own.conserved

theorem heap (own : Owned im F m pages tables) (pool : KernelFrames im F) :
    KernelFrames im (pages ++ tables) := by
  have all := own.all pool
  rw [List.append_assoc] at all
  exact all.of_sublist (List.sublist_append_right _ _)

theorem heapMax_lt (own : Owned im F m pages tables) (pool : KernelFrames im F) :
    m.heapMax.toNat ≤ 0xFFF00000 := by
  have := (own.heap pool).length_le
  rw [List.length_append] at this
  have := own.mapped.heapMax
  omega

theorem setHeapFirst (own : Owned im F m pages tables) (v : Word) :
    Owned im F (m.setHeapFirst v) pages tables :=
  ⟨⟨own.mapped.paging.of_agree rfl rfl fun _ _ => rfl, own.mapped.tables, own.mapped.heapMax⟩,
    own.conserved⟩

/-- Readers of the heap do not notice when its pages keep their frames and these their bytes. -/
theorem kept {t : Machine} {pages' tables' : List Word} (own : Owned im F m pages tables)
    (own' : Owned im F t pages' tables') (pool : KernelFrames im F)
    (first : t.heapFirst = m.heapFirst) {ps : List Word} (left : ps <+: pages) (right : ps <+: pages')
    (bytes : ∀ g ∈ ps, ∀ x : Word, g.toNat ≤ x.toNat → x.toNat < g.toNat + 4096 →
      t.mem x = m.mem x) : HeapKept m t (0xE0000000 + 4096 * ps.length) := by
  refine ⟨first, fun va lo hi => ?_⟩
  have lt : (va.toNat - 0xE0000000) / 4096 < ps.length := by omega
  have at_index (qs : List Word) (h : ps <+: qs) : qs[(va.toNat - 0xE0000000) / 4096]? =
      some ps[(va.toNat - 0xE0000000) / 4096] := by
    obtain ⟨rest, rfl⟩ := h
    rw [List.getElem?_append_left lt, List.getElem?_eq_getElem lt]
  exact own.mapped.view_congr (own.heap pool) own'.mapped (own'.heap pool) lo
    (at_index _ left) (at_index _ right) (bytes _ (List.getElem_mem lt))

end Owned

/-- Mapping the frame `f`, which nobody owns, behind the heap. -/
theorem mapPage_spec (mapped : HeapMapped im m pages tables) {f : Word}
    (conserved : (frames m ++ f :: pages ++ tables).Perm F) (pool : KernelFrames im F)
    (oom : frames m = [] → ∀ t, E outOfMemory t) {Q : Unit → Machine → Prop}
    (hQ : ∀ t new, Owned im F t (pages ++ [f]) (tables ++ new) →
      (frames m).length ≤ (frames t).length + 1 →
      t.heapMax.toNat = m.heapMax.toNat + 4096 → t.heapFirst = m.heapFirst →
      (∀ g ∈ pages, ∀ x : Word, g.toNat ≤ x.toNat → x.toNat < g.toNat + 4096 →
        t.mem x = m.mem x) → Q () t) :
    WP (map im.pgdKern m.heapMax f (pagePresent ||| pageWrite)) E
      (fun _ t => Q () (t.setHeapMax (t.heapMax + pageSize))) m := by
  have bound := (pool.of_perm conserved).length_le
  have heapMax := mapped.heapMax
  simp only [List.length_append, List.length_cons] at bound
  refine map_spec mapped (pool.of_perm conserved) oom
    fun top mem new few taken paging heap bytes => ?_
  have next : (m.heapMax + pageSize).toNat = m.heapMax.toNat + 4096 :=
    toNat_offset (a := m.heapMax) (i := 4096) (by omega)
  refine hQ _ new ⟨⟨paging.of_agree rfl rfl fun _ _ => rfl, heap, ?_⟩, ?_⟩ ?_ next rfl bytes
  · rw [List.length_append, List.length_singleton]
    exact next.trans (by omega)
  · rw [taken, List.perm_iff_count] at conserved
    rw [List.perm_iff_count]
    intro a
    rw [← conserved a, ← List.singleton_append (x := f) (l := pages)]
    simp only [frames_setMem, frames_setHeapMax, List.count_append]
    omega
  · rw [taken, List.length_append]
    exact Nat.add_le_add_left few _

/-- One round of `alloc_chunk`, which takes at most two frames. -/
theorem growPage_spec (own : Owned im F m pages tables) (pool : KernelFrames im F)
    (oom : (frames m).length < 2 → ∀ t, E outOfMemory t) :
    WP (growPage im) E
      (fun _ t => ∃ f new, Owned im F t (pages ++ [f]) (tables ++ new) ∧
        (frames m).length ≤ (frames t).length + 2 ∧
        t.heapMax.toNat = m.heapMax.toNat + 4096 ∧ HeapKept m t m.heapMax.toNat) m := by
  simp only [growPage, wp_bind, wp_get, wp_modify]
  refine pmmAllocPage_spec (fun none => oom (by rw [none]; decide) _)
    fun f rest top split popped => ?_
  have conserved := own.conserved
  have taken := congrArg List.length split
  rw [List.length_append, List.length_singleton, ← popped] at taken
  rw [split] at conserved
  have mapped₁ : HeapMapped im (m.setFrames m.pmmStack top m.phyPageCount) pages tables :=
    ⟨own.mapped.paging.of_agree rfl rfl fun _ _ => rfl, own.mapped.tables, own.mapped.heapMax⟩
  refine mapPage_spec (Q := fun _ t => ∃ f new, Owned im F t (pages ++ [f]) (tables ++ new) ∧
    (frames m).length ≤ (frames t).length + 2 ∧
    t.heapMax.toNat = m.heapMax.toNat + 4096 ∧ HeapKept m t m.heapMax.toNat) mapped₁ ?_ pool
    (fun none => oom (by rw [taken, none]; decide)) fun t new own' few next first bytes => ?_
  · rw [popped, List.append_cons]
    exact conserved
  · have kept := own.kept own' pool first (List.prefix_refl pages) (List.prefix_append _ _) bytes
    rw [← own.mapped.heapMax] at kept
    exact ⟨f, new, own', by omega, next, kept⟩

/-- `alloc_chunk` maps the pages that the chunk still needs, or runs out of frames. -/
theorem allocChunk_spec (own : Owned im F m pages tables) (pool : KernelFrames im F)
    {start len : Word} (room : start.toNat + len.toNat < 2 ^ 32)
    (oom : (frames m).length + m.heapMax.toNat / 2048 <
      pageUp (start.toNat + len.toNat) / 2048 → ∀ t, E outOfMemory t) :
    WP (allocChunk im start len) E
      (fun _ t => ∃ more new, Owned im F t (pages ++ more) (tables ++ new) ∧
        t.heapMax.toNat = max m.heapMax.toNat (pageUp (start.toNat + len.toNat)) ∧
        HeapKept m t m.heapMax.toNat ∧
        (frames m).length + m.heapMax.toNat / 2048 ≤
          (frames t).length + t.heapMax.toNat / 2048) m := by
  have sum : (start + len).toNat = start.toNat + len.toNat := by bv_omega
  unfold pageUp at oom ⊢
  unfold allocChunk
  refine WP.whileM (fun _ t => (∃ more new, Owned im F t (pages ++ more) (tables ++ new)) ∧
      (frames m).length + m.heapMax.toNat / 2048 ≤ (frames t).length + t.heapMax.toNat / 2048 ∧
      m.heapMax.toNat ≤ t.heapMax.toNat ∧
      t.heapMax.toNat ≤ max m.heapMax.toNat ((start.toNat + len.toNat + 4095) / 4096 * 4096) ∧
      HeapKept m t m.heapMax.toNat)
    (fun _ t => start.toNat + len.toNat - t.heapMax.toNat) ?_ roundLimit
    ⟨⟨[], [], by simpa using own⟩, le_rfl, le_rfl, le_max_left _ _, HeapKept.refl _ _⟩
    (by unfold roundLimit; omega)
  rintro _ t ⟨⟨more, new, own'⟩, left, grown, limit, kept⟩
  have aligned := own'.mapped.heapMax
  rw [wp_bind, wp_get, wp_pure]
  by_cases short : start + len > t.heapMax
  · have short' : t.heapMax.toNat < start.toNat + len.toNat := by
      rw [← sum]
      exact short
    rw [if_pos (decide_eq_true short)]
    refine (growPage_spec own' pool fun few => oom ?_).mono ?_
    · omega
    rintro _ u ⟨f, more', own'', taken, next, kept'⟩
    rw [List.append_assoc, List.append_assoc] at own''
    refine ⟨⟨⟨_, _, own''⟩, by omega, by omega, ?_, kept.trans kept' grown⟩, by omega⟩
    rw [next]
    refine le_trans ?_ (le_max_right _ _)
    omega
  · have enough : start.toNat + len.toNat ≤ t.heapMax.toNat := by
      rw [← sum]
      exact not_lt.1 short
    rw [if_neg (by simpa using short)]
    exact ⟨more, new, own', le_antisymm limit (max_le grown (by omega)), kept, left⟩

/-- One round of the page loop of `free_chunk`: the last page goes back on the stack. -/
theorem shrinkPage_spec {f : Word} (own : Owned im F m (pages ++ [f]) tables)
    (pool : KernelFrames im F) {Q : Unit → Machine → Prop}
    (hQ : ∀ t, Owned im F t pages tables → frames t = frames m ++ [f] →
      HeapKept m t (0xE0000000 + 4096 * pages.length) → Q () t) :
    WP (shrinkPage im) E Q m := by
  have all := own.all pool
  have heapMax := own.mapped.heapMax
  have bound := own.heapMax_lt pool
  rw [List.length_append, List.length_singleton] at heapMax
  have last : (m.heapMax - pageSize).toNat = 0xE0000000 + 4096 * pages.length := by
    unfold pageSize
    bv_omega
  have inTables : KernelFrames im tables := all.of_sublist (List.sublist_append_right _ _)
  have paging₁ : KernelPaging im (m.setHeapMax (m.heapMax - pageSize)) :=
    own.mapped.paging.of_agree rfl rfl fun _ _ => rfl
  have owned : KernelFrames im (f :: tables) := by
    refine all.of_sublist ?_
    rw [← List.append_assoc, List.append_assoc, List.singleton_append]
    exact List.sublist_append_right _ _
  have few := all.length_le
  simp only [List.length_append, List.length_singleton] at few
  have limit : pageMaxSize.toNat = 131072 := by decide
  simp only [shrinkPage, wp_bind, wp_modify, wp_get]
  refine getMapping_spec paging₁ own.mapped.tables owned last ?_
  refine unmap_spec paging₁ own.mapped.tables inTables last fun mem paging₂ heap₂ bytes => ?_
  refine pmmFreePage_spec ?_ (fun full => ?_) fun _ stack top pushed => ?_
  · simp only [frames_setMem, frames_setHeapMax]
    omega
  · simp only [frames_setMem, frames_setHeapMax] at full
    omega
  simp only [frames_setMem, frames_setHeapMax] at pushed
  have own' : Owned im F (((m.setHeapMax (m.heapMax - pageSize)).setMem mem).setFrames stack top
      m.phyPageCount) pages tables := by
    refine ⟨⟨paging₂.of_agree rfl rfl fun _ _ => rfl, heap₂, last⟩, ?_⟩
    refine List.Perm.trans ?_ own.conserved
    rw [List.perm_iff_count]
    intro a
    have := congrArg (List.count a) pushed
    simp only [List.count_append] at this ⊢
    refine Eq.trans (congrArg (· + _ + _) this) ?_
    omega
  refine hQ _ own' pushed (own.kept own' pool rfl (List.prefix_append _ _)
    (List.prefix_refl pages) fun g hg x lo hi => ?_)
  refine bytes x fun t ht => ?_
  have hg' : g ∈ frames m ++ (pages ++ [f]) :=
    List.mem_append_right _ (List.mem_append_left _ hg)
  have ne : g ≠ t := by
    rintro rfl
    exact List.disjoint_of_nodup_append all.nodup hg' ht
  have := all.apart (List.mem_append_left _ hg') (List.mem_append_right _ ht) ne
  omega

/-- The page loop of `free_chunk` gives back the pages that begin behind the chunk's address. -/
theorem freePages_spec (own : Owned im F m pages tables) (pool : KernelFrames im F) {chunk : Word}
    (lo : 0xE0000000 ≤ chunk.toNat) (hi : chunk.toNat ≤ m.heapMax.toNat) :
    WP (freePages im chunk) E (fun _ t => ∃ kept released, pages = kept ++ released ∧
      Owned im F t kept tables ∧ frames t = frames m ++ released.reverse ∧
      t.heapMax.toNat = pageUp chunk.toNat ∧ HeapKept m t (pageUp chunk.toNat)) m := by
  have limit := own.heapMax_lt pool
  have aligned := own.mapped.heapMax
  unfold freePages
  refine WP.whileM (fun _ t => ∃ kept released, pages = kept ++ released ∧
      Owned im F t kept tables ∧ frames t = frames m ++ released.reverse ∧
      chunk.toNat ≤ t.heapMax.toNat ∧ t.heapMax.toNat ≤ m.heapMax.toNat ∧
      HeapKept m t t.heapMax.toNat)
    (fun _ t => t.heapMax.toNat - chunk.toNat) ?_ roundLimit
    ⟨pages, [], by simp, own, by simp, hi, le_rfl, HeapKept.refl _ _⟩
    (by unfold roundLimit; omega)
  rintro _ t ⟨kept, released, split, own', pushed, above, below, same⟩
  have heapMax := own'.mapped.heapMax
  have previous : (t.heapMax - pageSize).toNat = t.heapMax.toNat - 4096 := by
    unfold pageSize
    bv_omega
  rw [wp_bind, wp_get, wp_pure]
  by_cases more : t.heapMax - pageSize ≥ chunk
  · have more' : chunk.toNat ≤ t.heapMax.toNat - 4096 := by
      rw [← previous]
      exact more
    rw [if_pos (decide_eq_true more)]
    obtain ⟨kept', f, rfl⟩ : ∃ kept' f, kept = kept' ++ [f] := by
      rcases List.eq_nil_or_concat kept with rfl | ⟨kept', f, rfl⟩
      · rw [List.length_nil] at heapMax
        omega
      · exact ⟨kept', f, List.concat_eq_append ..⟩
    rw [List.length_append, List.length_singleton] at heapMax
    refine shrinkPage_spec own' pool fun u own'' pushed' same' => ?_
    have heapMax' := own''.mapped.heapMax
    refine ⟨⟨kept', f :: released, ?_, own'', ?_, by omega, by omega, ?_⟩, by omega⟩
    · rw [split, List.append_assoc, List.singleton_append]
    · rw [pushed', pushed, List.reverse_cons, List.append_assoc]
    · refine (same.mono ?_).trans (same'.mono heapMax'.le) le_rfl
      omega
  · have last : t.heapMax.toNat = pageUp chunk.toNat := by
      have : t.heapMax.toNat - 4096 < chunk.toNat := by
        rw [← previous]
        exact not_le.1 more
      unfold pageUp
      omega
    rw [if_neg (by simpa using more)]
    exact ⟨kept, released, split, own', pushed, last, last ▸ same⟩

end Loops

end SimpleKernel
