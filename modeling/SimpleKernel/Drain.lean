import SimpleKernel.Growth
import SimpleKernel.HeapSafety

/-!
# Draining the heap

`test_heap` allocates some blocks and frees them all.  Whatever the sizes and the order, the heap is
empty again afterwards, and blocks that are still in use do not change on the way.
-/

namespace SimpleKernel

open ByteStore ProgramLogic Tiling

/-- `kmalloc` for each length. -/
def kmallocAll (im : Image) : List Word → Kernel (List Word)
  | [] => return []
  | len :: lens => return (← kmalloc im len) :: (← kmallocAll im lens)

/-- `kfree` for each pointer. -/
def kfreeAll (im : Image) : List Word → Kernel Unit
  | [] => return ()
  | p :: ps => do
    kfree im p
    kfreeAll im ps

/-- The block `b` is on the list, has the length that was asked for, is in use, and is mapped. -/
structure BlockKept (m : Machine) (b : Live) : Prop where
  listed : OnList m (b.1 - sizeofHeader)
  length : Returns (headerLength (b.1 - sizeofHeader)) m (b.2 + sizeofHeader) m
  allocated : Returns (headerAllocated (b.1 - sizeofHeader)) m 1 m
  mapped : ∀ i < b.2.toNat + sizeofHeader.toNat,
    (translate m (b.1 - sizeofHeader + BitVec.ofNat 32 i)).isSome

/-- In `t` the heap of `u` is gone: its data pages are free again, and of the frames `F` only those
of page tables are not. -/
structure Drained (im : Image) (F : List Word) (u t : Machine) : Prop where
  heapFirst : t.heapFirst = 0
  heapMax : t.heapMax = heapStart
  unmapped : ∀ va : Word, heapStart.toNat ≤ va.toNat → translate t va = none
  returned : ∀ f va, HeapPage u f va → (frames t).count f = 1
  tables : ∀ f ∈ F, (frames t).count f = 1 ∨ ((frames t).count f = 0 ∧ ∃ i, TableSlot im t f i)
  sameTables : ∀ f ∈ F, ∀ i, TableSlot im t f i ↔ TableSlot im u f i

/-- The block at address `q.1` is exactly as long as the request `b`. -/
def ServesExactly (b : Live) (q : ℕ × ℕ) : Prop :=
  b.1.toNat = q.1 + 12 ∧ q.2 = b.2.toNat + 12

section Drain

variable {E : Stop → Machine → Prop} {which : Bool → Prop} {im : Image} {F pages tables : List Word}
  {m t : Machine} {l pre post : List Chunk} {c : Chunk} {live : List Live}

/-- Every chunk of the list is met by following the `next` links. -/
theorem HeapList.onList (heap : HeapList which im F m pages tables (pre ++ c :: post))
    (pool : KernelFrames im F) : OnList m (addr (after pre)) := by
  induction pre using List.reverseRecOn generalizing c post with
  | nil =>
    have first : m.heapFirst = addr (after []) := heap.first
    rw [← first]
    refine .first ?_
    rw [first]
    exact (heap.listed.spot pool).nonzero
  | append_singleton pre p ih =>
    have heap' := heap
    rw [List.append_assoc, List.singleton_append] at heap'
    have next : fieldOf m (addr (after pre)) .next = addr (after (pre ++ [p])) := by
      rw [after_concat]
      exact heap'.listed.header.next
    rw [← next]
    refine .next (ih heap') ?_
    rw [next]
    exact (heap.listed.spot pool).nonzero

theorem HeapList.blockKept (heap : HeapList which im F m pages tables (pre ++ c :: post))
    (pool : KernelFrames im F) {b : Live} (used : c.used = true)
    (serves : ServesExactly b (after pre, c.size)) : BlockKept m b := by
  obtain ⟨pointer, length⟩ := serves
  have spot := heap.listed.spot pool
  obtain ⟨-, bound⟩ := heap.listed.size_lt pool
  have fits := heap.listed.fits
  have header : sizeofHeader.toNat = 12 := rfl
  have at_c := addr_toNat (a := after pre) (by omega)
  have lo : 0xE0000000 ≤ after pre := Nat.le_add_right ..
  have place : b.1 - sizeofHeader = addr (after pre) := by
    rw [← addr_ofToNat b.1, pointer, addr_sub_header]
  have size : BitVec.ofNat 32 c.size = b.2 + sizeofHeader := by
    apply BitVec.eq_of_toNat_eq
    rw [toNat_small (by omega)]
    exact length.trans (toNat_offset (i := 12) (by omega)).symm
  rw [total_append, total_cons] at fits
  refine ⟨?_, ?_, ?_, fun i hi => ?_⟩
  · rw [place]
    exact heap.onList pool
  · rw [place, ← size]
    obtain ⟨_, _, run, rfl, rfl⟩ := (heap.listed.heads.headerLength (E := fun _ _ => False) pool
      spot.mem spot.header.info spot.size_lt
      (Q := fun r t => r = BitVec.ofNat 32 c.size ∧ t = m) ⟨rfl, rfl⟩).returns
    exact run
  · rw [place]
    obtain ⟨_, _, run, rfl, rfl⟩ := (heap.listed.heads.headerAllocated (E := fun _ _ => False) pool
      spot.mem spot.header.info spot.size_lt
      (Q := fun r t => r = BitVec.ofNat 32 c.used.toNat ∧ t = m) ⟨rfl, rfl⟩).returns
    rw [used] at run
    exact run
  · have e := toNat_offset (a := addr (after pre)) (i := i) (by omega)
    rw [place]
    refine heap.listed.own.isSome_translate pool (by omega) ?_
    rw [e, at_c]
    unfold after
    omega

/-- While nothing is freed, every block gets a new chunk; together they take as many frames as one
chunk of their size. -/
theorem HeapList.kmallocAll (lens : List Word) (heap : HeapList which im F m pages tables l)
    (pool : KernelFrames im F) (used : ∀ c ∈ l, c.used = true)
    (room : after l + (lens.map fun len => len.toNat + 12).sum < 2 ^ 32) {n : ℕ}
    (hn : n = pagesTo m (after l + (lens.map fun len => len.toNat + 12).sum)) :
    WP (kmallocAll im lens)
      (fun e _ => e = outOfMemory ∧ F.length < n + max tables.length (tablesFor n)) (fun ptrs t =>
      ptrs.length = lens.length ∧ ∃ pages' tables' l',
        HeapList which im F t pages' tables' (l ++ l') ∧ pages'.length = n ∧
        tables'.length = max tables.length (tablesFor n) ∧
        List.Forall₂ ServesExactly (ptrs.zip lens) (blocks (after l) l')) m := by
  induction lens generalizing m pages tables l with
  | nil =>
    have size : n = pages.length := by
      rw [hn, List.map_nil, List.sum_nil, Nat.add_zero, pagesTo, ← heap.reached, heapPages, max_self,
        ← heapPages, heap.listed.own.heapPages_eq]
    have most := heap.listed.own.tablesFor_le
    rw [size, max_eq_left most]
    exact ⟨rfl, pages, tables, [], by rwa [List.append_nil], rfl, rfl, .nil⟩
  | cons len lens ih =>
    rw [List.map_cons, List.sum_cons] at room hn
    have none : NoneFits (len.toNat + 12) l := fun c hc free => by
      rw [used c hc] at free
      exact absurd free (by decide)
    have sum : after (appended l (len.toNat + 12)) + (lens.map fun len => len.toNat + 12).sum =
        after l + (len.toNat + 12 + (lens.map fun len => len.toNat + 12).sum) := by
      rw [after_appended, Nat.add_assoc]
    have longer : pageUp (after l + (len.toNat + 12)) ≤
        pageUp (after l + (len.toNat + 12 + (lens.map fun len => len.toNat + 12).sum)) :=
      pageUp_mono (by omega)
    have part : (pageUp (after l + (len.toNat + 12)) - heapStart.toNat) / 4096 ≤
        (pageUp (after l + (len.toNat + 12 + (lens.map fun len => len.toNat + 12).sum)) -
          heapStart.toNat) / 4096 :=
      Nat.div_le_div_right (Nat.sub_le_sub_right longer _)
    have before : pagesTo m (after l + (len.toNat + 12)) ≤ n := by
      rw [hn]
      exact max_le_max_left _ part
    have most := tablesFor_mono before
    simp only [SimpleKernel.kmallocAll, wp_bind]
    refine (heap.kmalloc_exact pool none (by omega) rfl).weaken ?_ ?_
    · rintro e u ⟨rfl, few⟩
      exact ⟨rfl, by omega⟩
    rintro p t ⟨rfl, pages', tables', heap', count⟩
    have size := heap.heapPages_appended heap'
    have hn' : n = pagesTo t (after (appended l (len.toNat + 12)) +
        (lens.map fun len => len.toNat + 12).sum) := by
      rw [sum, pagesTo, size, pagesTo, max_assoc, max_eq_right part]
      exact hn
    refine (ih heap' (fun c hc => ?_) (by omega) hn').weaken ?_ ?_
    · rcases List.mem_append.1 hc with hc | hc
      · exact used c hc
      · rw [List.mem_singleton.1 hc]
    · rintro e u ⟨rfl, few⟩
      exact ⟨rfl, by omega⟩
    rintro ptrs u ⟨length, pages'', tables'', l', heap'', size', count', matching⟩
    rw [after_appended] at matching
    rw [appended, List.append_assoc] at heap''
    rw [wp_pure]
    refine ⟨by rw [List.length_cons, List.length_cons, length], pages'', tables'', _, heap'', size',
      by omega, ?_⟩
    refine .cons ⟨?_, rfl⟩ matching
    have fits := heap''.listed.fits
    have limit := heap''.listed.own.heapMax_lt pool
    rw [total_append, total_append, total_cons] at fits
    rw [addr_toNat (by unfold after; omega)]

/-- The blocks in use while the heap is drained; all `prev` links are right. -/
abbrev Draining (im : Image) (F : List Word) (m : Machine) (tables : List Word)
    (live : List Live) : Prop :=
  Served (fun _ => True) ServesExactly im F m tables live

theorem Draining.blockKept (draining : Draining im F m tables live) (pool : KernelFrames im F)
    {b : Live} (has : b ∈ live) : BlockKept m b := by
  obtain ⟨pages, l, bs, heap, perm, matching⟩ := draining
  obtain ⟨⟨a, n⟩, hq, serves⟩ := exists_partner matching has
  obtain ⟨pre, c, post, rfl, used, rfl, rfl⟩ := mem_blocks_iff.1 (perm.subset hq)
  exact heap.blockKept pool used serves

/-- Freeing some of the blocks in any order leaves the others. -/
theorem Draining.kfreeAll {order rest : List Live} (draining : Draining im F m tables live)
    (pool : KernelFrames im F) (perm : (order ++ rest).Perm live) :
    WP (kfreeAll im (order.map Prod.fst)) E
      (fun _ t => ∃ live', rest.Perm live' ∧ Draining im F t tables live') m := by
  induction order generalizing m live with
  | nil => exact ⟨live, perm, draining⟩
  | cons b order ih =>
    have has : b ∈ live := perm.subset (List.mem_cons_self ..)
    rw [List.map_cons, SimpleKernel.kfreeAll, wp_bind]
    refine (Served.kfree draining pool trivial (fun b q h => h.1) has
      fun pages pre c post heap _ _ => ?_).mono fun _ t draining' => ?_
    · exact (backs_append.1 heap.tidy.backs).2.1 trivial
    · refine ih draining' ?_
      exact (List.cons_perm_iff_perm_erase.1 perm).2

/-- What has become of the frames when the list is empty. -/
theorem HeapList.drained {u : Machine} {pages' : List Word}
    (heap : HeapList which im F t [] tables []) (own : Owned im F u pages' tables)
    (pool : KernelFrames im F) : Drained im F u t := by
  have own' := heap.listed.own
  have heapMax : t.heapMax.toNat = 0xE0000000 := heap.reached
  have nodup := (own'.all pool).nodup
  rw [List.append_nil] at nodup
  obtain ⟨nodupFree, -, apart⟩ := List.nodup_append'.1 nodup
  have inTables : KernelFrames im tables :=
    (own'.heap pool).of_sublist (List.sublist_append_right _ _)
  have owner (f : Word) (hf : f ∈ F) : f ∈ frames t ∨ f ∈ tables := by
    have mem := own'.conserved.symm.subset hf
    rwa [List.append_nil, List.mem_append] at mem
  refine ⟨heap.first, BitVec.eq_of_toNat_eq heapMax,
    fun va lo => own'.mapped.translate_behind inTables (heapMax.le.trans lo), fun f va page => ?_,
    fun f hf => ?_, fun f hf i => ?_⟩
  · obtain ⟨i, hit, -⟩ := (own.heapPage_iff pool).1 page
    have isPage : f ∈ pages' := List.mem_of_getElem? hit
    have inPool : f ∈ F := own.conserved.subset
      (List.mem_append_left _ (List.mem_append_right _ isPage))
    have notTable : f ∉ tables := fun isTable =>
      List.disjoint_of_nodup_append (own.heap pool).nodup isPage isTable
    exact List.count_eq_one_of_mem nodupFree ((owner f inPool).resolve_right notTable)
  · rcases owner f hf with free | isTable
    · exact .inl (List.count_eq_one_of_mem nodupFree free)
    · obtain ⟨i, hit⟩ := List.getElem?_of_mem isTable
      refine .inr ⟨List.count_eq_zero.2 fun free => apart free isTable, 896 + i, ?_⟩
      exact (own'.tableSlot_iff pool hf).2 ⟨by omega, by rwa [Nat.add_sub_cancel_left]⟩
  · rw [own'.tableSlot_iff pool hf, own.tableSlot_iff pool hf]

end Drain

/-- Whatever blocks are allocated on an empty heap, and in whatever order they are freed: the heap
is empty again at the end, its data pages are free, and on the way the blocks still in use are
unchanged.  Only `kmalloc` can stop, exactly if there are fewer frames than the pages and tables for
all the blocks. -/
theorem drained_of_kfreeAll (im : Image) (F : List Word) (m : Machine) (lens : List Word)
    (pool : KernelFrames im F) (empty : WellFormed im F m [])
    (small : heapStart.toNat + (lens.map fun len => len.toNat + sizeofHeader.toNat).sum < 2 ^ 32) :
    (framesNeeded im m (heapStart.toNat +
        (lens.map fun len => len.toNat + sizeofHeader.toNat).sum) ≤ (frames m).length →
      ∃ ptrs u, Returns (kmallocAll im lens) m ptrs u ∧ ptrs.length = lens.length ∧
        ∀ order : List Live, order.Perm (ptrs.zip lens) →
          (∃ t, Returns (kfreeAll im (order.map Prod.fst)) u () t ∧ Drained im F u t) ∧
          ∀ done rest, order = done ++ rest → ∃ w,
            Returns (kfreeAll im (done.map Prod.fst)) u () w ∧ ∀ b ∈ rest, BlockKept w b) ∧
    ((frames m).length < framesNeeded im m (heapStart.toNat +
        (lens.map fun len => len.toNat + sizeofHeader.toNat).sum) →
      ∃ u, Stops (kmallocAll im lens) m outOfMemory u) := by
  obtain ⟨pages, tables, heap⟩ := empty
  have needed := @Owned.framesNeeded_eq _ _ _ _ _ heap.listed.own pool
    (heapStart.toNat + (lens.map fun len => len.toNat + sizeofHeader.toNat).sum)
  have spec := heap.kmallocAll lens pool (by simp) small (n := pagesTo m (heapStart.toNat +
    (lens.map fun len => len.toNat + sizeofHeader.toNat).sum)) rfl
  rcases spec.outcome with
    ⟨ptrs, u, run, length, pages', tables', l, heap', size, count, matching⟩ | ⟨e, u, stop, rfl, few⟩
  · have balance := heap'.listed.own.balance
    rw [size, count] at balance
    refine ⟨fun _ => ⟨ptrs, u, run, length, fun order perm => ⟨?_, fun done rest split => ?_⟩⟩,
      fun few => absurd few ?_⟩
    · have draining : Draining im F u tables' (ptrs.zip lens) :=
        ⟨pages', _, _, heap', List.Perm.refl _, matching⟩
      have all : (order ++ []).Perm (ptrs.zip lens) := by rwa [List.append_nil]
      obtain ⟨⟨⟩, t, run', live, none, draining'⟩ :=
        (draining.kfreeAll (E := fun _ _ => False) pool all).returns
      rw [List.nil_perm] at none
      subst none
      exact ⟨t, run', (Served.empty draining').drained heap'.listed.own pool⟩
    · subst split
      have draining : Draining im F u tables' (ptrs.zip lens) :=
        ⟨pages', _, _, heap', List.Perm.refl _, matching⟩
      obtain ⟨⟨⟩, w, run', live, left, draining'⟩ :=
        (draining.kfreeAll (E := fun _ _ => False) pool perm).returns
      exact ⟨w, run', fun b hb => draining'.blockKept pool (left.subset hb)⟩
    · omega
  · exact ⟨fun enough => absurd enough (by omega), fun _ => ⟨u, stop⟩⟩

/-- The sizes of `test_heap`, freed in another order. -/
theorem drained_of_kfreeAll_128M : ∃ m v v₀ ptrs u t, Returns (initVmm smallImage) m () v ∧
    Returns initHeap v () v₀ ∧ Returns (kmallocAll smallImage [50, 500, 5000, 50000]) v₀ ptrs u ∧
    Returns (kfreeAll smallImage ptrs.reverse) u () t ∧ Drained smallImage (frames m) u t := by
  obtain ⟨m, v, v₀, temp, zeroed, empty, pool, boot, init, enough⟩ := booted_heap_128M
  have heap := heapList_of_initHeap smallImage temp zeroed empty boot init fun _ => True
  have own := heap.listed.own
  have free : (frames v₀).length = 32256 := by
    have balance := own.balance
    rw [List.length_nil] at balance
    omega
  have needed : framesNeeded smallImage v₀ (heapStart.toNat +
      ([50, 500, 5000, 50000].map fun len : Word => len.toNat + sizeofHeader.toNat).sum) = 15 := by
    have reach : pagesTo v₀ (heapStart.toNat +
        ([50, 500, 5000, 50000].map fun len : Word => len.toNat + sizeofHeader.toNat).sum) = 14 := by
      rw [pagesTo, own.heapPages_eq]
      decide
    rw [framesNeeded, reach, own.heapPages_eq, own.heapTables_eq pool]
    decide
  obtain ⟨ptrs, u, run, length, orders⟩ := (drained_of_kfreeAll smallImage (frames m) v₀
    [50, 500, 5000, 50000] pool ⟨_, _, heap⟩ (by decide)).1 (by omega)
  obtain ⟨⟨t, run', drained⟩, -⟩ := orders _ (List.reverse_perm _)
  rw [List.map_reverse, List.map_fst_zip length.le] at run'
  exact ⟨m, v, v₀, ptrs, u, t, boot, init, run, run', drained⟩

end SimpleKernel
