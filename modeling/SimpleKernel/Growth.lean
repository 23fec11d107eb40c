import SimpleKernel.Lib.Refinement
import SimpleKernel.WellFormed

/-!
# What growing the heap costs

A page of the heap costs a frame, and one more if the page tables that are there do not reach it.
So the frames that `alloc_chunk` takes can be read off the directory and the end of the heap, and
`kmalloc` with no free chunk that has room stops exactly if the frame stack holds fewer.
-/

namespace SimpleKernel

open ByteStore ProgramLogic Tiling

/-- The page tables that `n` pages of the heap need. -/
def tablesFor (n : ℕ) : ℕ := (n + 1023) / 1024

/-- The pages of the heap. -/
def heapPages (m : Machine) : ℕ := (m.heapMax.toNat - heapStart.toNat) / 4096

/-- The page tables of the heap, of whose 128 entries in the directory the others are zero. -/
def heapTables (im : Image) (m : Machine) : ℕ :=
  ((List.range 128).filter fun j =>
    readWord m.mem (im.pgdPhys + BitVec.ofNat 32 (4 * (896 + j))) ≠ 0).length

/-- The pages of a heap that ends at `hi` or, if it ends further up, of the heap as it is. -/
def pagesTo (m : Machine) (hi : ℕ) : ℕ := max (heapPages m) ((pageUp hi - heapStart.toNat) / 4096)

/-- The frames that the heap takes to reach `hi`: one for each missing page, and one for each missing
table. -/
def framesNeeded (im : Image) (m : Machine) (hi : ℕ) : ℕ :=
  (pagesTo m hi - heapPages m) + (tablesFor (pagesTo m hi) - heapTables im m)

theorem tablesFor_mono {n k : ℕ} (h : n ≤ k) : tablesFor n ≤ tablesFor k := by
  unfold tablesFor
  omega

theorem tablesFor_max (n k : ℕ) : tablesFor (max n k) = max (tablesFor n) (tablesFor k) := by
  rcases le_total n k with h | h
  · rw [max_eq_right h, max_eq_right (tablesFor_mono h)]
  · rw [max_eq_left h, max_eq_left (tablesFor_mono h)]

section Pages

variable {E : Stop → Machine → Prop} {im : Image} {F pages tables : List Word} {m : Machine} {f : Word}

/-- Every frame of the pool is counted once. -/
theorem Owned.balance (own : Owned im F m pages tables) :
    (frames m).length + pages.length + tables.length = F.length := by
  have conserved := own.conserved.length_eq
  simpa only [List.length_append] using conserved

theorem Owned.heapPages_eq (own : Owned im F m pages tables) : heapPages m = pages.length := by
  have start : heapStart.toNat = 0xE0000000 := rfl
  rw [heapPages, own.mapped.heapMax, start]
  omega

/-- The entries of the tables in use come first. -/
theorem Owned.heapTables_eq (own : Owned im F m pages tables) (pool : KernelFrames im F) :
    heapTables im m = tables.length := by
  have slots := own.mapped.tables.slots
  have inTables : KernelFrames im tables :=
    (own.all pool).of_sublist (List.sublist_append_right _ _)
  obtain ⟨k, split⟩ := Nat.exists_eq_add_of_le slots
  rw [heapTables, split, List.range_add, List.filter_append, List.filter_eq_self.2,
    List.filter_eq_nil_iff.2, List.append_nil, List.length_range]
  · intro j hj
    obtain ⟨i, hi, rfl⟩ := List.mem_map.1 hj
    have free := own.mapped.tables.pdeFree (tables.length + i) (Nat.le_add_right _ _)
      (by rw [List.mem_range] at hi; omega)
    simpa using free
  · intro j hj
    have hj' := List.mem_range.1 hj
    have used := own.mapped.tables.pde j _ (List.getElem?_eq_getElem hj')
    have mem : tables[j] ∈ tables := List.getElem_mem hj'
    rw [used]
    refine decide_eq_true fun zero => inTables.ne_zero mem ?_
    rw [← entry_frame (inTables.aligned _ mem), zero]
    rfl

/-- The frames that are needed, by the lists of pages and tables. -/
theorem Owned.framesNeeded_eq (own : Owned im F m pages tables) (pool : KernelFrames im F) {hi : ℕ} :
    (frames m).length + (pagesTo m hi + max tables.length (tablesFor (pagesTo m hi))) =
      F.length + framesNeeded im m hi := by
  have balance := own.balance
  have more : pages.length ≤ pagesTo m hi := own.heapPages_eq ▸ le_max_left _ _
  rw [framesNeeded, own.heapPages_eq, own.heapTables_eq pool]
  omega

theorem Owned.tablesFor_le (own : Owned im F m pages tables) :
    tablesFor pages.length ≤ tables.length := by
  have covered := own.mapped.tables.covered
  unfold tablesFor
  omega

/-- `map` takes no frame when the heap's next page has a table. -/
theorem map_slot (heap : HeapMapped im m pages tables) (inTables : KernelFrames im tables)
    (room : pages.length < 1024 * tables.length) (flags : Word) :
    WP (map im.pgdKern m.heapMax f flags) E (fun _ t => frames t = frames m) m := by
  have inside : pages.length / 1024 < tables.length := by omega
  have ht := List.getElem?_eq_getElem inside
  have mem := List.mem_of_getElem? ht
  simp only [map, wp_bind]
  apply heap.paging.load_pde heap.heapMax
  rw [heap.tables.pde _ _ ht, entry_frame (inTables.aligned _ mem), if_neg (inTables.ne_zero mem),
    wp_bind, wp_pure]
  apply heap.paging.store_pte inTables mem heap.heapMax
  intro phys _ _
  rfl

/-- Such a page costs one frame. -/
theorem growPage_slot (own : Owned im F m pages tables) (pool : KernelFrames im F)
    (room : pages.length < 1024 * tables.length) :
    WP (growPage im) (fun _ _ => frames m = [])
      (fun _ t => (frames t).length + 1 = (frames m).length) m := by
  have inTables : KernelFrames im tables := (own.all pool).of_sublist (List.sublist_append_right _ _)
  simp only [growPage, wp_bind, wp_get, wp_modify]
  apply pmmAllocPage_spec fun none => none
  intro f rest top split popped
  have mapped : HeapMapped im (m.setFrames m.pmmStack top m.phyPageCount) pages tables :=
    ⟨own.mapped.paging.of_agree rfl rfl fun _ _ => rfl, own.mapped.tables, own.mapped.heapMax⟩
  refine (map_slot mapped inTables room _).mono fun _ t same => ?_
  have taken := congrArg List.length split
  rw [List.length_append, List.length_singleton] at taken
  rw [frames_setHeapMax, same, popped, taken]

/-- One round of `alloc_chunk`: the heap has a page more, and as many tables as it then needs, or as
before.  It stops only if there are not enough frames for both. -/
theorem growPage_exact (own : Owned im F m pages tables) (pool : KernelFrames im F) :
    WP (growPage im) (fun e _ => e = outOfMemory ∧
        F.length < pages.length + 1 + max tables.length (tablesFor (pages.length + 1)))
      (fun _ t => ∃ f new, Owned im F t (pages ++ [f]) (tables ++ new) ∧
        (tables ++ new).length = max tables.length (tablesFor (pages.length + 1)) ∧
        HeapKept m t m.heapMax.toNat) m := by
  have balance := own.balance
  have covered := own.mapped.tables.covered
  have grown := growPage_spec (E := fun e _ => e = outOfMemory) own pool fun _ _ => rfl
  by_cases room : pages.length < 1024 * tables.length
  · have enough : max tables.length (tablesFor (pages.length + 1)) = tables.length := by
      apply max_eq_left
      unfold tablesFor
      omega
    rw [enough]
    refine (grown.and (growPage_slot own pool room)).weaken ?_ ?_
    · rintro e t ⟨oom, none⟩
      rw [none, List.length_nil] at balance
      exact ⟨oom, by omega⟩
    · rintro _ t ⟨⟨f, new, own', -, -, kept⟩, one⟩
      have balance' := own'.balance
      simp only [List.length_append, List.length_singleton] at balance'
      exact ⟨f, new, own', by rw [List.length_append]; omega, kept⟩
  · have next : max tables.length (tablesFor (pages.length + 1)) = tables.length + 1 := by
      unfold tablesFor
      omega
    rw [next]
    have few := growPage_spec (E := fun _ _ => (frames m).length < 2) own pool fun short _ => short
    refine (grown.and few).weaken ?_ ?_
    · rintro e t ⟨oom, short⟩
      exact ⟨oom, by omega⟩
    · rintro _ t ⟨⟨f, new, own', least, -, kept⟩, -⟩
      have balance' := own'.balance
      have covered' := own'.mapped.tables.covered
      simp only [List.length_append, List.length_singleton] at balance' covered'
      exact ⟨f, new, own', by rw [List.length_append]; omega, kept⟩

/-- `alloc_chunk` stops exactly if the pages up to the end of the chunk, and the tables for them, are
more than the pool. -/
theorem allocChunk_exact (own : Owned im F m pages tables) (pool : KernelFrames im F)
    {start len : Word} (room : start.toNat + len.toNat < 2 ^ 32)
    {n : ℕ} (hn : n = pagesTo m (start.toNat + len.toNat)) :
    WP (allocChunk im start len) (fun e _ => e = outOfMemory ∧
        F.length < n + max tables.length (tablesFor n))
      (fun _ t => ∃ more new, Owned im F t (pages ++ more) (tables ++ new) ∧
        (tables ++ new).length = max tables.length (tablesFor n) ∧
        t.heapMax.toNat = max m.heapMax.toNat (pageUp (start.toNat + len.toNat)) ∧
        HeapKept m t m.heapMax.toNat) m := by
  have sum : (start + len).toNat = start.toNat + len.toNat := by bv_omega
  have heapStart_toNat : heapStart.toNat = 0xE0000000 := rfl
  have first := own.mapped.heapMax
  rw [pagesTo, own.heapPages_eq, heapStart_toNat] at hn
  unfold pageUp at hn ⊢
  unfold allocChunk
  -- The tables are those for the pages mapped so far, and no page lies behind the end of the chunk.
  apply WP.whileM (fun _ t => ∃ more new, Owned im F t (pages ++ more) (tables ++ new) ∧
      (tables ++ new).length = max tables.length (tablesFor (pages ++ more).length) ∧
      (pages ++ more).length ≤ n ∧ HeapKept m t m.heapMax.toNat)
    (fun _ t => start.toNat + len.toNat - t.heapMax.toNat)
  · rintro _ t ⟨more, new, own', count, limit, kept⟩
    have place := own'.mapped.heapMax
    have longer : (pages ++ more).length = pages.length + more.length := List.length_append
    rw [wp_bind, wp_get, wp_pure]
    by_cases short : start + len > t.heapMax
    · have short' : t.heapMax.toNat < start.toNat + len.toNat := by
        rw [← sum]
        exact short
      have below : (pages ++ more).length + 1 ≤ n := by omega
      have fewer := tablesFor_mono below
      have before := tablesFor_mono (Nat.le_add_right (pages ++ more).length 1)
      rw [if_pos (decide_eq_true short)]
      refine (growPage_exact own' pool).weaken ?_ ?_
      · rintro e u ⟨oom, few⟩
        exact ⟨oom, by omega⟩
      · rintro _ u ⟨f, new', own'', count', kept'⟩
        have next := own''.mapped.heapMax
        rw [List.length_append, List.length_singleton] at next
        have longer' : (pages ++ (more ++ [f])).length = (pages ++ more).length + 1 := by
          rw [← List.append_assoc, List.length_append, List.length_singleton]
        have tables' : (tables ++ (new ++ new')).length = max tables.length
            (tablesFor (pages ++ (more ++ [f])).length) := by
          rw [← List.append_assoc, count', count, longer']
          omega
        rw [List.append_assoc, List.append_assoc] at own''
        refine ⟨⟨more ++ [f], new ++ new', own'', tables', ?_, kept.trans kept' ?_⟩, ?_⟩ <;> omega
    · have enough : start.toNat + len.toNat ≤ t.heapMax.toNat := by
        rw [← sum]
        exact not_lt.1 short
      rw [if_neg (by simpa using short)]
      have whole : (pages ++ more).length = n := by omega
      rw [whole] at count
      exact ⟨more, new, own', count, by omega, kept⟩
  · refine ⟨[], [], by simpa using own, ?_, ?_, HeapKept.refl _ _⟩
    · simpa using own.tablesFor_le
    · rw [List.append_nil]
      omega
  · unfold roundLimit
    omega

end Pages

/-! ## A chunk more -/

section Kmalloc

variable {which : Bool → Prop} {im : Image} {F pages tables : List Word} {m t : Machine}
  {l : List Chunk}

theorem Listed.appendChunk_exact (listed : Listed im F m pages tables l) (pool : KernelFrames im F)
    {len : Word} (lo : 12 ≤ len.toNat) (room : after l + len.toNat < 2 ^ 32)
    {n : ℕ} (hn : n = pagesTo m (after l + len.toNat)) :
    WP (SimpleKernel.appendChunk im (addr (after l)) (lastWord 0 0xE0000000 l) len)
      (fun e _ => e = outOfMemory ∧ F.length < n + max tables.length (tablesFor n))
      (fun _ t => ∃ more new,
        Listed im F t (pages ++ more) (tables ++ new) (appended l len.toNat) ∧
        (tables ++ new).length = max tables.length (tablesFor n) ∧ t.heapFirst = m.heapFirst ∧
        t.heapMax.toNat = max m.heapMax.toNat (pageUp (after l + len.toNat))) m := by
  have e := addr_toNat (a := after l) (by omega)
  have fits := listed.fits
  have up : after l + len.toNat ≤ pageUp (after l + len.toNat) := by
    unfold pageUp
    omega
  unfold SimpleKernel.appendChunk
  apply WP.bind (allocChunk_exact listed.own pool (by rwa [e]) (by rwa [e]))
  rintro _ t ⟨more, new, own, count, reached, kept⟩
  rw [e] at reached
  have listed' := listed.of_kept own pool kept listed.fits (by omega)
  apply listed'.linkChunk pool lo (by omega)
  intro phys listed''
  exact ⟨more, new, listed'', count, kept.heapFirst, reached⟩

/-- `kmalloc` with no free chunk that has room. -/
theorem HeapList.kmalloc_exact (heap : HeapList which im F m pages tables l)
    (pool : KernelFrames im F) {len : Word} (none : NoneFits (len.toNat + 12) l)
    (room : after l + (len.toNat + 12) < 2 ^ 32)
    {n : ℕ} (hn : n = pagesTo m (after l + (len.toNat + 12))) :
    WP (SimpleKernel.kmalloc im len)
      (fun e _ => e = outOfMemory ∧ F.length < n + max tables.length (tablesFor n))
      (fun p t => p = addr (after l + 12) ∧ ∃ pages' tables',
        HeapList which im F t pages' tables' (appended l (len.toNat + 12)) ∧
        tables'.length = max tables.length (tablesFor n)) m := by
  have sum : (len + sizeofHeader).toNat = len.toNat + 12 := toNat_offset (i := 12) (by omega)
  have listed := heap.listed
  simp only [SimpleKernel.kmalloc, wp_bind]
  rw [← sum] at none room hn
  apply listed.findChunk pool heap.first
  · rintro pre c post rfl free fits -
    exact absurd fits (Nat.not_le.2 (none c (by simp) free))
  intro _
  dsimp only
  rw [if_neg (not_not.2 rfl), wp_bind]
  apply listed.chunkStart pool
  have finish (m' : Machine) (first : m'.heapFirst = addr 0xE0000000) (same : m'.heapMax = m.heapMax)
      (listed : Listed im F m' pages tables l) :
      WP (appendChunk im (addr (after l)) (lastWord 0 0xE0000000 l) (len + sizeofHeader))
        (fun e _ => e = outOfMemory ∧ F.length < n + max tables.length (tablesFor n))
        (fun _ t => addr (after l) + sizeofHeader = addr (after l + 12) ∧ ∃ pages' tables',
          HeapList which im F t pages' tables' (appended l (len.toNat + 12)) ∧
          tables'.length = max tables.length (tablesFor n)) m' := by
    have hn' : n = pagesTo m' (after l + (len + sizeofHeader).toNat) := by
      rw [hn, pagesTo, pagesTo, heapPages, heapPages, same]
    refine (listed.appendChunk_exact pool (by omega) room hn').mono ?_
    rintro _ t ⟨more, new, listed', count, first', reached⟩
    rw [sum] at listed' reached
    rw [same] at reached
    exact ⟨(addr_add (after l) 12).symm, _, _,
      heap.of_appended listed' (first'.trans first) reached, count⟩
  rcases List.eq_nil_or_concat' l with rfl | ⟨pre, p, rfl⟩
  · rw [lastWord_nil, if_pos rfl]
    simp only [wp_bind, wp_modify]
    exact finish (m.setHeapFirst (addr (after []))) rfl rfl (listed.setHeapFirst _)
  · have at_p := listed.spot pool
    have first : m.heapFirst = addr 0xE0000000 := by
      rw [heap.first]
      cases pre <;> rfl
    rw [lastWord_after, if_neg at_p.nonzero, ← lastWord_after pre p, wp_bind]
    exact finish m first rfl listed

/-- The pages of the heap with one more chunk. -/
theorem HeapList.heapPages_appended {t : Machine} {pages' tables' : List Word} {n : ℕ}
    (heap : HeapList which im F m pages tables l)
    (heap' : HeapList which im F t pages' tables' (appended l n)) :
    heapPages t = pagesTo m (after l + n) := by
  have longer := pageUp_mono (Nat.le_add_right (after l) n)
  rw [pagesTo, heapPages, heapPages, heap.reached, heap'.reached, after_appended]
  exact (max_eq_right (Nat.div_le_div_right (Nat.sub_le_sub_right longer _))).symm

end Kmalloc

end SimpleKernel
