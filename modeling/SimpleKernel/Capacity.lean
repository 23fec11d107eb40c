import SimpleKernel.Growth
import SimpleKernel.UserMemory

/-!
# How much the heap can hold

A heap page costs a frame, and each table that the heap's pages need costs one more.  Pages go back
to the frame stack, tables never do.  So the free frames can be told exactly from the pages of the
heap and the most pages that it has ever had, and `kmalloc` succeeds exactly if they suffice.
-/

namespace SimpleKernel

open ByteStore ProgramLogic Tiling

/-! ## `kmalloc` -/

section Kmalloc

variable {which : Bool → Prop} {im : Image} {F pages tables : List Word} {m t : Machine}
  {l : List Chunk} {live : List Live}

/-- `kmalloc(len)` finds no free chunk with room, and with a new one the heap has `n` pages. -/
def Grows (m : Machine) (len : Word) (n : ℕ) : Prop :=
  ∃ prev start, Returns (findChunk (len + sizeofHeader)) m (0, prev) m ∧
    Returns (chunkStart prev) m start m ∧
    n = pagesTo m (start.toNat + (len.toNat + sizeofHeader.toNat))

theorem HeapList.grows_iff (heap : HeapList which im F m pages tables l) (pool : KernelFrames im F)
    {len : Word} (small : len.toNat + 12 < 2 ^ 32) {n : ℕ} : Grows m len n ↔
      NoneFits (len.toNat + 12) l ∧ n = pagesTo m (after l + (len.toNat + 12)) := by
  have header : sizeofHeader.toNat = 12 := rfl
  have place := heap.end_toNat pool
  have sum : (len + sizeofHeader).toNat = len.toNat + 12 := toNat_offset (i := 12) small
  have search := heap.findChunk_zero pool (len + sizeofHeader)
  have placed := heap.chunkStart_eq pool
  rw [sum] at search
  constructor
  · rintro ⟨prev, start, found, start', rfl⟩
    obtain ⟨-, -, missing⟩ := search.returned found
    obtain ⟨none, rfl⟩ := missing rfl
    obtain ⟨rfl, -⟩ := placed.returned start'
    rw [place, header]
    exact ⟨none, rfl⟩
  · rintro ⟨none, rfl⟩
    obtain ⟨r, t, found, same, missing, -⟩ := search.returns
    obtain ⟨start, u, start', value, same'⟩ := placed.returns
    rw [same, missing none] at found
    rw [same', value] at start'
    exact ⟨_, _, found, start', by rw [place, header]⟩

/-- The heap is safe and has at most `peak` pages, and its page tables are those for `peak` pages. -/
def Account (im : Image) (F : List Word) (m : Machine) (live : List Live) (peak : ℕ) : Prop :=
  ∃ tables, Served (· = false) Serves im F m tables live ∧ tables.length = tablesFor peak ∧
    heapPages m ≤ peak

/-- A block more. -/
theorem Served.added {pages' tables' : List Word} {l' : List Chunk} {bs : List (ℕ × ℕ)} {a n : ℕ}
    {len : Word} (heap : HeapList which im F t pages' tables' l') (pool : KernelFrames im F)
    (perm : bs.Perm (blocks 0xE0000000 l)) (matching : List.Forall₂ Serves live bs)
    (fits : len.toNat + 12 ≤ n)
    (added : (blocks 0xE0000000 l').Perm ((a, n) :: blocks 0xE0000000 l)) :
    Served which Serves im F t tables' ((addr (a + 12), len) :: live) := by
  have bounds := heap.block_bounds (added.symm.subset (List.mem_cons_self ..))
  have limit := heap.listed.own.heapMax_lt pool
  have place : (addr (a + 12)).toNat = a + 12 := addr_toNat (by omega)
  exact ⟨pages', l', (a, n) :: bs, heap, (perm.cons _).trans added.symm, .cons ⟨place, fits⟩ matching⟩

namespace Account

variable {peak : ℕ}

theorem balance (account : Account im F m live peak) :
    (frames m).length + heapPages m + tablesFor peak = F.length := by
  obtain ⟨tables, ⟨pages, l, bs, heap, -, -⟩, count, -⟩ := account
  rw [heap.listed.own.heapPages_eq, ← count]
  exact heap.listed.own.balance

theorem heapPages_le (account : Account im F m live peak) : heapPages m ≤ peak := by
  obtain ⟨-, -, -, most⟩ := account
  exact most

/-- Without blocks there are no pages. -/
theorem heapPages_eq_zero (account : Account im F m [] peak) : heapPages m = 0 := by
  obtain ⟨tables, served, -, -⟩ := account
  rw [heapPages, (Served.empty served).reached]
  rfl

/-- `kmalloc` stops exactly if the pool is too small for the pages that the heap would have and for
the tables of the largest heap so far. -/
theorem kmalloc (account : Account im F m live peak) (pool : KernelFrames im F) {len : Word}
    (noWrap : NoWrap m len) :
    WP (SimpleKernel.kmalloc im len)
      (fun e _ => e = outOfMemory ∧ ∃ n, Grows m len n ∧ F.length < n + tablesFor (max peak n))
      (fun p t => Account im F t ((p, len) :: live) (max peak (heapPages t)) ∧
        ∀ n, Grows m len n → heapPages t = n) m := by
  obtain ⟨tables, ⟨pages, l, bs, heap, perm, matching⟩, count, most⟩ := account
  obtain ⟨small, room⟩ := (heap.noWrap_iff pool).1 noWrap
  by_cases none : NoneFits (len.toNat + 12) l
  · have grows : Grows m len (pagesTo m (after l + (len.toNat + 12))) :=
      (heap.grows_iff pool small).2 ⟨none, rfl⟩
    have exact := heap.kmalloc_exact pool none (room none) rfl
    rw [count, ← tablesFor_max] at exact
    refine exact.weaken (fun e _ short => ⟨short.1, _, grows, short.2⟩) ?_
    rintro _ t ⟨rfl, pages', tables', heap', count'⟩
    have size := heap.heapPages_appended heap'
    have served := Served.added heap' pool perm matching le_rfl
      (blocks_appended ▸ List.perm_append_singleton _ _)
    refine ⟨⟨tables', served, by rw [count', size], le_max_right _ _⟩, fun n grows' => ?_⟩
    rw [((heap.grows_iff pool small).1 grows').2, size]
  · apply heap.listed.kmalloc pool heap.first small (fun h => absurd h none)
      (fun h => absurd h none)
    · rintro pre c post phys rfl hc fits - listed
      have heap' := heap.of_reused listed fits (heap.tidy.reused rfl (by decide) hc _)
      have size : heapPages (m.setMem phys) = heapPages m := rfl
      have served := Served.added heap' pool perm matching (split_size fits).1 (a := after pre) (by
        rw [blocks_reused fits, blocks_append, blocks_free hc]
        exact List.perm_middle)
      rw [size, max_eq_left most]
      refine ⟨⟨tables, served, count, most⟩, fun n grows => ?_⟩
      exact absurd ((heap.grows_iff pool small).1 grows).1 none
    · intro t more new h
      exact absurd h none

/-- `kfree` gives back pages, but no tables. -/
theorem kfree (account : Account im F m live peak) (pool : KernelFrames im F) {b : Live}
    (has : b ∈ live) (ok : PrevLinked m b.1) {E : Stop → Machine → Prop} :
    WP (SimpleKernel.kfree im b.1) E (fun _ t => Account im F t (live.erase b) peak) m := by
  obtain ⟨tables, served, count, most⟩ := account
  have spec := served.kfree (E := fun _ _ => False) pool rfl (fun b q h => h.1) has
    fun pages pre c post heap _ place => heap.back_of_prevLinked pool (place ▸ ok)
  obtain ⟨pages, l, bs, heap, perm, matching⟩ := served
  obtain ⟨q, hq, serves⟩ := exists_partner matching has
  obtain ⟨pre, c, post, rfl, -, place, -⟩ := mem_blocks_iff.1 (perm.subset hq)
  have pointer : b.1 = addr (after pre + 12) := by
    rw [← addr_ofToNat b.1, serves.1, place, after]
  have back := heap.back_of_prevLinked pool (pointer ▸ ok)
  have fewer := heap.kfree (E := fun _ _ => False) pre pool rfl back
  rw [← pointer] at fewer
  refine (spec.and fewer).weaken (fun _ _ h => h.1.elim) ?_
  rintro _ t ⟨served', kept, released, split, heap', -⟩
  refine ⟨tables, served', count, le_trans ?_ most⟩
  rw [heap'.listed.own.heapPages_eq, heap.listed.own.heapPages_eq, split, List.length_append]
  exact Nat.le_add_right _ _

/-- A user writes a byte of a block. -/
theorem store8 (account : Account im F m live peak) (pool : KernelFrames im F) {b : Live}
    (has : b ∈ live) {i : ℕ} (hi : i < b.2.toNat) (v : Byte) {E : Stop → Machine → Prop} :
    WP (SimpleKernel.store8 (b.1 + BitVec.ofNat 32 i) v) E (fun _ t => Account im F t live peak) m := by
  obtain ⟨tables, ⟨pages, l, bs, heap, perm, matching⟩, count, most⟩ := account
  obtain ⟨q, hq, serves⟩ := exists_partner matching has
  have bounds := heap.block_bounds (perm.subset hq)
  have limit := heap.listed.own.heapMax_lt pool
  have place := SafeState.byte_toNat serves hi (by omega)
  have fits := serves.2
  apply heap.store8 pool (perm.subset hq) (by omega) (by omega)
  intro phys heap' _
  exact ⟨tables, ⟨pages, l, bs, heap', perm, matching⟩, count, most⟩

end Account

end Kmalloc

/-! ## Runs -/

section Runs

variable {im : Image} {F : List Word} {s s' : Users} {peak : ℕ} {r r' : Users × ℕ}

/-- A step of the heap's users, with the most pages that the heap has had. -/
def PeakStep (im : Image) (r r' : Users × ℕ) : Prop :=
  UserStep im r.1 r'.1 ∧ r'.2 = max r.2 (heapPages r'.1.machine)

theorem Account.step (account : Account im F r.1.machine r.1.live r.2) (pool : KernelFrames im F)
    (step : PeakStep im r r') : Account im F r'.1.machine r'.1.live r'.2 := by
  obtain ⟨s, peak⟩ := r
  obtain ⟨s', peak'⟩ := r'
  obtain ⟨step, same⟩ := step
  dsimp only at account step same ⊢
  subst same
  cases step with
  | kmalloc noWrap run => exact ((account.kmalloc pool noWrap).returned run).1
  | kfree has ok run =>
    have account' := (account.kfree pool has ok (E := fun _ _ => True)).returned run
    rwa [max_eq_left account'.heapPages_le]
  | write has inside run =>
    have account' := (account.store8 pool has inside _ (E := fun _ _ => True)).returned run
    rwa [max_eq_left account'.heapPages_le]

theorem Account.run (account : Account im F r.1.machine r.1.live r.2) (pool : KernelFrames im F)
    (steps : Relation.ReflTransGen (PeakStep im) r r') :
    Account im F r'.1.machine r'.1.live r'.2 := by
  induction steps with
  | refl => exact account
  | tail _ step ih => exact ih.step pool step

end Runs

/-- In every run of the heap's users, the free frames, the pages of the heap and the tables for the
most pages that it has had make up the pool: apart from these tables no frame is lost, and all of
them are free when no block is in use.  `kmalloc` succeeds exactly if the pool holds the heap with
the new block, if one has to be appended, and the tables for it. -/
theorem capacity_of_run (im : Image) (m v v₀ : Machine) (s : Users) (peak : ℕ)
    (temp : TemporaryPaging m) (zeroed : ∀ a ∈ im.tablePages, m.mem a = 0)
    (empty : m.heapMax = heapStart) (pool : KernelFrames im (frames m))
    (boot : Returns (initVmm im) m () v) (init : Returns initHeap v () v₀)
    (steps : Relation.ReflTransGen (PeakStep im) (⟨v₀, [], fun _ => none⟩, 0) (s, peak)) :
    (frames s.machine).length + heapPages s.machine + tablesFor peak = (frames m).length ∧
    (s.live = [] → (frames s.machine).length + tablesFor peak = (frames m).length) ∧
    ∀ len, NoWrap s.machine len → ((∃ p t, Returns (kmalloc im len) s.machine p t) ↔
      ∀ n, Grows s.machine len n → n + tablesFor (max peak n) ≤ (frames m).length) := by
  have heap := heapList_of_initHeap im temp zeroed empty boot init (· = false)
  have account₀ : Account im (frames m) v₀ [] 0 := by
    refine ⟨[], ⟨[], [], [], heap, List.Perm.refl _, .nil⟩, rfl, le_of_eq ?_⟩
    rw [heap.listed.own.heapPages_eq]
    rfl
  have account : Account im (frames m) s.machine s.live peak := account₀.run pool steps
  refine ⟨account.balance, fun none => ?_, fun len noWrap => ?_⟩
  · have balance := account.balance
    rw [none] at account
    rwa [account.heapPages_eq_zero, Nat.add_zero] at balance
  · have spec := account.kmalloc pool noWrap
    constructor
    · rintro ⟨p, t, run⟩ n grows
      obtain ⟨account', size⟩ := spec.returned run
      have balance := account'.balance
      rw [size n grows] at balance
      omega
    · intro enough
      rcases spec.outcome with ⟨p, t, run, -⟩ | ⟨e, t, -, -, n, grows, short⟩
      · exact ⟨p, t, run⟩
      · exact absurd (enough n grows) (Nat.not_le.2 short)

/-- A small block costs a page and a table. -/
theorem capacity_of_run_128M : ∃ m v v₀ t, Returns (initVmm smallImage) m () v ∧
    Returns initHeap v () v₀ ∧ Returns (kmalloc smallImage 100) v₀ 0xE000000C t ∧
    (frames m).length = 32256 ∧ (frames t).length = 32254 := by
  obtain ⟨m, v, v₀, temp, zeroed, empty, pool, boot, init, enough⟩ := booted_heap_128M
  have heap := heapList_of_initHeap smallImage temp zeroed empty boot init (· = false)
  have all : (frames m).length = 32256 := by
    have balance := heap.listed.own.balance
    simp only [List.length_nil, Nat.add_zero] at balance
    rw [← balance, enough]
  obtain ⟨t, u, pages, tables, run, small, -, -, -⟩ := two_chunks heap pool enough
  have fits : NoneFits ((100 : Word).toNat + 12) [] := by simp [NoneFits]
  obtain ⟨-, pages', tables', heap', -⟩ := (heap.kmalloc_exact pool fits (by decide) rfl).returned run
  have one : heapPages t = 1 := by
    rw [heapPages, heap'.reached, after_appended]
    decide
  have steps : Relation.ReflTransGen (PeakStep smallImage) (⟨v₀, [], fun _ => none⟩, 0)
      (⟨t, [(0xE000000C, 100)], forget (fun _ => none) 0xE000000C 100⟩, max 0 (heapPages t)) :=
    .single ⟨.kmalloc small run, rfl⟩
  have account := (capacity_of_run smallImage m v v₀ _ _ temp zeroed empty pool boot init steps).1
  have tables : tablesFor (max 0 (heapPages t)) = 1 := by
    rw [one]
    rfl
  refine ⟨m, v, v₀, t, boot, init, run, all, ?_⟩
  dsimp only at account
  omega

end SimpleKernel
