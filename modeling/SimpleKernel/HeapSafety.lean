import SimpleKernel.FrameOwnership
import SimpleKernel.WellFormed

/-!
# Heap safety

Runs of `kmalloc` and `kfree` in any order.  A run is safe as long as every freed block's `prev`
link is right; `split_chunk` can leave a wrong one behind, and then a live block can be lost.
-/

namespace SimpleKernel

open ByteStore ProgramLogic Tiling

/-! ## Runs -/

/-- A block in use: the pointer that `kmalloc` returned and the length it was asked for. -/
abbrev Live : Type := Word × Word

/-- Neither `len + sizeof(header_t)` nor `start + len` wraps in `kmalloc(len)`. -/
def NoWrap (m : Machine) (len : Word) : Prop :=
  len.toNat + sizeofHeader.toNat < 2 ^ 32 ∧ ∀ prev start t u,
    Returns (findChunk (len + sizeofHeader)) m (0, prev) t → Returns (chunkStart prev) t start u →
      start.toNat + (len.toNat + sizeofHeader.toNat) < 2 ^ 32

/-- One call of the heap's users, who free only what they have; `Ok` is a condition on `kfree`. -/
inductive HeapStep (im : Image) (Ok : Machine → Word → Prop) :
    Machine × List Live → Machine × List Live → Prop where
  | kmalloc {m t : Machine} {live : List Live} {len p : Word} (noWrap : NoWrap m len)
      (run : Returns (kmalloc im len) m p t) : HeapStep im Ok (m, live) (t, (p, len) :: live)
  | kfree {m t : Machine} {live : List Live} {b : Live} (has : b ∈ live) (ok : Ok m b.1)
      (run : Returns (kfree im b.1) m () t) : HeapStep im Ok (m, live) (t, live.erase b)

/-- The blocks in use, with their headers, do not overlap and lie in the mapped heap. -/
structure HeapSafe (m : Machine) (live : List Live) : Prop where
  inside : ∀ b ∈ live, heapStart.toNat + sizeofHeader.toNat ≤ b.1.toNat ∧
    b.1.toNat + b.2.toNat ≤ m.heapMax.toNat
  apart : live.Pairwise fun b c => b.1.toNat + b.2.toNat ≤ c.1.toNat - sizeofHeader.toNat ∨
    c.1.toNat + c.2.toNat ≤ b.1.toNat - sizeofHeader.toNat
  mapped : ∀ va : Word, heapStart.toNat ≤ va.toNat → va.toNat < m.heapMax.toNat →
    (translate m va).isSome

/-! ## The condition -/

/-- A field of the header at `chunk`. -/
def fieldOf (m : Machine) (chunk : Word) (f : HeaderField) : Word :=
  readWord (view m) (chunk + f.offset)

/-- The chunks that one meets by following `next` from `heap_first`. -/
inductive OnList (m : Machine) : Word → Prop where
  | first (nonzero : m.heapFirst ≠ 0) : OnList m m.heapFirst
  | next {c : Word} (on : OnList m c) (nonzero : fieldOf m c .next ≠ 0) :
      OnList m (fieldOf m c .next)

/-- The `prev` link of the block at `p` is right: it is 0 for the first chunk of the list, and the
chunk on the list whose `next` is the block's header for any other. -/
def PrevLinked (m : Machine) (p : Word) : Prop :=
  (fieldOf m (p - sizeofHeader) .prev = 0 ∧ m.heapFirst = p - sizeofHeader) ∨
    (OnList m (fieldOf m (p - sizeofHeader) .prev) ∧
      fieldOf m (fieldOf m (p - sizeofHeader) .prev) .next = p - sizeofHeader)

section Condition

variable {which : Bool → Prop} {im : Image} {F pages tables : List Word} {m : Machine}
  {l pre post : List Chunk} {c : Chunk} {x : Word}

/-- Following the `next` links meets the chunks of the list only. -/
theorem HeapList.of_onList (heap : HeapList which im F m pages tables l)
    (on : OnList m x) :
    ∃ pre c post, l = pre ++ c :: post ∧ x = addr (after pre) := by
  induction on with
  | first nonzero =>
    cases l with
    | nil => exact absurd heap.first nonzero
    | cons c post => exact ⟨[], c, post, rfl, heap.first⟩
  | next on nonzero ih =>
    obtain ⟨pre, c, post, rfl, rfl⟩ := ih
    have next : fieldOf m (addr (after pre)) .next = nextWord 0 (after pre + c.size) post :=
      heap.listed.header.next
    rw [next] at nonzero ⊢
    cases post with
    | nil => exact absurd rfl nonzero
    | cons d post => exact ⟨pre ++ [c], d, post, List.append_cons .., by rw [after_concat]; rfl⟩

/-- A link that passes the test is the right one. -/
theorem HeapList.back_of_prevLinked
    (heap : HeapList which im F m pages tables (pre ++ c :: post)) (pool : KernelFrames im F)
    (ok : PrevLinked m (addr (after pre + 12))) : c.back = lastWord 0 0xE0000000 pre := by
  have place := addr_sub_header (after pre)
  have prev : fieldOf m (addr (after pre)) .prev = c.back := heap.listed.header.prev
  obtain ⟨-, bound⟩ := heap.listed.size_lt pool
  have pos (d : Chunk) (hd : d ∈ pre ++ c :: post) : 0 < d.size :=
    Nat.lt_of_lt_of_le (by decide) (heap.listed.sizes d hd)
  rw [PrevLinked, place, prev] at ok
  rcases ok with ⟨back, first⟩ | ⟨on, next⟩
  · have same : addr (after pre) = addr 0xE0000000 := by
      rw [← first, heap.first]
      cases pre <;> rfl
    have empty := addr_inj (by omega) (by omega) same
    have none : pre = [] := total_eq_zero (fun d hd => pos d (List.mem_append_left _ hd)) (by
      unfold after at empty
      omega)
    rw [back, none, lastWord_nil]
  · obtain ⟨q, d, r, split, at_d⟩ := heap.of_onList on
    have heap' := heap.listed
    rw [split] at heap'
    have next' : fieldOf m (addr (after q)) .next = nextWord 0 (after q + d.size) r :=
      heap'.header.next
    rw [at_d, next'] at next
    cases r with
    | nil => exact absurd next.symm (heap.listed.spot pool).nonzero
    | cons e r =>
      obtain ⟨-, bound'⟩ := heap'.size_lt pool
      have same := addr_inj (by omega) (by omega) next
      rw [← after_concat] at same
      have whole : pre ++ c :: post = q ++ [d] ++ e :: r := by rw [split, ← List.append_cons]
      have unique := split_unique pos whole (by
        unfold after at same
        omega)
      rw [at_d, unique, lastWord_after]

end Condition

/-! ## The invariant -/

section Matching

variable {α β : Type} {R : α → β → Prop} {S : β → β → Prop} {T : α → α → Prop} {xs : List α}
  {ys : List β}

/-- Erasing an element on one side of a matching erases its partner on the other. -/
theorem forall₂_erase [BEq α] [LawfulBEq α] {x : α} (h : List.Forall₂ R xs ys) (hx : x ∈ xs) :
    ∃ y ys', R x y ∧ ys.Perm (y :: ys') ∧ List.Forall₂ R (xs.erase x) ys' := by
  induction h with
  | nil => exact absurd hx List.not_mem_nil
  | cons head tail ih =>
    rename_i a b as bs
    by_cases same : a = x
    · subst same
      rw [List.erase_cons_head]
      exact ⟨b, bs, head, List.Perm.refl _, tail⟩
    · obtain ⟨y, ys', hy, perm, rest⟩ := ih ((List.mem_cons.1 hx).resolve_left (Ne.symm same))
      rw [List.erase_cons_tail (by simpa using same)]
      exact ⟨y, b :: ys', hy, (perm.cons b).trans (List.Perm.swap ..), .cons head rest⟩

theorem exists_partner (h : List.Forall₂ R xs ys) {x : α} (hx : x ∈ xs) : ∃ y ∈ ys, R x y := by
  classical
  obtain ⟨y, ys', related, perm, -⟩ := forall₂_erase h hx
  exact ⟨y, perm.symm.subset (List.mem_cons_self ..), related⟩

theorem pairwise_of_forall₂ (h : List.Forall₂ R xs ys) (pairs : ys.Pairwise S)
    (imp : ∀ a b c d, R a b → R c d → S b d → T a c) : xs.Pairwise T := by
  induction h with
  | nil => exact List.Pairwise.nil
  | cons head tail ih =>
    obtain ⟨first, rest⟩ := List.pairwise_cons.1 pairs
    refine List.pairwise_cons.2 ⟨fun a ha => ?_, ih rest⟩
    obtain ⟨b, hb, related⟩ := exists_partner tail ha
    exact imp _ _ _ _ head related (first b hb)

end Matching

/-- The block at address `q.1` of length `q.2` serves the request `b`. -/
def Serves (b : Live) (q : ℕ × ℕ) : Prop :=
  b.1.toNat = q.1 + 12 ∧ b.2.toNat + 12 ≤ q.2

/-- The blocks in use are the used chunks of a heap, each as long as `R` says. -/
def Served (which : Bool → Prop) (R : Live → ℕ × ℕ → Prop) (im : Image) (F : List Word) (m : Machine)
    (tables : List Word) (live : List Live) : Prop :=
  ∃ pages l bs, HeapList which im F m pages tables l ∧ bs.Perm (blocks 0xE0000000 l) ∧
    List.Forall₂ R live bs

section Invariant

variable {E : Stop → Machine → Prop} {which : Bool → Prop} {im : Image} {F pages tables : List Word}
  {m t : Machine} {l : List Chunk} {live : List Live}

theorem HeapList.block_bounds (heap : HeapList which im F m pages tables l) {q : ℕ × ℕ}
    (hq : q ∈ blocks 0xE0000000 l) : 0xE0000000 ≤ q.1 ∧ q.1 + q.2 ≤ m.heapMax.toNat := by
  obtain ⟨pre, c, post, rfl, -, place, size⟩ := mem_blocks_iff.1 hq
  have fits := heap.listed.fits
  rw [total_append, total_cons] at fits
  omega

/-- What the search of `kmalloc` returns when it finds nothing. -/
theorem HeapList.findChunk_zero (heap : HeapList which im F m pages tables l)
    (pool : KernelFrames im F) (len : Word) : WP (findChunk len) (fun _ _ => False)
      (fun r t => t = m ∧ (NoneFits len.toNat l → r = (0, lastWord 0 0xE0000000 l)) ∧
        (r.1 = 0 → NoneFits len.toNat l ∧ r.2 = lastWord 0 0xE0000000 l)) m := by
  refine heap.listed.findChunk pool heap.first (fun pre c post split free fits _ => ?_)
    fun none => ⟨rfl, fun _ => rfl, fun _ => ⟨none, rfl⟩⟩
  subst split
  refine ⟨rfl, fun none => ?_, fun zero => absurd zero (heap.listed.spot pool).nonzero⟩
  have := none c (by simp) free
  omega

theorem HeapList.chunkStart_eq (heap : HeapList which im F m pages tables l)
    (pool : KernelFrames im F) : WP (chunkStart (lastWord 0 0xE0000000 l)) (fun _ _ => False)
      (fun r t => r = addr (after l) ∧ t = m) m :=
  heap.listed.chunkStart pool ⟨rfl, rfl⟩

theorem HeapList.end_toNat (heap : HeapList which im F m pages tables l)
    (pool : KernelFrames im F) : (addr (after l)).toNat = after l := by
  have fits := heap.listed.fits
  have limit := heap.listed.own.heapMax_lt pool
  exact addr_toNat (by unfold after; omega)

/-- No sum wraps exactly when a chunk that has to be appended ends in the address space. -/
theorem HeapList.noWrap_iff (heap : HeapList which im F m pages tables l)
    (pool : KernelFrames im F) {len : Word} : NoWrap m len ↔ len.toNat + 12 < 2 ^ 32 ∧
      (NoneFits (len.toNat + 12) l → after l + (len.toNat + 12) < 2 ^ 32) := by
  have header : sizeofHeader.toNat = 12 := rfl
  have place := heap.end_toNat pool
  refine and_congr_right fun small => ?_
  have sum : (len + sizeofHeader).toNat = len.toNat + 12 := toNat_offset (i := 12) small
  have search := heap.findChunk_zero pool (len + sizeofHeader)
  have placed := heap.chunkStart_eq pool
  rw [sum] at search
  constructor
  · intro room none
    obtain ⟨r, _, found, rfl, missing, -⟩ := search.returns
    obtain ⟨_, _, start, rfl, rfl⟩ := placed.returns
    rw [missing none] at found
    have := room _ _ _ _ found start
    omega
  · intro room prev start t u found start'
    obtain ⟨rfl, -, missing⟩ := search.returned found
    obtain ⟨none, rfl⟩ := missing rfl
    obtain ⟨rfl, rfl⟩ := placed.returned start'
    have := room none
    omega

/-- A heap without blocks in use has no chunks and no pages. -/
theorem Served.empty {R : Live → ℕ × ℕ → Prop} (served : Served which R im F m tables []) :
    HeapList which im F m [] tables [] := by
  obtain ⟨pages, l, bs, heap, perm, matching⟩ := served
  rw [List.forall₂_nil_left_iff.1 matching] at perm
  have none : blocks 0xE0000000 l = [] := perm.symm.eq_nil
  rcases List.eq_nil_or_concat' l with rfl | ⟨l, c, rfl⟩
  · have reached := heap.reached
    have mapped := heap.listed.own.mapped.heapMax
    have noPages : pages = [] := by
      refine List.eq_nil_of_length_eq_zero ?_
      simp only [after, total_nil, pageUp] at reached
      omega
    exact noPages ▸ heap
  · have used := heap.tidy.last c (by simp)
    rw [blocks_append, blocks_used used] at none
    simp at none

/-- `kfree` of a block in use keeps serving the others, if the `prev` link of its chunk is right. -/
theorem Served.kfree {R : Live → ℕ × ℕ → Prop} (served : Served which R im F m tables live)
    (pool : KernelFrames im F) (free : which false)
    (pointer : ∀ b q, R b q → b.1.toNat = q.1 + 12) {b : Live} (has : b ∈ live)
    (back : ∀ pages pre c post, HeapList which im F m pages tables (pre ++ c :: post) →
      c.used = true → b.1 = addr (after pre + 12) → c.back = lastWord 0 0xE0000000 pre) :
    WP (kfree im b.1) E (fun _ t => Served which R im F t tables (live.erase b)) m := by
  obtain ⟨pages, l, bs, heap, perm, matching⟩ := served
  obtain ⟨⟨a, n⟩, bs', related, perm', rest⟩ := forall₂_erase matching has
  have mem : (a, n) ∈ blocks 0xE0000000 l :=
    perm.subset (perm'.symm.subset (List.mem_cons_self ..))
  obtain ⟨pre, c, post, rfl, used, rfl, rfl⟩ := mem_blocks_iff.1 mem
  have place : b.1 = addr (after pre + 12) := by
    rw [← addr_ofToNat b.1, pointer b _ related, after]
  have right := back pages pre c post heap used place
  rw [place]
  refine (heap.kfree pre pool free right).mono ?_
  rintro _ t ⟨kept, released, -, heap', -⟩
  refine ⟨kept, _, bs', heap', ?_, rest⟩
  rw [blocks_freed]
  rw [blocks_append, blocks_used used] at perm
  exact (perm'.symm.trans (perm.trans List.perm_middle)).cons_inv

/-- In safe runs the `prev` links of free chunks are right, and blocks may be longer than asked. -/
def SafeState (im : Image) (F : List Word) (m : Machine) (live : List Live) : Prop :=
  ∃ tables, Served (· = false) Serves im F m tables live

namespace SafeState

/-- `kmalloc` serves one more block, or stops because the frames have run out. -/
theorem kmalloc (safe : SafeState im F m live) (pool : KernelFrames im F) {len : Word}
    (noWrap : NoWrap m len) : WP (kmalloc im len) (fun e _ => e = outOfMemory)
      (fun p t => SafeState im F t ((p, len) :: live)) m := by
  obtain ⟨tables, pages, l, bs, heap, perm, matching⟩ := safe
  obtain ⟨small, room⟩ := (heap.noWrap_iff pool).1 noWrap
  refine (heap.kmalloc pool rfl (by decide) small room fun _ => rfl).mono ?_
  rintro p t ⟨pages', tables', l', a, n, heap', rfl, fits, added⟩
  have bounds := heap'.block_bounds (added.symm.subset (List.mem_cons_self ..))
  have limit := heap'.listed.own.heapMax_lt pool
  refine ⟨tables', pages', l', (a, n) :: bs, heap', (perm.cons _).trans added.symm,
    .cons ⟨?_, fits⟩ matching⟩
  rw [addr_toNat (by omega)]

theorem kfree (safe : SafeState im F m live) (pool : KernelFrames im F) {b : Live}
    (has : b ∈ live) (ok : PrevLinked m b.1) :
    WP (kfree im b.1) E (fun _ t => SafeState im F t (live.erase b)) m := by
  obtain ⟨tables, served⟩ := safe
  refine (served.kfree pool rfl (fun b q h => h.1) has fun pages pre c post heap _ place => ?_).mono
    fun _ t served' => ⟨tables, served'⟩
  exact heap.back_of_prevLinked pool (place ▸ ok)

theorem heapSafe (safe : SafeState im F m live) (pool : KernelFrames im F) : HeapSafe m live := by
  obtain ⟨tables, pages, l, bs, heap, perm, matching⟩ := safe
  have own := heap.listed.own
  have header : sizeofHeader.toNat = 12 := rfl
  have start : heapStart.toNat = 0xE0000000 := rfl
  refine ⟨fun b hb => ?_, ?_, fun va lo hi => ?_⟩
  · obtain ⟨q, hq, pointer, fits⟩ := exists_partner matching hb
    have bounds := heap.block_bounds (perm.subset hq)
    omega
  · have apart : (blocks 0xE0000000 l).Pairwise fun p q => p.1 + p.2 ≤ q.1 ∨ q.1 + q.2 ≤ p.1 := by
      refine List.Pairwise.sublist blocks_sublist (List.pairwise_map.2 ?_)
      exact (place_pairwise _ _).imp .inl
    refine pairwise_of_forall₂ matching ((perm.pairwise_iff Or.symm).2 apart) ?_
    rintro b p c q ⟨pointer, fits⟩ ⟨pointer', fits'⟩ apart
    omega
  · exact own.isSome_translate pool (by omega) hi

/-- One call keeps the heap safe. -/
theorem step {s s' : Machine × List Live} (safe : SafeState im F s.1 s.2)
    (pool : KernelFrames im F) (step : HeapStep im PrevLinked s s') : SafeState im F s'.1 s'.2 := by
  cases step with
  | kmalloc noWrap run => exact (safe.kmalloc pool noWrap).returned run
  | kfree has ok run => exact (safe.kfree (E := fun _ _ => True) pool has ok).returned run

theorem run {s s' : Machine × List Live} (safe : SafeState im F s.1 s.2)
    (pool : KernelFrames im F) (steps : Relation.ReflTransGen (HeapStep im PrevLinked) s s') :
    SafeState im F s'.1 s'.2 := by
  induction steps with
  | refl => exact safe
  | tail _ step ih => exact ih.step pool step

end SafeState

end Invariant

/-! ## Main results -/

/-- The heap of a machine that has run `init_vmm` and `init_heap` is empty. -/
theorem heapList_of_initHeap (im : Image) {m v v₀ : Machine} (temp : TemporaryPaging m)
    (zeroed : ∀ a ∈ im.tablePages, m.mem a = 0) (empty : m.heapMax = heapStart)
    (boot : Returns (initVmm im) m () v) (init : Returns initHeap v () v₀) (which : Bool → Prop) :
    HeapList which im (frames m) v₀ [] [] [] := by
  obtain ⟨own, -⟩ := owned_of_initVmm im temp zeroed empty boot
  have state : v₀ = v.setHeapFirst 0 := (congrArg Prod.snd init).symm
  subst state
  exact heapList_of_owned (own.setHeapFirst 0) rfl

/-- In every run of `kmalloc` and `kfree` in which no sum wraps, and each freed block's `prev` link
is right when it is freed, the blocks in use never overlap and lie in the mapped heap; `kmalloc`
stops for want of frames only, and `kfree` never stops. -/
theorem heapSafe_of_run (im : Image) (m v v₀ t : Machine) (live : List Live)
    (temp : TemporaryPaging m) (zeroed : ∀ a ∈ im.tablePages, m.mem a = 0)
    (empty : m.heapMax = heapStart) (pool : KernelFrames im (frames m))
    (boot : Returns (initVmm im) m () v) (init : Returns initHeap v () v₀)
    (steps : Relation.ReflTransGen (HeapStep im PrevLinked) (v₀, []) (t, live)) :
    HeapSafe t live ∧
      (∀ len, NoWrap t len → (∃ p u, Returns (kmalloc im len) t p u) ∨
        ∃ u, Stops (kmalloc im len) t outOfMemory u) ∧
      ∀ b ∈ live, PrevLinked t b.1 → ∃ u, Returns (kfree im b.1) t () u := by
  have heap := heapList_of_initHeap im temp zeroed empty boot init (· = false)
  have start : SafeState im (frames m) v₀ [] := ⟨[], [], [], [], heap, List.Perm.refl _, .nil⟩
  have safe : SafeState im (frames m) t live := start.run (s := (v₀, [])) pool steps
  refine ⟨safe.heapSafe pool, fun len noWrap => ?_, fun b has ok => ?_⟩
  · rcases (safe.kmalloc pool noWrap).outcome with ⟨p, u, run, -⟩ | ⟨e, u, run, rfl⟩
    · exact .inl ⟨p, u, run⟩
    · exact .inr ⟨u, run⟩
  · obtain ⟨⟨⟩, u, run, -⟩ := (safe.kfree (E := fun _ _ => False) pool has ok).returns
    exact ⟨u, run⟩

theorem booted_heap_128M : ∃ m v v₀, TemporaryPaging m ∧
    (∀ a ∈ smallImage.tablePages, m.mem a = 0) ∧ m.heapMax = heapStart ∧
    KernelFrames smallImage (frames m) ∧ Returns (initVmm smallImage) m () v ∧
    Returns initHeap v () v₀ ∧ (frames v₀).length = 32256 := by
  obtain ⟨m, v, temp, zeroed, empty, pool, enough, boot⟩ := booted_128M
  have heap := heapList_of_initHeap smallImage temp zeroed empty boot
    (rfl : Returns initHeap v () (v.setHeapFirst 0)) (· = false)
  have free := heap.listed.own.conserved.length_eq
  rw [List.append_nil, List.append_nil, enough] at free
  exact ⟨m, v, v.setHeapFirst 0, temp, zeroed, empty, pool, boot, rfl, free⟩

section Example

variable {F pages tables : List Word} {m : Machine}

/-- Two chunks of 100 bytes on an empty heap. -/
theorem two_chunks {which : Bool → Prop} (heap : HeapList which smallImage F m [] [] [])
    (pool : KernelFrames smallImage F) (enough : (frames m).length = 32256) :
    ∃ t u pages tables, Returns (kmalloc smallImage 100) m 0xE000000C t ∧ NoWrap m 100 ∧
      Returns (kmalloc smallImage 100) t 0xE000007C u ∧ NoWrap t 100 ∧
      HeapList which smallImage F u pages tables
        [⟨112, true, 0⟩, ⟨112, true, 0xE0000000⟩] := by
  have reached : m.heapMax.toNat = 0xE0000000 := heap.reached
  obtain ⟨_, t, run, rfl, -, more, new, heap₁⟩ := (heap.kmalloc_append (E := fun _ _ => False)
    pool 100 (by decide) (by decide) (by
      rw [enough, reached]
      exact fun h => absurd h (by decide))).returns
  have reached₁ : t.heapMax.toNat = 0xE0001000 := heap₁.reached
  obtain ⟨_, u, run', rfl, -, more', new', heap₂⟩ := (heap₁.kmalloc_append (E := fun _ _ => False)
    pool 100 (by decide) (by decide) (by
      rw [reached₁]
      exact fun h => absurd h (not_lt.2 (Nat.le_add_left_of_le (by decide))))).returns
  exact ⟨t, u, _, _, run, (heap.noWrap_iff pool).2 (by decide), run',
    (heap₁.noWrap_iff pool).2 (by decide), heap₂⟩

/-- Splitting the freed first chunk leaves the `prev` link of the last one wrong. -/
theorem stale_link (heap : HeapList (· = false) smallImage F m pages tables
      [⟨112, true, 0⟩, ⟨112, true, 0xE0000000⟩]) (pool : KernelFrames smallImage F) :
    ∃ t u w x kept, Returns (kfree smallImage 0xE000000C) m () t ∧
      Returns (kmalloc smallImage 10) t 0xE000000C u ∧ NoWrap t 10 ∧
      Returns (kmalloc smallImage 78) u 0xE0000022 w ∧ NoWrap u 78 ∧
      Returns (kfree smallImage 0xE000000C) w () x ∧
      HeapList (· = false) smallImage F x kept tables
        [⟨22, false, 0⟩, ⟨90, true, 0xE0000000⟩, ⟨112, true, 0xE0000000⟩] := by
  obtain ⟨⟨⟩, t, run₁, kept, -, -, heap₁, -⟩ := (HeapList.kfree (E := fun _ _ => False) []
    heap pool rfl rfl).returns
  obtain ⟨_, u, run₂, rfl, heap₂⟩ := (HeapList.kmalloc_reuse (E := fun _ _ => False) []
    (c := ⟨112, false, 0⟩) heap₁ pool rfl (by decide) 10 (by decide) rfl (by decide)
    (by decide)).returns
  obtain ⟨_, w, run₃, rfl, heap₃⟩ := (HeapList.kmalloc_reuse (E := fun _ _ => False)
    [⟨22, true, 0⟩] (c := ⟨90, false, 0xE0000000⟩) heap₂ pool rfl (by decide) 78
    (by decide) rfl (by decide) (by decide)).returns
  obtain ⟨⟨⟩, x, run₄, kept', -, -, heap₄, -⟩ := (HeapList.kfree (E := fun _ _ => False) []
    heap₃ pool rfl rfl).returns
  exact ⟨t, u, w, x, kept', run₁, run₂, (heap₁.noWrap_iff pool).2 (by decide), run₃,
    (heap₂.noWrap_iff pool).2 (by decide), run₄, heap₄⟩

/-- Freeing the last chunk then merges it with the first and drops everything. -/
theorem stale_kfree (heap : HeapList (· = false) smallImage F m pages tables
      [⟨22, false, 0⟩, ⟨90, true, 0xE0000000⟩, ⟨112, true, 0xE0000000⟩])
    (pool : KernelFrames smallImage F) : ∃ t, Returns (kfree smallImage 0xE000007C) m () t ∧
      t.heapMax.toNat = 0xE0000000 := by
  obtain ⟨pre, hpre⟩ : ∃ pre : List Chunk,
      pre = [⟨22, false, 0⟩, ⟨90, true, 0xE0000000⟩] := ⟨_, rfl⟩
  have place : (0xE000007C : Word) - sizeofHeader = addr (after pre) := by
    rw [hpre]
    decide
  have listed : Listed smallImage F m pages tables (pre ++ ⟨112, true, 0xE0000000⟩ :: []) := by
    rw [hpre]
    exact heap.listed
  have freed : WP (kfree smallImage 0xE000007C) (fun _ _ => False)
      (fun _ t => t.heapMax.toNat = 0xE0000000) m := by
    simp only [SimpleKernel.kfree, glueChunk, headerNext, wp_bind, place]
    refine listed.setAllocated pool (v := false) fun p₁ listed₁ => ?_
    refine listed₁.glueNext pool fun p₂ listed₂ => ?_
    have at_c := listed₂.spot pool
    have split : pre ++ (joinNext (after pre) ⟨112, false, 0xE0000000⟩ []).1 ::
        (joinNext (after pre) ⟨112, false, 0xE0000000⟩ []).2 =
        [] ++ ⟨22, false, 0⟩ :: [⟨90, true, 0xE0000000⟩, ⟨112, false, 0xE0000000⟩] := by
      rw [hpre]
      rfl
    have listed₃ := listed₂
    rw [split] at listed₃
    have at_first := listed₃.spot pool
    rw [← split] at at_first
    have ne : after [] ≠ after pre := by
      rw [hpre]
      decide
    refine listed₂.heads.gluePrev pool at_c.mem at_first.mem ne at_c.header.prev at_first.nonzero
      at_c.header.info at_first.header.info (show 22 + 112 < 2 ^ 31 by decide) (z := none)
      at_c.header.next
      (fun r hr => absurd hr (by simp)) fun p₃ h heads prev next _ _ _ => ?_
    refine heads.loadField pool at_first.mem .next ?_
    rw [next, at_c.header.next]
    refine (heads.freeChunk_first pool at_first.mem (prev.trans at_first.header.prev)).mono ?_
    rintro _ t ⟨-, -, -, -, -, -, reached⟩
    exact reached
  obtain ⟨⟨⟩, t, run, reached⟩ := freed.returns
  exact ⟨t, run, reached⟩

end Example

/-- A run that loses a live block: the block of 78 bytes sits behind a chunk that was split while it
was free, so the last chunk's `prev` link skips it. -/
theorem live_block_lost : ∃ m v v₀ m₁ m₂ m₃ m₄ m₅ m₆ t, KernelFrames smallImage (frames m) ∧
    Returns (initVmm smallImage) m () v ∧ Returns initHeap v () v₀ ∧
    Returns (kmalloc smallImage 100) v₀ 0xE000000C m₁ ∧
    Returns (kmalloc smallImage 100) m₁ 0xE000007C m₂ ∧
    Returns (kfree smallImage 0xE000000C) m₂ () m₃ ∧
    Returns (kmalloc smallImage 10) m₃ 0xE000000C m₄ ∧
    Returns (kmalloc smallImage 78) m₄ 0xE0000022 m₅ ∧
    Returns (kfree smallImage 0xE000000C) m₅ () m₆ ∧
    Returns (kfree smallImage 0xE000007C) m₆ () t ∧
    Relation.ReflTransGen (HeapStep smallImage fun _ _ => True) (v₀, []) (t, [(0xE0000022, 78)]) ∧
    t.heapMax = heapStart ∧ ¬ HeapSafe t [(0xE0000022, 78)] := by
  obtain ⟨m, v, v₀, temp, zeroed, empty, pool, boot, init, enough⟩ := booted_heap_128M
  have heap := heapList_of_initHeap smallImage temp zeroed empty boot init (· = false)
  obtain ⟨m₁, m₂, pages, tables, run₁, small₁, run₂, small₂, heap₂⟩ := two_chunks heap pool enough
  obtain ⟨m₃, m₄, m₅, m₆, kept, run₃, run₄, small₄, run₅, small₅, run₆, heap₆⟩ :=
    stale_link heap₂ pool
  obtain ⟨t, run₇, reached⟩ := stale_kfree heap₆ pool
  have run : Relation.ReflTransGen (HeapStep smallImage fun _ _ => True) (v₀, [])
      (t, [(0xE0000022, 78)]) := by
    refine .head (.kmalloc small₁ run₁) (.head (.kmalloc small₂ run₂) ?_)
    refine .head (.kfree (b := (0xE000000C, 100)) (by decide) trivial run₃) ?_
    refine .head (.kmalloc small₄ run₄) (.head (.kmalloc small₅ run₅) ?_)
    refine .head (.kfree (b := (0xE000000C, 10)) (by decide) trivial run₆) ?_
    exact .single (.kfree (b := (0xE000007C, 100)) (by decide) trivial run₇)
  refine ⟨m, v, v₀, m₁, m₂, m₃, m₄, m₅, m₆, t, pool, boot, init, run₁, run₂, run₃, run₄, run₅,
    run₆, run₇, run, BitVec.eq_of_toNat_eq reached, fun safe => ?_⟩
  have := (safe.inside _ (List.mem_singleton_self _)).2
  rw [reached] at this
  exact absurd this (by decide)

theorem heapSafe_of_run_128M : ∃ m v v₀ m₁ m₂ t, Returns (initVmm smallImage) m () v ∧
    Returns initHeap v () v₀ ∧ Returns (kmalloc smallImage 100) v₀ 0xE000000C m₁ ∧
    Returns (kmalloc smallImage 100) m₁ 0xE000007C m₂ ∧
    Returns (kfree smallImage 0xE000000C) m₂ () t ∧ HeapSafe t [(0xE000007C, 100)] := by
  obtain ⟨m, v, v₀, temp, zeroed, empty, pool, boot, init, enough⟩ := booted_heap_128M
  have heap := heapList_of_initHeap smallImage temp zeroed empty boot init (· = false)
  obtain ⟨m₁, m₂, pages, tables, run₁, small₁, run₂, small₂, heap₂⟩ := two_chunks heap pool enough
  obtain ⟨t, -, -, -, -, run₃, -⟩ := stale_link heap₂ pool
  have prev : fieldOf m₂ (addr 0xE0000000) .prev = 0 := heap₂.listed.chain.1.prev
  have ok : PrevLinked m₂ 0xE000000C := .inl ⟨prev, heap₂.first⟩
  have steps : Relation.ReflTransGen (HeapStep smallImage PrevLinked) (v₀, [])
      (t, [(0xE000007C, 100)]) := by
    refine .head (.kmalloc small₁ run₁) (.head (.kmalloc small₂ run₂) ?_)
    exact .single (.kfree (b := (0xE000000C, 100)) (by decide) ok run₃)
  exact ⟨m, v, v₀, m₁, m₂, t, boot, init, run₁, run₂, run₃,
    (heapSafe_of_run smallImage m v v₀ t _ temp zeroed empty pool boot init steps).1⟩

end SimpleKernel
