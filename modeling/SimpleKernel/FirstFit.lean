import SimpleKernel.Growth
import SimpleKernel.HeapSafety

/-!
# What `kmalloc` does to a well-formed heap

`kmalloc` takes the lowest free chunk with room, or appends one, and disturbs no block.  Cutting a
chunk in two leaves a wrong `prev` link behind, so the heap stays well-formed exactly when the chunk
is taken as a whole; and the lengths that wrap are served with too little.
-/

namespace SimpleKernel

open ByteStore ProgramLogic Tiling

/-- The first free chunk of `l` with room for `n` bytes has room for more than a header behind them. -/
def Splits (n : ℕ) (l : List Chunk) : Prop :=
  ∃ pre c post, l = pre ++ c :: post ∧ c.used = false ∧ n + 12 < c.size ∧ NoneFits n pre

/-! ## The list is unique -/

section Unique

variable {h : ℕ → HeaderField → Word} {which which' : Bool → Prop} {im : Image} {F : List Word}
  {m : Machine} {pages pages' tables tables' : List Word} {l l' : List Chunk} {a n k : ℕ}
  {used used' : Bool}

theorem infoWord_inj (hn : n < 2 ^ 31) (hk : k < 2 ^ 31) (same : infoWord used n = infoWord used' k) :
    used = used' ∧ n = k := by
  have toNat := congrArg BitVec.toNat same
  rw [infoWord_toNat hn, infoWord_toNat hk] at toNat
  have := Bool.toNat_lt used
  have := Bool.toNat_lt used'
  refine ⟨?_, by omega⟩
  cases used <;> cases used' <;> simp at toNat ⊢ <;> omega

theorem nextWord_ne_zero {c : Chunk} (lo : 0 < a) (hi : a < 2 ^ 32) :
    nextWord 0 a (c :: l) ≠ 0 := by
  intro zero
  have toNat := congrArg BitVec.toNat zero
  rw [nextWord_cons, addr_toNat hi] at toNat
  simp at toNat
  omega

/-- The headers determine the chunks. -/
theorem Chain.unique (chain : Chain h 0 a l) (chain' : Chain h 0 a l') (lo : 0x80000000 ≤ a)
    (hi : a + total Chunk.size l < 2 ^ 32) (hi' : a + total Chunk.size l' < 2 ^ 32)
    (start : nextWord 0 a l = nextWord 0 a l') : l = l' := by
  induction l generalizing a l' with
  | nil =>
    cases l' with
    | nil => rfl
    | cons c' l' =>
      rw [total_cons] at hi'
      exact absurd start.symm (nextWord_ne_zero (by omega) (by omega))
  | cons c l ih =>
    rw [total_cons] at hi
    cases l' with
    | nil => exact absurd start (nextWord_ne_zero (by omega) (by omega))
    | cons c' l' =>
      rw [total_cons] at hi'
      obtain ⟨head, rest⟩ := chain
      obtain ⟨head', rest'⟩ := chain'
      obtain ⟨used, size⟩ :=
        infoWord_inj (by omega) (by omega) (head.info.symm.trans head'.info)
      have back : c.back = c'.back := head.prev.symm.trans head'.prev
      have next := head.next.symm.trans head'.next
      have same : c = c' := by
        cases c
        cases c'
        simp_all
      subst same
      rw [ih rest rest' (by omega) (by omega) (by omega) next]

theorem HeapList.unique (heap : HeapList which im F m pages tables l)
    (heap' : HeapList which' im F m pages' tables' l') (pool : KernelFrames im F) : l = l' := by
  have limit := heap.listed.own.heapMax_lt pool
  have fits := heap.listed.fits
  have fits' := heap'.listed.fits
  exact heap.listed.chain.unique heap'.listed.chain (by omega) (by omega) (by omega)
    (heap.first.symm.trans heap'.first)

end Unique

/-! ## Address spaces -/

section Translate

variable {im : Image} {F pages more tables tables' : List Word} {m t : Machine} {va : Word}

/-- Two kernels with the same heap pages at the front translate the same addresses alike. -/
theorem Owned.translate_eq (own : Owned im F m pages tables)
    (own' : Owned im F t (pages ++ more) tables') (pool : KernelFrames im F)
    (hi : va.toNat < m.heapMax.toNat) : translate t va = translate m va := by
  have paging := own.mapped.paging
  have paging' := own'.mapped.paging
  by_cases heap : 0xE0000000 ≤ va.toNat
  · obtain ⟨f, hf, walked, -⟩ := own.exists_frame pool heap hi
    have hf' : (pages ++ more)[(va.toNat - 0xE0000000) / 4096]? = some f := by
      rw [List.getElem?_append_left (List.getElem?_eq_some_iff.1 hf).1, hf]
    rw [walked, own'.mapped.translate (own'.heap pool) heap hf']
  · by_cases high : 0xC0000000 ≤ va.toNat
    · exact paging'.translate_direct paging high (not_le.1 heap)
    · rw [paging.translate_below (not_le.1 high), paging'.translate_below (not_le.1 high)]

theorem Owned.translate_behind (own : Owned im F m pages tables) (pool : KernelFrames im F)
    (lo : m.heapMax.toNat ≤ va.toNat) : translate m va = none :=
  own.mapped.translate_behind ((own.heap pool).of_sublist (List.sublist_append_right _ _)) lo

end Translate

/-! ## Well-formedness -/

section Outcome

variable {E : Stop → Machine → Prop} {which : Bool → Prop} {im : Image} {F pages tables : List Word}
  {m t : Machine} {l pre post : List Chunk} {c : Chunk} {n : ℕ} {len : Word}

theorem exists_firstFit (some_fits : ¬ NoneFits n l) : ∃ pre c post, l = pre ++ c :: post ∧
    c.used = false ∧ n ≤ c.size ∧ NoneFits n pre := by
  induction l with
  | nil => exact absurd (by simp [NoneFits]) some_fits
  | cons d l ih =>
    by_cases fits : d.used = false ∧ n ≤ d.size
    · exact ⟨[], d, l, rfl, fits.1, fits.2, by simp [NoneFits]⟩
    · have hd : d.used = false → d.size < n := fun free => not_le.1 fun le => fits ⟨free, le⟩
      have rest : ¬ NoneFits n l := fun none => some_fits (List.forall_mem_cons.2 ⟨hd, none⟩)
      obtain ⟨pre, c, post, rfl, free, room, none⟩ := ih rest
      exact ⟨d :: pre, c, post, rfl, free, room, List.forall_mem_cons.2 ⟨hd, none⟩⟩

/-- The chunk behind a chunk that has been cut in two keeps its old `prev` link, which is wrong. -/
theorem HeapList.not_wellFormed_of_split {m' : Machine} {pages' tables' : List Word}
    (pre : List Chunk) (c : Chunk)
    (heap : HeapList (fun _ => True) im F m pages tables (pre ++ c :: post))
    (heap' : HeapList which im F m' pages' tables' (reused pre c post n))
    (pool : KernelFrames im F) (free : c.used = false) (lo : 0 < n) (more : n + 12 < c.size) :
    ¬ ∃ l, WellFormed im F m' l := by
  rintro ⟨l, pages'', tables'', heap''⟩
  obtain rfl := heap''.unique heap' pool
  obtain ⟨-, bound⟩ := heap.listed.size_lt pool
  cases post with
  | nil =>
    have used := heap.tidy.last c (by simp)
    rw [free] at used
    exact absurd used (by decide)
  | cons d post =>
    have cut : split (after pre) c n =
        ({ c with size := n }, [⟨c.size - n, false, addr (after pre)⟩]) := if_pos (by omega)
    have backs := heap''.tidy.backs
    rw [reused, cut] at backs
    obtain ⟨-, -, -, back', -⟩ := backs_append.1 backs
    obtain ⟨-, -, back, -⟩ := backs_append.1 heap.tidy.backs
    have same := (back trivial).symm.trans (back' trivial)
    have place := addr_inj (by unfold after at bound; omega)
      (by unfold after at bound; simp only; omega) same
    simp only at place
    omega

/-- A heap stays well-formed when no chunk is cut. -/
theorem HeapList.kmalloc_whole (heap : HeapList (fun _ => True) im F m pages tables l)
    (pool : KernelFrames im F) (noWrap : NoWrap m len) (whole : ¬ Splits (len.toNat + 12) l) :
    WP (SimpleKernel.kmalloc im len) (fun _ _ => True)
      (fun _ t => ∃ l', WellFormed im F t l') m := by
  obtain ⟨small, room⟩ := (heap.noWrap_iff pool).1 noWrap
  apply heap.listed.kmalloc pool heap.first small room (fun _ _ _ => trivial)
  · rintro pre c post phys rfl free fits none listed
    have tight : c.size ≤ len.toNat + 12 + 12 :=
      not_lt.1 fun more => whole ⟨pre, c, post, rfl, free, more, none⟩
    exact ⟨_, _, _, heap.of_reused listed fits (heap.tidy.reused_whole trivial free tight)⟩
  · intro t more new none listed first reached left
    exact ⟨_, _, _, heap.of_appended listed first reached⟩

/-- Without wrapping, `kmalloc` stops exactly if no free chunk has room and there are too few frames
for a new one. -/
theorem HeapList.kmalloc_outcome (heap : HeapList which im F m pages tables l)
    (pool : KernelFrames im F) (noWrap : NoWrap m len) :
    ((NoneFits (len.toNat + 12) l →
        framesNeeded im m (after l + (len.toNat + 12)) ≤ (frames m).length) →
      ∃ p t, Returns (SimpleKernel.kmalloc im len) m p t) ∧
    (NoneFits (len.toNat + 12) l →
      (frames m).length < framesNeeded im m (after l + (len.toNat + 12)) →
      ∃ t, Stops (SimpleKernel.kmalloc im len) m outOfMemory t) := by
  obtain ⟨small, room⟩ := (heap.noWrap_iff pool).1 noWrap
  have needed := @Owned.framesNeeded_eq _ _ _ _ _ heap.listed.own pool (after l + (len.toNat + 12))
  by_cases none : NoneFits (len.toNat + 12) l
  · rcases (heap.kmalloc_exact pool none (room none) rfl).outcome with
      ⟨p, t, run, -, pages', tables', heap', count⟩ | ⟨e, t, stop, rfl, few⟩
    · have size := heap.heapPages_appended heap'
      have balance := heap'.listed.own.balance
      rw [← heap'.listed.own.heapPages_eq, size, count] at balance
      exact ⟨fun _ => ⟨p, t, run⟩, fun _ few => absurd few (by omega)⟩
    · exact ⟨fun enough => absurd (enough none) (by omega), fun _ _ => ⟨t, stop⟩⟩
  · have spec : WP (SimpleKernel.kmalloc im len) (fun _ _ => False) (fun _ _ => True) m :=
      heap.listed.kmalloc pool heap.first small room (fun h => absurd h none)
        (fun _ _ _ _ _ _ _ _ _ => trivial) fun _ _ _ h => absurd h none
    obtain ⟨p, t, run, -⟩ := spec.returns
    exact ⟨fun _ => ⟨p, t, run⟩, fun h => absurd h none⟩

end Outcome

/-- For every length for which nothing wraps, the heap is well-formed after `kmalloc` exactly when
the chunk that it takes is not cut in two; and `kmalloc` stops exactly when it has to append a chunk
and there are fewer frames than the pages and tables for it. -/
theorem kmalloc_wellFormed_iff (im : Image) (F : List Word) (m : Machine) (l : List Chunk)
    (pool : KernelFrames im F) (heap : WellFormed im F m l) (len : Word) (noWrap : NoWrap m len) :
    (∀ p t, Returns (kmalloc im len) m p t →
      ((∃ l', WellFormed im F t l') ↔ ¬ Splits (len.toNat + sizeofHeader.toNat) l)) ∧
    ((NoneFits (len.toNat + sizeofHeader.toNat) l →
        framesNeeded im m (after l + (len.toNat + sizeofHeader.toNat)) ≤ (frames m).length) →
      ∃ p t, Returns (kmalloc im len) m p t) ∧
    (NoneFits (len.toNat + sizeofHeader.toNat) l →
      (frames m).length < framesNeeded im m (after l + (len.toNat + sizeofHeader.toNat)) →
      ∃ t, Stops (kmalloc im len) m outOfMemory t) := by
  obtain ⟨pages, tables, heap⟩ := heap
  have header : sizeofHeader.toNat = 12 := rfl
  rw [header]
  refine ⟨fun p t run => ⟨fun formed splits => ?_, fun whole => ?_⟩,
    heap.kmalloc_outcome pool noWrap⟩
  · obtain ⟨pre, c, post, rfl, free, more, none⟩ := splits
    obtain ⟨small, -⟩ := (heap.noWrap_iff pool).1 noWrap
    have blind := heap.weaken (· = false) fun _ _ => trivial
    obtain ⟨-, heap'⟩ := (blind.kmalloc_reuse (E := fun _ _ => True) pre pool rfl (by decide) len
      small free (by omega) none).returned run
    exact HeapList.not_wellFormed_of_split _ _ heap heap' pool free (by omega) more formed
  · exact (heap.kmalloc_whole pool noWrap whole).returned run

/-- One chunk is freed and cut: then the `prev` link of the last chunk skips the new free chunk. -/
theorem heap_broken_by_split : ∃ m v v₀ m₁ m₂ m₃ t, KernelFrames smallImage (frames m) ∧
    Returns (initVmm smallImage) m () v ∧ Returns initHeap v () v₀ ∧
    Returns (kmalloc smallImage 100) v₀ 0xE000000C m₁ ∧
    Returns (kmalloc smallImage 100) m₁ 0xE000007C m₂ ∧
    Returns (kfree smallImage 0xE000000C) m₂ () m₃ ∧
    WellFormed smallImage (frames m) m₃ [⟨112, false, 0⟩, ⟨112, true, 0xE0000000⟩] ∧
    NoWrap m₃ 10 ∧ Returns (kmalloc smallImage 10) m₃ 0xE000000C t ∧
    ¬ ∃ l, WellFormed smallImage (frames m) t l := by
  obtain ⟨m, v, v₀, temp, zeroed, empty, pool, boot, init, enough⟩ := booted_heap_128M
  have heap := heapList_of_initHeap smallImage temp zeroed empty boot init fun _ => True
  obtain ⟨m₁, m₂, pages, tables, run₁, -, run₂, -, heap₂⟩ := two_chunks heap pool enough
  obtain ⟨⟨⟩, m₃, run₃, kept, -, -, heap₃, -⟩ := (HeapList.kfree (E := fun _ _ => False) []
    heap₂ pool trivial rfl).returns
  have blind := heap₃.weaken (· = false) fun _ _ => trivial
  obtain ⟨_, t, run₄, rfl, heap₄⟩ := (HeapList.kmalloc_reuse (E := fun _ _ => False) []
    (c := ⟨112, false, 0⟩) blind pool rfl (by decide) 10 (by decide) rfl (by decide)
    (by decide)).returns
  refine ⟨m, v, v₀, m₁, m₂, m₃, t, pool, boot, init, run₁, run₂, run₃, ⟨_, _, heap₃⟩,
    (heap₃.noWrap_iff pool).2 (by decide), run₄, ?_⟩
  exact HeapList.not_wellFormed_of_split [] ⟨112, false, 0⟩ heap₃ heap₄ pool rfl
    (by decide) (by decide)

theorem kmalloc_wellFormed_iff_128M : ∃ F m t l, Returns (kmalloc smallImage 100) m 0xE000000C t ∧
    WellFormed smallImage F t l := by
  obtain ⟨m, v, v₀, temp, zeroed, empty, pool, boot, init, enough⟩ := booted_heap_128M
  have heap := heapList_of_initHeap smallImage temp zeroed empty boot init fun _ => True
  obtain ⟨m₁, m₂, pages, tables, run₁, noWrap, -⟩ := two_chunks heap pool enough
  have whole : ¬ Splits ((100 : Word).toNat + sizeofHeader.toNat) [] := by simp [Splits]
  obtain ⟨l, formed⟩ := ((kmalloc_wellFormed_iff smallImage (frames m) v₀ [] pool
    ⟨_, _, heap⟩ 100 noWrap).1 _ _ run₁).2 whole
  exact ⟨_, v₀, m₁, l, run₁, formed⟩

/-! ## First fit -/

/-- `t` is `m` with the free chunk `c` taken for `n` bytes: the chunk `d` in use is at most one header
longer, any more is one free chunk behind it, and no page and no frame has moved. -/
structure Reuses (m t : Machine) (n : ℕ) (c d : Chunk) (rest : List Chunk) : Prop where
  used : d.used = true
  room : n ≤ d.size
  tight : d.size ≤ n + sizeofHeader.toNat
  rest : rest = [] ∧ d.size = c.size ∨
    ∃ e : Chunk, rest = [e] ∧ e.used = false ∧ d.size + e.size = c.size
  heapMax : t.heapMax = m.heapMax
  mapping : ∀ va, translate t va = translate m va
  frames : frames t = frames m

/-- `t` is `m` with a chunk `d` of `n` bytes at `start`, for which just the missing pages have been
mapped. -/
structure Appends (m t : Machine) (n start : ℕ) (d : Chunk) : Prop where
  used : d.used = true
  size : d.size = n
  heapMax : t.heapMax.toNat = pageUp (start + n)
  kept : ∀ va : Word, va.toNat < m.heapMax.toNat → translate t va = translate m va
  mapped : ∀ va : Word, m.heapMax.toNat ≤ va.toNat →
    ((translate t va).isSome ↔ va.toNat < t.heapMax.toNat)

/-- The blocks of `l` are blocks of `l'`, and the block at `p` of `len` bytes overlaps none of them. -/
structure Undisturbed (l l' : List Chunk) (p len : Word) : Prop where
  kept : ∀ q ∈ blocks heapStart.toNat l, q ∈ blocks heapStart.toNat l'
  apart : ∀ q ∈ blocks heapStart.toNat l,
    q.1 + q.2 + sizeofHeader.toNat ≤ p.toNat ∨ p.toNat + len.toNat ≤ q.1

section Contract

variable {im : Image} {F pages tables : List Word} {m t : Machine} {l pre post : List Chunk}
  {c : Chunk} {a n : ℕ} {len : Word}

theorem blocks_bounds {q : ℕ × ℕ} (hq : q ∈ blocks a l) :
    a ≤ q.1 ∧ q.1 + q.2 ≤ a + total Chunk.size l := by
  obtain ⟨pre, c, post, rfl, -, place, size⟩ := mem_blocks_iff.1 hq
  rw [total_append, total_cons]
  omega

theorem reuses_of_setMem {phys : Store 32} (own : Owned im F m pages tables)
    (own' : Owned im F (m.setMem phys) pages tables) (pool : KernelFrames im F) (fits : n ≤ c.size) :
    Reuses m (m.setMem phys) n c { (split a c n).1 with used := true } (split a c n).2 := by
  obtain ⟨room, tight, whole⟩ := split_size (a := a) fits
  refine ⟨rfl, room, tight, ?_, rfl, fun va => ?_, rfl⟩
  · rw [split] at whole ⊢
    split_ifs at whole ⊢ with more
    · exact .inr ⟨_, rfl, rfl, by simpa using whole⟩
    · exact .inl ⟨rfl, rfl⟩
  · have same : Owned im F (m.setMem phys) (pages ++ []) tables := by rwa [List.append_nil]
    by_cases hi : va.toNat < m.heapMax.toNat
    · exact own.translate_eq same pool hi
    · rw [own.translate_behind pool (not_lt.1 hi), own'.translate_behind pool (not_lt.1 hi)]

theorem undisturbed_of_reused (free : c.used = false) (fits : len.toNat + 12 ≤ c.size)
    (bound : after pre + 12 < 2 ^ 32) :
    Undisturbed (pre ++ c :: post) (reused pre c post (len.toNat + 12)) (addr (after pre + 12))
      len := by
  have header : sizeofHeader.toNat = 12 := rfl
  have start : heapStart.toNat = 0xE0000000 := rfl
  have whole : blocks heapStart.toNat (pre ++ c :: post) =
      blocks 0xE0000000 pre ++ blocks (after pre + c.size) post := by
    rw [start, blocks_append, blocks_free free]
    rfl
  refine ⟨fun q hq => ?_, fun q hq => ?_⟩
  · rw [whole] at hq
    rw [start, blocks_reused fits]
    rcases List.mem_append.1 hq with hq | hq
    · exact List.mem_append_left _ hq
    · exact List.mem_append_right _ (List.mem_cons_of_mem _ hq)
  · rw [whole] at hq
    rw [addr_toNat bound, header]
    rcases List.mem_append.1 hq with hq | hq
    · have := blocks_bounds hq
      unfold after
      omega
    · have := blocks_bounds hq
      omega

theorem undisturbed_of_appended (bound : after l + 12 < 2 ^ 32) :
    Undisturbed l (appended l n) (addr (after l + 12)) len := by
  have start : heapStart.toNat = 0xE0000000 := rfl
  refine ⟨fun q hq => ?_, fun q hq => ?_⟩
  · rw [start, blocks_appended]
    exact List.mem_append_left _ hq
  · have := blocks_bounds hq
    rw [addr_toNat bound, show sizeofHeader.toNat = 12 from rfl]
    unfold after
    omega

end Contract

/-- For every length for which nothing wraps: if a free chunk has room, `kmalloc` returns and has
taken the lowest such chunk.  Otherwise it appends a chunk and takes the frames for its pages and their
tables, if the frame stack holds as many, and stops if it does not.  When it returns, the chunks still
tile the heap and no block has been disturbed. -/
theorem kmalloc_firstFit (im : Image) (F : List Word) (m : Machine) (l : List Chunk)
    (pool : KernelFrames im F) (heap : WellFormed im F m l) (len : Word) (noWrap : NoWrap m len) :
    (¬ NoneFits (len.toNat + sizeofHeader.toNat) l → ∃ pre c post p t d rest,
      l = pre ++ c :: post ∧ c.used = false ∧ len.toNat + sizeofHeader.toNat ≤ c.size ∧
      NoneFits (len.toNat + sizeofHeader.toNat) pre ∧
      Returns (kmalloc im len) m p t ∧ p.toNat = after pre + sizeofHeader.toNat ∧
      Reuses m t (len.toNat + sizeofHeader.toNat) c d rest ∧
      HeapHas (· = false) im F t (pre ++ d :: (rest ++ post)) ∧
      Undisturbed l (pre ++ d :: (rest ++ post)) p len) ∧
    (NoneFits (len.toNat + sizeofHeader.toNat) l →
      (framesNeeded im m (after l + (len.toNat + sizeofHeader.toNat)) ≤ (frames m).length → ∃ p t d,
        Returns (kmalloc im len) m p t ∧ p.toNat = after l + sizeofHeader.toNat ∧
        Appends m t (len.toNat + sizeofHeader.toNat) (after l) d ∧
        (frames t).length + framesNeeded im m (after l + (len.toNat + sizeofHeader.toNat)) =
          (frames m).length ∧
        WellFormed im F t (l ++ [d]) ∧ Undisturbed l (l ++ [d]) p len) ∧
      ((frames m).length < framesNeeded im m (after l + (len.toNat + sizeofHeader.toNat)) →
        ∃ t, Stops (kmalloc im len) m outOfMemory t)) := by
  obtain ⟨pages, tables, heap⟩ := heap
  obtain ⟨small, room⟩ := (heap.noWrap_iff pool).1 noWrap
  have header : sizeofHeader.toNat = 12 := rfl
  have place := heap.end_toNat pool
  have limit := heap.listed.own.heapMax_lt pool
  have fits := heap.listed.fits
  rw [header]
  refine ⟨fun some_fits => ?_, fun none => ?_⟩
  · obtain ⟨pre, c, post, rfl, free, enough, none⟩ := exists_firstFit some_fits
    obtain ⟨-, bound⟩ := heap.listed.size_lt pool
    have spec : WP (kmalloc im len) (fun _ _ => False) (fun p t => p = addr (after pre + 12) ∧
        Reuses m t (len.toNat + 12) c { (split (after pre) c (len.toNat + 12)).1 with used := true }
          (split (after pre) c (len.toNat + 12)).2 ∧
        HeapHas (· = false) im F t (reused pre c post (len.toNat + 12))) m := by
      apply heap.listed.kmalloc pool heap.first small room (fun h => absurd h some_fits)
      · intro pre' c' post' phys same free' enough' none' listed
        obtain ⟨rfl, rfl, rfl⟩ := firstFit_unique none free enough none' free' enough' same
        have blind := heap.weaken (· = false) fun _ _ => trivial
        exact ⟨rfl, reuses_of_setMem heap.listed.own listed.own pool enough, _, _,
          blind.of_reused listed enough (blind.tidy.reused rfl (by decide) free _)⟩
      · exact fun _ _ _ h => absurd h some_fits
    obtain ⟨p, t, run, rfl, reuses, heap'⟩ := spec.returns
    refine ⟨pre, c, post, _, t, _, _, rfl, free, enough, none, run, ?_, reuses, heap', ?_⟩
    · exact addr_toNat (by omega)
    · exact undisturbed_of_reused free enough (by omega)
  · have spec : WP (kmalloc im len) (fun e _ => e = outOfMemory)
        (fun p t => p = addr (after l + 12) ∧
          Appends m t (len.toNat + 12) (after l) ⟨len.toNat + 12, true, lastWord 0 0xE0000000 l⟩ ∧
          WellFormed im F t (appended l (len.toNat + 12))) m := by
      apply heap.listed.kmalloc pool heap.first small room (fun _ _ _ => rfl)
      · intro pre c post phys same free enough
        have := none c (by rw [same]; simp) free
        omega
      · intro t more new _ listed first reached _
        have heap' := heap.of_appended listed first reached
        refine ⟨rfl, ⟨rfl, rfl, ?_, fun va hi => ?_, fun va lo => ?_⟩, _, _, heap'⟩
        · rw [heap'.reached, after_appended]
        · exact heap.listed.own.translate_eq heap'.listed.own pool hi
        · by_cases hi : va.toNat < t.heapMax.toNat
          · have := heap.listed.own.mapped.heapMax
            exact iff_of_true (heap'.listed.own.isSome_translate pool (by omega) hi) hi
          · rw [heap'.listed.own.translate_behind pool (not_lt.1 hi)]
            exact iff_of_false (by simp) hi
    have exact := heap.kmalloc_exact pool none (room none) rfl
    have needed := @Owned.framesNeeded_eq _ _ _ _ _ heap.listed.own pool (after l + (len.toNat + 12))
    refine ⟨fun enough => ?_, (heap.kmalloc_outcome pool noWrap).2 none⟩
    rcases (spec.and exact).outcome with
      ⟨p, t, run, ⟨rfl, appends, formed⟩, -, pages', tables', heap', count⟩ | ⟨e, t, -, -, -, few⟩
    · have size := heap.heapPages_appended heap'
      have balance := heap'.listed.own.balance
      rw [← heap'.listed.own.heapPages_eq, size, count] at balance
      refine ⟨_, t, _, run, addr_toNat ?_, appends, by omega, formed, undisturbed_of_appended ?_⟩
      all_goals unfold after; omega
    · omega

/-- On an empty heap a chunk is appended, which takes a page and a table; the freed first of two
chunks is reused. -/
theorem kmalloc_firstFit_128M : (∃ F m p t d, Returns (kmalloc smallImage 100) m p t ∧
      Appends m t 112 0xE0000000 d ∧ (frames t).length + 2 = (frames m).length ∧
      WellFormed smallImage F t [d]) ∧
    ∃ m p t c d rest, Returns (kmalloc smallImage 10) m p t ∧ Reuses m t 22 c d rest := by
  obtain ⟨m, v, v₀, temp, zeroed, empty, pool, boot, init, enough⟩ := booted_heap_128M
  have heap := heapList_of_initHeap smallImage temp zeroed empty boot init fun _ => True
  obtain ⟨m₁, m₂, pages, tables, run₁, noWrap, -, -, heap₂⟩ := two_chunks heap pool enough
  obtain ⟨⟨⟩, m₃, -, kept, -, -, heap₃, -⟩ := (HeapList.kfree (E := fun _ _ => False) []
    heap₂ pool trivial rfl).returns
  constructor
  · have own := heap.listed.own
    have free : (frames v₀).length = 32256 := by
      have balance := own.balance
      rw [List.length_nil] at balance
      omega
    have needed : framesNeeded smallImage v₀
        (after [] + ((100 : Word).toNat + sizeofHeader.toNat)) = 2 := by
      have reach : pagesTo v₀ (after [] + ((100 : Word).toNat + sizeofHeader.toNat)) = 1 := by
        rw [pagesTo, own.heapPages_eq]
        decide
      rw [framesNeeded, reach, own.heapPages_eq, own.heapTables_eq pool]
      decide
    obtain ⟨p, t, d, run, -, appends, spent, formed, -⟩ := ((kmalloc_firstFit smallImage (frames m)
      v₀ [] pool ⟨_, _, heap⟩ 100 noWrap).2 (by simp [NoneFits])).1 (by omega)
    rw [needed] at spent
    exact ⟨_, v₀, p, t, d, run, appends, spent, formed⟩
  · have noWrap₃ : NoWrap m₃ 10 := (heap₃.noWrap_iff pool).2 (by decide)
    obtain ⟨pre, c, post, p, t, d, rest, -, -, -, -, run, -, reuses, -⟩ :=
      (kmalloc_firstFit smallImage (frames m) m₃ _ pool ⟨_, _, heap₃⟩ 10 noWrap₃).1 (by decide)
    exact ⟨m₃, p, t, c, d, rest, run, reuses⟩

/-! ## Lengths that wrap -/

/-- The chunk in front of `p` has, in exact numbers, room for `len` bytes behind its header, and all
of it is mapped. -/
structure Delivered (m : Machine) (p len : Word) : Prop where
  length : len.toNat + sizeofHeader.toNat ≤ (fieldOf m (p - sizeofHeader) .info >>> 1).toNat
  start : heapStart.toNat + sizeofHeader.toNat ≤ p.toNat
  below : p.toNat + len.toNat ≤ m.heapMax.toNat
  mapped : ∀ va : Word, p.toNat ≤ va.toNat + sizeofHeader.toNat → va.toNat < p.toNat + len.toNat →
    (translate m va).isSome

section Wrap

variable {E : Stop → Machine → Prop} {which : Bool → Prop} {im : Image} {F pages tables : List Word}
  {m : Machine} {l pre post : List Chunk} {c : Chunk} {len : Word}

theorem Listed.delivered (listed : Listed im F m pages tables (pre ++ c :: post))
    (pool : KernelFrames im F) (room : len.toNat + 12 ≤ c.size) :
    Delivered m (addr (after pre + 12)) len := by
  obtain ⟨size, bound⟩ := listed.size_lt pool
  have fits := listed.fits
  have header : sizeofHeader.toNat = 12 := rfl
  have start : heapStart.toNat = 0xE0000000 := rfl
  have place := addr_toNat (a := after pre + 12) (by omega)
  have info : fieldOf m (addr (after pre)) .info = infoWord c.used c.size := listed.header.info
  rw [total_append, total_cons] at fits
  have inside : after pre + (len.toNat + 12) ≤ m.heapMax.toNat := by
    unfold after
    omega
  refine ⟨?_, ?_, by omega, fun va lo hi => ?_⟩
  · rw [addr_sub_header, info, infoWord_shiftRight size, BitVec.toNat_ofNat,
      Nat.mod_eq_of_lt (by omega), header]
    exact room
  · rw [place, header, start]
    unfold after
    omega
  · refine listed.own.isSome_translate pool ?_ (by omega)
    rw [place, header] at lo
    unfold after at lo
    omega

/-- Whatever happens to the chunk, a pointer behind the end of the list comes back. -/
theorem HeapList.kmalloc_behind (heap : HeapList which im F m pages tables l)
    (pool : KernelFrames im F) (small : len.toNat + 12 < 2 ^ 32)
    (none : NoneFits (len.toNat + 12) l) :
    WP (SimpleKernel.kmalloc im len) (fun _ _ => True) (fun p _ => p = addr (after l + 12)) m := by
  have sum : (len + sizeofHeader).toNat = len.toNat + 12 := toNat_offset (i := 12) small
  have any {α : Type} (k : Kernel α) (t : Machine) : WP k (fun _ _ => True) (fun _ _ => True) t := by
    unfold WP
    split <;> trivial
  simp only [SimpleKernel.kmalloc, wp_bind]
  refine heap.listed.findChunk pool heap.first (fun pre c post same free fits _ => ?_) fun _ => ?_
  · have := none c (by rw [same]; simp) free
    omega
  · dsimp only
    rw [if_neg (not_not.2 rfl), wp_bind]
    refine heap.listed.chunkStart pool ?_
    have value : addr (after l) + sizeofHeader = addr (after l + 12) := (addr_add _ 12).symm
    split_ifs <;> simp only [wp_bind, wp_modify, wp_pure] <;> exact (any _ _).mono fun _ _ _ => value

end Wrap

/-- When `kmalloc` returns, it has delivered what was asked for exactly when neither the length with
the header nor the end of an appended chunk wraps. -/
theorem kmalloc_delivered_iff (im : Image) (F : List Word) (m : Machine) (l : List Chunk)
    (pool : KernelFrames im F) (heap : WellFormed im F m l) (len p : Word) (t : Machine)
    (run : Returns (kmalloc im len) m p t) :
    Delivered t p len ↔ len.toNat + sizeofHeader.toNat < 2 ^ 32 ∧
      (NoneFits (len.toNat + sizeofHeader.toNat) l →
        after l + (len.toNat + sizeofHeader.toNat) < 2 ^ 32) := by
  obtain ⟨pages, tables, heap⟩ := heap
  have header : sizeofHeader.toNat = 12 := rfl
  rw [header]
  constructor
  · intro delivered
    have length := delivered.length
    rw [BitVec.toNat_ushiftRight, Nat.shiftRight_eq_div_pow] at length
    refine ⟨by omega, fun none => ?_⟩
    obtain rfl := (heap.kmalloc_behind pool (by omega) none).returned run
    have below := delivered.below
    have fits := heap.listed.fits
    have limit := heap.listed.own.heapMax_lt pool
    rw [addr_toNat (by unfold after; omega)] at below
    omega
  · rintro ⟨small, room⟩
    have spec : WP (kmalloc im len) (fun _ _ => True) (fun p t => Delivered t p len) m := by
      apply heap.listed.kmalloc pool heap.first small room (fun _ _ _ => trivial)
      · intro pre c post phys _ _ fits _ listed
        exact Listed.delivered listed pool (split_size fits).1
      · intro t more new _ listed _ _ _
        have last : Listed im F t _ _ (_ ++ _ :: []) := listed
        exact last.delivered pool le_rfl
    exact spec.returned run

/-- On an empty heap `kmalloc(0xFFFFFFFF)` makes a chunk of 11 bytes. -/
theorem HeapList.kmalloc_max {F : List Word} {m : Machine}
    (heap : HeapList (fun _ => True) smallImage F m [] [] []) (pool : KernelFrames smallImage F)
    (enough : (frames m).length = 32256) :
    ∃ t, Returns (SimpleKernel.kmalloc smallImage 0xFFFFFFFF) m 0xE000000C t := by
  have reached : m.heapMax.toNat = 0xE0000000 := heap.reached
  have spec : WP (SimpleKernel.kmalloc smallImage 0xFFFFFFFF) (fun _ _ => False)
      (fun p _ => p = 0xE000000C) m := by
    have sum : (0xFFFFFFFF : Word) + sizeofHeader = 11 := by decide
    simp only [SimpleKernel.kmalloc, wp_bind, sum]
    apply heap.listed.findChunk pool heap.first
    · intro pre c post same
      simp at same
    intro _
    simp only [lastWord_nil, ne_eq, not_true_eq_false, if_false, if_true, chunkStart, wp_bind,
      wp_pure, wp_modify, appendChunk]
    refine (allocChunk_spec (heap.listed.own.setHeapFirst heapStart) pool
      (by decide : heapStart.toNat + (11 : Word).toNat < 2 ^ 32) fun few => ?_).mono
      fun _ t grown => ?_
    · rw [Machine.setHeapFirst_heapMax, reached] at few
      have same : frames (m.setHeapFirst heapStart) = frames m := rfl
      rw [same, enough] at few
      exact absurd few (by decide)
    · obtain ⟨more, new, own, up, -⟩ := grown
      rw [Machine.setHeapFirst_heapMax, reached] at up
      have end_page : t.heapMax.toNat = 0xE0001000 := up.trans (by decide)
      have heads := own.heads (l := [⟨12, true, 0⟩]) (by simp) (by rw [end_page]; decide)
      have at_start : 0xE0000000 ∈ starts Chunk.size 0xE0000000 [⟨12, true, 0⟩] := by simp
      obtain ⟨used, n, hn, info⟩ := exists_infoWord (fieldAt (view t) 0xE0000000 .info)
      have first : heapStart = addr 0xE0000000 := rfl
      simp only [linkChunk, setPrev, setNext, wp_bind, first]
      refine heads.storeField pool at_start .prev fun _ heads => ?_
      refine heads.storeField pool at_start .next fun _ heads => ?_
      refine heads.setAllocated pool at_start (v := true) (n := n) (?_ : _ = infoWord used n) hn
        fun _ heads => ?_
      · rw [setField_field _ _ (by decide), setField_field _ _ (by decide), info]
      refine heads.setLength pool at_start (k := 11) (setField_self ..) hn (by decide)
        fun _ heads => ?_
      simp only [ne_eq, not_true_eq_false, if_false, wp_pure]
      decide
  obtain ⟨_, t, run, rfl⟩ := spec.returns
  exact ⟨t, run⟩

/-- The chunk of 11 bytes that `kmalloc(0xFFFFFFFF)` returns is no delivery. -/
theorem kmalloc_max_not_delivered : ∃ m v v₀ t l, KernelFrames smallImage (frames m) ∧
    Returns (initVmm smallImage) m () v ∧ Returns initHeap v () v₀ ∧
    WellFormed smallImage (frames m) v₀ l ∧
    Returns (kmalloc smallImage 0xFFFFFFFF) v₀ 0xE000000C t ∧
    ¬ Delivered t 0xE000000C 0xFFFFFFFF := by
  obtain ⟨m, v, v₀, temp, zeroed, empty, pool, boot, init, enough⟩ := booted_heap_128M
  have heap := heapList_of_initHeap smallImage temp zeroed empty boot init fun _ => True
  obtain ⟨t, run⟩ := heap.kmalloc_max pool enough
  refine ⟨m, v, v₀, t, [], pool, boot, init, ⟨_, _, heap⟩, run, fun delivered => ?_⟩
  have below := delivered.below
  have limit := t.heapMax.isLt
  have pointer : (0xE000000C : Word).toNat = 0xE000000C := rfl
  have length : (0xFFFFFFFF : Word).toNat = 0xFFFFFFFF := rfl
  omega

theorem kmalloc_delivered_iff_128M : ∃ m t, Returns (kmalloc smallImage 100) m 0xE000000C t ∧
    Delivered t 0xE000000C 100 := by
  obtain ⟨m, v, v₀, temp, zeroed, empty, pool, boot, init, enough⟩ := booted_heap_128M
  have heap := heapList_of_initHeap smallImage temp zeroed empty boot init fun _ => True
  obtain ⟨m₁, m₂, pages, tables, run₁, -⟩ := two_chunks heap pool enough
  exact ⟨v₀, m₁, run₁, (kmalloc_delivered_iff smallImage (frames m) v₀ [] pool ⟨_, _, heap⟩ 100 _
    m₁ run₁).2 (by decide)⟩

end SimpleKernel
