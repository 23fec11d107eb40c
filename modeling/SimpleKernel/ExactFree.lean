import SimpleKernel.FirstFit

/-!
# What `kfree` does to a well-formed heap

`kfree` takes one block away, leaves all others where they are, makes one free chunk of the gap, or
drops it at the end of the list, and gives exactly the pages behind the new end back.
-/

namespace SimpleKernel

open ByteStore ProgramLogic Tiling

/-- Where the gap begins when the chunk behind `pre` is freed: a free chunk before it belongs to it. -/
def gapStart (pre : List Chunk) : ℕ :=
  match pre.getLast? with
  | some p => if p.used then after pre else after pre - p.size
  | none => after pre

/-- Where the gap ends when the chunk before `post` is freed, which ends at `a`. -/
def gapEnd (a : ℕ) : List Chunk → ℕ
  | [] => a
  | n :: _ => if n.used then a else a + n.size

section Gap

variable {pre post pre' post' : List Chunk} {c c' : Chunk} {a : ℕ}

theorem joinNext_gapEnd (a : ℕ) : a + (joinNext a c post).1.size = gapEnd (a + c.size) post := by
  cases post with
  | nil => rfl
  | cons n post =>
    rw [joinNext, gapEnd]
    split_ifs
    · rfl
    · simp only
      omega

/-- The chunk that is merged from behind is not the last one. -/
theorem joinNext_ne_nil (last : LastUsed post) (ne : post ≠ []) : (joinNext a c post).2 ≠ [] := by
  cases post with
  | nil => exact absurd rfl ne
  | cons n post =>
    rw [joinNext]
    split_ifs with used
    · exact List.cons_ne_nil _ _
    · cases post with
      | nil => exact absurd (last n (by simp)) used
      | cons d post => exact List.cons_ne_nil _ _

theorem joinPrev_gapStart (join : joinPrev pre c post = (pre', c', post')) :
    after pre' = gapStart pre ∧ after pre' + c'.size = after pre + c.size ∧
      (post' = [] ↔ post = []) ∧ (c.used = false → c'.used = false) := by
  rcases List.eq_nil_or_concat' pre with rfl | ⟨pre, p, rfl⟩
  · obtain ⟨rfl, rfl, rfl⟩ := joinPrev_nil.symm.trans join
    exact ⟨rfl, rfl, Iff.rfl, id⟩
  · have start : gapStart (pre ++ [p]) =
        if p.used then after (pre ++ [p]) else after (pre ++ [p]) - p.size := by
      simp [gapStart]
    cases used : p.used with
    | true =>
      obtain ⟨rfl, rfl, rfl⟩ := (joinPrev_used used).symm.trans join
      exact ⟨by rw [start, if_pos used], rfl, Iff.rfl, id⟩
    | false =>
      obtain ⟨rfl, rfl, rfl⟩ := (joinPrev_free used).symm.trans join
      refine ⟨?_, ?_, ?_, fun _ => used⟩
      · rw [start, if_neg (by simp [used]), after_concat, Nat.add_sub_cancel]
      · rw [after_concat]
        simp only
        omega
      · cases post <;> simp

/-- The freed chunk with its free neighbours is one free chunk, or behind the end of the list. -/
theorem freed_gap (pre : List Chunk) (c : Chunk) (last : LastUsed post) :
    (post = [] → after (freed pre c post) = gapStart pre) ∧
    (post ≠ [] → ∃ pre' d post', freed pre c post = pre' ++ d :: post' ∧ d.used = false ∧
      after pre' = gapStart pre ∧ after pre' + d.size = gapEnd (after pre + c.size) post) := by
  rcases join : joinPrev pre (joinNext (after pre) { c with used := false } post).1
    (joinNext (after pre) { c with used := false } post).2 with ⟨pre', d, post'⟩
  have result : freed pre c post = dropFree (pre', d, post') := congrArg dropFree join
  obtain ⟨start, stop, tail, free⟩ := joinPrev_gapStart join
  have ends : after pre + (joinNext (after pre) { c with used := false } post).1.size =
      gapEnd (after pre + c.size) post := joinNext_gapEnd (after pre)
  refine ⟨?_, fun ne => ?_⟩
  · rintro rfl
    obtain rfl := tail.2 rfl
    rw [result, ← start]
    rfl
  · have rest : post' ≠ [] := fun empty => joinNext_ne_nil last ne (tail.1 empty)
    refine ⟨pre', d, post', ?_, free (joinNext_used _), start, stop.trans ends⟩
    rw [result]
    cases post' with
    | nil => exact absurd rfl rest
    | cons e post' => rfl

/-- A block is no earlier block of the list. -/
theorem blocks_erase (used : c.used = true) (pos : 0 < c.size) :
    (blocks 0xE0000000 (pre ++ c :: post)).erase (after pre, c.size) =
      blocks 0xE0000000 pre ++ blocks (after pre + c.size) post := by
  have out : (after pre, c.size) ∉ blocks 0xE0000000 pre := by
    intro mem
    have := blocks_bounds mem
    unfold after at this
    simp only at this
    omega
  have split : blocks 0xE0000000 (pre ++ c :: post) = blocks 0xE0000000 pre ++
      (after pre, c.size) :: blocks (after pre + c.size) post := by
    rw [blocks_append, blocks_used used]
    rfl
  rw [split, List.erase_append_right _ out, List.erase_cons_head]

end Gap

/-- `t` is `m` with the block of the chunk `c`, which stood between `pre` and `post`, freed. -/
structure Freed (m t : Machine) (pre : List Chunk) (c : Chunk) (post l' : List Chunk) : Prop where
  blocks : blocks heapStart.toNat l' =
    (blocks heapStart.toNat (pre ++ c :: post)).erase (after pre, c.size)
  dropped : post = [] → after l' = gapStart pre
  merged : post ≠ [] → ∃ pre' d post', l' = pre' ++ d :: post' ∧ d.used = false ∧
    after pre' = gapStart pre ∧ after pre' + d.size = gapEnd (after pre + c.size) post
  released : ∃ fs : List Word, frames t = frames m ++ fs ∧ fs.Nodup ∧
    ∀ f, f ∈ fs ↔ ∃ va : Word, HeapPage m f va ∧ t.heapMax.toNat ≤ va.toNat

/-- Freeing any block of a well-formed heap leaves a well-formed heap with exactly that block less:
it becomes part of the gap, and the pages behind the new `heap_max` go back to the frame stack. -/
theorem kfree_exact (im : Image) (F : List Word) (m : Machine) (pre : List Chunk) (c : Chunk)
    (post : List Chunk) (pool : KernelFrames im F) (heap : WellFormed im F m (pre ++ c :: post))
    (used : c.used = true) : ∃ t l', Returns (kfree im (addr (after pre + sizeofHeader.toNat))) m () t ∧
      WellFormed im F t l' ∧ Freed m t pre c post l' := by
  obtain ⟨pages, tables, heap⟩ := heap
  obtain ⟨-, back, -⟩ := backs_append.1 heap.tidy.backs
  obtain ⟨⟨⟩, t, run, kept, released, rfl, heap', pushed⟩ :=
    (heap.kfree (E := fun _ _ => False) pre pool trivial (back trivial)).returns
  have size := heap.listed.sizes c (by simp)
  obtain ⟨dropped, merged⟩ := freed_gap pre c heap.tidy.last.behind
  have start : heapStart.toNat = 0xE0000000 := rfl
  refine ⟨t, _, run, ⟨_, _, heap'⟩, ?_, dropped, merged, released.reverse, pushed, ?_, fun f => ?_⟩
  · rw [start, blocks_freed, blocks_erase used (by omega)]
  · have nodup := (heap.listed.own.heap pool).nodup
    rw [List.nodup_reverse]
    exact (List.nodup_append'.1 (List.nodup_append'.1 nodup).1).2.1
  · have reached := heap'.listed.own.mapped.heapMax
    rw [List.mem_reverse]
    constructor
    · intro hf
      obtain ⟨i, hit⟩ := List.getElem?_of_mem hf
      have lt := (List.getElem?_eq_some_iff.1 hit).1
      have limit := heap.listed.own.heapMax_lt pool
      have old := heap.listed.own.mapped.heapMax
      rw [List.length_append] at old
      have place := addr_toNat (a := 0xE0000000 + 4096 * (kept.length + i)) (by omega)
      refine ⟨addr (0xE0000000 + 4096 * (kept.length + i)),
        (heap.listed.own.heapPage_iff pool).2 ⟨kept.length + i, ?_, place⟩, by omega⟩
      rw [List.getElem?_append_right (by omega), Nat.add_sub_cancel_left]
      exact hit
    · rintro ⟨va, page, behind⟩
      obtain ⟨i, hit, place⟩ := (heap.listed.own.heapPage_iff pool).1 page
      rw [List.getElem?_append_right (by omega)] at hit
      exact List.mem_of_getElem? hit

/-- Freeing the first of two blocks leaves one free chunk and one block. -/
theorem kfree_exact_128M : ∃ F m t l', Returns (kfree smallImage 0xE000000C) m () t ∧
    WellFormed smallImage F t l' ∧
    Freed m t [] ⟨112, true, 0⟩ [⟨112, true, 0xE0000000⟩] l' := by
  obtain ⟨m, v, v₀, temp, zeroed, empty, pool, boot, init, enough⟩ := booted_heap_128M
  have heap := heapList_of_initHeap smallImage temp zeroed empty boot init fun _ => True
  obtain ⟨m₁, m₂, pages, tables, -, -, -, -, heap₂⟩ := two_chunks heap pool enough
  obtain ⟨t, l', run, formed, freed⟩ := kfree_exact smallImage (frames m) m₂ [] ⟨112, true, 0⟩
    [⟨112, true, 0xE0000000⟩] pool ⟨_, _, heap₂⟩ rfl
  exact ⟨_, m₂, t, l', run, formed, freed⟩

end SimpleKernel
