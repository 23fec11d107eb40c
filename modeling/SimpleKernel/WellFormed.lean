import Mathlib.Data.List.Chain
import SimpleKernel.Kmalloc

/-!
# Well-formed heaps

What every sequence of `kmalloc` and `kfree` keeps of the chunk list: no two free chunks are
neighbours, the last chunk is in use, `heap_max` is the end of the last chunk's page, and the `prev`
links of the chunks of interest are right.  The used chunks are read off as blocks.
-/

namespace SimpleKernel

open ByteStore ProgramLogic Tiling

/-! ## Neighbours -/

/-- Of two neighbours at least one is in use. -/
def Spaced (l : List Chunk) : Prop := l.IsChain fun c d => c.used = true ∨ d.used = true

def HeadUsed (l : List Chunk) : Prop := ∀ c ∈ l.head?, c.used = true

def LastUsed (l : List Chunk) : Prop := ∀ c ∈ l.getLast?, c.used = true

/-- What is kept of the chunk list; `which` says of which flags the `prev` links are right. -/
structure Tidy (which : Bool → Prop) (l : List Chunk) : Prop where
  backs : Backs which 0 0xE0000000 l
  spaced : Spaced l
  last : LastUsed l

section Neighbours

variable {which : Bool → Prop} {l pre post : List Chunk} {c : Chunk}

theorem spaced_append : Spaced (pre ++ post) ↔ Spaced pre ∧ Spaced post ∧
    ∀ c ∈ pre.getLast?, ∀ d ∈ post.head?, c.used = true ∨ d.used = true := List.isChain_append

theorem spaced_cons : Spaced (c :: l) ↔ (∀ d ∈ l.head?, c.used = true ∨ d.used = true) ∧ Spaced l :=
  List.isChain_cons

theorem LastUsed.tail (last : LastUsed (c :: l)) : LastUsed l := by
  cases l with
  | nil => exact fun d hd => absurd hd (by simp)
  | cons e l => exact last

theorem LastUsed.behind (last : LastUsed (pre ++ c :: post)) : LastUsed post := by
  rw [List.append_cons] at last
  cases post with
  | nil => exact fun d hd => absurd hd (by simp)
  | cons e l =>
    rw [LastUsed, List.getLast?_append_cons] at last
    exact last

theorem Spaced.relink (spaced : Spaced l) (p : Word) : Spaced (relink p l) := by
  cases l with
  | nil => exact spaced
  | cons c l =>
    obtain ⟨next, rest⟩ := spaced_cons.1 spaced
    exact spaced_cons.2 ⟨next, rest⟩

theorem HeadUsed.relink (head : HeadUsed l) (p : Word) : HeadUsed (relink p l) := by
  cases l with
  | nil => exact head
  | cons c l =>
    intro d hd
    obtain rfl := Option.some_inj.1 hd
    exact head c rfl

theorem LastUsed.relink (last : LastUsed l) (p : Word) : LastUsed (relink p l) := by
  cases l with
  | nil => exact last
  | cons c l =>
    cases l with
    | nil =>
      intro d hd
      obtain rfl := Option.some_inj.1 hd
      exact last c rfl
    | cons e l => exact last

/-- What may stand behind a free chunk. -/
structure BehindFree (l : List Chunk) : Prop where
  spaced : Spaced l
  head : HeadUsed l
  last : LastUsed l

theorem BehindFree.relink (behind : BehindFree l) (p : Word) : BehindFree (relink p l) :=
  ⟨behind.spaced.relink p, behind.head.relink p, behind.last.relink p⟩

/-- `glue_chunk` leaves a used chunk behind the merged one, if any. -/
theorem behindFree_joinNext (a : ℕ) (spaced : Spaced post) (last : LastUsed post) :
    BehindFree (joinNext a c post).2 := by
  cases post with
  | nil => exact ⟨spaced, fun d hd => absurd hd (by simp [joinNext]), last⟩
  | cons n post =>
    obtain ⟨next, rest⟩ := spaced_cons.1 spaced
    rw [joinNext]
    split_ifs with used
    · refine ⟨spaced, fun d hd => ?_, last⟩
      obtain rfl := Option.some_inj.1 hd
      exact used
    · have head : HeadUsed post := fun d hd => (next d hd).resolve_left used
      exact ⟨rest.relink _, head.relink _, last.tail.relink _⟩

/-- Merging with the chunk before leaves a used chunk before the merged one, if any. -/
theorem joinPrev_before {pre' post' : List Chunk} {c' : Chunk} (spaced : Spaced pre)
    (behind : BehindFree post) (join : joinPrev pre c post = (pre', c', post')) :
    Spaced pre' ∧ LastUsed pre' ∧ BehindFree post' := by
  rcases List.eq_nil_or_concat' pre with rfl | ⟨pre, p, rfl⟩
  · obtain ⟨rfl, rfl, rfl⟩ := joinPrev_nil.symm.trans join
    exact ⟨spaced, fun d hd => absurd hd (by simp), behind⟩
  cases used : p.used with
  | true =>
    obtain ⟨rfl, rfl, rfl⟩ := (joinPrev_used used).symm.trans join
    refine ⟨spaced, fun d hd => ?_, behind⟩
    rw [List.getLast?_concat] at hd
    obtain rfl := Option.some_inj.1 hd
    exact used
  | false =>
    obtain ⟨rfl, rfl, rfl⟩ := (joinPrev_free used).symm.trans join
    obtain ⟨spaced, -, next⟩ := spaced_append.1 spaced
    refine ⟨spaced, fun d hd => ?_, behind.relink _⟩
    exact (next d hd p rfl).resolve_right (by simp [used])

theorem Backs.joinPrev {pre' post' : List Chunk} {c' : Chunk} (free : which false)
    (backs : Backs which 0 0xE0000000 (pre ++ c :: post))
    (join : joinPrev pre c post = (pre', c', post')) :
    Backs which 0 0xE0000000 (pre' ++ c' :: post') := by
  rcases List.eq_nil_or_concat' pre with rfl | ⟨pre, p, rfl⟩
  · obtain ⟨rfl, rfl, rfl⟩ := joinPrev_nil.symm.trans join
    exact backs
  cases used : p.used with
  | true =>
    obtain ⟨rfl, rfl, rfl⟩ := (joinPrev_used used).symm.trans join
    exact backs
  | false =>
    obtain ⟨rfl, rfl, rfl⟩ := (joinPrev_free used).symm.trans join
    rw [List.append_assoc, List.singleton_append] at backs
    obtain ⟨before, back, -, rest⟩ := backs_append.1 backs
    rw [Nat.add_assoc (0xE0000000 + total Chunk.size _)] at rest
    exact backs_append.2 ⟨before, fun _ => back (used ▸ free), rest.relink _⟩

theorem tidy_dropFree (spaced : Spaced pre) (last : LastUsed pre)
    (behind : BehindFree post) (backs : Backs which 0 0xE0000000 (pre ++ c :: post)) :
    Tidy which (dropFree (pre, c, post)) := by
  cases post with
  | nil => exact ⟨(backs_append.1 backs).1, spaced, last⟩
  | cons d post =>
    refine ⟨backs, spaced_append.2 ⟨spaced, spaced_cons.2 ⟨fun e he => .inr (behind.head e he),
      behind.spaced⟩, fun e he _ _ => .inl (last e he)⟩, ?_⟩
    rw [LastUsed, dropFree, List.append_cons, List.getLast?_append_cons]
    · exact behind.last
    · exact List.cons_ne_nil _ _

/-- `kfree` keeps the order of the list if the freed chunk's `prev` link is right. -/
theorem Tidy.freed (tidy : Tidy which (pre ++ c :: post)) (free : which false)
    (back : c.back = lastWord 0 0xE0000000 pre) : Tidy which (freed pre c post) := by
  obtain ⟨before, -, rest⟩ := backs_append.1 tidy.backs
  obtain ⟨spaced, spaced', -⟩ := spaced_append.1 tidy.spaced
  have backs : Backs which 0 0xE0000000 (pre ++ { c with used := false } :: post) :=
    backs_append.2 ⟨before, fun _ => back, rest⟩
  rcases join : joinPrev pre (joinNext (after pre) { c with used := false } post).1
    (joinNext (after pre) { c with used := false } post).2 with ⟨pre', c', post'⟩
  have result : SimpleKernel.freed pre c post = dropFree (pre', c', post') :=
    congrArg dropFree join
  have behind := behindFree_joinNext (c := { c with used := false }) (after pre)
    (spaced_cons.1 spaced').2 tidy.last.behind
  obtain ⟨spacedPre, lastPre, behind'⟩ := joinPrev_before spaced behind join
  rw [result]
  exact tidy_dropFree spacedPre lastPre behind'
    (Backs.joinPrev free (backs_append.2 ⟨before, Backs.joinNext (backs_append.1 backs).2⟩) join)

/-- Reusing a free chunk as a whole keeps every link. -/
theorem Tidy.reused_whole {n : ℕ} (tidy : Tidy which (pre ++ c :: post)) (free : which false)
    (hc : c.used = false) (whole : c.size ≤ n + 12) :
    Tidy which (SimpleKernel.reused pre c post n) := by
  obtain ⟨before, back, rest⟩ := backs_append.1 tidy.backs
  obtain ⟨spaced, spaced', -⟩ := spaced_append.1 tidy.spaced
  obtain ⟨-, spaced''⟩ := spaced_cons.1 spaced'
  have kept : split (after pre) c n = (c, []) := if_neg (by omega)
  rw [SimpleKernel.reused, kept]
  refine ⟨backs_append.2 ⟨before, fun _ => back (hc ▸ free), rest⟩,
    spaced_append.2 ⟨spaced, spaced_cons.2 ⟨fun e _ => .inl rfl, spaced''⟩, fun e _ f hf => ?_⟩, ?_⟩
  · obtain rfl := Option.some_inj.1 hf
    exact .inr rfl
  · have last := tidy.last.behind
    intro e he
    cases post with
    | nil =>
      rw [List.nil_append, List.getLast?_concat] at he
      obtain rfl := Option.some_inj.1 he
      rfl
    | cons d post =>
      rw [List.nil_append, List.append_cons, List.getLast?_append_cons] at he
      exact last e he

/-- Reusing a free chunk keeps the order of the list, except that splitting leaves the `prev` link
of the used chunk behind it wrong. -/
theorem Tidy.reused (tidy : Tidy which (pre ++ c :: post)) (free : which false)
    (blind : ¬ which true) (hc : c.used = false) (n : ℕ) :
    Tidy which (reused pre c post n) := by
  obtain ⟨before, back, rest⟩ := backs_append.1 tidy.backs
  obtain ⟨spaced, spaced', next⟩ := spaced_append.1 tidy.spaced
  obtain ⟨next', spaced''⟩ := spaced_cons.1 spaced'
  have last := tidy.last.behind
  cases post with
  | nil =>
    have := tidy.last c (by simp)
    rw [hc] at this
    exact absurd this (by decide)
  | cons d post =>
    have hd : d.used = true := (next' d rfl).resolve_left (by simp [hc])
    have link (p q : Word) (a : ℕ) (h : Backs which p a (d :: post)) :
        Backs which q a (d :: post) := ⟨fun h' => absurd (hd ▸ h') blind, h.2⟩
    by_cases more : c.size - n > 12
    · rw [SimpleKernel.reused, split, if_pos more]
      refine ⟨backs_append.2 ⟨before, fun _ => back (hc ▸ free), fun _ => rfl, ?_⟩,
        spaced_append.2 ⟨spaced, spaced_cons.2 ⟨fun e _ => .inl rfl,
          spaced_cons.2 ⟨fun e he => .inr ?_, spaced''⟩⟩, fun e _ f hf => .inr ?_⟩, ?_⟩
      · have place : 0xE0000000 + total Chunk.size pre + n + (c.size - n) =
          0xE0000000 + total Chunk.size pre + c.size := by omega
        show Backs which _ (0xE0000000 + total Chunk.size pre + n + (c.size - n)) (d :: post)
        rw [place]
        exact link _ _ _ rest
      · obtain rfl := Option.some_inj.1 he
        exact hd
      · obtain rfl := Option.some_inj.1 hf
        rfl
      · have lastUsed : LastUsed (pre ++ [⟨n, true, c.back⟩, ⟨c.size - n, false, addr (after pre)⟩] ++
            d :: post) := by
          rw [LastUsed, List.getLast?_append_cons]
          exact last
        rwa [List.append_assoc] at lastUsed
    · exact tidy.reused_whole free hc (by omega)

/-- Appending a used chunk keeps every link. -/
theorem Tidy.appended (tidy : Tidy which l) (n : ℕ) : Tidy which (appended l n) := by
  refine ⟨backs_append.2 ⟨tidy.backs, fun _ => rfl, trivial⟩, spaced_append.2
    ⟨tidy.spaced, List.isChain_singleton _, fun e he _ _ => .inl (tidy.last e he)⟩, fun e he => ?_⟩
  rw [SimpleKernel.appended, List.getLast?_concat] at he
  obtain rfl := Option.some_inj.1 he
  rfl

end Neighbours

/-! ## Blocks -/

/-- The used chunks of `l` from `a` on, each with its address and length. -/
def blocks : ℕ → List Chunk → List (ℕ × ℕ)
  | _, [] => []
  | a, c :: l => if c.used then (a, c.size) :: blocks (a + c.size) l else blocks (a + c.size) l

section Blocks

variable {l₁ l₂ l pre post : List Chunk} {c : Chunk} {a n : ℕ}

theorem blocks_used (used : c.used = true) :
    blocks a (c :: l) = (a, c.size) :: blocks (a + c.size) l := if_pos used

theorem blocks_free (free : c.used = false) : blocks a (c :: l) = blocks (a + c.size) l :=
  if_neg (by simp [free])

theorem blocks_append : blocks a (l₁ ++ l₂) = blocks a l₁ ++ blocks (a + total Chunk.size l₁) l₂ := by
  induction l₁ generalizing a with
  | nil => rfl
  | cons c l₁ ih =>
    rw [List.cons_append, total_cons, ← Nat.add_assoc]
    cases used : c.used with
    | true => rw [blocks_used used, blocks_used used, ih, List.cons_append]
    | false => rw [blocks_free used, blocks_free used, ih]

@[simp] theorem blocks_relink (p : Word) : blocks a (relink p l) = blocks a l := by
  cases l <;> rfl

/-- The blocks lie one behind the other inside the list. -/
theorem blocks_sublist : (blocks a l).Sublist ((place Chunk.size a l).map fun q => (q.1, q.2.size)) := by
  induction l generalizing a with
  | nil => exact List.Sublist.refl _
  | cons c l ih =>
    cases used : c.used with
    | true =>
      rw [blocks_used used]
      exact ih.cons_cons _
    | false =>
      rw [blocks_free used]
      exact ih.cons _

theorem mem_blocks_iff {x : ℕ} : (x, n) ∈ blocks a l ↔ ∃ pre c post, l = pre ++ c :: post ∧
    c.used = true ∧ x = a + total Chunk.size pre ∧ n = c.size := by
  induction l generalizing a with
  | nil => simp [blocks]
  | cons c l ih =>
    constructor
    · intro h
      cases used : c.used with
      | true =>
        rw [blocks_used used, List.mem_cons, Prod.mk.injEq] at h
        rcases h with ⟨rfl, rfl⟩ | h
        · exact ⟨[], c, l, rfl, used, rfl, rfl⟩
        · obtain ⟨pre, d, post, rfl, hd, rfl, rfl⟩ := ih.1 h
          exact ⟨c :: pre, d, post, rfl, hd, by rw [total_cons, Nat.add_assoc], rfl⟩
      | false =>
        rw [blocks_free used] at h
        obtain ⟨pre, d, post, rfl, hd, rfl, rfl⟩ := ih.1 h
        exact ⟨c :: pre, d, post, rfl, hd, by rw [total_cons, Nat.add_assoc], rfl⟩
    · rintro ⟨pre, d, post, split, hd, rfl, rfl⟩
      rw [split, blocks_append, blocks_used hd]
      exact List.mem_append_right _ (List.mem_cons_self ..)

/-- Merging free chunks changes no block. -/
theorem blocks_joinNext (free : c.used = false) :
    blocks a ((joinNext a c post).1 :: (joinNext a c post).2) = blocks a (c :: post) := by
  cases post with
  | nil => rfl
  | cons n post =>
    rw [joinNext]
    split_ifs with used
    · rfl
    · have merged : blocks a ({ c with size := c.size + n.size } :: relink (addr a) post) =
          blocks (a + (c.size + n.size)) post := by
        rw [blocks_free (by exact free), blocks_relink]
      rw [merged, blocks_free free, blocks_free (by simpa using used), Nat.add_assoc]

theorem blocks_joinPrev {pre' post' : List Chunk} {c' : Chunk} (free : c.used = false)
    (join : joinPrev pre c post = (pre', c', post')) :
    c'.used = false ∧ blocks 0xE0000000 (pre' ++ c' :: post') = blocks 0xE0000000 (pre ++ c :: post) := by
  rcases List.eq_nil_or_concat' pre with rfl | ⟨pre, p, rfl⟩
  · obtain ⟨rfl, rfl, rfl⟩ := joinPrev_nil.symm.trans join
    exact ⟨free, rfl⟩
  cases used : p.used with
  | true =>
    obtain ⟨rfl, rfl, rfl⟩ := (joinPrev_used used).symm.trans join
    exact ⟨free, rfl⟩
  | false =>
    obtain ⟨rfl, rfl, rfl⟩ := (joinPrev_free used).symm.trans join
    refine ⟨used, ?_⟩
    have merged (a : ℕ) : blocks a ({ p with size := p.size + c.size } ::
        relink (addr (after pre')) post) = blocks (a + (p.size + c.size)) post := by
      rw [blocks_free (by exact used), blocks_relink]
    rw [List.append_assoc, List.singleton_append, blocks_append, blocks_append, merged,
      blocks_free used, blocks_free free, Nat.add_assoc _ p.size]

/-- `kfree` takes one block away and leaves the others where they are. -/
theorem blocks_freed : blocks 0xE0000000 (freed pre c post) =
    blocks 0xE0000000 pre ++ blocks (after pre + c.size) post := by
  rcases join : joinPrev pre (joinNext (after pre) { c with used := false } post).1
    (joinNext (after pre) { c with used := false } post).2 with ⟨pre', c', post'⟩
  have result : freed pre c post = dropFree (pre', c', post') := congrArg dropFree join
  obtain ⟨free, same⟩ := blocks_joinPrev (joinNext_used _) join
  have dropped : blocks 0xE0000000 (dropFree (pre', c', post')) =
      blocks 0xE0000000 (pre' ++ c' :: post') := by
    cases post' with
    | nil => rw [dropFree, blocks_append, blocks_free free, blocks, List.append_nil]
    | cons d post' => rfl
  rw [result, dropped, same, blocks_append]
  exact congrArg _ ((blocks_joinNext rfl).trans (blocks_free rfl))

theorem split_size (fits : n ≤ c.size) :
    n ≤ (split a c n).1.size ∧ (split a c n).1.size ≤ n + 12 ∧
      (split a c n).1.size + total Chunk.size (split a c n).2 = c.size := by
  rw [split]
  split_ifs with more
  · simp only [total_cons, total_nil]
    omega
  · simp only [total_nil]
    omega

/-- Reusing a free chunk adds one block. -/
theorem blocks_reused (fits : n ≤ c.size) :
    blocks 0xE0000000 (reused pre c post n) = blocks 0xE0000000 pre ++
      (after pre, (split (after pre) c n).1.size) :: blocks (after pre + c.size) post := by
  obtain ⟨-, -, whole⟩ := split_size (a := after pre) fits
  have rest (a : ℕ) : blocks a (split (after pre) c n).2 = [] := by
    rw [split]
    split_ifs
    · rfl
    · rfl
  rw [reused, blocks_append, blocks_used rfl, blocks_append, rest, List.nil_append]
  have place : after pre + c.size = 0xE0000000 + total Chunk.size pre +
      (split (after pre) c n).1.size + total Chunk.size (split (after pre) c n).2 := by
    rw [← whole, after, Nat.add_assoc _ (split _ c n).1.size]
  rw [place]
  rfl

theorem blocks_appended : blocks 0xE0000000 (appended l n) = blocks 0xE0000000 l ++ [(after l, n)] := by
  rw [appended, blocks_append]
  rfl

end Blocks

/-! ## Heaps -/

/-- The heap consists of the chunks `l`, in order, and `heap_first` and `heap_max` fit them. -/
structure HeapList (which : Bool → Prop) (im : Image) (F : List Word) (m : Machine)
    (pages tables : List Word) (l : List Chunk) : Prop where
  listed : Listed im F m pages tables l
  first : m.heapFirst = nextWord 0 0xE0000000 l
  reached : m.heapMax.toNat = pageUp (after l)
  tidy : Tidy which l

/-- The heap consists of the chunks `l`, whose `prev` links are right for the flags in `which`. -/
def HeapHas (which : Bool → Prop) (im : Image) (F : List Word) (m : Machine) (l : List Chunk) : Prop :=
  ∃ pages tables, HeapList which im F m pages tables l

/-- A well-formed heap: the chunks `l` tile it from `HEAP_START` on, `prev` is the inverse of `next`,
no two neighbours are free, the last chunk is in use and `heap_max` is the end of its page. -/
def WellFormed (im : Image) (F : List Word) (m : Machine) (l : List Chunk) : Prop :=
  HeapHas (fun _ => True) im F m l

section Heaps

variable {E : Stop → Machine → Prop} {which : Bool → Prop} {im : Image} {F pages tables : List Word}
  {m t : Machine} {l pre post : List Chunk} {c : Chunk} {n : ℕ}

theorem pageUp_mono {a b : ℕ} (h : a ≤ b) : pageUp a ≤ pageUp b := by
  unfold pageUp
  omega

/-- The heap after `init_heap`. -/
theorem heapList_of_owned (own : Owned im F m [] []) (first : m.heapFirst = 0) :
    HeapList which im F m [] [] [] :=
  ⟨⟨own, trivial, by simp, own.mapped.heapMax.ge⟩, first, own.mapped.heapMax,
    trivial, List.isChain_nil, fun c hc => absurd hc (by simp)⟩

/-- Fewer right `prev` links are still right. -/
theorem Backs.weaken {which' : Bool → Prop} {p : Word} {a : ℕ} (imp : ∀ used, which' used → which used)
    (backs : Backs which p a l) : Backs which' p a l := by
  induction l generalizing p a with
  | nil => trivial
  | cons c l ih => exact ⟨fun h => backs.1 (imp _ h), ih backs.2⟩

theorem HeapList.weaken (which' : Bool → Prop) (heap : HeapList which im F m pages tables l)
    (imp : ∀ used, which' used → which used) : HeapList which' im F m pages tables l :=
  ⟨heap.listed, heap.first, heap.reached, heap.tidy.backs.weaken imp, heap.tidy.spaced,
    heap.tidy.last⟩

theorem HeapList.kfree (pre : List Chunk)
    (heap : HeapList which im F m pages tables (pre ++ c :: post)) (pool : KernelFrames im F)
    (free : which false) (back : c.back = lastWord 0 0xE0000000 pre) :
    WP (kfree im (addr (after pre + 12))) E (fun _ t => ∃ kept released, pages = kept ++ released ∧
      HeapList which im F t kept tables (freed pre c post) ∧
      frames t = frames m ++ released.reverse) m := by
  obtain ⟨before, -, rest⟩ := backs_append.1 heap.tidy.backs
  refine (heap.listed.kfree pool free (backs_append.2 ⟨before, fun _ => back, rest⟩) heap.first
    heap.reached).mono ?_
  rintro _ t ⟨kept, released, split, listed, pushed, first, reached⟩
  exact ⟨kept, released, split, ⟨listed, first, reached, heap.tidy.freed free back⟩, pushed⟩

theorem after_reused (fits : n ≤ c.size) : after (reused pre c post n) = after (pre ++ c :: post) := by
  obtain ⟨-, -, whole⟩ := split_size (a := after pre) fits
  rw [after, after, reused, total_append, total_cons, total_append, total_append, total_cons]
  simp only
  omega

theorem HeapList.of_reused {phys : Store 32}
    (heap : HeapList which im F m pages tables (pre ++ c :: post))
    (listed : Listed im F (m.setMem phys) pages tables (reused pre c post n)) (fits : n ≤ c.size)
    (tidy : Tidy which (reused pre c post n)) :
    HeapList which im F (m.setMem phys) pages tables (reused pre c post n) := by
  refine ⟨listed, heap.first.trans ?_, ?_, tidy⟩
  · cases pre <;> rfl
  · rw [after_reused fits]
    exact heap.reached

theorem HeapList.of_appended {pages' tables' : List Word} (heap : HeapList which im F m pages tables l)
    (listed : Listed im F t pages' tables' (appended l n)) (first : t.heapFirst = addr 0xE0000000)
    (reached : t.heapMax.toNat = max m.heapMax.toNat (pageUp (after l + n))) :
    HeapList which im F t pages' tables' (appended l n) := by
  refine ⟨listed, first.trans ?_, ?_, heap.tidy.appended n⟩
  · cases l <;> rfl
  · have grown : pageUp (after l) ≤ pageUp (after l + n) := pageUp_mono (by omega)
    rw [reached, heap.reached, max_eq_right grown, after_appended]

/-- The first chunk with enough room is unique. -/
theorem firstFit_unique {pre' post' : List Chunk} {c' : Chunk} (none : NoneFits n pre)
    (hc : c.used = false) (fits : n ≤ c.size) (none' : NoneFits n pre') (hc' : c'.used = false)
    (fits' : n ≤ c'.size) (same : pre ++ c :: post = pre' ++ c' :: post') :
    pre = pre' ∧ c = c' ∧ post = post' := by
  rcases List.append_eq_append_iff.1 same with ⟨a, rfl, rest⟩ | ⟨a, rfl, rest⟩
  · cases a with
    | nil =>
      obtain ⟨rfl, rfl⟩ := List.cons_eq_cons.1 rest
      exact ⟨(List.append_nil _).symm, rfl, rfl⟩
    | cons d a =>
      obtain ⟨rfl, -⟩ := List.cons_eq_cons.1 rest
      exact absurd (none' c (by simp) hc) (by omega)
  · cases a with
    | nil =>
      obtain ⟨rfl, rfl⟩ := List.cons_eq_cons.1 rest
      exact ⟨List.append_nil _, rfl, rfl⟩
    | cons d a =>
      obtain ⟨rfl, -⟩ := List.cons_eq_cons.1 rest
      exact absurd (none c' (by simp) hc') (by omega)

/-- `kmalloc` reuses the first free chunk with enough room. -/
theorem HeapList.kmalloc_reuse (pre : List Chunk)
    (heap : HeapList which im F m pages tables (pre ++ c :: post))
    (pool : KernelFrames im F) (free : which false) (blind : ¬ which true) (len : Word)
    (small : len.toNat + 12 < 2 ^ 32) (hc : c.used = false) (fits : len.toNat + 12 ≤ c.size)
    (none : NoneFits (len.toNat + 12) pre) :
    WP (kmalloc im len) E (fun p t => p = addr (after pre + 12) ∧
      HeapList which im F t pages tables (reused pre c post (len.toNat + 12))) m := by
  have found : ¬ NoneFits (len.toNat + 12) (pre ++ c :: post) := fun none =>
    absurd (none c (by simp) hc) (by omega)
  refine heap.listed.kmalloc pool heap.first small (fun h => absurd h found)
    (fun h => absurd h found) (fun pre' c' post' phys split hc' fits' none' listed => ?_)
    fun t more new h => absurd h found
  obtain ⟨rfl, rfl, rfl⟩ := firstFit_unique none hc fits none' hc' fits' split
  exact ⟨rfl, heap.of_reused listed fits (heap.tidy.reused free blind hc _)⟩

/-- `kmalloc` appends a chunk when no free one has enough room. -/
theorem HeapList.kmalloc_append (heap : HeapList which im F m pages tables l)
    (pool : KernelFrames im F) (len : Word) (none : NoneFits (len.toNat + 12) l)
    (room : after l + (len.toNat + 12) < 2 ^ 32)
    (oom : (frames m).length + m.heapMax.toNat / 2048 <
      pageUp (after l + (len.toNat + 12)) / 2048 → ∀ t, E outOfMemory t) :
    WP (kmalloc im len) E (fun p t => p = addr (after l + 12) ∧
      (frames m).length + m.heapMax.toNat / 2048 ≤ (frames t).length + t.heapMax.toNat / 2048 ∧
      ∃ more new,
        HeapList which im F t (pages ++ more) (tables ++ new) (appended l (len.toNat + 12))) m := by
  refine heap.listed.kmalloc pool heap.first (by omega) (fun _ => room) (fun _ => oom)
    (fun pre c post phys split hc fits _ _ => ?_) fun t more new _ listed first reached left => ?_
  · exact absurd (none c (by rw [split]; simp) hc) (by omega)
  · exact ⟨rfl, left, more, new, heap.of_appended listed first reached⟩

/-- `kmalloc` adds one block. -/
theorem HeapList.kmalloc (heap : HeapList which im F m pages tables l) (pool : KernelFrames im F)
    (free : which false) (blind : ¬ which true) {len : Word} (noWrap : len.toNat + 12 < 2 ^ 32)
    (room : NoneFits (len.toNat + 12) l → after l + (len.toNat + 12) < 2 ^ 32)
    (oom : ∀ t, E outOfMemory t) :
    WP (kmalloc im len) E (fun p t => ∃ pages' tables' l' a n,
      HeapList which im F t pages' tables' l' ∧ p = addr (a + 12) ∧ len.toNat + 12 ≤ n ∧
      (blocks 0xE0000000 l').Perm ((a, n) :: blocks 0xE0000000 l)) m := by
  refine heap.listed.kmalloc pool heap.first noWrap room (fun _ _ => oom)
    (fun pre c post phys split hc fits _ listed => ?_) fun t more new _ listed first reached _ => ?_
  · subst split
    refine ⟨_, _, _, after pre, (SimpleKernel.split (after pre) c (len.toNat + 12)).1.size,
      heap.of_reused listed fits (heap.tidy.reused free blind hc _), rfl, (split_size fits).1, ?_⟩
    rw [blocks_reused fits, blocks_append, blocks_free hc]
    exact List.perm_middle
  · refine ⟨_, _, _, _, _, heap.of_appended listed first reached, rfl, le_rfl, ?_⟩
    rw [blocks_appended]
    exact List.perm_append_singleton _ _

end Heaps

end SimpleKernel
