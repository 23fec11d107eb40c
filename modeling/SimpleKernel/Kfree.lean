import SimpleKernel.Chunks

/-!
# Freeing a chunk

`kfree` marks the chunk as free, merges it with a free chunk behind it and a free chunk before it,
and drops the result when it is the last one.  Each part is specified on the chunk list.
-/

namespace SimpleKernel

open ByteStore ProgramLogic Tiling

/-- What the first `if` of `glue_chunk` makes of the chunk `c` at `a` and the chunks behind it. -/
def joinNext (a : ℕ) (c : Chunk) : List Chunk → Chunk × List Chunk
  | [] => (c, [])
  | n :: post =>
    if n.used then (c, n :: post)
    else ({ c with size := c.size + n.size }, relink (addr a) post)

/-- What the second `if` of `glue_chunk` makes of the chunks `pre`, the chunk `c` and the chunks
behind it. -/
def joinPrev (pre : List Chunk) (c : Chunk) (post : List Chunk) : List Chunk × Chunk × List Chunk :=
  match pre.getLast? with
  | none => (pre, c, post)
  | some p =>
    if p.used then (pre, c, post)
    else (pre.dropLast, { p with size := p.size + c.size },
      relink (addr (after pre.dropLast)) post)

/-- A chunk at the end of the list is dropped. -/
def dropFree : List Chunk × Chunk × List Chunk → List Chunk
  | (pre, _, []) => pre
  | (pre, c, post) => pre ++ c :: post

/-- The chunk list after `kfree` of the chunk `c` between `pre` and `post`. -/
def freed (pre : List Chunk) (c : Chunk) (post : List Chunk) : List Chunk :=
  let (c, post) := joinNext (after pre) { c with used := false } post
  dropFree (joinPrev pre c post)

section Steps

variable {E : Stop → Machine → Prop} {im : Image} {F pages tables : List Word} {m : Machine}
  {l pre post : List Chunk} {c : Chunk}

/-- Setting the `allocated` bit of one chunk. -/
theorem Listed.setAllocated (listed : Listed im F m pages tables (pre ++ c :: post))
    (pool : KernelFrames im F) {v : Bool} {Q : Unit → Machine → Prop} (hQ : ∀ phys,
      Listed im F (m.setMem phys) pages tables (pre ++ { c with used := v } :: post) →
      Q () (m.setMem phys)) :
    WP (setAllocated (addr (after pre)) (BitVec.ofNat 32 v.toNat)) E Q m := by
  have head := listed.header
  have hc := listed.sizes c (List.mem_append_right _ (List.mem_cons_self ..))
  refine listed.heads.setAllocated pool (Listed.mem_after pre c post) head.info
    (listed.size_lt pool).1 fun phys heads => hQ phys ?_
  refine Listed.replace [c] [{ c with used := v }] listed heads rfl (List.cons_ne_nil _ _)
    (List.cons_ne_nil _ _) (fun x hx => ?_) (fun x hx => setField_of_ne _ _ ?_) ?_ le_rfl
    ⟨⟨?_, ?_, ?_⟩, trivial⟩
  · simpa [starts_append] using hx
  · rw [total_cons] at hx
    omega
  · simpa using hc
  · simpa using head.prev
  · simpa using head.next
  · simp

/-- Two neighbours become one chunk when the first header takes over length and `next` link and the
chunk behind them is linked back to it. -/
theorem Listed.join {n : Chunk} {m' : Machine} {h' : ℕ → HeaderField → Word}
    (listed : Listed im F m pages tables (pre ++ c :: n :: post)) (pool : KernelFrames im F)
    (heads : Heads im F m' pages tables
      (starts Chunk.size 0xE0000000 (pre ++ c :: n :: post)) h')
    (fits : m.heapMax.toNat ≤ m'.heapMax.toNat)
    (head : Header h' (after pre) { c with size := c.size + n.size }
      (nextWord 0 (after pre + (c.size + n.size)) post))
    (linked : post ≠ [] → h' (after pre + (c.size + n.size)) =
      Function.update (fieldAt (view m) (after pre + (c.size + n.size))) .prev (addr (after pre)))
    (out : ∀ x, x ≠ after pre → (post ≠ [] → x ≠ after pre + (c.size + n.size)) →
      h' x = fieldAt (view m) x) :
    Listed im F m' pages tables
      (pre ++ { c with size := c.size + n.size } :: relink (addr (after pre)) post) := by
  have hc := listed.sizes c (List.mem_append_right _ (List.mem_cons_self ..))
  cases post with
  | nil =>
    refine Listed.replace [c, n] [{ c with size := c.size + n.size }] listed heads (by simp)
      (List.cons_ne_nil _ _) (List.cons_ne_nil _ _) (fun x hx => ?_) (fun x hx => ?_) ?_ fits
      ⟨?_, trivial⟩
    · simp only [List.append_nil, starts_append, starts_cons, starts_nil, List.mem_append,
        List.mem_cons, List.not_mem_nil, or_false] at hx ⊢
      exact hx.imp_right .inl
    · simp only [total_cons, total_nil] at hx
      exact out x (by omega) fun h => absurd rfl h
    · simp only [List.mem_singleton, forall_eq]
      omega
    · simpa using head
  | cons r rest =>
    have old := (listed.spot_third pool).header
    have changed := linked (List.cons_ne_nil _ _)
    have hr := listed.sizes r (by simp)
    refine Listed.replace [c, n, r] [{ c with size := c.size + n.size },
      { r with back := addr (after pre) }] listed heads (by simp [Nat.add_assoc])
      (List.cons_ne_nil _ _) (List.cons_ne_nil _ _) (fun x hx => ?_) (fun x hx => ?_) ?_ fits
      ⟨head, ⟨?_, ?_, ?_⟩, trivial⟩
    · simp only [starts_append, starts_cons, List.mem_append, List.mem_cons, List.cons_append,
        List.nil_append, ← Nat.add_assoc] at hx ⊢
      exact hx.imp_right (Or.imp_right .inr)
    · simp only [total_cons, total_nil] at hx
      exact out x (by omega) fun _ => by omega
    · simp only [List.mem_cons, List.not_mem_nil, or_false, forall_eq_or_imp, forall_eq]
      omega
    · rw [changed, Function.update_self]
    · rw [changed, Function.update_of_ne (by decide), old.next, total_cons, total_cons, total_cons,
        total_nil]
      rfl
    · rw [changed, Function.update_of_ne (by decide)]
      exact old.info

/-- The first `if` of `glue_chunk`. -/
theorem Listed.glueNext (listed : Listed im F m pages tables (pre ++ c :: post))
    (pool : KernelFrames im F) {Q : Unit → Machine → Prop} (hQ : ∀ phys,
      Listed im F (m.setMem phys) pages tables
        (pre ++ (joinNext (after pre) c post).1 :: (joinNext (after pre) c post).2) →
      Q () (m.setMem phys)) : WP (glueNext (addr (after pre))) E Q m := by
  have heads := listed.heads
  have first := listed.spot pool
  simp only [SimpleKernel.glueNext, headerNext, wp_bind]
  refine heads.loadField pool first.mem .next ?_
  rw [first.header.next]
  cases post with
  | nil =>
    rw [nextWord_nil, if_neg (not_not.2 rfl), wp_pure]
    exact hQ m.mem listed
  | cons n post =>
    have second := listed.spot_second pool
    rw [nextWord_cons, if_pos second.nonzero]
    simp only [wp_bind]
    refine heads.loadField pool first.mem .next ?_
    rw [first.header.next, nextWord_cons]
    refine heads.headerAllocated pool second.mem second.header.info second.size_lt ?_
    cases used : n.used with
    | true =>
      rw [if_neg (by decide), wp_pure]
      refine hQ m.mem ?_
      rw [joinNext, if_pos used]
      exact listed
    | false =>
      have hc := listed.sizes c (List.mem_append_right _ (List.mem_cons_self ..))
      rw [if_pos (by decide)]
      simp only [wp_bind]
      refine heads.headerLength pool first.mem first.header.info first.size_lt ?_
      refine heads.loadField pool first.mem .next ?_
      rw [first.header.next, nextWord_cons]
      refine heads.headerLength pool second.mem second.header.info second.size_lt ?_
      rw [← BitVec.ofNat_add]
      refine heads.setLength pool first.mem first.header.info first.size_lt
        (listed.size_add_lt pool) fun p₁ heads₁ => ?_
      have ne : after pre + c.size ≠ after pre := by omega
      have next₁ (v : Word) : setField (fieldAt (view m)) (after pre) .info v (after pre) .next =
          addr (after pre + c.size) := by
        rw [setField_field _ _ (by decide), first.header.next, nextWord_cons]
      have next₂ (v : Word) : setField (fieldAt (view m)) (after pre) .info v
          (after pre + c.size) .next = nextWord 0 (after pre + (c.size + n.size)) post := by
        rw [setField_of_ne _ _ ne, second.header.next]
      refine heads₁.loadField pool first.mem .next ?_
      rw [next₁]
      refine heads₁.loadField pool second.mem .next ?_
      rw [next₂]
      cases post with
      | nil =>
        rw [nextWord_nil, if_neg (not_not.2 rfl)]
        simp only [setNext, wp_bind]
        refine heads₁.loadField pool first.mem .next ?_
        rw [next₁]
        refine heads₁.loadField pool second.mem .next ?_
        rw [next₂]
        refine heads₁.storeField pool first.mem .next fun p₂ heads₂ => hQ p₂ ?_
        rw [joinNext, if_neg (by simp [used])]
        refine listed.join pool heads₂ le_rfl ⟨?_, ?_, ?_⟩ (fun h => absurd rfl h) fun x hx _ => ?_
        · rw [setField_field _ _ (by decide), setField_field _ _ (by decide), first.header.prev]
        · rw [setField_self]
        · rw [setField_field _ _ (by decide), setField_self]
        · rw [setField_of_ne _ _ hx, setField_of_ne _ _ hx]
      | cons r rest =>
        have third := listed.spot_third pool
        have ne' : after pre + (c.size + n.size) ≠ after pre := by omega
        rw [nextWord_cons, if_pos third.nonzero]
        simp only [setPrev, setNext, wp_bind]
        refine heads₁.loadField pool first.mem .next ?_
        rw [next₁]
        refine heads₁.loadField pool second.mem .next ?_
        rw [next₂, nextWord_cons]
        refine heads₁.storeField pool third.mem .prev fun p₂ heads₂ => ?_
        refine heads₂.loadField pool first.mem .next ?_
        rw [setField_field _ _ (by decide), next₁]
        refine heads₂.loadField pool second.mem .next ?_
        rw [setField_field _ _ (by decide), next₂]
        refine heads₂.storeField pool first.mem .next fun p₃ heads₃ => hQ p₃ ?_
        rw [joinNext, if_neg (by simp [used])]
        refine listed.join pool heads₃ le_rfl ⟨?_, ?_, ?_⟩ (fun _ => ?_) fun x hx hx' => ?_
        · rw [setField_field _ _ (by decide), setField_of_ne _ _ ne'.symm,
            setField_field _ _ (by decide), first.header.prev]
        · rw [setField_self]
        · rw [setField_field _ _ (by decide), setField_field _ _ (by decide), setField_self]
        · rw [setField_of_ne _ _ ne', setField_at, setField_of_ne _ _ ne']
        · rw [setField_of_ne _ _ hx, setField_of_ne _ _ (hx' (List.cons_ne_nil _ _)),
            setField_of_ne _ _ hx]

/-- The second `if` of `glue_chunk` for a chunk at `x` whose `prev` link names a free chunk at `y`,
whether or not they are neighbours. -/
theorem Heads.gluePrev {D : List ℕ} {h : ℕ → HeaderField → Word} {x y n k : ℕ} {used : Bool}
    {z : Option ℕ} (heads : Heads im F m pages tables D h) (pool : KernelFrames im F) (hx : x ∈ D)
    (hy : y ∈ D) (ne : y ≠ x) (prev : h x .prev = addr y) (nonzero : addr y ≠ 0)
    (info : h x .info = infoWord used k) (info' : h y .info = infoWord false n)
    (bound : n + k < 2 ^ 31) (next : h x .next = z.elim 0 addr)
    (hz : ∀ r ∈ z, r ∈ D ∧ r ≠ x ∧ r ≠ y ∧ addr r ≠ 0) {Q : Word → Machine → Prop}
    (hQ : ∀ phys h', Heads im F (m.setMem phys) pages tables D h' →
      h' y .prev = h y .prev → h' y .next = h x .next → h' y .info = infoWord false (n + k) →
      (∀ r ∈ z, h' r = Function.update (h r) .prev (addr y)) →
      (∀ r, r ≠ y → r ∉ z → h' r = h r) → Q (addr y) (m.setMem phys)) :
    WP (gluePrev (addr x)) E Q m := by
  simp only [SimpleKernel.gluePrev, headerPrev, headerNext, setNext, setPrev, wp_bind]
  refine heads.loadField pool hx .prev ?_
  rw [prev, if_pos nonzero]
  simp only [wp_bind]
  refine heads.loadField pool hx .prev ?_
  rw [prev]
  refine heads.headerAllocated pool hy info' (by omega) ?_
  rw [if_pos (by decide)]
  simp only [wp_bind]
  refine heads.loadField pool hx .prev ?_
  refine heads.loadField pool hx .prev ?_
  rw [prev]
  refine heads.headerLength pool hy info' (by omega) ?_
  refine heads.headerLength pool hx info (by omega) ?_
  rw [← BitVec.ofNat_add]
  refine heads.setLength pool hy info' (by omega) bound fun p₁ heads₁ => ?_
  have at_x (v w : Word) (f : HeaderField) :
      setField (setField h y .info v) y .next w x f = h x f := by
    rw [setField_of_ne _ _ ne.symm, setField_of_ne _ _ ne.symm]
  refine heads₁.loadField pool hx .prev ?_
  refine heads₁.loadField pool hx .next ?_
  rw [setField_of_ne _ _ ne.symm, prev]
  refine heads₁.storeField pool hy .next fun p₂ heads₂ => ?_
  refine heads₂.loadField pool hx .next ?_
  cases z with
  | none =>
    rw [at_x, next, Option.elim_none, if_neg (not_not.2 rfl)]
    refine heads₂.loadField pool hx .prev ?_
    rw [at_x, prev]
    refine hQ p₂ _ heads₂ ?_ ?_ ?_ (fun r hr => absurd hr (by simp)) fun r hr _ => ?_
    · rw [setField_field _ _ (by decide), setField_field _ _ (by decide)]
    · rw [setField_self, next]
    · rw [setField_field _ _ (by decide), setField_self]
    · rw [setField_of_ne _ _ hr, setField_of_ne _ _ hr]
  | some z =>
    obtain ⟨hz, zx, zy, nonzero'⟩ := hz z rfl
    rw [at_x, next, Option.elim_some, if_pos nonzero']
    simp only [wp_bind]
    refine heads₂.loadField pool hx .next ?_
    refine heads₂.loadField pool hx .prev ?_
    rw [at_x, at_x, next, prev, Option.elim_some]
    refine heads₂.storeField pool hz .prev fun p₃ heads₃ => ?_
    refine heads₃.loadField pool hx .prev ?_
    rw [setField_of_ne _ _ zx.symm, at_x, prev]
    refine hQ p₃ _ heads₃ ?_ ?_ ?_ (fun r hr => ?_) fun r hr hr' => ?_
    · rw [setField_of_ne _ _ zy.symm, setField_field _ _ (by decide),
        setField_field _ _ (by decide)]
    · rw [setField_of_ne _ _ zy.symm, setField_self, next, Option.elim_some]
    · rw [setField_of_ne _ _ zy.symm, setField_field _ _ (by decide), setField_self]
    · obtain rfl := Option.some_inj.1 hr
      rw [setField_at, setField_of_ne _ _ zy, setField_of_ne _ _ zy]
    · have zr : r ≠ z := fun same => hr' (by rw [same]; rfl)
      rw [setField_of_ne _ _ zr, setField_of_ne _ _ hr, setField_of_ne _ _ hr]

theorem joinPrev_nil : joinPrev [] c post = ([], c, post) := rfl

theorem joinPrev_used {p : Chunk} (used : p.used = true) :
    joinPrev (pre ++ [p]) c post = (pre ++ [p], c, post) := by
  rw [joinPrev, List.getLast?_concat]
  exact if_pos used

theorem joinPrev_free {p : Chunk} (free : p.used = false) :
    joinPrev (pre ++ [p]) c post =
      (pre, { p with size := p.size + c.size }, relink (addr (after pre)) post) := by
  rw [joinPrev, List.getLast?_concat]
  simp [free]

/-- The second `if` of `glue_chunk` for a chunk whose `prev` link is right. -/
theorem Listed.gluePrev (listed : Listed im F m pages tables (pre ++ c :: post))
    (pool : KernelFrames im F) (back : c.back = lastWord 0 0xE0000000 pre)
    {Q : Word → Machine → Prop} (hQ : ∀ phys pre' c' post',
      joinPrev pre c post = (pre', c', post') →
      Listed im F (m.setMem phys) pages tables (pre' ++ c' :: post') →
      Q (addr (after pre')) (m.setMem phys)) :
    WP (gluePrev (addr (after pre))) E Q m := by
  have at_c := listed.spot pool
  have keep (same : joinPrev pre c post = (pre, c, post)) : Q (addr (after pre)) m :=
    hQ m.mem _ _ _ same listed
  rcases List.eq_nil_or_concat' pre with rfl | ⟨pre, p, rfl⟩
  · simp only [SimpleKernel.gluePrev, headerPrev, wp_bind]
    refine listed.heads.loadField pool at_c.mem .prev ?_
    rw [at_c.header.prev, back, lastWord_nil, if_neg (not_not.2 rfl), wp_pure]
    exact keep joinPrev_nil
  have listed' := listed
  rw [List.append_assoc, List.singleton_append] at listed'
  have at_p := listed'.spot pool
  rw [List.append_cons] at at_p
  have prev : fieldAt (view m) (after (pre ++ [p])) .prev = addr (after pre) :=
    at_c.header.prev.trans (back.trans (lastWord_concat _))
  cases used : p.used with
  | true =>
    simp only [SimpleKernel.gluePrev, headerPrev, wp_bind]
    refine listed.heads.loadField pool at_c.mem .prev ?_
    rw [prev, if_pos at_p.nonzero]
    simp only [wp_bind]
    refine listed.heads.loadField pool at_c.mem .prev ?_
    rw [prev]
    refine listed.heads.headerAllocated pool at_p.mem at_p.header.info at_p.size_lt ?_
    rw [used, if_neg (by decide), wp_pure]
    exact keep (joinPrev_used used)
  | false =>
    have hp := listed'.sizes p (by simp)
    have place := after_concat pre p
    have info := at_p.header.info
    rw [used] at info
    have finish (phys : Store 32) (h' : ℕ → HeaderField → Word)
        (heads : Heads im F (m.setMem phys) pages tables
          (starts Chunk.size 0xE0000000 (pre ++ [p] ++ c :: post)) h')
        (hprev : h' (after pre) .prev = fieldAt (view m) (after pre) .prev)
        (hnext : h' (after pre) .next = fieldAt (view m) (after (pre ++ [p])) .next)
        (hinfo : h' (after pre) .info = infoWord false (p.size + c.size))
        (linked : post ≠ [] → h' (after pre + (p.size + c.size)) =
          Function.update (fieldAt (view m) (after pre + (p.size + c.size))) .prev
            (addr (after pre)))
        (out : ∀ x, x ≠ after pre → (post ≠ [] → x ≠ after pre + (p.size + c.size)) →
          h' x = fieldAt (view m) x) : Q (addr (after pre)) (m.setMem phys) := by
      rw [← List.append_cons] at heads
      refine hQ phys _ _ _ (joinPrev_free used)
        (listed'.join pool heads le_rfl ⟨?_, ?_, ?_⟩ linked out)
      · rw [hprev, at_p.header.prev]
      · rw [hnext, at_c.header.next, place, Nat.add_assoc]
      · rw [hinfo, used]
    have ne : after pre ≠ after (pre ++ [p]) := by omega
    have bound := listed'.size_add_lt pool
    cases post with
    | nil =>
      refine listed.heads.gluePrev pool at_c.mem at_p.mem ne prev at_p.nonzero
        at_c.header.info info bound (z := none) at_c.header.next (fun r hr => absurd hr (by simp))
        fun phys h' heads hprev hnext hinfo _ out => ?_
      exact finish phys h' heads hprev hnext hinfo (fun h => absurd rfl h)
        fun x hx _ => out x hx (by simp)
    | cons r rest =>
      have at_r := listed'.spot_third pool
      rw [List.append_cons] at at_r
      have hc := listed'.sizes c (by simp)
      refine listed.heads.gluePrev pool at_c.mem at_p.mem ne prev at_p.nonzero
        at_c.header.info info bound (z := some (after pre + (p.size + c.size))) ?_
        (fun x hx => ?_) fun phys h' heads hprev hnext hinfo linked out => ?_
      · rw [at_c.header.next, place, Nat.add_assoc]
        rfl
      · obtain rfl := Option.some_inj.1 hx
        exact ⟨at_r.mem, by omega, by omega, at_r.nonzero⟩
      · exact finish phys h' heads hprev hnext hinfo (fun _ => linked _ rfl)
          fun x hx hx' => out x hx fun h => hx' (List.cons_ne_nil _ _) (Option.some_inj.1 h).symm

/-- `free_chunk` of the first chunk empties the heap from its address on. -/
theorem Heads.freeChunk_first {D : List ℕ} {h : ℕ → HeaderField → Word} {x : ℕ}
    (heads : Heads im F m pages tables D h) (pool : KernelFrames im F) (hx : x ∈ D)
    (prev : h x .prev = 0) :
    WP (freeChunk im (addr x)) E (fun _ t => ∃ kept released, pages = kept ++ released ∧
      Owned im F t kept tables ∧ frames t = frames m ++ released.reverse ∧
      t.heapFirst = 0 ∧ t.heapMax.toNat = pageUp x) m := by
  have limit := heads.own.heapMax_lt pool
  obtain ⟨lo, hi⟩ := heads.inside x hx
  have e := addr_toNat (a := x) (by omega)
  simp only [freeChunk, headerPrev, wp_bind]
  refine heads.loadField pool hx .prev ?_
  rw [prev, if_pos rfl, wp_bind, wp_modify]
  refine (freePages_spec (heads.own.setHeapFirst 0) pool (by omega)
    (show (addr x).toNat ≤ m.heapMax.toNat by omega)).mono ?_
  rintro _ t ⟨kept, released, split, own, pushed, reached, same⟩
  rw [e] at reached
  exact ⟨kept, released, split, own, pushed, same.heapFirst, reached⟩

/-- `free_chunk` of the last chunk takes it off the list and releases the pages behind the new
end. -/
theorem Listed.freeChunk (listed : Listed im F m pages tables (pre ++ [c]))
    (pool : KernelFrames im F) (back : c.back = lastWord 0 0xE0000000 pre)
    (first : m.heapFirst = nextWord 0 0xE0000000 (pre ++ [c])) :
    WP (freeChunk im (addr (after pre))) E (fun _ t => ∃ kept released, pages = kept ++ released ∧
      Listed im F t kept tables pre ∧ frames t = frames m ++ released.reverse ∧
      t.heapFirst = nextWord 0 0xE0000000 pre ∧ t.heapMax.toNat = pageUp (after pre)) m := by
  have at_c := listed.spot pool
  have limit := listed.own.heapMax_lt pool
  have fits := listed.fits
  rw [total_append] at fits
  rcases List.eq_nil_or_concat' pre with rfl | ⟨pre, p, rfl⟩
  · refine (listed.heads.freeChunk_first pool at_c.mem (at_c.header.prev.trans back)).mono ?_
    rintro _ t ⟨kept, released, split, own, pushed, empty, reached⟩
    refine ⟨kept, released, split, ⟨own, trivial, by simp, ?_⟩, pushed, empty, reached⟩
    rw [total_nil]
    have := own.mapped.heapMax
    omega
  · have listed' := listed
    rw [List.append_assoc, List.singleton_append] at listed'
    have at_p := listed'.spot pool
    rw [List.append_cons] at at_p
    have place := after_concat pre p
    have hp := listed'.sizes p (by simp)
    have prev : fieldAt (view m) (after (pre ++ [p])) .prev = addr (after pre) :=
      at_c.header.prev.trans (back.trans (lastWord_concat _))
    simp only [SimpleKernel.freeChunk, headerPrev, wp_bind]
    refine listed.heads.loadField pool at_c.mem .prev ?_
    rw [prev, if_neg at_p.nonzero]
    simp only [wp_bind]
    refine listed.heads.loadField pool at_c.mem .prev ?_
    rw [prev]
    refine listed.heads.storeField pool at_p.mem .next fun phys heads => ?_
    have shorter : Listed im F (m.setMem phys) pages tables (pre ++ [p]) := by
      refine Listed.of_heads heads ?_ (fun x hx => ?_) (fun d hd => ?_) ?_
      · have old := (chain_append.1 listed'.chain).1
        have out := Listed.after_not_mem fun d hd => listed'.sizes d (List.mem_append_left _ hd)
        exact chain_append.2 ⟨old.setField out _ _, at_p.header.setNext rfl _, trivial⟩
      · rw [starts_append]
        exact List.mem_append_left _ hx
      · exact listed.sizes d (List.mem_append_left _ hd)
      · exact le_trans (by omega) fits
    have range : 0xE0000000 ≤ after (pre ++ [p]) ∧ after (pre ++ [p]) ≤ m.heapMax.toNat := by
      unfold after
      omega
    have e := addr_toNat (a := after (pre ++ [p])) (by omega)
    refine (freePages_spec shorter.own pool (by omega)
      (show (addr (after (pre ++ [p]))).toNat ≤ m.heapMax.toNat by omega)).mono ?_
    rintro _ t ⟨kept, released, split, own, pushed, reached, same⟩
    rw [e] at reached same
    have up : after (pre ++ [p]) ≤ pageUp (after (pre ++ [p])) := by
      unfold pageUp
      omega
    refine ⟨kept, released, split, shorter.of_kept own pool same up (up.trans reached.ge), pushed, ?_,
      reached⟩
    rw [same.heapFirst]
    refine first.trans ?_
    rw [nextWord_append, nextWord_append]
    cases pre <;> rfl

theorem joinNext_used (a : ℕ) : (joinNext a c post).1.used = c.used := by
  cases post with
  | nil => rfl
  | cons n post =>
    rw [joinNext]
    split_ifs <;> rfl

theorem joinNext_total (a : ℕ) :
    after (pre ++ (joinNext a c post).1 :: (joinNext a c post).2) = after (pre ++ c :: post) := by
  cases post with
  | nil => rfl
  | cons n post =>
    rw [joinNext]
    split_ifs
    · rfl
    · simp [after, Nat.add_assoc]

theorem Backs.joinNext {which : Bool → Prop} {p : Word} {a : ℕ}
    (backs : Backs which p a (c :: post)) :
    Backs which p a ((joinNext a c post).1 :: (joinNext a c post).2) := by
  cases post with
  | nil => exact backs
  | cons n post =>
    rw [SimpleKernel.joinNext]
    split_ifs
    · exact backs
    · obtain ⟨back, -, rest⟩ := backs
      refine ⟨back, ?_⟩
      rw [Nat.add_assoc] at rest
      exact rest.relink _

theorem joinPrev_total {pre' post' : List Chunk} {c' : Chunk}
    (join : joinPrev pre c post = (pre', c', post')) :
    after (pre' ++ c' :: post') = after (pre ++ c :: post) := by
  have keep (same : joinPrev pre c post = (pre, c, post)) :
      after (pre' ++ c' :: post') = after (pre ++ c :: post) := by
    rw [same] at join
    obtain ⟨rfl, rfl, rfl⟩ := join
    rfl
  rcases List.eq_nil_or_concat' pre with rfl | ⟨pre, p, rfl⟩
  · exact keep joinPrev_nil
  cases used : p.used with
  | true => exact keep (joinPrev_used used)
  | false =>
    rw [joinPrev_free used] at join
    obtain ⟨rfl, rfl, rfl⟩ := join
    simp [after, Nat.add_assoc]

/-- A chunk that `glue_chunk` goes on with still has a right `prev` link. -/
theorem joinPrev_back {which : Bool → Prop} {pre' post' : List Chunk} {c' : Chunk}
    (free : which false) (hc : which c.used)
    (backs : Backs which 0 0xE0000000 (pre ++ c :: post))
    (join : joinPrev pre c post = (pre', c', post')) : c'.back = lastWord 0 0xE0000000 pre' := by
  obtain ⟨backs, back, -⟩ := backs_append.1 backs
  have keep (same : joinPrev pre c post = (pre, c, post)) : c'.back = lastWord 0 0xE0000000 pre' := by
    rw [same] at join
    obtain ⟨rfl, rfl, rfl⟩ := join
    exact back hc
  rcases List.eq_nil_or_concat' pre with rfl | ⟨pre, p, rfl⟩
  · exact keep joinPrev_nil
  cases used : p.used with
  | true => exact keep (joinPrev_used used)
  | false =>
    rw [joinPrev_free used] at join
    obtain ⟨rfl, rfl, rfl⟩ := join
    exact (backs_append.1 backs).2.1 (used ▸ free)

theorem Listed.kfree {which : Bool → Prop} (listed : Listed im F m pages tables (pre ++ c :: post))
    (pool : KernelFrames im F) (free : which false)
    (backs : Backs which 0 0xE0000000 (pre ++ { c with used := false } :: post))
    (first : m.heapFirst = nextWord 0 0xE0000000 (pre ++ c :: post))
    (reached : m.heapMax.toNat = pageUp (after (pre ++ c :: post))) :
    WP (kfree im (addr (after pre + 12))) E (fun _ t => ∃ kept released, pages = kept ++ released ∧
      Listed im F t kept tables (freed pre c post) ∧ frames t = frames m ++ released.reverse ∧
      t.heapFirst = nextWord 0 0xE0000000 (freed pre c post) ∧
      t.heapMax.toNat = pageUp (after (freed pre c post))) m := by
  have place := addr_sub_header (after pre)
  simp only [SimpleKernel.kfree, glueChunk, headerNext, wp_bind, place]
  refine listed.setAllocated pool (v := false) fun phys₁ listed₁ => ?_
  refine listed₁.glueNext pool fun phys₂ listed₂ => ?_
  obtain ⟨backsPre, backsPost⟩ := backs_append.1 backs
  have backs₂ : Backs which 0 0xE0000000 _ := backs_append.2 ⟨backsPre, backsPost.joinNext⟩
  have joinUsed : which (joinNext (after pre) { c with used := false } post).1.used := by
    rw [joinNext_used]
    exact free
  refine listed₂.gluePrev pool ((backs_append.1 backs₂).2.1 joinUsed)
    fun phys₃ pre' c' post' join listed₃ => ?_
  have back := joinPrev_back free joinUsed backs₂ join
  have result : freed pre c post = dropFree (pre', c', post') := congrArg dropFree join
  have same : after (pre' ++ c' :: post') = after (pre ++ c :: post) := by
    rw [joinPrev_total join, joinNext_total]
    simp [after]
  have first₃ : m.heapFirst = nextWord 0 0xE0000000 (pre' ++ c' :: post') := by
    rw [first]
    cases pre <;> cases pre' <;> rfl
  have at_c := listed₃.spot pool
  refine listed₃.heads.loadField pool at_c.mem .next ?_
  rw [at_c.header.next, result]
  cases post' with
  | nil =>
    rw [nextWord_nil, if_pos rfl]
    exact listed₃.freeChunk pool back first₃
  | cons d post' =>
    have nonzero : addr (after pre' + c'.size) ≠ 0 := by
      have := (Listed.spot_second listed₃ pool).nonzero
      exact this
    rw [nextWord_cons, if_neg nonzero, wp_pure]
    exact ⟨pages, [], (List.append_nil _).symm, listed₃, (List.append_nil _).symm, first₃,
      same ▸ reached⟩

end Steps

end SimpleKernel
