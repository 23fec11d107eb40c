import SimpleKernel.Untouched

/-!
# Payloads

Neither `kmalloc` nor `kfree` writes a byte of a block in use, its header apart.  `kfree` writes where
the links in headers lead, so for it one has to know that these lead to headers; that is `Linked`.
-/

namespace SimpleKernel

open ByteStore ProgramLogic Tiling

/-! ## Links -/

/-- A link to one of the headers at `D`, or to none. -/
def IsLink (D : List ℕ) (v : Word) : Prop := v = 0 ∨ ∃ a ∈ D, v = addr a

/-- `next` links lead to headers of `D`, and those of the `prev` links that belong to free chunks. -/
structure Linked (D : List ℕ) (h : ℕ → HeaderField → Word) : Prop where
  next : ∀ a ∈ D, IsLink D (h a .next)
  prev : ∀ a ∈ D, h a .info &&& 1 = 0 → IsLink D (h a .prev)

section Linked

variable {D : List ℕ} {h : ℕ → HeaderField → Word} {a : ℕ} {v : Word}

theorem setField_apply (h : ℕ → HeaderField → Word) (a : ℕ) (f : HeaderField) (v : Word) (b : ℕ)
    (g : HeaderField) : setField h a f v b g = if b = a ∧ g = f then v else h b g := by
  by_cases same : b = a
  · by_cases field : g = f
    · rw [same, field, setField_self, if_pos ⟨rfl, rfl⟩]
    · rw [setField_field _ _ field, if_neg fun both => field both.2]
  · rw [setField_of_ne _ _ same, if_neg fun both => same both.1]

namespace Linked

theorem setNext (linked : Linked D h) (link : IsLink D v) : Linked D (setField h a .next v) := by
  refine ⟨fun b hb => ?_, fun b hb free => ?_⟩
  · rw [setField_apply]
    split_ifs
    · exact link
    · exact linked.next b hb
  · rw [setField_field _ _ (by decide)] at free ⊢
    exact linked.prev b hb free

theorem setPrev (linked : Linked D h) (link : IsLink D v) : Linked D (setField h a .prev v) := by
  refine ⟨fun b hb => ?_, fun b hb free => ?_⟩
  · rw [setField_field _ _ (by decide)]
    exact linked.next b hb
  · rw [setField_field _ _ (by decide)] at free
    rw [setField_apply]
    split_ifs
    · exact link
    · exact linked.prev b hb free

/-- A new length leaves the `allocated` bit alone. -/
theorem setInfo (linked : Linked D h) (same : v &&& 1 = h a .info &&& 1) :
    Linked D (setField h a .info v) := by
  refine ⟨fun b hb => ?_, fun b hb free => ?_⟩
  · rw [setField_field _ _ (by decide)]
    exact linked.next b hb
  · rw [setField_field _ _ (by decide)]
    rw [setField_apply] at free
    split_ifs at free with place
    · exact linked.prev b hb (by rw [place.1, ← same, free])
    · exact linked.prev b hb free

end Linked

end Linked

/-- The links of a chunk list lead to its chunks. -/
theorem Listed.linked {im : Image} {F pages tables : List Word} {m : Machine} {l : List Chunk}
    (listed : Listed im F m pages tables l) (pool : KernelFrames im F)
    (backs : Backs (· = false) 0 0xE0000000 l) :
    Linked (starts Chunk.size 0xE0000000 l) (fieldAt (view m)) := by
  constructor
  · intro a ha
    obtain ⟨pre, c, post, rfl, rfl⟩ := mem_starts_iff.1 ha
    have spot := listed.spot pool
    show IsLink _ (fieldAt (view m) (after pre) .next)
    rw [spot.header.next]
    cases post with
    | nil => exact .inl rfl
    | cons n post => exact .inr ⟨_, Listed.mem_second pre c n post, rfl⟩
  · intro a ha free
    obtain ⟨pre, c, post, rfl, rfl⟩ := mem_starts_iff.1 ha
    have spot := listed.spot pool
    change fieldAt (view m) (after pre) .info &&& 1 = 0 at free
    show IsLink _ (fieldAt (view m) (after pre) .prev)
    rw [spot.header.info, infoWord_and_one spot.size_lt] at free
    have unused : c.used = false := by
      cases used : c.used with
      | false => rfl
      | true =>
        rw [used] at free
        exact absurd free (by decide)
    rw [spot.header.prev, (backs_append.1 backs).2.1 unused]
    rcases List.eq_nil_or_concat' pre with rfl | ⟨pre, p, rfl⟩
    · exact .inl rfl
    · refine .inr ⟨after pre, ?_, lastWord_after pre p⟩
      rw [List.append_assoc, List.singleton_append]
      exact Listed.mem_after pre p (c :: post)

/-! ## `kfree` -/

namespace Held

variable {E : Stop → Machine → Prop} {im : Image} {F pages tables : List Word} {D : List ℕ}
  {hi x y : ℕ} {m₀ m : Machine} {h : ℕ → HeaderField → Word}

theorem nonzero (held : Held im F pages tables D hi m₀ m h) (pool : KernelFrames im F) (hx : x ∈ D) :
    addr x ≠ 0 := by
  have limit := held.heads.own.heapMax_lt pool
  obtain ⟨lo, le⟩ := held.heads.inside x hx
  intro zero
  have e := addr_toNat (a := x) (by omega)
  rw [zero] at e
  exact absurd e (by simp; omega)

theorem setLength (held : Held im F pages tables D hi m₀ m h) (pool : KernelFrames im F) (hx : x ∈ D)
    (v : Word) {Q : Unit → Machine → Prop} (hQ : ∀ t g, g &&& 1 = h x .info &&& 1 →
      Held im F pages tables D hi m₀ t (setField h x .info g) → t.heapFirst = m.heapFirst →
      t.heapMax = m.heapMax → Q () t) : WP (setLength (addr x) v) E Q m := by
  simp only [SimpleKernel.setLength, wp_bind]
  refine held.loadField pool hx .info ?_
  refine held.storeField pool hx .info fun t held' first reached => hQ t _ ?_ held' first reached
  apply BitVec.eq_of_getLsbD_eq
  intro i hi
  rcases i with _ | i
  · simp
  · simp

theorem setAllocated (held : Held im F pages tables D hi m₀ m h) (pool : KernelFrames im F)
    (hx : x ∈ D) (v : Word) {Q : Unit → Machine → Prop} (hQ : ∀ t g,
      Held im F pages tables D hi m₀ t (setField h x .info g) → t.heapFirst = m.heapFirst →
      t.heapMax = m.heapMax → Q () t) : WP (setAllocated (addr x) v) E Q m := by
  simp only [SimpleKernel.setAllocated, wp_bind]
  refine held.loadField pool hx .info ?_
  exact held.storeField pool hx .info fun t held' first reached => hQ t _ held' first reached

/-- `glue_chunk` of a free chunk, up to the release of pages: all that it writes to are headers, and
it goes on with a free chunk. -/
theorem glueNext (held : Held im F pages tables D hi m₀ m h) (pool : KernelFrames im F)
    (linked : Linked D h) (hx : x ∈ D) (free : h x .info &&& 1 = 0) {Q : Unit → Machine → Prop}
    (hQ : ∀ t h', Held im F pages tables D hi m₀ t h' → Linked D h' → h' x .info &&& 1 = 0 →
      t.heapMax = m.heapMax → Q () t) : WP (glueNext (addr x)) E Q m := by
  simp only [SimpleKernel.glueNext, headerNext, SimpleKernel.setNext, SimpleKernel.setPrev,
    headerAllocated, headerLength, wp_bind]
  refine held.loadField pool hx .next ?_
  rcases linked.next x hx with none | ⟨y, hy, next⟩
  · rw [none, if_neg (not_not.2 rfl), wp_pure]
    exact hQ m h held linked free rfl
  rw [next, if_pos (held.nonzero pool hy)]
  simp only [wp_bind, wp_pure]
  refine held.loadField pool hx .next ?_
  rw [next]
  refine held.loadField pool hy .info ?_
  split_ifs with free'
  · simp only [wp_bind, wp_pure]
    refine held.loadField pool hx .info ?_
    refine held.loadField pool hx .next ?_
    rw [next]
    refine held.loadField pool hy .info ?_
    refine held.setLength pool hx _ fun t g same held₁ _ reached₁ => ?_
    have linked₁ := linked.setInfo same
    have next₁ : setField h x .info g x .next = addr y := by
      rw [setField_field _ _ (by decide), next]
    have free₁ : setField h x .info g x .info &&& 1 = 0 := by
      rw [setField_self, same, free]
    refine held₁.loadField pool hx .next ?_
    rw [next₁]
    refine held₁.loadField pool hy .next ?_
    rcases linked₁.next y hy with none | ⟨z, hz, next'⟩
    · rw [none, if_neg (not_not.2 rfl)]
      simp only [wp_bind]
      refine held₁.loadField pool hx .next ?_
      rw [next₁]
      refine held₁.loadField pool hy .next ?_
      refine held₁.storeField pool hx .next fun u held₂ _ reached₂ => ?_
      refine hQ u _ held₂ (linked₁.setNext (linked₁.next y hy)) ?_ (reached₂.trans reached₁)
      rwa [setField_field _ _ (by decide)]
    · rw [next', if_pos (held.nonzero pool hz)]
      simp only [wp_bind]
      refine held₁.loadField pool hx .next ?_
      rw [next₁]
      refine held₁.loadField pool hy .next ?_
      rw [next']
      refine held₁.storeField pool hz .prev fun u held₂ _ reached₂ => ?_
      have linked₂ := linked₁.setPrev (a := z) (.inr ⟨x, hx, rfl⟩)
      refine held₂.loadField pool hx .next ?_
      rw [setField_field _ _ (by decide), next₁]
      refine held₂.loadField pool hy .next ?_
      refine held₂.storeField pool hx .next fun w held₃ _ reached₃ => ?_
      refine hQ w _ held₃ (linked₂.setNext (linked₂.next y hy)) ?_
        (reached₃.trans (reached₂.trans reached₁))
      rwa [setField_field _ _ (by decide), setField_field _ _ (by decide)]
  · exact hQ m h held linked free rfl

theorem gluePrev (held : Held im F pages tables D hi m₀ m h) (pool : KernelFrames im F)
    (linked : Linked D h) (hx : x ∈ D) (free : h x .info &&& 1 = 0) {Q : Word → Machine → Prop}
    (hQ : ∀ t h' w, w ∈ D → Held im F pages tables D hi m₀ t h' → Linked D h' →
      h' w .info &&& 1 = 0 → t.heapMax = m.heapMax → Q (addr w) t) :
    WP (gluePrev (addr x)) E Q m := by
  simp only [SimpleKernel.gluePrev, headerNext, headerPrev, SimpleKernel.setNext,
    SimpleKernel.setPrev, headerAllocated, headerLength, wp_bind]
  refine held.loadField pool hx .prev ?_
  rcases linked.prev x hx free with none | ⟨y, hy, prev⟩
  · rw [none, if_neg (not_not.2 rfl), wp_pure]
    exact hQ m h x hx held linked free rfl
  rw [prev, if_pos (held.nonzero pool hy)]
  simp only [wp_bind, wp_pure]
  refine held.loadField pool hx .prev ?_
  rw [prev]
  refine held.loadField pool hy .info ?_
  split_ifs with free'
  · simp only [wp_bind, wp_pure]
    refine held.loadField pool hx .prev ?_
    refine held.loadField pool hx .prev ?_
    rw [prev]
    refine held.loadField pool hy .info ?_
    refine held.loadField pool hx .info ?_
    refine held.setLength pool hy _ fun t g same held₁ _ reached₁ => ?_
    have linked₁ := linked.setInfo same
    have prev₁ : setField h y .info g x .prev = addr y := by
      rw [setField_field _ _ (by decide), prev]
    have free₁ : setField h y .info g y .info &&& 1 = 0 := by
      rw [setField_self, same, free']
    refine held₁.loadField pool hx .prev ?_
    refine held₁.loadField pool hx .next ?_
    rw [prev₁]
    refine held₁.storeField pool hy .next fun u held₂ _ reached₂ => ?_
    have linked₂ := linked₁.setNext (a := y) (linked₁.next x hx)
    refine held₂.loadField pool hx .next ?_
    rcases linked₂.next x hx with none | ⟨z, hz, next'⟩
    · rw [none, if_neg (not_not.2 rfl)]
      refine held₂.loadField pool hx .prev ?_
      rw [setField_field _ _ (by decide), prev₁]
      refine hQ u _ y hy held₂ linked₂ ?_ (reached₂.trans reached₁)
      rwa [setField_field _ _ (by decide)]
    · rw [next', if_pos (held.nonzero pool hz)]
      simp only [wp_bind]
      refine held₂.loadField pool hx .next ?_
      refine held₂.loadField pool hx .prev ?_
      rw [next', setField_field _ _ (by decide), prev₁]
      refine held₂.storeField pool hz .prev fun w held₃ _ reached₃ => ?_
      refine held₃.loadField pool hx .prev ?_
      have prev₃ : setField (setField (setField h y .info g) y .next
          (setField h y .info g x .next)) z .prev (addr y) x .prev = addr y := by
        rw [setField_apply]
        split_ifs
        · rfl
        · rw [setField_field _ _ (by decide), prev₁]
      rw [prev₃]
      refine hQ w _ y hy held₃ (linked₂.setPrev (.inr ⟨y, hy, rfl⟩)) ?_
        (reached₃.trans (reached₂.trans reached₁))
      rwa [setField_field _ _ (by decide), setField_field _ _ (by decide)]
  · exact hQ m h x hx held linked free rfl

theorem freeChunk (held : Held im F pages tables D m.heapMax.toNat m₀ m h)
    (pool : KernelFrames im F) (linked : Linked D h) (hx : x ∈ D) (free : h x .info &&& 1 = 0) :
    WP (freeChunk im (addr x)) (fun _ _ => True) (fun _ t => Spares im D t.heapMax.toNat m₀ t) m := by
  have release (t : Machine) (h' : ℕ → HeaderField → Word)
      (heads : Heads im F t pages tables D h') (spares : Spares im D m.heapMax.toNat m₀ t)
      (reached : t.heapMax = m.heapMax) : WP (freePages im (addr x)) (fun _ _ => True)
        (fun _ t => Spares im D t.heapMax.toNat m₀ t) t := by
    have limit := heads.own.heapMax_lt pool
    obtain ⟨lo, le⟩ := heads.inside x hx
    have e := addr_toNat (a := x) (by omega)
    refine (freePages_spares heads.own pool (by omega) (by omega) D).mono ?_
    rintro _ u ⟨spares', shrunk⟩
    exact (spares.mono (fun _ ha => ha) (by rwa [← reached])).trans spares'
  simp only [SimpleKernel.freeChunk, headerPrev, SimpleKernel.setNext, wp_bind]
  refine held.loadField pool hx .prev ?_
  rcases linked.prev x hx free with none | ⟨y, hy, prev⟩
  · rw [none, if_pos rfl, wp_bind, wp_modify]
    refine release _ h ⟨held.heads.own.setHeapFirst 0, held.heads.inside, held.heads.apart,
      held.heads.rep⟩ (held.spares.setHeapFirst 0) rfl
  · rw [prev, if_neg (held.nonzero pool hy)]
    simp only [wp_bind]
    refine held.loadField pool hx .prev ?_
    rw [prev]
    refine held.storeField pool hy .next fun t held₁ _ reached => ?_
    exact release t _ held₁.heads held₁.spares reached

theorem glueChunk (held : Held im F pages tables D m.heapMax.toNat m₀ m h)
    (pool : KernelFrames im F) (linked : Linked D h) (hx : x ∈ D) (free : h x .info &&& 1 = 0) :
    WP (glueChunk im (addr x)) (fun _ _ => True) (fun _ t => Spares im D t.heapMax.toNat m₀ t) m := by
  simp only [SimpleKernel.glueChunk, headerNext, wp_bind]
  refine held.glueNext pool linked hx free fun t h₁ held₁ linked₁ free₁ reached₁ => ?_
  refine held₁.gluePrev pool linked₁ hx free₁ fun u h₂ w hw held₂ linked₂ free₂ reached₂ => ?_
  refine held₂.loadField pool hw .next ?_
  have reached := reached₂.trans reached₁
  rw [← reached] at held₂
  split_ifs
  · exact held₂.freeChunk pool linked₂ hw free₂
  · exact held₂.spares

end Held

section Kfree

variable {im : Image} {F pages tables : List Word} {m : Machine} {l pre post : List Chunk} {c : Chunk}

theorem Listed.held (listed : Listed im F m pages tables l) :
    Held im F pages tables (starts Chunk.size 0xE0000000 l) m.heapMax.toNat m m
      (fieldAt (view m)) :=
  ⟨listed.heads, Spares.refl .., le_rfl⟩

/-- `kfree` of a chunk whose `prev` link is right writes headers only. -/
theorem Listed.kfree_spares (listed : Listed im F m pages tables (pre ++ c :: post))
    (pool : KernelFrames im F)
    (backs : Backs (· = false) 0 0xE0000000 (pre ++ { c with used := false } :: post)) :
    WP (SimpleKernel.kfree im (addr (after pre + 12))) (fun _ _ => True) (fun _ t =>
      Spares im (starts Chunk.size 0xE0000000 (pre ++ c :: post)) t.heapMax.toNat m t) m := by
  have hx := Listed.mem_after pre c post
  have same : starts Chunk.size 0xE0000000 (pre ++ { c with used := false } :: post) =
      starts Chunk.size 0xE0000000 (pre ++ c :: post) := by
    simp [starts_append]
  simp only [SimpleKernel.kfree, wp_bind, addr_sub_header]
  have cleared := listed.setAllocated pool (v := false) (E := fun _ _ => False)
    (Q := fun _ t => Listed im F t pages tables (pre ++ { c with used := false } :: post) ∧
      t.heapMax = m.heapMax) fun phys listed' => ⟨listed', rfl⟩
  have written := listed.held.setAllocated pool hx 0 (E := fun _ _ => True)
    (Q := fun _ t => Spares im (starts Chunk.size 0xE0000000 (pre ++ c :: post)) m.heapMax.toNat m t)
    fun t _ held _ _ => held.spares
  refine WP.weaken (cleared.and written) (fun _ _ _ => trivial) ?_
  rintro _ t ⟨⟨listed', reached⟩, spares⟩
  have spot := listed'.spot pool
  have linked := listed'.linked pool backs
  have free : fieldAt (view t) (after pre) .info &&& 1 = 0 := by
    rw [spot.header.info, infoWord_and_one spot.size_lt]
    rfl
  rw [same] at linked
  rw [← reached] at spares
  exact Held.glueChunk ⟨same ▸ listed'.heads, spares, le_rfl⟩ pool linked hx free

end Kfree

/-! ## `kmalloc` -/

section Kmalloc

variable {E : Stop → Machine → Prop} {im : Image} {F pages tables : List Word} {m : Machine}
  {l pre post : List Chunk} {c : Chunk} {n : ℕ}

/-- The chunks after `split_chunk` of the chunk `c` for `n` bytes. -/
def cutAt (pre : List Chunk) (c : Chunk) (post : List Chunk) (n : ℕ) : List Chunk :=
  pre ++ (split (after pre) c n).1 :: ((split (after pre) c n).2 ++ post)

/-- `split_chunk` writes the two headers that the chunk is cut into. -/
theorem Listed.splitChunk_held (listed : Listed im F m pages tables (pre ++ c :: post))
    (pool : KernelFrames im F) {len : Word} (lo : 12 ≤ len.toNat) (hi : len.toNat ≤ c.size)
    {Q : Unit → Machine → Prop} (hQ : ∀ t h, Held im F pages tables
      (starts Chunk.size 0xE0000000 (cutAt pre c post len.toNat)) m.heapMax.toNat m t h → Q () t) :
    WP (SimpleKernel.splitChunk (addr (after pre)) len) E Q m := by
  have at_c := listed.spot pool
  obtain ⟨_, u, -, tiled⟩ := (listed.splitChunk pool lo hi (E := fun _ _ => False)
    (Q := fun _ _ => ∃ phys, Listed im F (m.setMem phys) pages tables
      (cutAt pre c post len.toNat)) fun phys cut => ⟨phys, cut⟩).returns
  obtain ⟨phys, cut⟩ := tiled
  have held : Held im F pages tables (starts Chunk.size 0xE0000000 (cutAt pre c post len.toNat))
      m.heapMax.toNat m m (fieldAt (view m)) :=
    ⟨listed.own.heads cut.sizes cut.fits, Spares.refl .., le_rfl⟩
  have header : sizeofHeader.toNat = 12 := rfl
  have rest : (BitVec.ofNat 32 c.size - len).toNat = c.size - len.toNat := by
    have := at_c.size_lt
    bv_omega
  have hx : after pre ∈ starts Chunk.size 0xE0000000 (cutAt pre c post len.toNat) :=
    Listed.mem_after ..
  simp only [SimpleKernel.splitChunk, headerLength, headerNext, SimpleKernel.setPrev,
    SimpleKernel.setNext, wp_bind, wp_pure]
  refine held.loadField pool hx .info ?_
  rw [at_c.header.info, infoWord_shiftRight at_c.size_lt]
  split_ifs with more
  · have more' : c.size - len.toNat > 12 := by
      have := show sizeofHeader.toNat < (BitVec.ofNat 32 c.size - len).toNat from more
      omega
    have hy : after pre + len.toNat ∈
        starts Chunk.size 0xE0000000 (cutAt pre c post len.toNat) := by
      rw [cutAt, SimpleKernel.split, if_pos more']
      exact Listed.mem_second ..
    have place : addr (after pre) + len = addr (after pre + len.toNat) := by
      rw [addr_add, addr_ofToNat]
    rw [place]
    simp only [wp_bind, wp_pure]
    refine held.storeField pool hy .prev fun t₁ held₁ _ _ => ?_
    refine held₁.loadField pool hx .next ?_
    refine held₁.storeField pool hy .next fun t₂ held₂ _ _ => ?_
    refine held₂.setAllocated pool hy _ fun t₃ _ held₃ _ _ => ?_
    refine held₃.loadField pool hx .info ?_
    refine held₃.setLength pool hy _ fun t₄ _ _ held₄ _ _ => ?_
    refine held₄.storeField pool hx .next fun t₅ held₅ _ _ => ?_
    exact held₅.setLength pool hx _ fun t₆ _ _ held₆ _ _ => hQ t₆ _ held₆
  · exact hQ m _ held

/-- Cutting a free chunk changes no block. -/
theorem blocks_cutAt (free : c.used = false) (fits : n ≤ c.size) :
    blocks 0xE0000000 (cutAt pre c post n) = blocks 0xE0000000 (pre ++ c :: post) := by
  rw [cutAt, SimpleKernel.split]
  split_ifs
  · have size : n + (c.size - n) = c.size := by omega
    simp only [List.cons_append, List.nil_append]
    rw [blocks_append, blocks_append, blocks_free free, blocks_free (by exact free),
      blocks_free rfl, Nat.add_assoc, size]
  · rfl

theorem cutAt_sizes (sizes : ∀ d ∈ pre ++ c :: post, 12 ≤ d.size) (lo : 12 ≤ n) :
    ∀ d ∈ cutAt pre c post n, 12 ≤ d.size := by
  intro d hd
  have hc := sizes c (by simp)
  rw [cutAt, SimpleKernel.split] at hd
  split_ifs at hd with more
  · simp only [List.mem_append, List.mem_cons, List.not_mem_nil, or_false] at hd
    rcases hd with hd | rfl | rfl | hd
    · exact sizes d (List.mem_append_left _ hd)
    · exact lo
    · exact more.le
    · exact sizes d (List.mem_append_right _ (List.mem_cons_of_mem _ hd))
  · exact sizes d hd

/-- The new chunk's header is all that is written when it is linked. -/
theorem Listed.linkChunk_held (listed : Listed im F m pages tables l) (pool : KernelFrames im F)
    {len : Word} (lo : 12 ≤ len.toNat) (fits : after l + len.toNat ≤ m.heapMax.toNat)
    {Q : Unit → Machine → Prop} (hQ : ∀ t h, Held im F pages tables
      (starts Chunk.size 0xE0000000 (appended l len.toNat)) m.heapMax.toNat m t h → Q () t) :
    WP (SimpleKernel.linkChunk (addr (after l)) (lastWord 0 0xE0000000 l) len) E Q m := by
  obtain ⟨_, u, -, tiled⟩ := (listed.linkChunk pool lo fits (E := fun _ _ => False)
    (Q := fun _ _ => ∃ phys, Listed im F (m.setMem phys) pages tables
      (appended l len.toNat)) fun phys linked => ⟨phys, linked⟩).returns
  obtain ⟨phys, linked⟩ := tiled
  have held : Held im F pages tables (starts Chunk.size 0xE0000000 (appended l len.toNat))
      m.heapMax.toNat m m (fieldAt (view m)) :=
    ⟨listed.own.heads linked.sizes linked.fits, Spares.refl .., le_rfl⟩
  have hy : after l ∈ starts Chunk.size 0xE0000000 (appended l len.toNat) := Listed.mem_after ..
  simp only [SimpleKernel.linkChunk, SimpleKernel.setPrev, SimpleKernel.setNext, wp_bind]
  refine held.storeField pool hy .prev fun t₁ held₁ _ _ => ?_
  refine held₁.storeField pool hy .next fun t₂ held₂ _ _ => ?_
  refine held₂.setAllocated pool hy _ fun t₃ _ held₃ _ _ => ?_
  refine held₃.setLength pool hy _ fun t₄ _ _ held₄ _ _ => ?_
  rcases List.eq_nil_or_concat' l with rfl | ⟨pre, p, rfl⟩
  · rw [lastWord_nil, if_neg (not_not.2 rfl)]
    exact hQ t₄ _ held₄
  · have hx : after pre ∈ starts Chunk.size 0xE0000000 (appended (pre ++ [p]) len.toNat) := by
      rw [appended, List.append_assoc, List.singleton_append]
      exact Listed.mem_after ..
    rw [lastWord_after, if_pos (held.nonzero pool hx)]
    exact held₄.storeField pool hx .next fun t₅ held₅ _ _ => hQ t₅ _ held₅

/-- The bytes of a block behind its header are no part of any header. -/
theorem header_apart (sizes : ∀ c ∈ l, 12 ≤ c.size) {a x : ℕ}
    (ha : a ∈ starts Chunk.size 0xE0000000 l) {q : ℕ × ℕ} (hq : q ∈ blocks 0xE0000000 l)
    (lo : q.1 + 12 ≤ x) (lt : x < q.1 + q.2) : x < a ∨ a + 12 ≤ x := by
  obtain ⟨pre, c, post, split, -, start, size⟩ := mem_blocks_iff.1 hq
  have at_q : (q.1, c) ∈ place Chunk.size 0xE0000000 l := mem_place_iff.2 ⟨pre, post, split, start⟩
  obtain ⟨pre', d, post', split', start'⟩ := mem_starts_iff.1 ha
  have at_a : (a, d) ∈ place Chunk.size 0xE0000000 l := mem_place_iff.2 ⟨pre', post', split', start'⟩
  have hd := sizes d (by rw [split']; simp)
  by_cases same : a = q.1
  · omega
  · have apart : Apart Chunk.size (a, d) (q.1, c) :=
      place_apart at_a at_q fun e => same (congrArg Prod.fst e)
    simp only [Apart] at apart
    omega

theorem Spares.block {hi : ℕ} {t : Machine}
    (spares : Spares im (starts Chunk.size 0xE0000000 l) hi m t) (sizes : ∀ c ∈ l, 12 ≤ c.size)
    {q : ℕ × ℕ} (hq : q ∈ blocks 0xE0000000 l) (below : q.1 + q.2 ≤ hi) {va : Word}
    (lo : q.1 + 12 ≤ va.toNat) (lt : va.toNat < q.1 + q.2) : view t va = view m va := by
  obtain ⟨pre, c, post, -, -, start, -⟩ := mem_blocks_iff.1 hq
  exact spares.heap va (by omega) (by omega) fun a ha => header_apart sizes ha hq lo lt

/-- `t` has the payloads of the blocks that `m` has at `bs`. -/
def PayloadsKept (bs : List (ℕ × ℕ)) (m t : Machine) : Prop :=
  ∀ q ∈ bs, ∀ va : Word, q.1 + 12 ≤ va.toNat → va.toNat < q.1 + q.2 → view t va = view m va

/-- `kmalloc` writes the header of the new chunk and of the one before it, inside a free chunk or
behind the last one. -/
theorem HeapList.kmalloc_kept (heap : HeapList (· = false) im F m pages tables l)
    (pool : KernelFrames im F) {len : Word} (noWrap : len.toNat + 12 < 2 ^ 32)
    (room : NoneFits (len.toNat + 12) l → after l + (len.toNat + 12) < 2 ^ 32) :
    WP (SimpleKernel.kmalloc im len) (fun _ _ => True) (fun _ t => Untouched im m t ∧
      PayloadsKept (blocks 0xE0000000 l) m t) m := by
  have listed := heap.listed
  have sum : (len + sizeofHeader).toNat = len.toNat + 12 := toNat_offset (i := 12) (by omega)
  simp only [SimpleKernel.kmalloc, wp_bind]
  refine listed.findChunk pool heap.first (fun pre c post split free fits none => ?_) fun none => ?_
  · subst split
    dsimp only
    rw [if_pos (listed.spot pool).nonzero]
    simp only [wp_bind, wp_pure]
    refine listed.splitChunk_held pool (by omega) fits fun t h held => ?_
    have hx : after pre ∈ starts Chunk.size 0xE0000000
        (cutAt pre c post (len + sizeofHeader).toNat) := Listed.mem_after ..
    refine held.setAllocated pool hx 1 fun u g held' _ _ => ⟨held'.spares.toUntouched, ?_⟩
    intro q hq va lo lt
    rw [← blocks_cutAt free fits] at hq
    have sizes : ∀ d ∈ cutAt pre c post (len + sizeofHeader).toNat, 12 ≤ d.size :=
      cutAt_sizes listed.sizes (by omega)
    refine held'.spares.block sizes hq ?_ lo lt
    rw [blocks_cutAt free fits] at hq
    exact (heap.block_bounds hq).2
  · rw [sum] at none
    dsimp only
    rw [if_neg (not_not.2 rfl), wp_bind]
    refine listed.chunkStart pool ?_
    have fits := room none
    have append (v : Word) : WP (appendChunk im (addr (after l)) (lastWord 0 0xE0000000 l)
        (len + sizeofHeader)) (fun _ _ => True) (fun _ t => Untouched im m t ∧
          PayloadsKept (blocks 0xE0000000 l) m t) (m.setHeapFirst v) := by
      have listed' := listed.setHeapFirst v
      have e := heap.end_toNat pool
      have below : (addr (after l)).toNat + (len + sizeofHeader).toNat < 2 ^ 32 := by omega
      have grown := allocChunk_spec (E := fun _ _ => True) listed'.own pool below
        fun _ _ => trivial
      simp only [SimpleKernel.appendChunk, wp_bind]
      refine (grown.and (allocChunk_untouched listed'.own pool _ _)).weaken
        (fun _ _ _ => trivial) ?_
      rintro _ t ⟨⟨more, new, own, reached, kept, -⟩, same⟩
      rw [e, sum, Machine.setHeapFirst_heapMax] at reached
      have up : after l + (len.toNat + 12) ≤ pageUp (after l + (len.toNat + 12)) := by
        unfold pageUp
        omega
      have ends := listed.fits
      have listed'' := listed'.of_kept own pool kept ends (by
        unfold after at up reached
        omega)
      refine listed''.linkChunk_held pool (by omega) (by rw [sum]; omega) fun u h held => ?_
      refine ⟨(((Untouched.refl im m).setHeapFirst v).trans same).trans held.spares.toUntouched, ?_⟩
      intro q hq va lo lt
      have below := (heap.block_bounds hq).2
      have bounds := (heap.block_bounds hq).1
      have hq' : q ∈ blocks 0xE0000000 (appended l (len + sizeofHeader).toNat) := by
        rw [blocks_appended]
        exact List.mem_append_left _ hq
      refine (held.spares.block (fun d hd => ?_) hq' ?_ lo lt).trans
        (kept.view va (by omega) (by exact lt_of_lt_of_le lt below))
      · rcases List.mem_append.1 hd with hd | hd
        · exact listed.sizes d hd
        · rw [List.mem_singleton.1 hd]
          show 12 ≤ (len + sizeofHeader).toNat
          omega
      · omega
    split_ifs
    · simp only [wp_bind, wp_modify, wp_pure]
      exact append _
    · simp only [wp_bind, wp_pure]
      exact append m.heapFirst

end Kmalloc

end SimpleKernel
