import SimpleKernel.Kfree

/-!
# Allocating a chunk

`kmalloc` takes the first free chunk with enough room and splits off what it does not need, or
appends a new chunk behind the last one.
-/

namespace SimpleKernel

open ByteStore ProgramLogic Tiling

/-- What `split_chunk` makes of the chunk `c` at `a` for a request of `n` bytes. -/
def split (a : ℕ) (c : Chunk) (n : ℕ) : Chunk × List Chunk :=
  if c.size - n > 12 then ({ c with size := n }, [⟨c.size - n, false, addr a⟩]) else (c, [])

/-- No free chunk of `l` has room for `n` bytes. -/
def NoneFits (n : ℕ) (l : List Chunk) : Prop := ∀ c ∈ l, c.used = false → c.size < n

instance (n : ℕ) (l : List Chunk) : Decidable (NoneFits n l) :=
  inferInstanceAs (Decidable (∀ c ∈ l, c.used = false → c.size < n))

section Steps

variable {E : Stop → Machine → Prop} {im : Image} {F pages tables : List Word} {m : Machine}
  {l pre post : List Chunk} {c : Chunk}

/-- The headers at the starts of any tiling of the heap can be read and written one by one. -/
theorem Owned.heads (own : Owned im F m pages tables) (sizes : ∀ c ∈ l, 12 ≤ c.size)
    (fits : after l ≤ m.heapMax.toNat) :
    Heads im F m pages tables (starts Chunk.size 0xE0000000 l) (fieldAt (view m)) := by
  refine ⟨own, fun x hx => ⟨le_of_mem_starts hx, ?_⟩,
    fun x hx y hy ne => starts_apart sizes hx hy ne, fun _ _ _ => rfl⟩
  have := lt_of_mem_starts sizes hx
  unfold after at fits
  omega

theorem addr_ofToNat (v : Word) : addr v.toNat = v := by
  rw [addr, BitVec.ofNat_toNat, BitVec.setWidth_eq]

theorem fits_iff {used : Bool} {size : ℕ} {len : Word} (bound : size < 2 ^ 31) :
    BitVec.ofNat 32 used.toNat = 0 ∧ BitVec.ofNat 32 size ≥ len ↔
      used = false ∧ len.toNat ≤ size := by
  have room : BitVec.ofNat 32 size ≥ len ↔ len.toNat ≤ size := by
    show len.toNat ≤ (BitVec.ofNat 32 size).toNat ↔ _
    rw [toNat_small (by omega)]
  have flag : BitVec.ofNat 32 used.toNat = 0 ↔ used = false := by
    cases used <;> decide
  rw [room, flag]

theorem noneFits_concat {n : ℕ} : NoneFits n (l ++ [c]) ↔
    NoneFits n l ∧ (c.used = false → c.size < n) := by
  simp only [NoneFits, List.mem_append, List.mem_singleton, or_imp, forall_and, forall_eq]

/-- The search loop of `kmalloc` finds the first free chunk with enough room. -/
theorem Listed.findChunk (listed : Listed im F m pages tables l) (pool : KernelFrames im F)
    (first : m.heapFirst = nextWord 0 0xE0000000 l) {len : Word}
    {Q : Word × Word → Machine → Prop}
    (found : ∀ pre c post, l = pre ++ c :: post → c.used = false → len.toNat ≤ c.size →
      NoneFits len.toNat pre → Q (addr (after pre), lastWord 0 0xE0000000 pre) m)
    (missing : NoneFits len.toNat l → Q (0, lastWord 0 0xE0000000 l) m) :
    WP (findChunk len) E Q m := by
  unfold SimpleKernel.findChunk
  rw [wp_bind, wp_get, first]
  refine WP.whileM (fun x t => t = m ∧ ∃ pre rest, l = pre ++ rest ∧
      x.1 = nextWord 0 (after pre) rest ∧ x.2 = lastWord 0 0xE0000000 pre ∧
      NoneFits len.toNat pre)
    (fun x _ => if x.1 = 0 then 0 else 2 ^ 32 - x.1.toNat) ?_ roundLimit
    ⟨rfl, [], l, rfl, rfl, rfl, by simp [NoneFits]⟩ ?_
  · rintro ⟨cur, prev⟩ _ ⟨rfl, pre, rest, rfl, at_cur, rfl, none⟩
    cases rest with
    | nil =>
      rw [nextWord_nil] at at_cur
      subst at_cur
      rw [List.append_nil] at missing
      exact missing none
    | cons c post =>
      rw [nextWord_cons] at at_cur
      subst at_cur
      have at_c := listed.spot pool
      obtain ⟨-, bound⟩ := listed.size_lt pool
      have hc := listed.sizes c (by simp)
      have e := addr_toNat (a := after pre) (by omega)
      dsimp only
      rw [if_neg at_c.nonzero]
      simp only [wp_bind, wp_pure]
      refine listed.heads.headerAllocated pool at_c.mem at_c.header.info at_c.size_lt ?_
      refine listed.heads.headerLength pool at_c.mem at_c.header.info at_c.size_lt ?_
      by_cases fits : c.used = false ∧ len.toNat ≤ c.size
      · rw [decide_eq_false (not_not.2 ((fits_iff at_c.size_lt).2 fits))]
        exact found pre c post rfl fits.1 fits.2 none
      · rw [decide_eq_true (mt (fits_iff at_c.size_lt).1 fits)]
        refine listed.heads.loadField pool at_c.mem .next ?_
        refine ⟨⟨rfl, pre ++ [c], post, List.append_cons .., ?_, ?_, ?_⟩, ?_⟩
        · rw [at_c.header.next, after_concat]
        · exact (lastWord_concat _).symm
        · rw [noneFits_concat]
          exact ⟨none, fun free => not_le.1 fun le => fits ⟨free, le⟩⟩
        · rw [if_neg at_c.nonzero, at_c.header.next]
          cases post with
          | nil =>
            rw [nextWord_nil, if_pos rfl]
            omega
          | cons d post =>
            have at_d := listed.spot_second pool
            rw [nextWord_cons, if_neg at_d.nonzero, addr_toNat (by omega)]
            omega
  · dsimp only
    split_ifs with zero
    · decide
    · have : (0 : Word).toNat = 0 := rfl
      have : (nextWord 0 0xE0000000 l).toNat ≠ 0 := fun h => zero (BitVec.eq_of_toNat_eq h)
      unfold roundLimit
      omega

/-- A chunk becomes two when its header is shortened and linked to a new one behind its first `k`
bytes. -/
theorem Listed.cut {m' : Machine} {h' : ℕ → HeaderField → Word} {k : ℕ}
    (listed : Listed im F m pages tables (pre ++ c :: post)) (lo : 12 ≤ k) (more : 12 < c.size - k)
    (heads : Heads im F m' pages tables (starts Chunk.size 0xE0000000
      (pre ++ { c with size := k } :: ⟨c.size - k, false, addr (after pre)⟩ :: post)) h')
    (fits : m.heapMax.toNat ≤ m'.heapMax.toNat)
    (head : Header h' (after pre) { c with size := k } (addr (after pre + k)))
    (second : Header h' (after pre + k) ⟨c.size - k, false, addr (after pre)⟩
      (nextWord 0 (after pre + c.size) post))
    (out : ∀ x, x ≠ after pre → x ≠ after pre + k → h' x = fieldAt (view m) x) :
    Listed im F m' pages tables
      (pre ++ { c with size := k } :: ⟨c.size - k, false, addr (after pre)⟩ :: post) := by
  refine listed.replace [c] [_, _] heads ?_ (List.cons_ne_nil _ _) (List.cons_ne_nil _ _)
    (fun x hx => hx) (fun x hx => ?_) ?_ fits ⟨head, ?_, trivial⟩
  · simp only [total_cons, total_nil]
    omega
  · rw [total_cons, total_nil] at hx
    exact out x (by omega) (by omega)
  · simp only [List.mem_cons, List.not_mem_nil, or_false, forall_eq_or_imp, forall_eq]
    omega
  · have behind : after pre + k + (c.size - k) = after pre + c.size := by omega
    rw [behind, total_cons, total_nil, nextWord_nil, Nat.add_zero]
    exact second

/-- `split_chunk` cuts a chunk in two when the rest has room for more than a header. -/
theorem Listed.splitChunk (listed : Listed im F m pages tables (pre ++ c :: post))
    (pool : KernelFrames im F) {len : Word} (lo : 12 ≤ len.toNat) (hi : len.toNat ≤ c.size)
    {Q : Unit → Machine → Prop} (hQ : ∀ phys, Listed im F (m.setMem phys) pages tables
      (pre ++ (split (after pre) c len.toNat).1 ::
        ((split (after pre) c len.toNat).2 ++ post)) → Q () (m.setMem phys)) :
    WP (splitChunk (addr (after pre)) len) E Q m := by
  have at_c := listed.spot pool
  have header : sizeofHeader.toNat = 12 := rfl
  have rest : (BitVec.ofNat 32 c.size - len).toNat = c.size - len.toNat := by
    have := at_c.size_lt
    bv_omega
  simp only [SimpleKernel.splitChunk, wp_bind]
  refine listed.heads.headerLength pool at_c.mem at_c.header.info at_c.size_lt ?_
  by_cases more : c.size - len.toNat > 12
  · have more' : BitVec.ofNat 32 c.size - len > sizeofHeader := by
      show sizeofHeader.toNat < (BitVec.ofNat 32 c.size - len).toNat
      omega
    have room := (listed.size_lt pool).2
    have place : addr (after pre) + len = addr (after pre + len.toNat) := by
      rw [addr_add, addr_ofToNat]
    have ne : after pre ≠ after pre + len.toNat := by omega
    have sizes (d : Chunk) (hd : d ∈ pre ++ { c with size := len.toNat } ::
        ⟨c.size - len.toNat, false, addr (after pre)⟩ :: post) : 12 ≤ d.size := by
      simp only [List.mem_append, List.mem_cons] at hd
      rcases hd with hd | rfl | rfl | hd
      · exact listed.sizes d (List.mem_append_left _ hd)
      · exact lo
      · exact more.le
      · exact listed.sizes d (List.mem_append_right _ (List.mem_cons_of_mem _ hd))
    have heads := listed.own.heads sizes (by
      have := listed.fits
      simp only [after, total_append, total_cons] at this ⊢
      omega)
    have hx : after pre ∈ starts Chunk.size 0xE0000000 (pre ++ { c with size := len.toNat } ::
        ⟨c.size - len.toNat, false, addr (after pre)⟩ :: post) := Listed.mem_after ..
    have hy : after pre + len.toNat ∈ starts Chunk.size 0xE0000000
        (pre ++ { c with size := len.toNat } ::
          ⟨c.size - len.toNat, false, addr (after pre)⟩ :: post) := Listed.mem_second ..
    obtain ⟨u, g, hg, info⟩ := exists_infoWord (fieldAt (view m) (after pre + len.toNat) .info)
    have size := at_c.size_lt
    rw [if_pos more', place]
    simp only [setPrev, setNext, headerNext, wp_bind]
    refine heads.storeField pool hy .prev fun p₁ heads₁ => ?_
    refine heads₁.loadField pool hx .next ?_
    rw [setField_of_ne _ _ ne, at_c.header.next]
    refine heads₁.storeField pool hy .next fun p₂ heads₂ => ?_
    have fresh (v w : Word) : setField (setField (fieldAt (view m)) (after pre + len.toNat) .prev v)
        (after pre + len.toNat) .next w (after pre + len.toNat) .info = infoWord u g := by
      rw [setField_field _ _ (by decide), setField_field _ _ (by decide), info]
    refine heads₂.setAllocated pool hy (v := false) (fresh _ _) hg fun p₃ heads₃ => ?_
    have old (h : ℕ → HeaderField → Word) (f : HeaderField) (v : Word)
        (same : h (after pre) .info = infoWord c.used c.size) :
        setField h (after pre + len.toNat) f v (after pre) .info = infoWord c.used c.size := by
      rw [setField_of_ne _ _ ne, same]
    refine heads₃.headerLength pool hx (old _ _ _ (old _ _ _ (old _ _ _ at_c.header.info))) size ?_
    have remainder : BitVec.ofNat 32 c.size - len = BitVec.ofNat 32 (c.size - len.toNat) :=
      BitVec.eq_of_toNat_eq (by rw [rest, toNat_small (by omega)])
    rw [remainder]
    refine heads₃.setLength pool hy (setField_self ..) hg (by omega) fun p₄ heads₄ => ?_
    refine heads₄.storeField pool hx .next fun p₅ heads₅ => ?_
    have length : BitVec.ofNat 32 len.toNat = len := addr_ofToNat len
    refine length ▸ heads₅.setLength pool hx ((setField_field _ _ (by decide)).trans
      (old _ _ _ (old _ _ _ (old _ _ _ (old _ _ _ at_c.header.info))))) size (by omega)
      fun p₆ heads₆ => hQ p₆ ?_
    rw [SimpleKernel.split, if_pos more]
    refine listed.cut lo more heads₆ le_rfl ⟨?_, ?_, setField_self ..⟩ ?_ fun x hx hx' => ?_
    · rw [setField_field _ _ (by decide), setField_field _ _ (by decide)]
      simp only [setField_of_ne _ _ ne]
      exact at_c.header.prev
    · rw [setField_field _ _ (by decide), setField_self]
    · exact (header_written (fieldAt (view m)) (after pre + len.toNat)
        ⟨c.size - len.toNat, false, addr (after pre)⟩ (nextWord 0 (after pre + c.size) post)
        (infoWord false g)).congr (by simp only [setField_of_ne _ _ ne.symm])
    · simp only [setField_of_ne _ _ hx, setField_of_ne _ _ hx']
  · have less : ¬ BitVec.ofNat 32 c.size - len > sizeofHeader := by
      show ¬ sizeofHeader.toNat < (BitVec.ofNat 32 c.size - len).toNat
      omega
    rw [if_neg less, wp_pure]
    refine hQ m.mem ?_
    rw [SimpleKernel.split, if_neg more]
    exact listed

/-- A new chunk goes behind the last one. -/
theorem Listed.chunkStart (listed : Listed im F m pages tables l) (pool : KernelFrames im F)
    {Q : Word → Machine → Prop} (hQ : Q (addr (after l)) m) :
    WP (chunkStart (lastWord 0 0xE0000000 l)) E Q m := by
  rcases List.eq_nil_or_concat' l with rfl | ⟨pre, p, rfl⟩
  · exact hQ
  · have at_p := listed.spot pool
    rw [lastWord_after]
    unfold SimpleKernel.chunkStart
    rw [if_pos at_p.nonzero, wp_bind]
    refine listed.heads.headerLength pool at_p.mem at_p.header.info at_p.size_lt ?_
    rw [after_concat, addr_add] at hQ
    exact hQ

/-- The header of a new last chunk. -/
theorem Listed.linkChunk (listed : Listed im F m pages tables l) (pool : KernelFrames im F)
    {len : Word} (lo : 12 ≤ len.toNat) (fits : after l + len.toNat ≤ m.heapMax.toNat)
    {Q : Unit → Machine → Prop} (hQ : ∀ phys, Listed im F (m.setMem phys) pages tables
      (l ++ [⟨len.toNat, true, lastWord 0 0xE0000000 l⟩]) → Q () (m.setMem phys)) :
    WP (linkChunk (addr (after l)) (lastWord 0 0xE0000000 l) len) E Q m := by
  have limit := listed.own.heapMax_lt pool
  have length : BitVec.ofNat 32 len.toNat = len := addr_ofToNat len
  have sizes (c : Chunk) (hc : c ∈ l ++ [⟨len.toNat, true, lastWord 0 0xE0000000 l⟩]) :
      12 ≤ c.size := by
    rcases List.mem_append.1 hc with hc | hc
    · exact listed.sizes c hc
    · obtain rfl := List.mem_singleton.1 hc
      exact lo
  have fits' : after (l ++ [⟨len.toNat, true, lastWord 0 0xE0000000 l⟩]) ≤ m.heapMax.toNat := by
    rwa [after_concat]
  have heads := listed.own.heads sizes fits'
  have bound : len.toNat < 2 ^ 31 := by
    unfold after at fits
    omega
  obtain ⟨u, g, hg, info⟩ := exists_infoWord (fieldAt (view m) (after l) .info)
  have hy := Listed.mem_after l ⟨len.toNat, true, lastWord 0 0xE0000000 l⟩ []
  simp only [SimpleKernel.linkChunk, setPrev, setNext, wp_bind]
  refine heads.storeField pool hy .prev fun p₁ heads₁ => ?_
  refine heads₁.storeField pool hy .next fun p₂ heads₂ => ?_
  refine heads₂.setAllocated pool hy (v := true) (((setField_field _ _ (by decide)).trans
    (setField_field _ _ (by decide))).trans info) hg fun p₃ heads₃ => ?_
  refine length ▸ heads₃.setLength pool hy (setField_self ..) hg bound fun p₄ heads₄ => ?_
  have same (v w x y : Word) (a : ℕ) (ha : a ≠ after l) :
      setField (setField (setField (setField (fieldAt (view m)) (after l) .prev v) (after l) .next w)
        (after l) .info x) (after l) .info y a = fieldAt (view m) a := by
    simp only [setField_of_ne _ _ ha]
  have new := header_written (fieldAt (view m)) (after l)
    ⟨len.toNat, true, lastWord 0 0xE0000000 l⟩ 0 (infoWord true g)
  rcases List.eq_nil_or_concat' l with rfl | ⟨pre, p, rfl⟩
  · rw [lastWord_nil, if_neg (not_not.2 rfl), wp_pure]
    exact hQ p₄ (Listed.of_heads heads₄ ⟨new, trivial⟩ (fun x hx => hx) sizes fits')
  · have at_p := listed.spot pool
    have hx : after pre ∈ starts Chunk.size 0xE0000000
        (pre ++ [p] ++ [⟨len.toNat, true, lastWord 0 0xE0000000 (pre ++ [p])⟩]) := by
      rw [starts_append]
      exact List.mem_append_left _ at_p.mem
    have hp := listed.sizes p (by simp)
    have ne : after pre ≠ after (pre ++ [p]) := by
      rw [after_concat]
      omega
    have before (x : ℕ) (hx : x ∈ starts Chunk.size 0xE0000000 pre) :
        x ≠ after pre ∧ x ≠ after (pre ++ [p]) := by
      have := lt_of_mem_starts (fun d hd => listed.sizes d (List.mem_append_left _ hd)) hx
      rw [after_concat]
      unfold after
      omega
    rw [lastWord_after] at heads₄ new hx sizes fits' hQ ⊢
    rw [if_pos at_p.nonzero]
    refine heads₄.storeField pool hx .next fun p₅ heads₅ => hQ p₅ ?_
    refine Listed.of_heads heads₅ (chain_append.2 ⟨chain_append.2 ⟨?_,
      at_p.header.setNext (same _ _ _ _ _ ne) _, trivial⟩, ?_, trivial⟩) (fun x hx => hx) sizes fits'
    · refine (chain_append.1 listed.chain).1.congr fun x hx => ?_
      rw [setField_of_ne _ _ (before x hx).1, same _ _ _ _ _ (before x hx).2]
    · exact new.congr (setField_of_ne _ _ ne.symm)

theorem Listed.setHeapFirst (listed : Listed im F m pages tables l) (v : Word) :
    Listed im F (m.setHeapFirst v) pages tables l :=
  ⟨listed.own.setHeapFirst v, listed.chain, listed.sizes, listed.fits⟩

/-- The chunk list after `kmalloc` of `n` bytes, header included, in the free chunk `c`. -/
def reused (pre : List Chunk) (c : Chunk) (post : List Chunk) (n : ℕ) : List Chunk :=
  pre ++ { (split (after pre) c n).1 with used := true } :: ((split (after pre) c n).2 ++ post)

/-- The chunk that `kmalloc` of `n` bytes puts behind the last one. -/
def appended (l : List Chunk) (n : ℕ) : List Chunk := l ++ [⟨n, true, lastWord 0 0xE0000000 l⟩]

theorem after_appended (l : List Chunk) (n : ℕ) : after (appended l n) = after l + n :=
  after_concat ..

theorem Listed.appendChunk (listed : Listed im F m pages tables l) (pool : KernelFrames im F)
    {len : Word} (lo : 12 ≤ len.toNat) (room : after l + len.toNat < 2 ^ 32)
    (oom : (frames m).length + m.heapMax.toNat / 2048 < pageUp (after l + len.toNat) / 2048 →
      ∀ t, E outOfMemory t) {Q : Unit → Machine → Prop} (hQ : ∀ t more new,
      Listed im F t (pages ++ more) (tables ++ new) (appended l len.toNat) →
      t.heapFirst = m.heapFirst →
      t.heapMax.toNat = max m.heapMax.toNat (pageUp (after l + len.toNat)) →
      (frames m).length + m.heapMax.toNat / 2048 ≤ (frames t).length + t.heapMax.toNat / 2048 →
      Q () t) :
    WP (appendChunk im (addr (after l)) (lastWord 0 0xE0000000 l) len) E Q m := by
  have e := addr_toNat (a := after l) (by omega)
  have up : after l + len.toNat ≤ pageUp (after l + len.toNat) := by
    unfold pageUp
    omega
  unfold SimpleKernel.appendChunk
  refine WP.bind (allocChunk_spec listed.own pool (by rwa [e]) (by rwa [e])) ?_
  rintro _ t ⟨more, new, own, reached, kept, left⟩
  rw [e] at reached
  have listed' := listed.of_kept own pool kept listed.fits (by
    have := listed.fits
    omega)
  refine listed'.linkChunk pool lo (by omega) fun phys listed'' => ?_
  exact hQ _ more new listed'' kept.heapFirst reached left

theorem Listed.kmalloc (listed : Listed im F m pages tables l) (pool : KernelFrames im F)
    (first : m.heapFirst = nextWord 0 0xE0000000 l) {len : Word}
    (noWrap : len.toNat + 12 < 2 ^ 32)
    (room : NoneFits (len.toNat + 12) l → after l + (len.toNat + 12) < 2 ^ 32)
    (oom : NoneFits (len.toNat + 12) l → (frames m).length + m.heapMax.toNat / 2048 <
      pageUp (after l + (len.toNat + 12)) / 2048 → ∀ t, E outOfMemory t)
    {Q : Word → Machine → Prop}
    (reuse : ∀ pre c post phys, l = pre ++ c :: post → c.used = false → len.toNat + 12 ≤ c.size →
      NoneFits (len.toNat + 12) pre →
      Listed im F (m.setMem phys) pages tables (reused pre c post (len.toNat + 12)) →
      Q (addr (after pre + 12)) (m.setMem phys))
    (append : ∀ t more new, NoneFits (len.toNat + 12) l →
      Listed im F t (pages ++ more) (tables ++ new) (appended l (len.toNat + 12)) →
      t.heapFirst = addr 0xE0000000 →
      t.heapMax.toNat = max m.heapMax.toNat (pageUp (after l + (len.toNat + 12))) →
      (frames m).length + m.heapMax.toNat / 2048 ≤ (frames t).length + t.heapMax.toNat / 2048 →
      Q (addr (after l + 12)) t) :
    WP (kmalloc im len) E Q m := by
  have sum : (len + sizeofHeader).toNat = len.toNat + 12 := toNat_offset (i := 12) (by omega)
  simp only [SimpleKernel.kmalloc, wp_bind]
  refine listed.findChunk pool first (fun pre c post at_c free fits none => ?_) fun none => ?_
  · subst at_c
    have spot := listed.spot pool
    rw [sum] at fits none
    dsimp only
    rw [if_pos spot.nonzero]
    simp only [wp_bind]
    refine listed.splitChunk pool (by omega) (by omega) fun p₁ listed₁ => ?_
    rw [sum] at listed₁
    refine listed₁.setAllocated pool (v := true) fun p₂ listed₂ => ?_
    rw [wp_pure]
    have value := reuse pre c post p₂ rfl free fits none listed₂
    rw [addr_add] at value
    exact value
  · rw [sum] at none
    dsimp only
    rw [if_neg (not_not.2 rfl), wp_bind]
    refine listed.chunkStart pool ?_
    have value := addr_add (after l) 12
    have room := room none
    have oom := oom none
    rw [← sum] at room oom
    have finish (t : Machine) (more new : List Word) (listed' : Listed im F t (pages ++ more)
          (tables ++ new) (appended l (len + sizeofHeader).toNat))
        (first' : t.heapFirst = addr 0xE0000000) (reached : t.heapMax.toNat =
          max m.heapMax.toNat (pageUp (after l + (len + sizeofHeader).toNat)))
        (left : (frames m).length + m.heapMax.toNat / 2048 ≤
          (frames t).length + t.heapMax.toNat / 2048) :
        Q (addr (after l) + sizeofHeader) t := by
      rw [sum] at listed' reached
      have done := append t more new none listed' first' reached left
      rw [value] at done
      exact done
    rcases List.eq_nil_or_concat' l with rfl | ⟨pre, p, rfl⟩
    · rw [lastWord_nil, if_pos rfl]
      simp only [wp_bind, wp_modify]
      refine (listed.setHeapFirst (addr (after []))).appendChunk pool (by omega) room oom
        fun t more new listed' same reached left => ?_
      exact finish t more new listed' same reached left
    · have at_p := listed.spot pool
      rw [lastWord_after, if_neg at_p.nonzero, ← lastWord_after pre p, wp_bind]
      refine listed.appendChunk pool (by omega) room oom
        fun t more new listed' same reached left => ?_
      refine finish t more new listed' (same.trans (first.trans ?_)) reached left
      cases pre <;> rfl

end Steps

end SimpleKernel
