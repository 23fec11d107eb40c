import SimpleKernel.HeapMemory
import SimpleKernel.Lib.Tiling

/-!
# The chunk list

The headers of the heap read as a list of chunks that lie one behind the other.  Sizes and flags
are shared between the list and memory; the `prev` links are recorded as they are, right or wrong.
-/

namespace SimpleKernel

open ByteStore ProgramLogic Tiling

/-! ## Bit-fields -/

/-- The third word of a header. -/
def infoWord (used : Bool) (size : ℕ) : Word := BitVec.ofNat 32 (2 * size + used.toNat)

section InfoWord

variable {used v : Bool} {n k : ℕ}

theorem infoWord_toNat (hn : n < 2 ^ 31) : (infoWord used n).toNat = 2 * n + used.toNat := by
  have := Bool.toNat_lt used
  rw [infoWord, toNat_small (by omega)]

/-- Every word is the third word of some header. -/
theorem exists_infoWord (g : Word) : ∃ used n, n < 2 ^ 31 ∧ g = infoWord used n := by
  refine ⟨decide (g.toNat % 2 = 1), g.toNat / 2, by omega, BitVec.eq_of_toNat_eq ?_⟩
  rw [infoWord_toNat (by omega)]
  by_cases odd : g.toNat % 2 = 1
  · rw [decide_eq_true odd, Bool.toNat_true]
    omega
  · rw [decide_eq_false odd, Bool.toNat_false]
    omega

/-- Or-ing a single bit into an even word adds it. -/
theorem even_or_toNat {x y : Word} (hx : x.toNat % 2 = 0) (hy : y.toNat < 2) :
    (x ||| y).toNat = x.toNat + y.toNat := by
  have h := Nat.two_pow_add_eq_or_of_lt (i := 1) hy (x.toNat / 2)
  rw [show 2 ^ 1 * (x.toNat / 2) = x.toNat by omega] at h
  rw [BitVec.toNat_or, h]

theorem infoWord_and_one (hn : n < 2 ^ 31) :
    infoWord used n &&& 1 = BitVec.ofNat 32 used.toNat := by
  have := Bool.toNat_lt used
  have h := and_low_toNat (infoWord used n) 1 (by decide)
  apply BitVec.eq_of_toNat_eq
  rw [toNat_small (by omega)]
  exact h.trans (by rw [infoWord_toNat hn]; omega)

theorem infoWord_shiftRight (hn : n < 2 ^ 31) : infoWord used n >>> 1 = BitVec.ofNat 32 n := by
  have := Bool.toNat_lt used
  apply BitVec.eq_of_toNat_eq
  rw [BitVec.toNat_ushiftRight, infoWord_toNat hn, Nat.shiftRight_eq_div_pow, BitVec.toNat_ofNat,
    Nat.mod_eq_of_lt (by omega)]
  omega

/-- Setting the `allocated` bit. -/
theorem infoWord_setUsed (hn : n < 2 ^ 31) :
    (infoWord used n &&& (0xfffffffe : Word)) ||| BitVec.ofNat 32 v.toNat = infoWord v n := by
  have hu := Bool.toNat_lt used
  have hv := Bool.toNat_lt v
  have masked : infoWord used n &&& (0xfffffffe : Word) = infoWord used n >>> 1 <<< 1 := by
    apply BitVec.eq_of_getLsbD_eq
    intro i hi
    simp only [BitVec.getLsbD_and, BitVec.getLsbD_shiftLeft, BitVec.getLsbD_ushiftRight]
    interval_cases i <;> simp
  have even : (infoWord used n >>> 1 <<< 1).toNat = 2 * n := by
    rw [infoWord_shiftRight hn, BitVec.toNat_shiftLeft, BitVec.toNat_ofNat, Nat.shiftLeft_eq]
    omega
  have bit : (BitVec.ofNat 32 v.toNat).toNat = v.toNat := toNat_small (by omega)
  apply BitVec.eq_of_toNat_eq
  rw [masked, even_or_toNat (by omega) (by omega), even, bit, infoWord_toNat hn]

/-- Setting the `length` bits. -/
theorem infoWord_setSize (hn : n < 2 ^ 31) (hk : k < 2 ^ 31) :
    (infoWord used n &&& (1 : Word)) ||| (BitVec.ofNat 32 k <<< 1) = infoWord used k := by
  have hu := Bool.toNat_lt used
  have even : (BitVec.ofNat 32 k <<< 1).toNat = 2 * k := by
    rw [BitVec.toNat_shiftLeft, BitVec.toNat_ofNat, Nat.shiftLeft_eq]
    omega
  have bit : (BitVec.ofNat 32 used.toNat).toNat = used.toNat := toNat_small (by omega)
  apply BitVec.eq_of_toNat_eq
  rw [infoWord_and_one hn, BitVec.or_comm, even_or_toNat (by omega) (by omega), even, bit,
    infoWord_toNat hk]

end InfoWord

namespace Heads

variable {E : Stop → Machine → Prop} {im : Image} {F pages tables : List Word} {m : Machine}
  {D : List ℕ} {h : ℕ → HeaderField → Word} {a n k : ℕ} {used v : Bool}

theorem headerAllocated (heads : Heads im F m pages tables D h) (pool : KernelFrames im F)
    (ha : a ∈ D) (info : h a .info = infoWord used n) (hn : n < 2 ^ 31)
    {Q : Word → Machine → Prop} (hQ : Q (BitVec.ofNat 32 used.toNat) m) :
    WP (headerAllocated (addr a)) E Q m := by
  simp only [SimpleKernel.headerAllocated, wp_bind, wp_pure]
  refine heads.loadField pool ha .info ?_
  rw [info, infoWord_and_one hn]
  exact hQ

theorem headerLength (heads : Heads im F m pages tables D h) (pool : KernelFrames im F)
    (ha : a ∈ D) (info : h a .info = infoWord used n) (hn : n < 2 ^ 31)
    {Q : Word → Machine → Prop} (hQ : Q (BitVec.ofNat 32 n) m) :
    WP (headerLength (addr a)) E Q m := by
  simp only [SimpleKernel.headerLength, wp_bind, wp_pure]
  refine heads.loadField pool ha .info ?_
  rw [info, infoWord_shiftRight hn]
  exact hQ

theorem setAllocated (heads : Heads im F m pages tables D h) (pool : KernelFrames im F)
    (ha : a ∈ D) (info : h a .info = infoWord used n) (hn : n < 2 ^ 31)
    {Q : Unit → Machine → Prop} (hQ : ∀ phys,
      Heads im F (m.setMem phys) pages tables D (setField h a .info (infoWord v n)) →
      Q () (m.setMem phys)) :
    WP (setAllocated (addr a) (BitVec.ofNat 32 v.toNat)) E Q m := by
  simp only [SimpleKernel.setAllocated, wp_bind]
  refine heads.loadField pool ha .info ?_
  rw [info, infoWord_setUsed hn]
  exact heads.storeField pool ha .info hQ

theorem setLength (heads : Heads im F m pages tables D h) (pool : KernelFrames im F)
    (ha : a ∈ D) (info : h a .info = infoWord used n) (hn : n < 2 ^ 31) (hk : k < 2 ^ 31)
    {Q : Unit → Machine → Prop} (hQ : ∀ phys,
      Heads im F (m.setMem phys) pages tables D (setField h a .info (infoWord used k)) →
      Q () (m.setMem phys)) :
    WP (setLength (addr a) (BitVec.ofNat 32 k)) E Q m := by
  simp only [SimpleKernel.setLength, wp_bind]
  refine heads.loadField pool ha .info ?_
  rw [info, infoWord_setSize hn hk]
  exact heads.storeField pool ha .info hQ

end Heads

/-! ## Chains -/

/-- A chunk with its header: its length, its flag, and its `prev` link. -/
structure Chunk where
  size : ℕ
  used : Bool
  back : Word
  deriving DecidableEq, Repr

/-- The header of the chunk `c` at `a`. -/
structure Header (h : ℕ → HeaderField → Word) (a : ℕ) (c : Chunk) (next : Word) : Prop where
  prev : h a .prev = c.back
  next : h a .next = next
  info : h a .info = infoWord c.used c.size

/-- Where the list goes on at `a`: the next chunk, or `stop` behind the last one. -/
def nextWord (stop : Word) (a : ℕ) : List Chunk → Word
  | [] => stop
  | _ :: _ => addr a

/-- The headers from `a` on describe the chunks `l`, and the last link is `stop`. -/
def Chain (h : ℕ → HeaderField → Word) (stop : Word) : ℕ → List Chunk → Prop
  | _, [] => True
  | a, c :: l => Header h a c (nextWord stop (a + c.size) l) ∧ Chain h stop (a + c.size) l

section Chain

variable {h h' : ℕ → HeaderField → Word} {stop : Word} {a : ℕ} {c : Chunk} {l l₁ l₂ : List Chunk}

@[simp] theorem nextWord_nil : nextWord stop a [] = stop := rfl

@[simp] theorem nextWord_cons : nextWord stop a (c :: l) = addr a := rfl

theorem chain_cons : Chain h stop a (c :: l) ↔
    Header h a c (nextWord stop (a + c.size) l) ∧ Chain h stop (a + c.size) l := Iff.rfl

theorem nextWord_append : nextWord stop a (l₁ ++ l₂) =
    nextWord (nextWord stop (a + total Chunk.size l₁) l₂) a l₁ := by
  cases l₁ <;> simp

/-- A chain of a concatenation is a chain that stops where the next one begins. -/
theorem chain_append : Chain h stop a (l₁ ++ l₂) ↔
    Chain h (nextWord stop (a + total Chunk.size l₁) l₂) a l₁ ∧
      Chain h stop (a + total Chunk.size l₁) l₂ := by
  induction l₁ generalizing a with
  | nil => simp [Chain]
  | cons c l₁ ih =>
    rw [List.cons_append, chain_cons, chain_cons, ih, nextWord_append, total_cons, Nat.add_assoc,
      and_assoc]

theorem Header.congr (head : Header h a c stop) (same : h' a = h a) : Header h' a c stop :=
  ⟨by rw [same, head.prev], by rw [same, head.next], by rw [same, head.info]⟩

/-- Storing the `next` link of a header. -/
theorem Header.setNext {next : Word} (head : Header h a c next) (same : h' a = h a) (v : Word) :
    Header (setField h' a .next v) a c v := by
  refine ⟨?_, setField_self .., ?_⟩
  · rw [setField_field _ _ (by decide), same, head.prev]
  · rw [setField_field _ _ (by decide), same, head.info]

/-- A header written field by field, the third word twice. -/
theorem header_written (h : ℕ → HeaderField → Word) (a : ℕ) (c : Chunk) (next x : Word) :
    Header (setField (setField (setField (setField h a .prev c.back) a .next next) a .info x) a
      .info (infoWord c.used c.size)) a c next := by
  refine ⟨?_, ?_, setField_self ..⟩
  · rw [setField_field _ _ (by decide), setField_field _ _ (by decide),
      setField_field _ _ (by decide), setField_self]
  · rw [setField_field _ _ (by decide), setField_field _ _ (by decide), setField_self]

/-- A chain depends on the headers of its chunks only. -/
theorem Chain.congr (chain : Chain h stop a l) (same : ∀ x ∈ starts Chunk.size a l, h' x = h x) :
    Chain h' stop a l := by
  induction l generalizing a with
  | nil => trivial
  | cons c l ih =>
    obtain ⟨head, rest⟩ := chain
    rw [starts_cons, List.forall_mem_cons] at same
    exact ⟨head.congr same.1, ih rest same.2⟩

theorem Chain.setField (chain : Chain h stop a l) {x : ℕ} (out : x ∉ starts Chunk.size a l)
    (f : HeaderField) (v : Word) : Chain (setField h x f v) stop a l :=
  chain.congr fun _ hy => setField_of_ne h v fun same => out (same ▸ hy)

/-- Replacing a piece of a chain by one of the same length. -/
theorem Chain.replace {pre mid mid' post : List Chunk}
    (chain : Chain h stop a (pre ++ (mid ++ post)))
    (same : total Chunk.size mid' = total Chunk.size mid) (ne : mid ≠ []) (ne' : mid' ≠ [])
    (hpre : ∀ x ∈ starts Chunk.size a pre, h' x = h x)
    (hpost : ∀ x ∈ starts Chunk.size (a + total Chunk.size pre + total Chunk.size mid) post,
      h' x = h x)
    (new : Chain h' (nextWord stop (a + total Chunk.size pre + total Chunk.size mid) post)
      (a + total Chunk.size pre) mid') : Chain h' stop a (pre ++ (mid' ++ post)) := by
  obtain ⟨d, rest, rfl⟩ := List.exists_cons_of_ne_nil ne
  obtain ⟨d', rest', rfl⟩ := List.exists_cons_of_ne_nil ne'
  obtain ⟨chain₁, chain₂⟩ := chain_append.1 chain
  obtain ⟨-, chain₃⟩ := chain_append.1 chain₂
  refine chain_append.2 ⟨chain₁.congr hpre, chain_append.2 ⟨?_, ?_⟩⟩
  · rwa [same]
  · rw [same]
    exact chain₃.congr hpost

theorem le_of_mem_starts {x : ℕ} (h : x ∈ starts Chunk.size a l) : a ≤ x := by
  obtain ⟨pre, c, post, -, rfl⟩ := mem_starts_iff.1 h
  omega

theorem lt_of_mem_starts {x : ℕ} (sizes : ∀ c ∈ l, 12 ≤ c.size)
    (h : x ∈ starts Chunk.size a l) : x + 12 ≤ a + total Chunk.size l := by
  obtain ⟨pre, c, post, rfl, rfl⟩ := mem_starts_iff.1 h
  have := sizes c (List.mem_append_right _ (List.mem_cons_self ..))
  rw [total_append, total_cons]
  omega

theorem starts_apart {x y : ℕ} (sizes : ∀ c ∈ l, 12 ≤ c.size) (hx : x ∈ starts Chunk.size a l)
    (hy : y ∈ starts Chunk.size a l) (ne : x ≠ y) : x + 12 ≤ y ∨ y + 12 ≤ x := by
  simp only [starts, List.mem_map, Prod.exists, exists_and_right, exists_eq_right] at hx hy
  obtain ⟨c, hc⟩ := hx
  obtain ⟨d, hd⟩ := hy
  have size_of (z : ℕ) (e : Chunk) (he : (z, e) ∈ place Chunk.size a l) : 12 ≤ e.size := by
    obtain ⟨pre, post, rfl, -⟩ := mem_place_iff.1 he
    exact sizes e (List.mem_append_right _ (List.mem_cons_self ..))
  have := size_of x c hc
  have := size_of y d hd
  rcases place_apart hc hd fun same => ne (congrArg Prod.fst same) with h | h
  · exact .inl (le_trans (by omega : x + 12 ≤ x + c.size) h)
  · exact .inr (le_trans (by omega : y + 12 ≤ y + d.size) h)

/-- Give the first chunk of `l` the `prev` link `p`. -/
def relink (p : Word) : List Chunk → List Chunk
  | [] => []
  | c :: l => { c with back := p } :: l

@[simp] theorem relink_nil (p : Word) : relink p [] = [] := rfl

@[simp] theorem relink_cons (p : Word) : relink p (c :: l) = { c with back := p } :: l := rfl

@[simp] theorem total_relink (p : Word) : total Chunk.size (relink p l) = total Chunk.size l := by
  cases l <;> rfl

/-- The address of the last of the chunks `l` from `a` on, or `p` if there is none. -/
def lastWord (p : Word) : ℕ → List Chunk → Word
  | _, [] => p
  | a, c :: l => lastWord (addr a) (a + c.size) l

@[simp] theorem lastWord_nil (p : Word) : lastWord p a [] = p := rfl

theorem lastWord_concat (p : Word) : lastWord p a (l ++ [c]) = addr (a + total Chunk.size l) := by
  induction l generalizing p a with
  | nil => simp [lastWord]
  | cons d l ih => rw [List.cons_append, lastWord, ih, total_cons, Nat.add_assoc]

/-- The `prev` links of the chunks with a flag in `which` are right: they are the addresses of the
chunks before them, and `p` for the first. -/
def Backs (which : Bool → Prop) (p : Word) : ℕ → List Chunk → Prop
  | _, [] => True
  | a, c :: l => (which c.used → c.back = p) ∧ Backs which (addr a) (a + c.size) l

variable {which : Bool → Prop} {p : Word}

theorem backs_cons : Backs which p a (c :: l) ↔
    (which c.used → c.back = p) ∧ Backs which (addr a) (a + c.size) l := Iff.rfl

theorem backs_append : Backs which p a (l₁ ++ l₂) ↔
    Backs which p a l₁ ∧ Backs which (lastWord p a l₁) (a + total Chunk.size l₁) l₂ := by
  induction l₁ generalizing p a with
  | nil => simp [Backs]
  | cons c l₁ ih =>
    rw [List.cons_append, backs_cons, backs_cons, ih, lastWord, total_cons, Nat.add_assoc,
      and_assoc]

theorem Backs.relink (backs : Backs which p a l) (q : Word) : Backs which q a (relink q l) := by
  cases l with
  | nil => trivial
  | cons c l => exact ⟨fun _ => rfl, backs.2⟩

end Chain

/-! ## The list in memory -/

/-- The address of the chunk behind the chunks `pre`. -/
def after (pre : List Chunk) : ℕ := 0xE0000000 + total Chunk.size pre

theorem after_concat (pre : List Chunk) (p : Chunk) : after (pre ++ [p]) = after pre + p.size := by
  simp [after, Nat.add_assoc]

/-- The right `prev` link of a chunk behind `p`. -/
theorem lastWord_after (pre : List Chunk) (p : Chunk) :
    lastWord 0 0xE0000000 (pre ++ [p]) = addr (after pre) := lastWord_concat _

/-- The heap holds the chunk list `l`, which ends below `heap_max`. -/
structure Listed (im : Image) (F : List Word) (m : Machine) (pages tables : List Word)
    (l : List Chunk) : Prop where
  own : Owned im F m pages tables
  chain : Chain (fieldAt (view m)) 0 0xE0000000 l
  sizes : ∀ c ∈ l, 12 ≤ c.size
  fits : 0xE0000000 + total Chunk.size l ≤ m.heapMax.toNat

namespace Listed

variable {E : Stop → Machine → Prop} {im : Image} {F pages tables : List Word} {m : Machine}
  {l pre post : List Chunk} {c : Chunk}

theorem heads (listed : Listed im F m pages tables l) : Heads im F m pages tables
    (starts Chunk.size 0xE0000000 l) (fieldAt (view m)) := by
  have fits := listed.fits
  refine ⟨listed.own, fun x hx => ⟨le_of_mem_starts hx, ?_⟩,
    fun x hx y hy ne => starts_apart listed.sizes hx hy ne, fun _ _ _ => rfl⟩
  have := lt_of_mem_starts listed.sizes hx
  omega

theorem of_heads {D : List ℕ} {h : ℕ → HeaderField → Word} (heads : Heads im F m pages tables D h)
    (chain : Chain h 0 0xE0000000 l) (sub : ∀ x ∈ starts Chunk.size 0xE0000000 l, x ∈ D)
    (sizes : ∀ c ∈ l, 12 ≤ c.size) (fits : 0xE0000000 + total Chunk.size l ≤ m.heapMax.toNat) :
    Listed im F m pages tables l :=
  ⟨heads.own, chain.congr fun x hx => funext (heads.rep x (sub x hx)), sizes, fits⟩

/-- The list is still there in a machine that kept the heap below some place behind its end. -/
theorem of_kept {t : Machine} {pages' tables' : List Word} {hi : ℕ}
    (listed : Listed im F m pages tables l) (own : Owned im F t pages' tables')
    (pool : KernelFrames im F) (kept : HeapKept m t hi)
    (below : 0xE0000000 + total Chunk.size l ≤ hi)
    (fits : 0xE0000000 + total Chunk.size l ≤ t.heapMax.toNat) :
    Listed im F t pages' tables' l := by
  have limit := own.heapMax_lt pool
  refine ⟨own, listed.chain.congr fun x hx => funext fun f => ?_, listed.sizes, fits⟩
  have lo := le_of_mem_starts hx
  have hi := lt_of_mem_starts listed.sizes hx
  have e := field_toNat (a := x) f (by omega)
  have := f.ctorIdx_lt
  exact readWord_congr (by omega) fun y _ _ => kept.view y (by omega) (by omega)

theorem mem_after (pre : List Chunk) (c : Chunk) (post : List Chunk) :
    after pre ∈ starts Chunk.size 0xE0000000 (pre ++ c :: post) :=
  mem_starts_iff.2 ⟨pre, c, post, rfl, rfl⟩

theorem mem_second (pre : List Chunk) (c n : Chunk) (post : List Chunk) :
    after pre + c.size ∈ starts Chunk.size 0xE0000000 (pre ++ c :: n :: post) := by
  rw [List.append_cons, ← after_concat]
  exact mem_after ..

theorem chain_after (listed : Listed im F m pages tables (pre ++ post)) :
    Chain (fieldAt (view m)) 0 (after pre) post :=
  (chain_append.1 listed.chain).2

theorem header (listed : Listed im F m pages tables (pre ++ c :: post)) :
    Header (fieldAt (view m)) (after pre) c (nextWord 0 (after pre + c.size) post) :=
  listed.chain_after.1

theorem after_not_mem (sizes : ∀ c ∈ pre, 12 ≤ c.size) :
    after pre ∉ starts Chunk.size 0xE0000000 pre := fun h => by
  have := lt_of_mem_starts sizes h
  unfold after at this
  omega

theorem size_lt (listed : Listed im F m pages tables (pre ++ c :: post)) (pool : KernelFrames im F) :
    c.size < 2 ^ 31 ∧ after pre + c.size ≤ 0xFFF00000 := by
  have := listed.own.heapMax_lt pool
  have := listed.fits
  rw [total_append, total_cons] at this
  unfold after
  omega

/-- The chunk `c` sits at the address `x`, which its header can be read and written at. -/
structure Spot (m : Machine) (l : List Chunk) (x : ℕ) (c : Chunk) (next : Word) : Prop where
  mem : x ∈ starts Chunk.size 0xE0000000 l
  header : Header (fieldAt (view m)) x c next
  nonzero : addr x ≠ 0
  size_lt : c.size < 2 ^ 31

theorem spot (listed : Listed im F m pages tables (pre ++ c :: post)) (pool : KernelFrames im F) :
    Spot m (pre ++ c :: post) (after pre) c (nextWord 0 (after pre + c.size) post) := by
  obtain ⟨size, bound⟩ := listed.size_lt pool
  refine ⟨mem_after pre c post, listed.header, fun zero => ?_, size⟩
  have := congrArg BitVec.toNat zero
  rw [addr_toNat (by omega)] at this
  have : (0 : Word).toNat = 0 := rfl
  unfold after at *
  omega

/-- The chunk behind a chunk. -/
theorem spot_second {n : Chunk} (listed : Listed im F m pages tables (pre ++ c :: n :: post))
    (pool : KernelFrames im F) : Spot m (pre ++ c :: n :: post) (after pre + c.size) n
      (nextWord 0 (after pre + (c.size + n.size)) post) := by
  rw [List.append_cons] at listed ⊢
  have spot := listed.spot pool
  rwa [after_concat, Nat.add_assoc] at spot

theorem spot_third {n r : Chunk}
    (listed : Listed im F m pages tables (pre ++ c :: n :: r :: post)) (pool : KernelFrames im F) :
    Spot m (pre ++ c :: n :: r :: post) (after pre + (c.size + n.size)) r
      (nextWord 0 (after pre + (c.size + (n.size + r.size))) post) := by
  have split : pre ++ c :: n :: r :: post = (pre ++ [c, n]) ++ r :: post := by simp
  have place : after (pre ++ [c, n]) = after pre + (c.size + n.size) := by
    simp [after, Nat.add_assoc]
  rw [split] at listed ⊢
  have spot := listed.spot pool
  rwa [place, Nat.add_assoc, Nat.add_assoc c.size] at spot

theorem size_add_lt {n : Chunk} (listed : Listed im F m pages tables (pre ++ c :: n :: post))
    (pool : KernelFrames im F) : c.size + n.size < 2 ^ 31 := by
  have := listed.own.heapMax_lt pool
  have := listed.fits
  simp only [total_append, total_cons] at this
  omega

/-- Headers that changed only inside `mid`, where they now describe chunks of the same total length. -/
theorem replace (mid mid' : List Chunk) {m' : Machine} {D : List ℕ} {h' : ℕ → HeaderField → Word}
    (listed : Listed im F m pages tables (pre ++ (mid ++ post)))
    (heads : Heads im F m' pages tables D h') (same : total Chunk.size mid' = total Chunk.size mid)
    (ne : mid ≠ []) (ne' : mid' ≠ [])
    (sub : ∀ x ∈ starts Chunk.size 0xE0000000 (pre ++ (mid' ++ post)), x ∈ D)
    (out : ∀ x, x < after pre ∨ after pre + total Chunk.size mid ≤ x →
      h' x = fieldAt (view m) x)
    (sizes : ∀ c ∈ mid', 12 ≤ c.size) (fits : m.heapMax.toNat ≤ m'.heapMax.toNat)
    (new : Chain h' (nextWord 0 (after pre + total Chunk.size mid) post) (after pre) mid') :
    Listed im F m' pages tables (pre ++ (mid' ++ post)) := by
  have sizesPre (c : Chunk) (hc : c ∈ pre) : 12 ≤ c.size :=
    listed.sizes c (List.mem_append_left _ hc)
  refine of_heads heads (listed.chain.replace same ne ne' (fun x hx => out x (.inl ?_))
    (fun x hx => out x (.inr (le_of_mem_starts hx))) new) sub (fun c hc => ?_) ?_
  · have := lt_of_mem_starts sizesPre hx
    unfold after
    omega
  · rcases List.mem_append.1 hc with hc | hc
    · exact sizesPre c hc
    · rcases List.mem_append.1 hc with hc | hc
      · exact sizes c hc
      · exact listed.sizes c (List.mem_append_right _ (List.mem_append_right _ hc))
  · have := listed.fits
    simp only [total_append, same] at this ⊢
    omega

end Listed

end SimpleKernel
