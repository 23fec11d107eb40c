import SimpleKernel.Entry

/-!
# Buffers

A buffer is a range of virtual addresses with memory of its own: each address leads to a byte that
no other address of the range leads to, and goes on leading there whatever is written into the
range.  What a buffer holds is a function of the index, and a store through one of its addresses
changes this function at one index and nothing else of the machine.
-/

namespace SimpleKernel

open ByteStore ProgramLogic

/-- Whatever the bytes `S` of memory become, `va` translates to `a`. -/
def StaysAt (m : Machine) (S : Set Word) (va a : Word) : Prop :=
  ∀ mem : Store 32, (∀ c ∉ S, mem c = m.mem c) → translate (m.setMem mem) va = some a

/-- The physical bytes behind the `n` addresses from `p` on. -/
def bytesBehind (m : Machine) (p : Word) (n : ℕ) : Set Word :=
  {a | ∃ i < n, translate m (p + BitVec.ofNat 32 i) = some a}

/-- The `n` addresses from `p` on have memory of their own. -/
structure Buffer (m : Machine) (p : Word) (n : ℕ) : Prop where
  stays : ∀ i < n, ∃ a, StaysAt m (bytesBehind m p n) (p + BitVec.ofNat 32 i) a
  distinct : ∀ i < n, ∀ j < n,
    translate m (p + BitVec.ofNat 32 i) = translate m (p + BitVec.ofNat 32 j) → i = j

/-- The `k` addresses from `q` on lead to bytes outside the buffer, whatever is written into it. -/
def MissesBuffer (m : Machine) (q : Word) (k : ℕ) (p : Word) (n : ℕ) : Prop :=
  ∀ i < k, ∃ a ∉ bytesBehind m p n, StaysAt m (bytesBehind m p n) (q + BitVec.ofNat 32 i) a

/-- What lies behind the addresses from `p` on. -/
def contents (m : Machine) (p : Word) : ℕ → Byte := fun i => view m (p + BitVec.ofNat 32 i)

/-- `m'` is `m` with `f` in the buffer. -/
structure Filled (m : Machine) (p : Word) (n : ℕ) (f : ℕ → Byte) (m' : Machine) : Prop where
  rest : m.setMem m'.mem = m'
  outside : ∀ a ∉ bytesBehind m p n, m'.mem a = m.mem a
  inside : ∀ i < n, contents m' p i = f i

theorem filled_self (m : Machine) (p : Word) (n : ℕ) : Filled m p n (contents m p) m :=
  ⟨rfl, fun _ _ => rfl, fun _ _ => rfl⟩

theorem StaysAt.translate {m : Machine} {S : Set Word} {va a : Word} (stays : StaysAt m S va a) :
    translate m va = some a :=
  stays m.mem fun _ _ => rfl

theorem StaysAt.mapped {m : Machine} {S : Set Word} {va a : Word} (stays : StaysAt m S va a) :
    SimpleKernel.translate m va ≠ none := by
  rw [stays.translate]
  exact Option.some_ne_none _

/-! ## Buffers in a window -/

section Window

variable {m : Machine} {tables : Set Word} {lo hi n : ℕ} {off p : Word}

theorem Window.staysAt {S : Set Word} {va : Word} (win : Window m tables lo hi off)
    (miss : ∀ a ∈ tables, a ∉ S) (h : lo ≤ va.toNat) (h' : va.toNat < hi) :
    StaysAt m S va (va - off) :=
  fun mem agree => win mem (fun a ha => agree a (miss a ha)) va h h'

theorem Window.place (win : Window m tables lo hi off) (h : lo ≤ p.toNat) (h' : p.toNat + n ≤ hi)
    (bound : p.toNat + n ≤ 2 ^ 32) {i : ℕ} (hi : i < n) :
    SimpleKernel.translate m (p + BitVec.ofNat 32 i) = some (p - off + BitVec.ofNat 32 i) := by
  have inside := toNat_offset (a := p) (i := i) (by omega)
  have place : p + BitVec.ofNat 32 i - off = p - off + BitVec.ofNat 32 i := by bv_omega
  rw [win.translate (by omega) (by omega), place]

theorem Window.bounds_of_bytesBehind (win : Window m tables lo hi off) (h : lo ≤ p.toNat)
    (h' : p.toNat + n ≤ hi) (bound : p.toNat + n ≤ 2 ^ 32) (phys : (p - off).toNat + n ≤ 2 ^ 32)
    {a : Word} (ha : a ∈ bytesBehind m p n) :
    (p - off).toNat ≤ a.toNat ∧ a.toNat < (p - off).toNat + n := by
  obtain ⟨i, hi, place⟩ := ha
  rw [win.place h h' bound hi, Option.some_inj] at place
  rw [← place, toNat_offset (by omega)]
  omega

/-- A range of a window that misses its tables is a buffer. -/
theorem Window.buffer (win : Window m tables lo hi off) (h : lo ≤ p.toNat) (h' : p.toNat + n ≤ hi)
    (bound : p.toNat + n ≤ 2 ^ 32) (phys : (p - off).toNat + n ≤ 2 ^ 32)
    (miss : ∀ a ∈ tables, a.toNat < (p - off).toNat ∨ (p - off).toNat + n ≤ a.toNat) :
    Buffer m p n := by
  refine ⟨fun i hi => ⟨_, win.staysAt (fun a ha behind => ?_) ?_ ?_⟩, fun i hi j hj same => ?_⟩
  · have := win.bounds_of_bytesBehind h h' bound phys behind
    have := miss a ha
    omega
  · rw [toNat_offset (by omega)]
    omega
  · rw [toNat_offset (by omega)]
    omega
  · rw [win.place h h' bound hi, win.place h h' bound hj, Option.some_inj] at same
    have index := congrArg BitVec.toNat same
    rw [toNat_offset (by omega), toNat_offset (by omega)] at index
    omega

/-- Two ranges of a window that have no address in common miss each other. -/
theorem Window.missesBuffer {q : Word} {k : ℕ} (win : Window m tables lo hi off)
    (h : lo ≤ p.toNat) (h' : p.toNat + n ≤ hi) (bound : p.toNat + n ≤ 2 ^ 32)
    (phys : (p - off).toNat + n ≤ 2 ^ 32)
    (miss : ∀ a ∈ tables, a.toNat < (p - off).toNat ∨ (p - off).toNat + n ≤ a.toNat)
    (hq : lo ≤ q.toNat) (hq' : q.toNat + k ≤ hi) (bound' : q.toNat + k ≤ 2 ^ 32)
    (apart : ∀ i < k, ∀ j < n, q + BitVec.ofNat 32 i ≠ p + BitVec.ofNat 32 j) :
    MissesBuffer m q k p n := by
  intro i hi
  have inside := toNat_offset (a := q) (i := i) (by omega)
  refine ⟨_, fun behind => ?_, win.staysAt (fun a ha behind => ?_) (by omega) (by omega)⟩
  · obtain ⟨j, hj, place⟩ := behind
    rw [win.place h h' bound hj, Option.some_inj] at place
    exact apart i hi j hj (by bv_omega)
  · have := win.bounds_of_bytesBehind h h' bound phys behind
    have := miss a ha
    omega

end Window

namespace TemporaryPaging

variable {m : Machine} {p q : Word} {k n : ℕ}

theorem above_tables (lo : 0x4000 ≤ p.toNat) : ∀ a ∈ temporaryPages,
    a.toNat < (p - 0#32).toNat ∨ (p - 0#32).toNat + n ≤ a.toNat := by
  rintro a ⟨-, below⟩
  rw [BitVec.sub_zero]
  exact .inl (below.trans_le lo)

/-- Under the temporary tables the memory above them is there for buffers. -/
theorem buffer (temp : TemporaryPaging m) (lo : 0x4000 ≤ p.toNat) (hi : p.toNat + n ≤ 0x400000) :
    Buffer m p n :=
  temp.identity.buffer (Nat.zero_le _) hi (by omega) (by rw [BitVec.sub_zero]; omega)
    (above_tables lo)

theorem missesBuffer (temp : TemporaryPaging m) (lo : 0x4000 ≤ p.toNat)
    (hi : p.toNat + n ≤ 0x400000) (hq : q.toNat + k ≤ 0x400000)
    (apart : ∀ i < k, ∀ j < n, q + BitVec.ofNat 32 i ≠ p + BitVec.ofNat 32 j) :
    MissesBuffer m q k p n :=
  temp.identity.missesBuffer (Nat.zero_le _) hi (by omega) (by rw [BitVec.sub_zero]; omega)
    (above_tables lo) (Nat.zero_le _) hq (by omega) apart

end TemporaryPaging

/-! ## Bytes over contents -/

/-- `f` with the bytes of `t` from index `k` on. -/
def overwrite (f : ℕ → Byte) (k : ℕ) (t : List Byte) : ℕ → Byte :=
  fun j => if k ≤ j ∧ j < k + t.length then t.getD (j - k) 0 else f j

section Overwrite

variable {f : ℕ → Byte} {k j : ℕ} {t : List Byte}

theorem overwrite_nil : overwrite f k [] = f := by
  funext j
  exact if_neg fun h => by rw [List.length_nil] at h; omega

/-- Writing bytes is writing the first one and then the others behind it. -/
theorem overwrite_cons (b : Byte) :
    overwrite (Function.update f k b) (k + 1) t = overwrite f k (b :: t) := by
  funext j
  unfold overwrite
  rw [List.length_cons]
  rcases Nat.lt_trichotomy j k with before | rfl | behind
  · rw [if_neg (by omega), if_neg (by omega), Function.update_of_ne (by omega)]
  · rw [if_neg (by omega), if_pos (by omega), Function.update_self, Nat.sub_self]
    rfl
  · obtain ⟨i, rfl⟩ := Nat.exists_eq_add_of_lt behind
    rw [Function.update_of_ne (by omega), show k + i + 1 - k = i + 1 by omega,
      show k + i + 1 - (k + 1) = i by omega, List.getD_cons_succ]
    exact if_congr (by omega) rfl rfl

theorem overwrite_inside (h : j < t.length) : overwrite f k t (k + j) = t.getD j 0 := by
  unfold overwrite
  rw [if_pos (by omega), Nat.add_sub_cancel_left]

theorem overwrite_outside (h : j < k ∨ k + t.length ≤ j) : overwrite f k t j = f j :=
  if_neg (by omega)

theorem eq_overwrite {g : ℕ → Byte} (inside : ∀ i < t.length, g (k + i) = t.getD i 0)
    (outside : ∀ j, j < k ∨ k + t.length ≤ j → g j = f j) : g = overwrite f k t := by
  funext j
  by_cases h : k ≤ j ∧ j < k + t.length
  · obtain ⟨i, rfl⟩ := Nat.exists_eq_add_of_le h.1
    rw [overwrite_inside (by omega)]
    exact inside i (by omega)
  · rw [overwrite_outside (by omega)]
    exact outside j (by omega)

end Overwrite

/-! ## Loads and stores -/

/-- A word of 16 bits, the low byte first. -/
def store16 (va : Word) (v : BitVec 16) : Kernel Unit := do
  store8 va (v.extractLsb' 0 8)
  store8 (va + 1) (v.extractLsb' 8 8)

namespace Filled

variable {E : Stop → Machine → Prop} {m m' : Machine} {p va a : Word} {n i : ℕ} {f : ℕ → Byte}

/-- Addresses that stay where they are translate as before. -/
theorem translate (filled : Filled m p n f m') (stays : StaysAt m (bytesBehind m p n) va a) :
    SimpleKernel.translate m' va = some a := by
  rw [← filled.rest]
  exact stays _ filled.outside

/-- Addresses of bytes outside the buffer show what they showed before. -/
theorem load8_outside (filled : Filled m p n f m') (stays : StaysAt m (bytesBehind m p n) va a)
    (miss : a ∉ bytesBehind m p n) {Q : Byte → Machine → Prop} (hQ : Q (view m va) m') :
    WP (load8 va) E Q m' := by
  refine load8_spec (filled.translate stays) ?_
  rw [filled.outside a miss, ← view_eq stays.translate]
  exact hQ

theorem load8 (filled : Filled m p n f m') (buffer : Buffer m p n) (hi : i < n)
    {Q : Byte → Machine → Prop} (hQ : Q (f i) m') :
    WP (load8 (p + BitVec.ofNat 32 i)) E Q m' := by
  obtain ⟨a, stays⟩ := buffer.stays i hi
  rw [← filled.inside i hi, contents, view_eq (filled.translate stays)] at hQ
  exact load8_spec (filled.translate stays) hQ

theorem store8 (filled : Filled m p n f m') (buffer : Buffer m p n) (hi : i < n) {b : Byte}
    {Q : Unit → Machine → Prop}
    (hQ : ∀ m'', Filled m p n (Function.update f i b) m'' → Q () m'') :
    WP (store8 (p + BitVec.ofNat 32 i) b) E Q m' := by
  obtain ⟨a, stays⟩ := buffer.stays i hi
  refine store8_spec (filled.translate stays) (hQ _ ?_)
  have rest : m.setMem (writeByte m'.mem a b) = m'.setMem (writeByte m'.mem a b) := by
    rw [← filled.rest]
    rfl
  have outside : ∀ c ∉ bytesBehind m p n, writeByte m'.mem a b c = m.mem c := by
    intro c hc
    rw [writeByte_of_ne _ fun same : c = a => hc ⟨i, hi, same ▸ stays.translate⟩]
    exact filled.outside c hc
  refine ⟨rest, outside, fun j hj => ?_⟩
  obtain ⟨c, stays'⟩ := buffer.stays j hj
  have now : SimpleKernel.translate (m'.setMem (writeByte m'.mem a b)) (p + BitVec.ofNat 32 j) =
      some c := by
    rw [← rest]
    exact stays' _ outside
  rw [contents, view_eq now]
  by_cases same : j = i
  · subst same
    obtain rfl : a = c := Option.some_inj.1 (stays.translate.symm.trans stays'.translate)
    rw [Function.update_self]
    exact writeByte_self ..
  · have apart : c ≠ a := fun h =>
      same (buffer.distinct j hj i hi (by rw [stays.translate, stays'.translate, h]))
    rw [Function.update_of_ne same, ← filled.inside j hj, contents,
      view_eq (filled.translate stays')]
    exact writeByte_of_ne _ apart

/-- Contents that hold the bytes of `t` from `k` on and are `f` elsewhere. -/
theorem overwritten {g : ℕ → Byte} {k : ℕ} {t : List Byte} (filled : Filled m p n g m')
    (inside : ∀ i < t.length, g (k + i) = t.getD i 0)
    (outside : ∀ j, j < k ∨ k + t.length ≤ j → g j = f j) :
    Filled m p n (overwrite f k t) m' := by
  rwa [← eq_overwrite inside outside]

theorem store16 (filled : Filled m p n f m') (buffer : Buffer m p n) (hi : i + 1 < n)
    {v : BitVec 16} {Q : Unit → Machine → Prop}
    (hQ : ∀ m'', Filled m p n (Function.update (Function.update f i (v.extractLsb' 0 8)) (i + 1)
      (v.extractLsb' 8 8)) m'' → Q () m'') :
    WP (store16 (p + BitVec.ofNat 32 i) v) E Q m' := by
  simp only [SimpleKernel.store16, wp_bind, offset_succ]
  exact filled.store8 buffer (by omega) fun _ filled' => filled'.store8 buffer hi hQ

/-- A word of 32 bits, the low byte first. -/
theorem store32 (filled : Filled m p n f m') (buffer : Buffer m p n) (hi : i + 4 ≤ n)
    {v : Word} {Q : Unit → Machine → Prop}
    (hQ : ∀ m'', Filled m p n (overwrite f i [byteOf v 0, byteOf v 1, byteOf v 2, byteOf v 3]) m'' →
      Q () m'') : WP (store32 (p + BitVec.ofNat 32 i) v) E Q m' := by
  have one : p + BitVec.ofNat 32 i + 1 = p + BitVec.ofNat 32 (i + 1) := offset_offset ..
  have two : p + BitVec.ofNat 32 i + 2 = p + BitVec.ofNat 32 (i + 2) := offset_offset ..
  have three : p + BitVec.ofNat 32 i + 3 = p + BitVec.ofNat 32 (i + 3) := offset_offset ..
  simp only [SimpleKernel.store32, wp_bind, one, two, three]
  refine filled.store8 buffer (by omega) fun _ h => ?_
  refine h.store8 buffer (by omega) fun _ h => ?_
  refine h.store8 buffer (by omega) fun _ h => ?_
  refine h.store8 buffer (by omega) fun _ h => hQ _ ?_
  simpa only [← overwrite_cons, overwrite_nil] using h

theorem bzero (filled : Filled m p n f m') (buffer : Buffer m p n) {k : ℕ} (inside : i + k ≤ n)
    {Q : Unit → Machine → Prop}
    (hQ : ∀ m'', Filled m p n (overwrite f i (List.replicate k 0)) m'' → Q () m'') :
    WP (bzero (p + BitVec.ofNat 32 i) k) E Q m' := by
  induction k generalizing i f m' with
  | zero =>
    refine hQ m' ?_
    rwa [List.replicate_zero, overwrite_nil]
  | succ k ih =>
    simp only [SimpleKernel.bzero, bzeroWith, wp_bind, offset_succ]
    refine filled.store8 buffer (by omega) fun _ h => ih h (by omega) fun _ h => hQ _ ?_
    rwa [overwrite_cons] at h

theorem load32 (filled : Filled m p n f m') (buffer : Buffer m p n) (hi : i + 4 ≤ n)
    {Q : Word → Machine → Prop}
    (hQ : Q (f (i + 3) ++ f (i + 2) ++ f (i + 1) ++ f i : BitVec (8 + 8 + 8 + 8)) m') :
    WP (load32 (p + BitVec.ofNat 32 i)) E Q m' := by
  have one : p + BitVec.ofNat 32 i + 1 = p + BitVec.ofNat 32 (i + 1) := offset_offset ..
  have two : p + BitVec.ofNat 32 i + 2 = p + BitVec.ofNat 32 (i + 2) := offset_offset ..
  have three : p + BitVec.ofNat 32 i + 3 = p + BitVec.ofNat 32 (i + 3) := offset_offset ..
  simp only [SimpleKernel.load32, wp_bind, one, two, three]
  refine filled.load8 buffer (by omega) ?_
  refine filled.load8 buffer (by omega) ?_
  refine filled.load8 buffer (by omega) ?_
  exact filled.load8 buffer (by omega) hQ

end Filled

/-! ## Parts of a buffer -/

/-- `f` with what `g` holds at the `l` indices from `k` on. -/
def splice (f : ℕ → Byte) (k l : ℕ) (g : ℕ → Byte) : ℕ → Byte :=
  fun i => if k ≤ i ∧ i < k + l then g (i - k) else f i

section Parts

variable {m m' m'' : Machine} {p : Word} {n k l i : ℕ} {f g : ℕ → Byte}

theorem splice_inside (h : i < l) : splice f k l g (k + i) = g i := by
  have inside : k ≤ k + i ∧ k + i < k + l := by omega
  rw [splice, if_pos inside, Nat.add_sub_cancel_left]

theorem splice_outside (h : i < k ∨ k + l ≤ i) : splice f k l g i = f i :=
  if_neg (by omega)

/-- Bytes written over a part are bytes written over the whole. -/
theorem splice_overwrite {t : List Byte} (inside : i + t.length ≤ l) :
    splice f k l (overwrite (fun j => f (k + j)) i t) = overwrite f (k + i) t := by
  refine eq_overwrite (fun j hj => ?_) fun j hj => ?_
  · rw [Nat.add_assoc, splice_inside (by omega), overwrite_inside hj]
  · by_cases h : k ≤ j ∧ j < k + l
    · obtain ⟨o, rfl⟩ := Nat.exists_eq_add_of_le h.1
      rw [splice_inside (by omega), overwrite_outside (by omega)]
    · exact splice_outside (by omega)

theorem Filled.translate_eq (filled : Filled m p n f m') (buffer : Buffer m p n) (hi : i < n) :
    SimpleKernel.translate m' (p + BitVec.ofNat 32 i) =
      SimpleKernel.translate m (p + BitVec.ofNat 32 i) := by
  obtain ⟨a, stays⟩ := buffer.stays i hi
  rw [filled.translate stays, stays.translate]

theorem Filled.bytesBehind_part (filled : Filled m p n f m') (buffer : Buffer m p n)
    (inside : k + l ≤ n) : bytesBehind m' (p + BitVec.ofNat 32 k) l ⊆ bytesBehind m p n := by
  rintro a ⟨i, hi, ha⟩
  rw [offset_offset, filled.translate_eq buffer (by omega)] at ha
  exact ⟨k + i, by omega, ha⟩

/-- A part of a buffer is a buffer, whatever the whole was filled with. -/
theorem Filled.part (filled : Filled m p n f m') (buffer : Buffer m p n) (inside : k + l ≤ n) :
    Buffer m' (p + BitVec.ofNat 32 k) l where
  stays i hi := by
    obtain ⟨a, stays⟩ := buffer.stays (k + i) (by omega)
    refine ⟨a, fun mem same => ?_⟩
    rw [← filled.rest, offset_offset]
    refine stays mem fun c hc => ?_
    rw [same c fun h => hc (filled.bytesBehind_part buffer inside h), filled.outside c hc]
  distinct i hi j hj same := by
    rw [offset_offset, offset_offset, filled.translate_eq buffer (by omega),
      filled.translate_eq buffer (by omega)] at same
    have := buffer.distinct (k + i) (by omega) (k + j) (by omega) same
    omega

/-- What a part holds. -/
theorem Filled.sub (filled : Filled m p n f m') (inside : k + l ≤ n) :
    Filled m' (p + BitVec.ofNat 32 k) l (fun i => f (k + i)) m' := by
  refine ⟨rfl, fun _ _ => rfl, fun i hi => ?_⟩
  rw [← filled.inside (k + i) (by omega), contents, contents, offset_offset]

/-- What fills a part fills the whole. -/
theorem Filled.splice (filled : Filled m p n f m') (buffer : Buffer m p n) (inside : k + l ≤ n)
    (filled' : Filled m' (p + BitVec.ofNat 32 k) l g m'') :
    Filled m p n (SimpleKernel.splice f k l g) m'' where
  rest := by
    rw [← filled'.rest, ← filled.rest]
    rfl
  outside a ha := by
    rw [filled'.outside a fun h => ha (filled.bytesBehind_part buffer inside h), filled.outside a ha]
  inside i hi := by
    by_cases h : k ≤ i ∧ i < k + l
    · obtain ⟨j, rfl⟩ := Nat.exists_eq_add_of_le h.1
      rw [splice_inside (by omega), ← filled'.inside j (by omega), contents, contents, offset_offset]
    · obtain ⟨a, stays⟩ := buffer.stays i hi
      have whole := filled.translate stays
      have away : a ∉ bytesBehind m' (p + BitVec.ofNat 32 k) l := by
        rintro ⟨j, hj, hit⟩
        rw [offset_offset, filled.translate_eq buffer (by omega), ← stays.translate] at hit
        have := buffer.distinct (k + j) (by omega) i hi hit
        omega
      have still : SimpleKernel.translate m'' (p + BitVec.ofNat 32 i) = some a := by
        rw [← filled'.rest, ← filled.rest]
        refine stays _ fun c hc => ?_
        rw [filled'.outside c fun h => hc (filled.bytesBehind_part buffer inside h),
          filled.outside c hc]
      rw [splice_outside (by omega), ← filled.inside i hi, contents, contents, view_eq still,
        view_eq whole, filled'.outside a away]

end Parts

end SimpleKernel
