import SimpleKernel.HeapPages

/-!
# The heap as memory

Loads and stores in the mapped part of the heap never fault, and a store changes nothing but the
bytes it writes, neither elsewhere in the heap nor in the page tables.  `Heads` lifts this to the
headers of a set of chunks that do not overlap: each field of each header can be read and written
on its own.
-/

namespace SimpleKernel

open ByteStore ProgramLogic

section Bytes

variable {E : Stop → Machine → Prop} {im : Image} {F pages tables : List Word} {m : Machine}
  {mem : Store 32} {va : Word}

/-- Between `HEAP_START` and `heap_max` the machine shows the bytes `mem`. -/
structure HeapBytes (im : Image) (F : List Word) (m : Machine) (pages tables : List Word)
    (mem : Store 32) : Prop where
  own : Owned im F m pages tables
  view : ∀ va : Word, 0xE0000000 ≤ va.toNat → va.toNat < m.heapMax.toNat → view m va = mem va

/-- Where a heap address lies in physical memory. -/
theorem Owned.exists_frame (own : Owned im F m pages tables) (pool : KernelFrames im F)
    (lo : 0xE0000000 ≤ va.toNat) (hi : va.toNat < m.heapMax.toNat) :
    ∃ f, pages[(va.toNat - 0xE0000000) / 4096]? = some f ∧
      translate m va = some (f + BitVec.ofNat 32 (va.toNat % 4096)) ∧
      (f + BitVec.ofNat 32 (va.toNat % 4096)).toNat = f.toNat + va.toNat % 4096 := by
  have lt := own.mapped.index lo hi
  have hit := List.getElem?_eq_getElem lt
  have inHeap : pages[(va.toNat - 0xE0000000) / 4096] ∈ pages ++ tables :=
    List.mem_append_left _ (List.getElem_mem lt)
  have below := (own.heap pool).below _ inHeap
  exact ⟨_, hit, own.mapped.translate (own.heap pool) lo hit, toNat_offset (by omega)⟩

theorem Owned.isSome_translate (own : Owned im F m pages tables) (pool : KernelFrames im F)
    (lo : 0xE0000000 ≤ va.toNat) (hi : va.toNat < m.heapMax.toNat) :
    (translate m va).isSome := by
  obtain ⟨f, -, walked, -⟩ := own.exists_frame pool lo hi
  rw [walked]
  rfl

/-- Different heap addresses lie at different physical addresses. -/
theorem Owned.translate_inj (own : Owned im F m pages tables) (pool : KernelFrames im F)
    {va' pa : Word} (lo : 0xE0000000 ≤ va.toNat) (hi : va.toNat < m.heapMax.toNat)
    (lo' : 0xE0000000 ≤ va'.toNat) (hi' : va'.toNat < m.heapMax.toNat)
    (h : translate m va = some pa) (h' : translate m va' = some pa) : va = va' := by
  obtain ⟨f, hf, t, e⟩ := own.exists_frame pool lo hi
  obtain ⟨g, hg, t', e'⟩ := own.exists_frame pool lo' hi'
  obtain rfl := Option.some_inj.1 (t.symm.trans h)
  have place := congrArg BitVec.toNat (Option.some_inj.1 (t'.symm.trans h'))
  have heap := own.heap pool
  have hf' : f ∈ pages ++ tables := List.mem_append_left _ (List.mem_of_getElem? hf)
  have hg' : g ∈ pages ++ tables := List.mem_append_left _ (List.mem_of_getElem? hg)
  have same : f = g := by
    by_contra ne
    have := heap.apart hf' hg' ne
    omega
  subst same
  have lt := (List.getElem?_eq_some_iff.1 hf).1
  have nodup := (List.nodup_append'.1 heap.nodup).1
  have index := (List.getElem?_inj lt nodup).1 (hf.trans hg.symm)
  apply BitVec.eq_of_toNat_eq
  omega

/-- A byte store into the heap. -/
theorem HeapBytes.store8 (bytes : HeapBytes im F m pages tables mem) (pool : KernelFrames im F)
    {b : Byte} (lo : 0xE0000000 ≤ va.toNat) (hi : va.toNat < m.heapMax.toNat)
    {Q : Unit → Machine → Prop} (hQ : ∀ phys,
      HeapBytes im F (m.setMem phys) pages tables (writeByte mem va b) → Q () (m.setMem phys)) :
    WP (store8 va b) E Q m := by
  have own := bytes.own
  have all := own.all pool
  have heap := own.heap pool
  obtain ⟨f, hf, walked, e⟩ := own.exists_frame pool lo hi
  have hf' : f ∈ pages := List.mem_of_getElem? hf
  have hfAll : f ∈ pages ++ tables := List.mem_append_left _ hf'
  have above := heap.above_tables hfAll
  refine store8_spec walked ?_
  have paging : KernelPaging im (m.setMem (writeByte m.mem (f + BitVec.ofNat 32 (va.toNat % 4096))
      b)) := own.mapped.paging.of_agree rfl rfl fun x hx => writeByte_of_ne _ (by
    rintro rfl
    have := heap.miss hfAll hx
    omega)
  have heapTables : HeapTables im (writeByte m.mem (f + BitVec.ofNat 32 (va.toNat % 4096)) b) pages
      tables := by
    refine own.mapped.tables.of_agree (heap.of_sublist (List.sublist_append_right _ _))
      (fun x lo' hi' => writeByte_of_ne _ ?_) fun t ht x lo' hi' => writeByte_of_ne _ ?_
    · rintro rfl
      omega
    · rintro rfl
      have ne : f ≠ t := by
        rintro rfl
        exact List.disjoint_of_nodup_append heap.nodup hf' ht
      have := heap.apart hfAll (List.mem_append_right _ ht) ne
      omega
  have own' : Owned im F (m.setMem (writeByte m.mem (f + BitVec.ofNat 32 (va.toNat % 4096)) b))
      pages tables := ⟨⟨paging, heapTables, own.mapped.heapMax⟩, own.conserved⟩
  refine hQ _ ⟨own', fun x lo' hi' => ?_⟩
  obtain ⟨g, hg, walked', -⟩ := own.exists_frame pool lo' hi'
  obtain ⟨g', hg', walked'', -⟩ := own'.exists_frame pool lo' hi'
  obtain rfl := Option.some_inj.1 (hg.symm.trans hg')
  rw [view_eq walked'', Machine.setMem_mem]
  by_cases same : x = va
  · subst same
    obtain rfl := Option.some_inj.1 (hf.symm.trans hg)
    rw [writeByte_self, writeByte_self]
  · rw [writeByte_of_ne _ same, ← bytes.view x lo' hi', view_eq walked']
    refine writeByte_of_ne _ fun place => same ?_
    rw [place] at walked'
    exact own.translate_inj pool lo' hi' lo hi walked' walked

theorem HeapBytes.load32 (bytes : HeapBytes im F m pages tables mem) (pool : KernelFrames im F)
    (lo : 0xE0000000 ≤ va.toNat) (hi : va.toNat + 4 ≤ m.heapMax.toNat)
    {Q : Word → Machine → Prop} (hQ : Q (readWord mem va) m) :
    WP (SimpleKernel.load32 va) E Q m := by
  have limit := bytes.own.heapMax_lt pool
  refine load32_view (fun i hi4 fault => ?_) ?_
  · have e := toNat_offset (a := va) (i := i) (by omega)
    obtain ⟨f, -, walked, -⟩ := bytes.own.exists_frame pool
      (by omega : 0xE0000000 ≤ (va + BitVec.ofNat 32 i).toNat) (by omega)
    rw [fault] at walked
    exact absurd walked (by simp)
  · rw [readWord_congr (m := mem) (by omega) fun x lo' hi' => bytes.view x (by omega) (by omega)]
    exact hQ

theorem HeapBytes.store32 (bytes : HeapBytes im F m pages tables mem) (pool : KernelFrames im F)
    {v : Word} (lo : 0xE0000000 ≤ va.toNat) (hi : va.toNat + 4 ≤ m.heapMax.toNat)
    {Q : Unit → Machine → Prop} (hQ : ∀ phys,
      HeapBytes im F (m.setMem phys) pages tables (writeWord mem va v) → Q () (m.setMem phys)) :
    WP (SimpleKernel.store32 va v) E Q m := by
  have limit := bytes.own.heapMax_lt pool
  have inside (i : ℕ) (hi4 : i < 4) : (va + BitVec.ofNat 32 i).toNat = va.toNat + i :=
    toNat_offset (by omega)
  have e1 : (va + 1).toNat = va.toNat + 1 := inside 1 (by omega)
  have e2 : (va + 2).toNat = va.toNat + 2 := inside 2 (by omega)
  have e3 : (va + 3).toNat = va.toNat + 3 := inside 3 (by omega)
  simp only [SimpleKernel.store32, wp_bind]
  refine bytes.store8 pool lo (by omega) fun p₀ bytes₀ => ?_
  have same₀ : (m.setMem p₀).heapMax = m.heapMax := rfl
  refine bytes₀.store8 pool (by omega) (by rw [same₀]; omega) fun p₁ bytes₁ => ?_
  have same₁ : ((m.setMem p₀).setMem p₁).heapMax = m.heapMax := rfl
  refine bytes₁.store8 pool (by omega) (by rw [same₁]; omega) fun p₂ bytes₂ => ?_
  have same₂ : (((m.setMem p₀).setMem p₁).setMem p₂).heapMax = m.heapMax := rfl
  exact bytes₂.store8 pool (by omega) (by rw [same₂]; omega) fun p₃ bytes₃ => hQ p₃ bytes₃

end Bytes

/-! ## Headers -/

/-- The address `a` as a word. -/
def addr (a : ℕ) : Word := BitVec.ofNat 32 a

theorem addr_toNat {a : ℕ} (h : a < 2 ^ 32) : (addr a).toNat = a := by
  rw [addr, BitVec.toNat_ofNat, Nat.mod_eq_of_lt h]

theorem addr_inj {a b : ℕ} (ha : a < 2 ^ 32) (hb : b < 2 ^ 32) (h : addr a = addr b) : a = b := by
  rw [← addr_toNat ha, h, addr_toNat hb]

theorem addr_add (a b : ℕ) : addr (a + b) = addr a + addr b := BitVec.ofNat_add ..

/-- From a payload back to its header. -/
theorem addr_sub_header (a : ℕ) : addr (a + 12) - sizeofHeader = addr a := by
  rw [addr_add]
  exact BitVec.add_sub_cancel _ _

/-- One header field of one chunk. -/
def fieldAt (mem : Store 32) (a : ℕ) (f : HeaderField) : Word :=
  readWord mem (addr a + f.offset)

/-- The headers `h` with one field of one of them changed. -/
def setField (h : ℕ → HeaderField → Word) (a : ℕ) (f : HeaderField) (v : Word) :
    ℕ → HeaderField → Word :=
  Function.update h a (Function.update (h a) f v)

section SetField

variable (h : ℕ → HeaderField → Word) {a b : ℕ} {f g : HeaderField} (v : Word)

@[simp] theorem setField_self : setField h a f v a f = v := by
  rw [setField, Function.update_self, Function.update_self]

theorem setField_at : setField h a f v a = Function.update (h a) f v := Function.update_self ..

theorem setField_of_ne (ne : b ≠ a) : setField h a f v b = h b := Function.update_of_ne ne ..

@[simp] theorem setField_field (ne : g ≠ f) : setField h a f v b g = h b g := by
  by_cases same : b = a
  · rw [same, setField, Function.update_self, Function.update_of_ne ne]
  · rw [setField_of_ne _ _ same]

end SetField

/-- The headers at the addresses in `D` lie in the heap, do not overlap and read as `h`. -/
structure Heads (im : Image) (F : List Word) (m : Machine) (pages tables : List Word) (D : List ℕ)
    (h : ℕ → HeaderField → Word) : Prop where
  own : Owned im F m pages tables
  inside : ∀ a ∈ D, 0xE0000000 ≤ a ∧ a + 12 ≤ m.heapMax.toNat
  apart : ∀ a ∈ D, ∀ b ∈ D, a ≠ b → a + 12 ≤ b ∨ b + 12 ≤ a
  rep : ∀ a ∈ D, ∀ f, fieldAt (view m) a f = h a f

namespace HeaderField

theorem ctorIdx_lt (f : HeaderField) : f.ctorIdx < 3 := by
  cases f <;> decide

theorem ctorIdx_ne {f g : HeaderField} (h : g ≠ f) : g.ctorIdx ≠ f.ctorIdx := by
  revert h
  cases f <;> cases g <;> decide

end HeaderField

theorem field_toNat {a : ℕ} (f : HeaderField) (h : a + 12 ≤ 2 ^ 32) :
    (addr a + f.offset).toNat = a + 4 * f.ctorIdx := by
  have e := addr_toNat (a := a) (by omega)
  have := f.ctorIdx_lt
  rw [HeaderField.offset, toNat_offset (by omega), e]

namespace Heads

variable {E : Stop → Machine → Prop} {im : Image} {F pages tables : List Word} {m : Machine}
  {D : List ℕ} {h : ℕ → HeaderField → Word} {a : ℕ}

theorem loadField (heads : Heads im F m pages tables D h) (pool : KernelFrames im F) (ha : a ∈ D)
    (f : HeaderField) {Q : Word → Machine → Prop} (hQ : Q (h a f) m) :
    WP (loadField f (addr a)) E Q m := by
  have limit := heads.own.heapMax_lt pool
  obtain ⟨lo, hi⟩ := heads.inside a ha
  have e := field_toNat (a := a) f (by omega)
  have := f.ctorIdx_lt
  rw [← heads.rep a ha f] at hQ
  exact HeapBytes.load32 ⟨heads.own, fun _ _ _ => rfl⟩ pool (by omega) (by omega) hQ

/-- Storing a field changes that field only. -/
theorem storeField (heads : Heads im F m pages tables D h) (pool : KernelFrames im F) (ha : a ∈ D)
    (f : HeaderField) {v : Word} {Q : Unit → Machine → Prop} (hQ : ∀ phys,
      Heads im F (m.setMem phys) pages tables D (setField h a f v) → Q () (m.setMem phys)) :
    WP (storeField f (addr a) v) E Q m := by
  have limit := heads.own.heapMax_lt pool
  obtain ⟨lo, hi⟩ := heads.inside a ha
  have e := field_toNat (a := a) f (by omega)
  have := f.ctorIdx_lt
  refine HeapBytes.store32 ⟨heads.own, fun _ _ _ => rfl⟩ pool (by omega) (by omega)
    fun phys bytes => hQ phys ⟨bytes.own, heads.inside, heads.apart, fun b hb g => ?_⟩
  obtain ⟨lo', hi'⟩ := heads.inside b hb
  have e' := field_toNat (a := b) g (by omega)
  have := g.ctorIdx_lt
  have seen : fieldAt (view (m.setMem phys)) b g =
      readWord (writeWord (view m) (addr a + f.offset) v) (addr b + g.offset) :=
    readWord_congr (by omega) fun x lo'' hi'' =>
      bytes.view x (by omega) (by rw [Machine.setMem_heapMax]; omega)
  rw [seen]
  by_cases same : b = a
  · subst same
    by_cases field : g = f
    · subst field
      rw [setField_self]
      exact readWord_writeWord_self _ _ (by omega)
    · have := HeaderField.ctorIdx_ne field
      rw [setField_field _ _ field, ← heads.rep b hb g]
      exact readWord_writeWord_disjoint _ _ (by omega) (by omega) (by omega)
  · have := heads.apart b hb a ha same
    rw [setField_of_ne _ _ same, ← heads.rep b hb g]
    exact readWord_writeWord_disjoint _ _ (by omega) (by omega) (by omega)

end Heads

end SimpleKernel
