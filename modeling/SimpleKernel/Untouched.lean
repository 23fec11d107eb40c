import SimpleKernel.HeapSafety
import SimpleKernel.Lib.Refinement

/-!
# What the heap leaves alone

The heap writes headers, page tables and the page directory, and nothing else: not the kernel image,
not the memory below it, and not the bytes of the blocks in use.  `Untouched` says so of two machines
for physical memory and the globals, `Spares` also for the heap as its users see it.
-/

namespace SimpleKernel

open ByteStore ProgramLogic Tiling

/-- The control registers and the globals that the heap has nothing to do with. -/
abbrev Globals : Type := Word × Word × (Byte → Word) × Word × Word × Word × Word

namespace Machine

def globals (m : Machine) : Globals :=
  (m.cr0, m.cr3, m.interruptHandlers, m.kernStackTop, m.mbootPtrTmp, m.glbMbootPtr, m.phyPageCount)

variable (m : Machine)

@[simp] theorem globals_setMem (mem : Store 32) : (m.setMem mem).globals = m.globals := rfl

@[simp] theorem globals_setFrames (stack : ℕ → Word) (top : Word) :
    (m.setFrames stack top m.phyPageCount).globals = m.globals := rfl

@[simp] theorem globals_setHeapMax (v : Word) : (m.setHeapMax v).globals = m.globals := rfl

@[simp] theorem globals_setHeapFirst (v : Word) : (m.setHeapFirst v).globals = m.globals := rfl

end Machine

/-- A physical byte below the frames of the pool and outside the page directory. -/
def KernelByte (im : Image) (a : Word) : Prop :=
  a.toNat + 0xC0000000 < im.kernEnd.toNat ∧
    (a.toNat < im.pgdPhys.toNat ∨ im.pgdPhys.toNat + 4096 ≤ a.toNat)

/-- `t` has the kernel bytes and the globals of `m`. -/
structure Untouched (im : Image) (m t : Machine) : Prop where
  globals : t.globals = m.globals
  image : ∀ a, KernelByte im a → t.mem a = m.mem a

/-- `t` has also the heap contents of `m` below `hi`, outside the headers at `D`. -/
structure Spares (im : Image) (D : List ℕ) (hi : ℕ) (m t : Machine) : Prop
    extends Untouched im m t where
  heap : ∀ va : Word, 0xE0000000 ≤ va.toNat → va.toNat < hi →
    (∀ a ∈ D, va.toNat < a ∨ a + 12 ≤ va.toNat) → view t va = view m va

section Relations

variable {im : Image} {m t u : Machine} {D D' : List ℕ} {hi hi' : ℕ}

namespace Untouched

theorem refl (im : Image) (m : Machine) : Untouched im m m := ⟨rfl, fun _ _ => rfl⟩

theorem trans (h : Untouched im m t) (h' : Untouched im t u) : Untouched im m u :=
  ⟨h'.globals.trans h.globals, fun a ha => (h'.image a ha).trans (h.image a ha)⟩

theorem setHeapMax (h : Untouched im m t) (v : Word) : Untouched im m (t.setHeapMax v) :=
  ⟨h.globals, h.image⟩

theorem setHeapFirst (h : Untouched im m t) (v : Word) : Untouched im m (t.setHeapFirst v) :=
  ⟨h.globals, h.image⟩

theorem setFrames (h : Untouched im m t) (stack : ℕ → Word) (top : Word) :
    Untouched im m (t.setFrames stack top t.phyPageCount) := ⟨h.globals, h.image⟩

/-- A word written behind the kernel bytes. -/
theorem writeWord {a : Word} (v : Word) (bound : a.toNat + 4 ≤ 2 ^ 32)
    (outside : im.kernEnd.toNat ≤ a.toNat + 0xC0000000 ∨
      im.pgdPhys.toNat ≤ a.toNat ∧ a.toNat + 4 ≤ im.pgdPhys.toNat + 4096) :
    Untouched im m (m.setMem (writeWord m.mem a v)) := by
  refine ⟨rfl, fun x hx => writeWord_outside _ _ bound ?_⟩
  have below := hx.1
  have apart := hx.2
  omega

end Untouched

namespace Spares

theorem refl (im : Image) (D : List ℕ) (hi : ℕ) (m : Machine) : Spares im D hi m m :=
  ⟨Untouched.refl im m, fun _ _ _ _ => rfl⟩

theorem trans (h : Spares im D hi m t) (h' : Spares im D hi t u) : Spares im D hi m u :=
  ⟨h.toUntouched.trans h'.toUntouched, fun va lo lt out =>
    (h'.heap va lo lt out).trans (h.heap va lo lt out)⟩

theorem mono (h : Spares im D hi m t) (sub : ∀ a ∈ D, a ∈ D') (le : hi' ≤ hi) :
    Spares im D' hi' m t :=
  ⟨h.toUntouched, fun va lo lt out => h.heap va lo (by omega) fun a ha => out a (sub a ha)⟩

theorem of_kept (same : Untouched im m t) (kept : HeapKept m t hi) : Spares im D hi m t :=
  ⟨same, fun va lo lt _ => kept.view va lo lt⟩

theorem setHeapFirst (h : Spares im D hi m t) (v : Word) : Spares im D hi m (t.setHeapFirst v) :=
  ⟨h.toUntouched.setHeapFirst v, h.heap⟩

end Spares

end Relations

/-! ## Pages -/

section Pages

variable {im : Image} {F pages tables : List Word} {m m₀ : Machine} {f : Word}

theorem pmmFreePage_keeps (page : Word) : Keeps (Untouched im m₀) (pmmFreePage page) := by
  refine Keeps.get_bind fun m _ => Keeps.bind ?_ fun _ => ?_
  · exact Keeps.ite (Keeps.pure _) (Keeps.throw _)
  · rintro t same
    exact ⟨same.globals, same.image⟩

theorem KernelFrames.slot_above {t : Word} (frames : KernelFrames im tables) (ht : t ∈ tables)
    (n : ℕ) : im.kernEnd.toNat ≤ (t + BitVec.ofNat 32 (4 * (n % 1024))).toNat + 0xC0000000 ∧
      (t + BitVec.ofNat 32 (4 * (n % 1024))).toNat + 4 ≤ 2 ^ 32 := by
  have above := frames.above t ht
  have below := frames.below t ht
  have e := frames.slot_toNat ht n
  omega

/-- `map` writes into the page directory and into page tables. -/
theorem map_untouched (heap : HeapMapped im m pages tables)
    (owned : KernelFrames im (frames m ++ f :: pages ++ tables)) (flags : Word) :
    WP (map im.pgdKern m.heapMax f flags) (fun _ _ => True) (fun _ t => Untouched im m t) m := by
  have inTables : KernelFrames im tables := owned.of_sublist (List.sublist_append_right _ _)
  have bound := owned.length_le
  simp only [List.length_append, List.length_cons] at bound
  simp only [map, wp_bind]
  refine heap.paging.load_pde heap.heapMax ?_
  rcases ht : tables[pages.length / 1024]? with _ | t
  · have full := heap.tables.full ht
    have slot : pages.length / 1024 = tables.length := by omega
    rw [slot, heap.tables.pdeFree _ le_rfl (by omega), if_pos (by decide)]
    simp only [wp_bind, wp_pure]
    refine pmmAllocPage_spec (fun _ => trivial) fun t rest top split popped => ?_
    have taken : t ∈ frames m := by
      rw [split]
      exact List.mem_append_right _ (List.mem_singleton_self t)
    have inTables' : KernelFrames im [t] :=
      owned.of_sublist (List.singleton_sublist.2 (by simp [taken]))
    have ht : t ∈ [t] := List.mem_singleton_self t
    have hpgd := im.pgdPhys_range
    have habove := inTables'.above_tables ht
    have habove' := inTables'.above t ht
    have hbelow := inTables'.below t ht
    have ek := im.pgdPhys_slot (i := 896 + tables.length) (by omega)
    have paging₁ : KernelPaging im (m.setFrames m.pmmStack top m.phyPageCount) :=
      heap.paging.of_agree rfl rfl fun _ _ => rfl
    rw [directory_address heap.heapMax, slot]
    refine paging₁.store32 (by omega) (by omega) (fun x hx => ?_) fun paging₂ => ?_
    · have := directory_miss (j := tables.length) hx
      omega
    refine paging₂.bzero (by omega) (by omega) (fun x hx => ?_) fun paging₃ => ?_
    · exact .inl (inTables'.miss ht hx)
    refine paging₃.store_pte inTables' ht heap.heapMax fun mem hmem _ => ⟨rfl, fun x hx => ?_⟩
    have slot' := inTables'.slot_above ht pages.length
    have below := hx.1
    have apart := hx.2
    rw [Machine.setMem_mem, hmem, writeWord_outside _ _ (by omega) (by omega), Machine.setMem_mem,
      zeroFill_outside _ (by omega), Machine.setMem_mem, writeWord_outside _ _ (by omega) (by omega)]
    rfl
  · have ht' := List.mem_of_getElem? ht
    rw [heap.tables.pde _ t ht, entry_frame (inTables.aligned t ht'), if_neg (inTables.ne_zero ht'),
      wp_bind, wp_pure]
    refine heap.paging.store_pte inTables ht' heap.heapMax fun mem hmem _ => ?_
    have slot := inTables.slot_above ht' pages.length
    rw [hmem]
    exact Untouched.writeWord _ slot.2 (.inl slot.1)

/-- `unmap` writes into a page table. -/
theorem unmap_untouched (paging : KernelPaging im m)
    (heap : HeapTables im m.mem (pages ++ [f]) tables) (inTables : KernelFrames im tables)
    {va : Word} (h : va.toNat = 0xE0000000 + 4096 * pages.length) :
    WP (unmap im.pgdKern va) (fun _ _ => True) (fun _ t => Untouched im m t) m := by
  obtain ⟨t, ht⟩ := heap.table_of_page (i := pages.length) (by simp)
  have ht' := List.mem_of_getElem? ht
  simp only [unmap, wp_bind]
  refine paging.load_pde h ?_
  rw [heap.pde _ t ht, entry_frame (inTables.aligned t ht'), if_neg (inTables.ne_zero ht')]
  refine paging.store_pte inTables ht' h fun mem hmem _ => ?_
  have slot := inTables.slot_above ht' pages.length
  rw [hmem]
  exact Untouched.writeWord _ slot.2 (.inl slot.1)

theorem shrinkPage_untouched (own : Owned im F m (pages ++ [f]) tables) (pool : KernelFrames im F) :
    WP (shrinkPage im) (fun _ _ => True) (fun _ t => Untouched im m t) m := by
  have all := own.all pool
  have heapMax := own.mapped.heapMax
  have bound := own.heapMax_lt pool
  rw [List.length_append, List.length_singleton] at heapMax
  have last : (m.heapMax - pageSize).toNat = 0xE0000000 + 4096 * pages.length := by
    unfold pageSize
    bv_omega
  have inTables : KernelFrames im tables := all.of_sublist (List.sublist_append_right _ _)
  have paging : KernelPaging im (m.setHeapMax (m.heapMax - pageSize)) :=
    own.mapped.paging.of_agree rfl rfl fun _ _ => rfl
  have owned : KernelFrames im (f :: tables) := by
    refine all.of_sublist ?_
    rw [← List.append_assoc, List.append_assoc, List.singleton_append]
    exact List.sublist_append_right _ _
  simp only [shrinkPage, wp_bind, wp_modify, wp_get]
  refine getMapping_spec paging own.mapped.tables owned last ?_
  refine (unmap_untouched paging own.mapped.tables inTables last).mono fun _ t same => ?_
  exact pmmFreePage_keeps _ t (((Untouched.refl im m).setHeapMax _).trans same)

theorem growPage_untouched (own : Owned im F m pages tables) (pool : KernelFrames im F) :
    WP (growPage im) (fun _ _ => True) (fun _ t => Untouched im m t) m := by
  simp only [growPage, wp_bind, wp_get, wp_modify]
  refine pmmAllocPage_spec (fun _ => trivial) fun f rest top split popped => ?_
  have conserved := own.conserved
  rw [split] at conserved
  have mapped : HeapMapped im (m.setFrames m.pmmStack top m.phyPageCount) pages tables :=
    ⟨own.mapped.paging.of_agree rfl rfl fun _ _ => rfl, own.mapped.tables, own.mapped.heapMax⟩
  refine (map_untouched mapped ?_ _).mono fun _ t same => ?_
  · rw [popped, List.append_cons]
    exact pool.of_perm conserved
  · exact ((Untouched.refl im m).setFrames _ top).trans (same.setHeapMax _)

/-- `alloc_chunk` takes frames of the pool and leaves all else alone. -/
theorem allocChunk_untouched (own : Owned im F m pages tables) (pool : KernelFrames im F)
    (start len : Word) :
    WP (allocChunk im start len) (fun _ _ => True) (fun _ t => Untouched im m t) m := by
  have keeps : Keeps (fun t => (∃ pages tables, Owned im F t pages tables) ∧ Untouched im m t)
      (growPage im) := by
    rintro t ⟨⟨pages', tables', own'⟩, same⟩
    have spec := growPage_spec (E := fun _ _ => True) own' pool fun _ _ => trivial
    refine (spec.and (growPage_untouched own' pool)).weaken (fun _ _ _ => trivial) ?_
    rintro _ u ⟨⟨f, new, own'', -⟩, same'⟩
    exact ⟨⟨_, _, own''⟩, same.trans same'⟩
  have loop : Keeps (fun t => (∃ pages tables, Owned im F t pages tables) ∧ Untouched im m t)
      (allocChunk im start len) :=
    Keeps.whileM (fun _ => Keeps.get_bind fun _ _ => Keeps.pure _) (fun _ => keeps) roundLimit ()
  exact (loop m ⟨⟨pages, tables, own⟩, Untouched.refl im m⟩).mono fun _ _ h => h.2

/-- The page loop of `free_chunk` leaves the heap below its new end alone. -/
theorem freePages_spares (own : Owned im F m pages tables) (pool : KernelFrames im F) {chunk : Word}
    (lo : 0xE0000000 ≤ chunk.toNat) (hi : chunk.toNat ≤ m.heapMax.toNat) (D : List ℕ) :
    WP (freePages im chunk) (fun _ _ => True) (fun _ t => Spares im D t.heapMax.toNat m t ∧
      t.heapMax.toNat ≤ m.heapMax.toNat) m := by
  have same : WP (freePages im chunk) (fun _ _ => True) (fun _ t => Untouched im m t) m := by
    refine (WP.whileM (fun _ t => (∃ pages, Owned im F t pages tables) ∧ Untouched im m t ∧
      chunk.toNat ≤ t.heapMax.toNat) (fun _ t => t.heapMax.toNat) ?_ roundLimit
      ⟨⟨pages, own⟩, Untouched.refl im m, hi⟩ m.heapMax.isLt).mono fun _ _ h => h
    rintro _ t ⟨⟨pages', own'⟩, same, above⟩
    have aligned := own'.mapped.heapMax
    have previous : (t.heapMax - pageSize).toNat = t.heapMax.toNat - 4096 := by
      unfold pageSize
      bv_omega
    rw [wp_bind, wp_get, wp_pure]
    by_cases more : t.heapMax - pageSize ≥ chunk
    · have more' : chunk.toNat ≤ t.heapMax.toNat - 4096 := by
        rw [← previous]
        exact more
      rw [if_pos (decide_eq_true more)]
      rcases List.eq_nil_or_concat' pages' with rfl | ⟨kept, f, rfl⟩
      · rw [List.length_nil] at aligned
        omega
      have shrunk := shrinkPage_spec own' pool (E := fun _ _ => True)
        (Q := fun _ u => Owned im F u kept tables) fun u own'' _ _ => own''
      refine (shrunk.and (shrinkPage_untouched own' pool)).weaken (fun _ _ _ => trivial) ?_
      rintro _ u ⟨own'', same'⟩
      have aligned' := own''.mapped.heapMax
      rw [List.length_append, List.length_singleton] at aligned
      exact ⟨⟨⟨kept, own''⟩, same.trans same', by omega⟩, by omega⟩
    · rw [if_neg (by simpa using more)]
      exact same
  refine ((freePages_spec (E := fun _ _ => True) own pool lo hi).and same).weaken
    (fun _ _ _ => trivial) ?_
  rintro _ t ⟨⟨kept, released, -, -, -, reached, view⟩, same⟩
  have aligned := own.mapped.heapMax
  refine ⟨Spares.of_kept same (reached ▸ view), ?_⟩
  rw [reached, pageUp]
  omega

end Pages

/-! ## Headers -/

section Headers

variable {im : Image} {F pages tables : List Word} {m : Machine} {va : Word}

theorem Owned.store8_untouched (own : Owned im F m pages tables) (pool : KernelFrames im F) (b : Byte)
    (lo : 0xE0000000 ≤ va.toNat) (hi : va.toNat < m.heapMax.toNat) :
    WP (store8 va b) (fun _ _ => False) (fun _ t => Untouched im m t) m := by
  obtain ⟨f, hf, walked, e⟩ := own.exists_frame pool lo hi
  have above := (own.heap pool).above f (List.mem_append_left _ (List.mem_of_getElem? hf))
  refine store8_spec walked ⟨rfl, fun x hx => writeByte_of_ne _ ?_⟩
  rintro rfl
  have below := hx.1
  omega

theorem Owned.store32_untouched (own : Owned im F m pages tables) (pool : KernelFrames im F)
    (v : Word) (lo : 0xE0000000 ≤ va.toNat) (hi : va.toNat + 4 ≤ m.heapMax.toNat) :
    WP (store32 va v) (fun _ _ => True) (fun _ t => Untouched im m t) m := by
  have limit := own.heapMax_lt pool
  have byte (i : ℕ) (hi4 : i < 4) (b : Byte) :
      Keeps (fun t => Owned im F t pages tables ∧ t.heapMax = m.heapMax ∧ Untouched im m t)
        (store8 (va + BitVec.ofNat 32 i) b) := by
    rintro t ⟨own', reached, same⟩
    have e := toNat_offset (a := va) (i := i) (by omega)
    have lo' : 0xE0000000 ≤ (va + BitVec.ofNat 32 i).toNat := by omega
    have hi' : (va + BitVec.ofNat 32 i).toNat < t.heapMax.toNat := by
      rw [reached]
      omega
    have stored : WP (store8 (va + BitVec.ofNat 32 i) b) (fun _ _ => False)
        (fun _ u => Owned im F u pages tables ∧ u.heapMax = t.heapMax) t :=
      HeapBytes.store8 ⟨own', fun _ _ _ => rfl⟩ pool lo' hi' fun phys bytes => ⟨bytes.own, rfl⟩
    refine (stored.and (own'.store8_untouched pool b lo' hi')).weaken (fun _ _ _ => trivial) ?_
    rintro _ u ⟨⟨own'', reached'⟩, same'⟩
    exact ⟨own'', reached'.trans reached, same.trans same'⟩
  have first := byte 0 (by decide) (byteOf v 0)
  rw [BitVec.add_zero] at first
  have all := Keeps.bind first fun _ => Keeps.bind (byte 1 (by decide) (byteOf v 1)) fun _ =>
    Keeps.bind (byte 2 (by decide) (byteOf v 2)) fun _ => byte 3 (by decide) (byteOf v 3)
  exact (all m ⟨own, rfl, Untouched.refl im m⟩).mono fun _ _ h => h.2.2

/-- The headers at `D` read as `h`, and `m` spares what `m₀` had outside them. -/
structure Held (im : Image) (F pages tables : List Word) (D : List ℕ) (hi : ℕ) (m₀ m : Machine)
    (h : ℕ → HeaderField → Word) : Prop where
  heads : Heads im F m pages tables D h
  spares : Spares im D hi m₀ m
  reach : hi ≤ m.heapMax.toNat

namespace Held

variable {E : Stop → Machine → Prop} {D : List ℕ} {hi a : ℕ} {m₀ : Machine}
  {h : ℕ → HeaderField → Word}

theorem loadField (held : Held im F pages tables D hi m₀ m h) (pool : KernelFrames im F)
    (ha : a ∈ D) (f : HeaderField) {Q : Word → Machine → Prop} (hQ : Q (h a f) m) :
    WP (loadField f (addr a)) E Q m := held.heads.loadField pool ha f hQ

theorem storeField (held : Held im F pages tables D hi m₀ m h) (pool : KernelFrames im F)
    (ha : a ∈ D) (f : HeaderField) {v : Word} {Q : Unit → Machine → Prop}
    (hQ : ∀ t, Held im F pages tables D hi m₀ t (setField h a f v) →
      t.heapFirst = m.heapFirst → t.heapMax = m.heapMax → Q () t) :
    WP (storeField f (addr a) v) E Q m := by
  have limit := held.heads.own.heapMax_lt pool
  obtain ⟨lo, le⟩ := held.heads.inside a ha
  have e := field_toNat (a := a) f (by omega)
  have := f.ctorIdx_lt
  have fields := held.heads.storeField (E := fun _ _ => False) (v := v)
    (Q := fun _ t => Heads im F t pages tables D (setField h a f v) ∧ t.heapFirst = m.heapFirst ∧
      t.heapMax = m.heapMax) pool ha f fun phys heads => ⟨heads, rfl, rfl⟩
  have bytes := HeapBytes.store32 (E := fun _ _ => False) (v := v)
    (Q := fun _ t => ∀ x : Word, 0xE0000000 ≤ x.toNat → x.toNat < m.heapMax.toNat →
      view t x = writeWord (view m) (addr a + f.offset) v x)
    ⟨held.heads.own, fun _ _ _ => rfl⟩ pool (by omega) (by omega) fun phys bytes => bytes.view
  have rest := held.heads.own.store32_untouched pool v
    (show 0xE0000000 ≤ (addr a + f.offset).toNat by omega) (by omega)
  refine ((fields.and bytes).and rest).weaken (fun _ _ h => h.1.1.elim) ?_
  rintro _ t ⟨⟨⟨heads, first, reached⟩, view⟩, same⟩
  refine hQ t ⟨heads, held.spares.trans ⟨same, fun x lo' hi' out => ?_⟩, ?_⟩ first reached
  · have reach := held.reach
    have := out a ha
    rw [view x lo' (by omega), writeWord_outside _ _ (by omega) (by omega)]
  · rw [reached]
    exact held.reach

end Held

end Headers

end SimpleKernel
