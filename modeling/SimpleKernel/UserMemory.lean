import SimpleKernel.FirstFit
import SimpleKernel.Payloads

/-!
# The memory of the heap's users

In every run of `kmalloc`, `kfree` and writes of the users into blocks of theirs, a block holds what
was last written into it.
-/

namespace SimpleKernel

open ByteStore ProgramLogic Tiling

section Writes

variable {E : Stop → Machine → Prop} {which : Bool → Prop} {im : Image} {F pages tables : List Word}
  {m t : Machine} {l : List Chunk} {va : Word}

/-- A byte behind the header of a chunk can be written without harm to the list. -/
theorem HeapList.store8 (heap : HeapList which im F m pages tables l)
    (pool : KernelFrames im F) {q : ℕ × ℕ} (hq : q ∈ blocks 0xE0000000 l) (lo : q.1 + 12 ≤ va.toNat)
    (lt : va.toNat < q.1 + q.2) (b : Byte) {Q : Unit → Machine → Prop}
    (hQ : ∀ phys, HeapList which im F (m.setMem phys) pages tables l →
      (∀ x : Word, 0xE0000000 ≤ x.toNat → x.toNat < m.heapMax.toNat →
        view (m.setMem phys) x = writeByte (view m) va b x) → Q () (m.setMem phys)) :
    WP (SimpleKernel.store8 va b) E Q m := by
  obtain ⟨first, le⟩ := heap.block_bounds hq
  have limit := heap.listed.own.heapMax_lt pool
  refine HeapBytes.store8 ⟨heap.listed.own, fun _ _ _ => rfl⟩ pool (by omega) (by omega)
    fun phys bytes => hQ phys ⟨⟨bytes.own, ?_, heap.listed.sizes, heap.listed.fits⟩, heap.first,
      heap.reached, heap.tidy⟩ bytes.view
  refine heap.listed.chain.congr fun a ha => ?_
  have apart := header_apart heap.listed.sizes ha hq lo lt
  obtain ⟨lo', le'⟩ := heap.listed.heads.inside a ha
  funext f
  have e := field_toNat (a := a) f (by omega)
  have := f.ctorIdx_lt
  refine readWord_congr (by omega) fun x hx hx' => ?_
  rw [bytes.view x (by omega) (show x.toNat < m.heapMax.toNat by omega)]
  refine writeByte_of_ne _ ?_
  rintro rfl
  omega

end Writes

namespace SafeState

variable {E : Stop → Machine → Prop} {im : Image} {F : List Word} {m t : Machine} {live : List Live}

/-- `t` shows in the blocks `live` what `m` shows there. -/
def BlocksKept (live : List Live) (m t : Machine) : Prop :=
  ∀ b ∈ live, ∀ i < b.2.toNat,
    view t (b.1 + BitVec.ofNat 32 i) = view m (b.1 + BitVec.ofNat 32 i)

/-- Where a byte of a block lies. -/
theorem byte_toNat {b : Live} {q : ℕ × ℕ} (serves : Serves b q) {i : ℕ} (hi : i < b.2.toNat)
    (bound : q.1 + q.2 ≤ 2 ^ 32) : (b.1 + BitVec.ofNat 32 i).toNat = q.1 + 12 + i := by
  obtain ⟨pointer, fits⟩ := serves
  rw [toNat_offset (by omega), pointer]

theorem kmalloc_kept (safe : SafeState im F m live) (pool : KernelFrames im F) {len : Word}
    (noWrap : NoWrap m len) :
    WP (SimpleKernel.kmalloc im len) (fun e _ => e = outOfMemory)
      (fun p t => SafeState im F t ((p, len) :: live) ∧ Untouched im m t ∧ BlocksKept live m t) m := by
  have spec := safe.kmalloc pool noWrap
  obtain ⟨tables, pages, l, bs, heap, perm, matching⟩ := safe
  obtain ⟨small, room⟩ := (heap.noWrap_iff pool).1 noWrap
  refine (spec.and (heap.kmalloc_kept pool small room)).weaken (fun _ _ h => h.1) ?_
  rintro p t ⟨safe', same, kept⟩
  refine ⟨safe', same, fun b hb i hi => ?_⟩
  obtain ⟨q, hq, serves⟩ := exists_partner matching hb
  have bounds := heap.block_bounds (perm.subset hq)
  have limit := heap.listed.own.heapMax_lt pool
  have e := byte_toNat serves hi (by omega)
  have fits := serves.2
  exact kept q (perm.subset hq) _ (by omega) (by omega)

theorem kfree_kept (safe : SafeState im F m live) (pool : KernelFrames im F) {b : Live}
    (has : b ∈ live) (ok : PrevLinked m b.1) :
    WP (SimpleKernel.kfree im b.1) E (fun _ t => SafeState im F t (live.erase b) ∧ Untouched im m t ∧
      BlocksKept (live.erase b) m t) m := by
  have spec := safe.kfree (E := fun _ _ => False) pool has ok
  obtain ⟨tables, pages, l, bs, heap, perm, matching⟩ := safe
  obtain ⟨⟨a, n⟩, bs', related, perm', rest⟩ := forall₂_erase matching has
  have mem : (a, n) ∈ blocks 0xE0000000 l :=
    perm.subset (perm'.symm.subset (List.mem_cons_self ..))
  obtain ⟨pre, c, post, rfl, used, rfl, rfl⟩ := mem_blocks_iff.1 mem
  have place : b.1 = addr (after pre + 12) := by
    rw [← addr_ofToNat b.1, related.1, after]
  have back := heap.back_of_prevLinked pool (place ▸ ok)
  obtain ⟨before, -, behind⟩ := backs_append.1 heap.tidy.backs
  have shortened := heap.kfree pre pool rfl back (E := fun _ _ => False)
  have spares := heap.listed.kfree_spares pool
    (backs_append.2 ⟨before, fun _ => back, behind⟩)
  rw [place] at spec ⊢
  refine ((spec.and shortened).and spares).weaken (fun _ _ h => h.1.1.elim) ?_
  rintro _ t ⟨⟨safe', kept, released, -, heap', -⟩, spares⟩
  refine ⟨safe', spares.toUntouched, fun b' hb' i hi => ?_⟩
  obtain ⟨q, hq, serves⟩ := exists_partner rest hb'
  have others : bs'.Perm (blocks 0xE0000000 (freed pre c post)) := by
    rw [blocks_freed]
    rw [blocks_append, blocks_used used] at perm
    exact (perm'.symm.trans (perm.trans List.perm_middle)).cons_inv
  have below := (heap'.block_bounds (others.subset hq)).2
  have hq' : q ∈ blocks 0xE0000000 (pre ++ c :: post) :=
    perm.subset (perm'.symm.subset (List.mem_cons_of_mem _ hq))
  have limit := heap'.listed.own.heapMax_lt pool
  have e := byte_toNat serves hi (by omega)
  have fits := serves.2
  exact spares.block heap.listed.sizes hq' below (by omega) (by omega)

/-- A user writes a byte of a block; the chunks stay as they are. -/
theorem store8 (safe : SafeState im F m live) (pool : KernelFrames im F) {b : Live} (has : b ∈ live)
    {i : ℕ} (hi : i < b.2.toNat) (v : Byte) :
    WP (SimpleKernel.store8 (b.1 + BitVec.ofNat 32 i) v) E (fun _ t => SafeState im F t live ∧
      Untouched im m t ∧ (∀ which l, HeapHas which im F m l → HeapHas which im F t l) ∧
      ∀ x : Word, 0xE0000000 ≤ x.toNat → x.toNat < m.heapMax.toNat →
        view t x = writeByte (view m) (b.1 + BitVec.ofNat 32 i) v x) m := by
  obtain ⟨tables, pages, l, bs, heap, perm, matching⟩ := safe
  obtain ⟨q, hq, serves⟩ := exists_partner matching has
  have bounds := heap.block_bounds (perm.subset hq)
  have limit := heap.listed.own.heapMax_lt pool
  have e := byte_toNat serves hi (by omega)
  have fits := serves.2
  have lo : q.1 + 12 ≤ (b.1 + BitVec.ofNat 32 i).toNat := by omega
  have above : 0xE0000000 ≤ (b.1 + BitVec.ofNat 32 i).toNat := by omega
  have rest := heap.listed.own.store8_untouched pool v above (by omega)
  have written := heap.store8 pool (perm.subset hq) lo (by omega) v (E := fun _ _ => False)
    (Q := fun _ t => SafeState im F t live ∧
      ∀ x : Word, 0xE0000000 ≤ x.toNat → x.toNat < m.heapMax.toNat →
        view t x = writeByte (view m) (b.1 + BitVec.ofNat 32 i) v x)
    fun phys heap' view => ⟨⟨tables, pages, l, bs, heap', perm, matching⟩, view⟩
  obtain ⟨⟨⟩, t, run, safe', view⟩ := written.returns
  refine run.wp ⟨safe', rest.returned run, fun which l' has => ?_, view⟩
  obtain ⟨pages', tables', heap'⟩ := has
  obtain rfl := heap'.unique heap pool
  exact (heap'.store8 pool (perm.subset hq) lo (by omega) v (E := fun _ _ => True)
    (Q := fun _ t => HeapHas which im F t _) fun _ heap'' _ => ⟨_, _, heap''⟩).returned run

/-- A user reads a byte of a block. -/
theorem load8 (safe : SafeState im F m live) (pool : KernelFrames im F) {b : Live} (has : b ∈ live)
    {i : ℕ} (hi : i < b.2.toNat) : Returns (load8 (b.1 + BitVec.ofNat 32 i)) m
      (view m (b.1 + BitVec.ofNat 32 i)) m := by
  obtain ⟨lo, le⟩ := (safe.heapSafe pool).inside b has
  have start : heapStart.toNat = 0xE0000000 := rfl
  have e := toNat_offset (a := b.1) (i := i) (by have := m.heapMax.isLt; omega)
  have mapped := (safe.heapSafe pool).mapped (b.1 + BitVec.ofNat 32 i) (by omega) (by omega)
  exact load8_returns (Option.isSome_iff_ne_none.1 mapped)

end SafeState

/-! ## Runs -/

/-- The machine, the blocks in use, and for each address what was last written there by the user of
the block it lies in, if anything. -/
structure Users where
  machine : Machine
  live : List Live
  written : Word → Option Byte

/-- The contents of a new block are not known. -/
def forget (written : Word → Option Byte) (p len : Word) : Word → Option Byte :=
  fun a => if p.toNat ≤ a.toNat ∧ a.toNat < p.toNat + len.toNat then none else written a

/-- A call of `kmalloc` or `kfree`, or a write into a block in use. -/
inductive UserStep (im : Image) : Users → Users → Prop where
  | kmalloc {s : Users} {t : Machine} {len p : Word} (noWrap : NoWrap s.machine len)
      (run : Returns (kmalloc im len) s.machine p t) :
      UserStep im s ⟨t, (p, len) :: s.live, forget s.written p len⟩
  | kfree {s : Users} {t : Machine} {b : Live} (has : b ∈ s.live) (ok : PrevLinked s.machine b.1)
      (run : Returns (kfree im b.1) s.machine () t) :
      UserStep im s ⟨t, s.live.erase b, s.written⟩
  | write {s : Users} {t : Machine} {b : Live} {i : ℕ} {v : Byte} (has : b ∈ s.live)
      (inside : i < b.2.toNat) (run : Returns (store8 (b.1 + BitVec.ofNat 32 i) v) s.machine () t) :
      UserStep im s ⟨t, s.live, Function.update s.written (b.1 + BitVec.ofNat 32 i) (some v)⟩

/-- Blocks show what was last written into them. -/
def Remembers (s : Users) : Prop :=
  ∀ b ∈ s.live, ∀ i < b.2.toNat, ∀ v, s.written (b.1 + BitVec.ofNat 32 i) = some v →
    view s.machine (b.1 + BitVec.ofNat 32 i) = v

section Runs

variable {im : Image} {F : List Word} {s s' : Users}

/-- One step keeps the heap safe, the kernel image as it was, and the blocks' contents. -/
theorem UserStep.keeps (step : UserStep im s s') (pool : KernelFrames im F)
    (safe : SafeState im F s.machine s.live) (remembers : Remembers s) :
    SafeState im F s'.machine s'.live ∧ Untouched im s.machine s'.machine ∧ Remembers s' := by
  cases step with
  | @kmalloc t len p noWrap run =>
    obtain ⟨safe', same, kept⟩ := (safe.kmalloc_kept pool noWrap).returned run
    refine ⟨safe', same, fun b hb i hi v known => ?_⟩
    simp only [forget] at known
    split_ifs at known with new
    rcases List.mem_cons.1 hb with rfl | hb
    · have bound := ((safe'.heapSafe pool).inside _ (List.mem_cons_self ..)).2
      have e := toNat_offset (a := p) (i := i) (by have := t.heapMax.isLt; simp at bound hi; omega)
      simp only [e] at new hi
      omega
    · rw [kept b hb i hi]
      exact remembers b hb i hi v known
  | kfree has ok run =>
    obtain ⟨safe', same, kept⟩ := (safe.kfree_kept (E := fun _ _ => True) pool has ok).returned run
    refine ⟨safe', same, fun b hb i hi v known => ?_⟩
    rw [kept b hb i hi]
    exact remembers b (List.mem_of_mem_erase hb) i hi v known
  | @write t c j w has inside run =>
    obtain ⟨safe', same, -, shown⟩ :=
      (safe.store8 (E := fun _ _ => True) pool has inside w).returned run
    refine ⟨safe', same, fun b hb i hi v known => ?_⟩
    obtain ⟨lo, le⟩ := (safe.heapSafe pool).inside b hb
    have start : heapStart.toNat = 0xE0000000 := rfl
    have e := toNat_offset (a := b.1) (i := i) (by have := s.machine.heapMax.isLt; omega)
    dsimp only at known ⊢
    rw [shown _ (by omega) (by omega)]
    by_cases place : b.1 + BitVec.ofNat 32 i = c.1 + BitVec.ofNat 32 j
    · rw [place, Function.update_self] at known
      rw [place, writeByte_self]
      exact Option.some_inj.1 known
    · rw [Function.update_of_ne place] at known
      rw [writeByte_of_ne _ place]
      exact remembers b hb i hi v known

theorem UserStep.run (pool : KernelFrames im F) (steps : Relation.ReflTransGen (UserStep im) s s')
    (safe : SafeState im F s.machine s.live) (remembers : Remembers s) :
    SafeState im F s'.machine s'.live ∧ Untouched im s.machine s'.machine ∧ Remembers s' := by
  induction steps with
  | refl => exact ⟨safe, Untouched.refl im _, remembers⟩
  | tail _ step ih =>
    obtain ⟨safe', same, remembers'⟩ := ih
    obtain ⟨safe'', same', remembers''⟩ := step.keeps pool safe' remembers'
    exact ⟨safe'', same.trans same', remembers''⟩

end Runs

end SimpleKernel
