import SimpleKernel.RunQueue
import SimpleKernel.UserMemory

/-!
# The memory of tasks

Tasks live in blocks of the heap, except for the boot task, which lives in `kern_stack`.  Through the
kernel's paging these are memory of their own: what is written into them shows there and nowhere else
among them, and it does the heap no harm.
-/

namespace SimpleKernel

open ByteStore ProgramLogic Tiling

/-- The linker puts `kern_stack` and the table arrays of `vmm.c` at different places. -/
structure StackApart (im : Image) : Prop extends StackLinked im where
  pgdKern : im.kernStack.toNat + 8192 ≤ im.pgdKern.toNat ∨
    im.pgdKern.toNat + 4096 ≤ im.kernStack.toNat
  pteKern : im.kernStack.toNat + 8192 ≤ im.pteKern.toNat ∨
    im.pteKern.toNat + 128 * 4096 ≤ im.kernStack.toNat

theorem stackApart_smallImage : StackApart smallImage where
  toStackLinked := stackLinked_smallImage
  pgdKern := by decide
  pteKern := by decide

/-- `kern_stack` and the blocks in use. -/
def taskMemory (im : Image) (live : List Live) : Set Word :=
  {x | im.kernStack.toNat ≤ x.toNat ∧ x.toNat < im.kernStack.toNat + 8192 ∨
    ∃ b ∈ live, b.1.toNat ≤ x.toNat ∧ x.toNat < b.1.toNat + b.2.toNat}

/-- A kernel byte outside `kern_stack`. -/
def ImageByte (im : Image) (a : Word) : Prop :=
  KernelByte im a ∧ (a.toNat + 0xC0000000 < im.kernStack.toNat ∨
    im.kernStack.toNat + 8192 ≤ a.toNat + 0xC0000000)

/-- `t` has the image bytes and the globals of `m`. -/
structure Sheltered (im : Image) (m t : Machine) : Prop where
  globals : t.globals = m.globals
  image : ∀ a, ImageByte im a → t.mem a = m.mem a

namespace Sheltered

variable {im : Image} {m t u : Machine}

theorem refl (im : Image) (m : Machine) : Sheltered im m m := ⟨rfl, fun _ _ => rfl⟩

theorem trans (h : Sheltered im m t) (h' : Sheltered im t u) : Sheltered im m u :=
  ⟨h'.globals.trans h.globals, fun a ha => (h'.image a ha).trans (h.image a ha)⟩

theorem of_untouched (h : Untouched im m t) : Sheltered im m t :=
  ⟨h.globals, fun a ha => h.image a ha.1⟩

end Sheltered

section Store

variable {E : Stop → Machine → Prop} {im : Image} {F pages tables : List Word} {m : Machine}
  {live : List Live} {va : Word} {b : Byte}

/-- The physical place of a byte of `kern_stack`. -/
theorem StackApart.place (stack : StackApart im) (lo : im.kernStack.toNat ≤ va.toNat)
    (hi : va.toNat < im.kernStack.toNat + 8192) :
    KernelByte im (va - pageOffset) ∧ va - pageOffset ∉ im.tables ∧
      (va - pageOffset).toNat + 0xC0000000 = va.toNat := by
  have start := stack.start
  have stop := stack.stop
  have aligned := im.kernEnd_aligned
  have mapped := im.kernEnd_mapped
  have e : (va - pageOffset).toNat + 0xC0000000 = va.toNat := by
    unfold pageOffset
    bv_omega
  have pgd := im.pgdPhys_toNat
  have pte := im.ptePhys_toNat
  have apart := stack.pgdKern
  have apart' := stack.pteKern
  refine ⟨⟨by omega, by omega⟩, ?_, e⟩
  rintro (inside | inside)
  · omega
  · omega

/-- A byte of `kern_stack` is no part of page tables or of the heap. -/
theorem Owned.writeStack (own : Owned im F m pages tables) (pool : KernelFrames im F)
    (stack : StackApart im) (lo : im.kernStack.toNat ≤ va.toNat)
    (hi : va.toNat < im.kernStack.toNat + 8192) :
    Owned im F (m.setMem (writeByte m.mem (va - pageOffset) b)) pages tables ∧
      HeapKept m (m.setMem (writeByte m.mem (va - pageOffset) b)) m.heapMax.toNat := by
  obtain ⟨⟨below, apart⟩, outside, e⟩ := stack.place lo hi
  have heap := own.heap pool
  have frame (f : Word) (hf : f ∈ pages ++ tables) (x : Word) (hx : f.toNat ≤ x.toNat) :
      writeByte m.mem (va - pageOffset) b x = m.mem x := by
    have above := heap.above f hf
    refine writeByte_of_ne _ ?_
    rintro rfl
    omega
  have own' : Owned im F (m.setMem (writeByte m.mem (va - pageOffset) b)) pages tables := by
    refine ⟨⟨own.mapped.paging.of_agree rfl rfl fun x hx => writeByte_of_ne _ ?_,
      own.mapped.tables.of_agree (heap.of_sublist (List.sublist_append_right _ _))
        (fun x lo' hi' => writeByte_of_ne _ ?_) fun t ht x lo' _ =>
          frame t (List.mem_append_right _ ht) x lo', own.mapped.heapMax⟩, own.conserved⟩
    · rintro rfl
      exact outside hx
    · rintro rfl
      omega
  have kept := own.kept own' pool rfl (List.prefix_refl pages) (List.prefix_refl pages)
    fun g hg x lo' _ => frame g (List.mem_append_left _ hg) x lo'
  rw [← own.mapped.heapMax] at kept
  exact ⟨own', kept⟩

/-- Below the heap the kernel's paging is the direct map. -/
theorem SafeState.translate_direct (safe : SafeState im F m live) (lo : 0xC0001000 ≤ va.toNat)
    (hi : va.toNat < 0xE0000000) : translate m va = some (va - pageOffset) := by
  obtain ⟨tables, pages, l, bs, heap, -, -⟩ := safe
  exact heap.listed.own.mapped.paging.window.translate lo hi

theorem SafeState.translate_stack (safe : SafeState im F m live) (stack : StackApart im)
    (lo : im.kernStack.toNat ≤ va.toNat) (hi : va.toNat < im.kernStack.toNat + 8192) :
    translate m va = some (va - pageOffset) := by
  have start := stack.start
  have stop := stack.stop
  have limit := im.kernEnd_mapped
  exact safe.translate_direct (by omega) (by omega)

theorem SafeState.storeStack (safe : SafeState im F m live) (pool : KernelFrames im F)
    (stack : StackApart im) (lo : im.kernStack.toNat ≤ va.toNat)
    (hi : va.toNat < im.kernStack.toNat + 8192) :
    WP (SimpleKernel.store8 va b) E (fun _ t =>
      t = m.setMem (writeByte m.mem (va - pageOffset) b) ∧ SafeState im F t live ∧
        (∀ which l, HeapHas which im F m l → HeapHas which im F t l) ∧
        HeapKept m t m.heapMax.toNat) m := by
  refine store8_spec (safe.translate_stack stack lo hi) ?_
  obtain ⟨tables, pages, l, bs, heap, perm, matching⟩ := safe
  have kept := (heap.listed.own.writeStack pool stack lo hi (b := b)).2
  have chunks (which : Bool → Prop) (l' : List Chunk) (has : HeapHas which im F m l') :
      HeapHas which im F (m.setMem (writeByte m.mem (va - pageOffset) b)) l' := by
    obtain ⟨pages', tables', heap'⟩ := has
    obtain ⟨own, kept⟩ := heap'.listed.own.writeStack pool stack lo hi (b := b)
    have listed := heap'.listed.of_kept own pool kept heap'.listed.fits heap'.listed.fits
    exact ⟨_, _, listed, heap'.first, heap'.reached, heap'.tidy⟩
  obtain ⟨pages', tables', heap'⟩ := chunks _ l ⟨_, _, heap⟩
  exact ⟨rfl, ⟨tables', pages', l, bs, heap', perm, matching⟩, chunks, kept⟩

end Store

/-! ## Accesses -/

/-- The heap is safe, its chunks and the rest of the kernel are as in `m₀`, and the memory of tasks
shows the bytes `mem`. -/
structure Workspace (im : Image) (F : List Word) (m₀ : Machine)
    (live : List Live) (m : Machine) (mem : Store 32) : Prop where
  safe : SafeState im F m live
  sheltered : Sheltered im m₀ m
  chunks : ∀ which l, HeapHas which im F m₀ l → HeapHas which im F m l
  shows : ∀ x ∈ taskMemory im live, view m x = mem x

/-- The `n` bytes from `p` on are memory of tasks. -/
def Within (im : Image) (live : List Live) (p : Word) (n : ℕ) : Prop :=
  ∀ x : Word, p.toNat ≤ x.toNat → x.toNat < p.toNat + n → x ∈ taskMemory im live

namespace Workspace

variable {E : Stop → Machine → Prop} {im : Image} {F : List Word}
  {live : List Live} {m₀ m : Machine}
  {mem : Store 32} {va v : Word}

theorem mapped (work : Workspace im F m₀ live m mem) (pool : KernelFrames im F)
    (stack : StackApart im) (hx : va ∈ taskMemory im live) : translate m va ≠ none := by
  rcases hx with ⟨lo, hi⟩ | ⟨b, hb, lo, hi⟩
  · rw [work.safe.translate_stack stack lo hi]
    exact Option.some_ne_none _
  · have safe := work.safe.heapSafe pool
    obtain ⟨above, below⟩ := safe.inside b hb
    exact Option.isSome_iff_ne_none.1 (safe.mapped va (by omega) (by omega))

/-- The memory of tasks is not where the heap ends or `kern_stack` is. -/
theorem heap_range (work : Workspace im F m₀ live m mem) (pool : KernelFrames im F) {b : Live}
    (hb : b ∈ live) (lo : b.1.toNat ≤ va.toNat) (hi : va.toNat < b.1.toNat + b.2.toNat) :
    0xE0000000 ≤ va.toNat ∧ va.toNat < m.heapMax.toNat := by
  obtain ⟨above, below⟩ := (work.safe.heapSafe pool).inside b hb
  have start : heapStart.toNat = 0xE0000000 := rfl
  omega

theorem store8 (work : Workspace im F m₀ live m mem) (pool : KernelFrames im F)
    (stack : StackApart im) (hx : va ∈ taskMemory im live) {b : Byte} {Q : Unit → Machine → Prop}
    (hQ : ∀ t, Workspace im F m₀ live t (writeByte mem va b) → Q () t) :
    WP (SimpleKernel.store8 va b) E Q m := by
  have start := stack.start
  have stop := stack.stop
  have limit := im.kernEnd_mapped
  rcases hx with ⟨lo, hi⟩ | ⟨c, hc, lo, hi⟩
  · refine (work.safe.storeStack pool stack lo hi).mono ?_
    rintro _ t ⟨rfl, safe, chunks, kept⟩
    have outside : Sheltered im m (m.setMem (writeByte m.mem (va - pageOffset) b)) := by
      obtain ⟨-, -, place⟩ := stack.place lo hi
      refine ⟨rfl, fun a ha => writeByte_of_ne _ ?_⟩
      rintro rfl
      have apart := ha.2
      omega
    refine hQ _ ⟨safe, work.sheltered.trans outside,
      fun which l has => chunks which l (work.chunks which l has), fun x hx => ?_⟩
    by_cases same : x = va
    · subst same
      rw [view_eq (safe.translate_stack stack lo hi), Machine.setMem_mem, writeByte_self,
        writeByte_self]
    · rw [writeByte_of_ne _ same, ← work.shows x hx]
      rcases hx with ⟨lo', hi'⟩ | ⟨d, hd, lo', hi'⟩
      · rw [view_eq (safe.translate_stack stack lo' hi'),
          view_eq (work.safe.translate_stack stack lo' hi'), Machine.setMem_mem]
        refine writeByte_of_ne _ fun place => same ?_
        bv_omega
      · obtain ⟨above, below⟩ := work.heap_range pool hd lo' hi'
        exact kept.view x above below
  · obtain ⟨above, below⟩ := work.heap_range pool hc lo hi
    have e : c.1 + BitVec.ofNat 32 (va.toNat - c.1.toNat) = va := by
      apply BitVec.eq_of_toNat_eq
      rw [toNat_offset (by omega)]
      omega
    have spec := work.safe.store8 (E := E) pool hc (i := va.toNat - c.1.toNat) (by omega) b
    rw [e] at spec
    refine spec.mono ?_
    rintro _ t ⟨safe, same, chunks, shown⟩
    refine hQ t ⟨safe, work.sheltered.trans (.of_untouched same),
      fun which l has => chunks which l (work.chunks which l has), fun x hx => ?_⟩
    rcases hx with ⟨lo', hi'⟩ | ⟨d, hd, lo', hi'⟩
    · have ne : x ≠ va := by
        rintro rfl
        omega
      rw [writeByte_of_ne _ ne, ← work.shows x (.inl ⟨lo', hi'⟩),
        view_eq (safe.translate_stack stack lo' hi'),
        view_eq (work.safe.translate_stack stack lo' hi')]
      exact same.image _ (stack.place lo' hi').1
    · obtain ⟨above', below'⟩ := work.heap_range pool hd lo' hi'
      have old := work.shows x (.inr ⟨d, hd, lo', hi'⟩)
      rw [shown x above' below']
      by_cases same : x = va
      · rw [same, writeByte_self, writeByte_self]
      · rw [writeByte_of_ne _ same, writeByte_of_ne _ same, old]

theorem load32 (work : Workspace im F m₀ live m mem) (pool : KernelFrames im F)
    (stack : StackApart im) (room : va.toNat + 4 ≤ 2 ^ 32) (inside : Within im live va 4) :
    Returns (SimpleKernel.load32 va) m (readWord mem va) m := by
  have value : readWord (view m) va = readWord mem va :=
    readWord_congr room fun x lo hi => work.shows x (inside x lo hi)
  rw [← value]
  refine load32_returns fun i hi => work.mapped pool stack (inside _ ?_ ?_)
  · rw [toNat_offset (by omega)]
    omega
  · rw [toNat_offset (by omega)]
    omega

theorem store32 (work : Workspace im F m₀ live m mem) (pool : KernelFrames im F)
    (stack : StackApart im) (room : va.toNat + 4 ≤ 2 ^ 32) (inside : Within im live va 4)
    {Q : Unit → Machine → Prop}
    (hQ : ∀ t, Workspace im F m₀ live t (writeWord mem va v) → Q () t) :
    WP (SimpleKernel.store32 va v) E Q m := by
  have byte (i : ℕ) (hi : i < 4) : va + BitVec.ofNat 32 i ∈ taskMemory im live := by
    have e := toNat_offset (a := va) (i := i) (by omega)
    exact inside _ (by omega) (by omega)
  have first := byte 0 (by decide)
  rw [BitVec.add_zero] at first
  simp only [SimpleKernel.store32, wp_bind]
  refine work.store8 pool stack first fun t₁ work₁ => ?_
  refine work₁.store8 pool stack (byte 1 (by decide)) fun t₂ work₂ => ?_
  refine work₂.store8 pool stack (byte 2 (by decide)) fun t₃ work₃ => ?_
  exact work₃.store8 pool stack (byte 3 (by decide)) hQ

theorem bzero {n : ℕ} (work : Workspace im F m₀ live m mem) (pool : KernelFrames im F)
    (stack : StackApart im) (room : va.toNat + n ≤ 2 ^ 32) (inside : Within im live va n)
    {Q : Unit → Machine → Prop} (hQ : ∀ t, Workspace im F m₀ live t (zeroFill mem va n) → Q () t) :
    WP (SimpleKernel.bzero va n) E Q m := by
  induction n generalizing m mem va with
  | zero =>
    rw [zeroFill_zero] at hQ
    exact hQ m work
  | succ n ih =>
    rw [← zeroFill_succ _ (by omega)] at hQ
    simp only [SimpleKernel.bzero, bzeroWith, wp_bind]
    refine work.store8 pool stack (inside va le_rfl (by omega)) fun t work' => ?_
    rcases Nat.eq_zero_or_pos n with rfl | pos
    · rw [zeroFill_zero] at hQ
      exact hQ t work'
    · have e : (va + 1).toNat = va.toNat + 1 := toNat_offset (i := 1) (by omega)
      exact ih work' (by omega) (fun x lo hi => inside x (by omega) (by omega)) hQ

end Workspace

end SimpleKernel
