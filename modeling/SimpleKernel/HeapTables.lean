import Mathlib.Data.List.Nodup
import Mathlib.Data.List.Perm.Subperm
import SimpleKernel.DirectMap

/-!
# The page tables of the heap

The heap grows page by page from `HEAP_START`, so its page tables fill the last 128 entries of the
kernel's directory from the front.  `HeapTables` reads the directory and the tables as two lists:
the frames of the heap's pages and the frames of the tables that hold them.
-/

namespace SimpleKernel

open ByteStore

/-! ## Frames -/

/-- Different page-aligned frames behind the kernel image that end below 512 MB. -/
structure KernelFrames (im : Image) (fs : List Word) : Prop where
  nodup : fs.Nodup
  aligned : ∀ f ∈ fs, f.toNat % 4096 = 0
  above : ∀ f ∈ fs, im.kernEnd.toNat ≤ f.toNat + 0xC0000000
  below : ∀ f ∈ fs, f.toNat + 4096 ≤ 0x20000000

namespace KernelFrames

variable {im : Image} {fs gs : List Word}

theorem of_subset (frames : KernelFrames im fs) (nodup : gs.Nodup) (h : gs ⊆ fs) :
    KernelFrames im gs :=
  ⟨nodup, fun f hf => frames.aligned f (h hf), fun f hf => frames.above f (h hf),
    fun f hf => frames.below f (h hf)⟩

theorem of_perm (frames : KernelFrames im fs) (h : gs.Perm fs) : KernelFrames im gs :=
  frames.of_subset (h.nodup_iff.2 frames.nodup) h.subset

theorem of_sublist (frames : KernelFrames im fs) (h : gs.Sublist fs) : KernelFrames im gs :=
  frames.of_subset (frames.nodup.sublist h) h.subset

theorem above_tables (frames : KernelFrames im fs) {f : Word} (hf : f ∈ fs) :
    im.pgdPhys.toNat + 4096 ≤ f.toNat ∧ im.ptePhys.toNat + 128 * 4096 ≤ f.toNat := by
  have := frames.above f hf
  have := im.pgdPhys_toNat
  have := im.ptePhys_toNat
  have := im.pgdKern_end
  have := im.pteKern_end
  omega

/-- Two frames share no byte. -/
theorem apart (frames : KernelFrames im fs) {f g : Word} (hf : f ∈ fs) (hg : g ∈ fs) (h : f ≠ g) :
    f.toNat + 4096 ≤ g.toNat ∨ g.toNat + 4096 ≤ f.toNat := by
  have := frames.aligned f hf
  have := frames.aligned g hg
  have : f.toNat ≠ g.toNat := fun e => h (BitVec.eq_of_toNat_eq e)
  omega

/-- There are at most as many frames as 511 MB hold. -/
theorem length_le (frames : KernelFrames im fs) : fs.length ≤ 130816 := by
  have inj : (fs.map fun f => f.toNat / 4096).Nodup := by
    refine List.Nodup.map_on (fun f hf g hg h => BitVec.eq_of_toNat_eq ?_) frames.nodup
    have := frames.aligned f hf
    have := frames.aligned g hg
    omega
  have sub : (fs.map fun f => f.toNat / 4096) ⊆ List.range' 256 130816 := by
    intro n hn
    obtain ⟨f, hf, rfl⟩ := List.mem_map.1 hn
    have := frames.above f hf
    have := frames.below f hf
    have := im.pgdKern_start
    have := im.pgdKern_end
    rw [List.mem_range'_1]
    omega
  have := (inj.subperm sub).length_le
  rwa [List.length_map, List.length_range'] at this

end KernelFrames

/-! ## Tables -/

/-- The directory serves the heap with `tables`, and these map the pages from `HEAP_START` on to
`pages` and nothing behind them. -/
structure HeapTables (im : Image) (mem : Store 32) (pages tables : List Word) : Prop where
  covered : pages.length ≤ 1024 * tables.length
  slots : tables.length ≤ 128
  pde : ∀ j t, tables[j]? = some t →
    readWord mem (im.pgdPhys + BitVec.ofNat 32 (4 * (896 + j))) = entry t
  pdeFree : ∀ j, tables.length ≤ j → j < 128 →
    readWord mem (im.pgdPhys + BitVec.ofNat 32 (4 * (896 + j))) = 0
  pte : ∀ i f t, pages[i]? = some f → tables[i / 1024]? = some t →
    readWord mem (t + BitVec.ofNat 32 (4 * (i % 1024))) = entry f
  pteFree : ∀ i t, pages.length ≤ i → tables[i / 1024]? = some t →
    readWord mem (t + BitVec.ofNat 32 (4 * (i % 1024))) = 0

section Slots

variable {im : Image} {mem mem' : Store 32} {pages tables : List Word} {t u : Word}

theorem KernelFrames.slot_toNat (frames : KernelFrames im tables) (ht : t ∈ tables) (i : ℕ) :
    (t + BitVec.ofNat 32 (4 * (i % 1024))).toNat = t.toNat + 4 * (i % 1024) :=
  toNat_offset (by have := frames.below t ht; omega)

/-- Slots of different pages share no byte. -/
theorem KernelFrames.slot_apart (frames : KernelFrames im tables) {i j : ℕ}
    (ht : tables[i / 1024]? = some t) (hu : tables[j / 1024]? = some u) (h : i ≠ j) :
    t.toNat + 4 * (i % 1024) + 4 ≤ u.toNat + 4 * (j % 1024) ∨
      u.toNat + 4 * (j % 1024) + 4 ≤ t.toNat + 4 * (i % 1024) := by
  have ht' := List.mem_of_getElem? ht
  have hu' := List.mem_of_getElem? hu
  by_cases same : t = u
  · subst same
    obtain ⟨hi, -⟩ := List.getElem?_eq_some_iff.1 ht
    have := (List.getElem?_inj hi frames.nodup).1 (ht.trans hu.symm)
    omega
  · have := frames.apart ht' hu' same
    omega

namespace HeapTables

theorem table_of_page (heap : HeapTables im mem pages tables) {i : ℕ} (hi : i < pages.length) :
    ∃ t, tables[i / 1024]? = some t := by
  have := heap.covered
  have lt : i / 1024 < tables.length := by omega
  exact ⟨tables[i / 1024], List.getElem?_eq_getElem lt⟩

/-- The tables depend on the heap's half of the directory and on their own bytes. -/
theorem of_agree (heap : HeapTables im mem pages tables) (frames : KernelFrames im tables)
    (dir : ∀ a : Word, im.pgdPhys.toNat + 3584 ≤ a.toNat → a.toNat < im.pgdPhys.toNat + 4096 →
      mem' a = mem a)
    (tab : ∀ t ∈ tables, ∀ a : Word, t.toNat ≤ a.toNat → a.toNat < t.toNat + 4096 →
      mem' a = mem a) : HeapTables im mem' pages tables := by
  have hpgd := im.pgdPhys_range
  have dirWord (j : ℕ) (hj : j < 128) :
      readWord mem' (im.pgdPhys + BitVec.ofNat 32 (4 * (896 + j))) =
        readWord mem (im.pgdPhys + BitVec.ofNat 32 (4 * (896 + j))) := by
    have e := im.pgdPhys_slot (i := 896 + j) (by omega)
    exact readWord_congr (by omega) fun x _ _ => dir x (by omega) (by omega)
  have tabWord (i : ℕ) (t : Word) (ht : t ∈ tables) :
      readWord mem' (t + BitVec.ofNat 32 (4 * (i % 1024))) =
        readWord mem (t + BitVec.ofNat 32 (4 * (i % 1024))) := by
    have e := frames.slot_toNat ht i
    have := frames.below t ht
    exact readWord_congr (by omega) fun x _ _ => tab t ht x (by omega) (by omega)
  refine ⟨heap.covered, heap.slots, fun j t ht => ?_, fun j hj hj' => ?_, fun i f t hf ht => ?_,
    fun i t hi ht => ?_⟩
  · have := (List.getElem?_eq_some_iff.1 ht).1
    have := heap.slots
    rw [dirWord j (by omega), heap.pde j t ht]
  · rw [dirWord j hj', heap.pdeFree j hj hj']
  · rw [tabWord i t (List.mem_of_getElem? ht), heap.pte i f t hf ht]
  · rw [tabWord i t (List.mem_of_getElem? ht), heap.pteFree i t hi ht]

/-- A zeroed frame put into the next free directory entry becomes a table. -/
theorem addTable (heap : HeapTables im mem pages tables) (frames : KernelFrames im (tables ++ [t]))
    (room : tables.length < 128) :
    HeapTables im (zeroFill (writeWord mem
      (im.pgdPhys + BitVec.ofNat 32 (4 * (896 + tables.length))) (entry t)) t 4096)
      pages (tables ++ [t]) := by
  have hpgd := im.pgdPhys_range
  have old := frames.of_sublist (List.sublist_append_left tables [t])
  have ht : t ∈ tables ++ [t] := List.mem_append_right _ (List.mem_singleton_self t)
  have habove := frames.above_tables ht
  have hbelow := frames.below t ht
  have ek := im.pgdPhys_slot (i := 896 + tables.length) (by omega)
  have dirWord (j : ℕ) (hj : j < 128) (h : j ≠ tables.length) :
      readWord (zeroFill (writeWord mem
        (im.pgdPhys + BitVec.ofNat 32 (4 * (896 + tables.length))) (entry t)) t 4096)
        (im.pgdPhys + BitVec.ofNat 32 (4 * (896 + j))) =
        readWord mem (im.pgdPhys + BitVec.ofNat 32 (4 * (896 + j))) := by
    have e := im.pgdPhys_slot (i := 896 + j) (by omega)
    refine readWord_congr (by omega) fun x _ _ => ?_
    rw [zeroFill_outside _ (by omega), writeWord_outside _ _ (by omega) (by omega)]
  have tabWord (i : ℕ) (u : Word) (hu : u ∈ tables) : readWord (zeroFill (writeWord mem
        (im.pgdPhys + BitVec.ofNat 32 (4 * (896 + tables.length))) (entry t)) t 4096)
        (u + BitVec.ofNat 32 (4 * (i % 1024))) =
        readWord mem (u + BitVec.ofNat 32 (4 * (i % 1024))) := by
    have e := old.slot_toNat hu i
    have := old.below u hu
    have := old.above_tables hu
    have other : t ≠ u := by
      rintro rfl
      exact List.disjoint_of_nodup_append frames.nodup hu (List.mem_singleton_self t)
    have := frames.apart ht (List.mem_append_left _ hu) other
    refine readWord_congr (by omega) fun x _ _ => ?_
    rw [zeroFill_outside _ (by omega), writeWord_outside _ _ (by omega) (by omega)]
  have length : (tables ++ [t]).length = tables.length + 1 := by simp
  have covered := heap.covered
  refine ⟨by omega, by omega, fun j u hu => ?_, fun j hj hj' => ?_, fun i f u hf hu => ?_,
    fun i u hi hu => ?_⟩
  · rcases lt_trichotomy j tables.length with lt | rfl | gt
    · rw [List.getElem?_append_left lt] at hu
      rw [dirWord j (by omega) (by omega), heap.pde j u hu]
    · rw [List.getElem?_concat_length, Option.some_inj] at hu
      subst hu
      refine Eq.trans (readWord_congr (by omega) fun x _ _ => ?_)
        (readWord_writeWord_self mem _ (by omega))
      rw [zeroFill_outside _ (by omega)]
    · rw [List.getElem?_eq_none (by omega)] at hu
      exact absurd hu (by simp)
  · rw [dirWord j hj' (by omega), heap.pdeFree j (by omega) hj']
  · have := (List.getElem?_eq_some_iff.1 hf).1
    rw [List.getElem?_append_left (by omega)] at hu
    rw [tabWord i u (List.mem_of_getElem? hu), heap.pte i f u hf hu]
  · rcases lt_trichotomy (i / 1024) tables.length with lt | eq | gt
    · rw [List.getElem?_append_left lt] at hu
      rw [tabWord i u (List.mem_of_getElem? hu), heap.pteFree i u hi hu]
    · rw [eq, List.getElem?_concat_length, Option.some_inj] at hu
      subst hu
      have e := frames.slot_toNat ht i
      exact readWord_zero (by omega) fun x _ _ => zeroFill_inside _ (by omega) (by omega)
    · rw [List.getElem?_eq_none (by omega)] at hu
      exact absurd hu (by simp)

/-- Writing a page table entry of the heap changes that entry only. -/
theorem readWord_slot (frames : KernelFrames im tables) {i j : ℕ} (v : Word)
    (ht : tables[i / 1024]? = some t) (hu : tables[j / 1024]? = some u) :
    readWord (writeWord mem (t + BitVec.ofNat 32 (4 * (i % 1024))) v)
      (u + BitVec.ofNat 32 (4 * (j % 1024))) =
        if i = j then v else readWord mem (u + BitVec.ofNat 32 (4 * (j % 1024))) := by
  have ht' := List.mem_of_getElem? ht
  have hu' := List.mem_of_getElem? hu
  have := frames.below t ht'
  have := frames.below u hu'
  have et := frames.slot_toNat ht' i
  have eu := frames.slot_toNat hu' j
  split_ifs with h
  · subst h
    obtain rfl := Option.some_inj.1 (ht.symm.trans hu)
    exact readWord_writeWord_self _ _ (by omega)
  · have := frames.slot_apart ht hu h
    exact readWord_writeWord_disjoint _ _ (by omega) (by omega) (by omega)

theorem readWord_dir (frames : KernelFrames im tables) {i j : ℕ} (v : Word) (ht : t ∈ tables)
    (hj : j < 128) : readWord (writeWord mem (t + BitVec.ofNat 32 (4 * (i % 1024))) v)
      (im.pgdPhys + BitVec.ofNat 32 (4 * (896 + j))) =
        readWord mem (im.pgdPhys + BitVec.ofNat 32 (4 * (896 + j))) := by
  have := frames.below t ht
  have := frames.above_tables ht
  have et := frames.slot_toNat ht i
  have e := im.pgdPhys_slot (i := 896 + j) (by omega)
  exact readWord_writeWord_disjoint _ _ (by omega) (by omega) (by omega)

/-- Mapping one more page. -/
theorem addPage (heap : HeapTables im mem pages tables) (frames : KernelFrames im tables)
    (room : pages.length < 1024 * tables.length) (f : Word)
    (ht : tables[pages.length / 1024]? = some t) :
    HeapTables im (writeWord mem (t + BitVec.ofNat 32 (4 * (pages.length % 1024))) (entry f))
      (pages ++ [f]) tables := by
  have ht' := List.mem_of_getElem? ht
  have length : (pages ++ [f]).length = pages.length + 1 := by simp
  have slots := heap.slots
  refine ⟨by omega, heap.slots, fun j u hu => ?_, fun j hj hj' => ?_, fun i g u hg hu => ?_,
    fun i u hi hu => ?_⟩
  · have := (List.getElem?_eq_some_iff.1 hu).1
    rw [readWord_dir frames _ ht' (by omega), heap.pde j u hu]
  · rw [readWord_dir frames _ ht' hj', heap.pdeFree j hj hj']
  · rw [readWord_slot frames _ ht hu]
    split_ifs with h
    · subst h
      rw [List.getElem?_concat_length, Option.some_inj] at hg
      rw [hg]
    · have := (List.getElem?_eq_some_iff.1 hg).1
      rw [List.getElem?_append_left (by omega)] at hg
      exact heap.pte i g u hg hu
  · rw [readWord_slot frames _ ht hu, if_neg (by omega)]
    exact heap.pteFree i u (by omega) hu

/-- Unmapping the last page. -/
theorem dropPage {f : Word} (heap : HeapTables im mem (pages ++ [f]) tables)
    (frames : KernelFrames im tables) (ht : tables[pages.length / 1024]? = some t) :
    HeapTables im (writeWord mem (t + BitVec.ofNat 32 (4 * (pages.length % 1024))) 0) pages
      tables := by
  have ht' := List.mem_of_getElem? ht
  have length : (pages ++ [f]).length = pages.length + 1 := by simp
  have covered := heap.covered
  have slots := heap.slots
  refine ⟨by omega, heap.slots, fun j u hu => ?_, fun j hj hj' => ?_, fun i g u hg hu => ?_,
    fun i u hi hu => ?_⟩
  · have := (List.getElem?_eq_some_iff.1 hu).1
    rw [readWord_dir frames _ ht' (by omega), heap.pde j u hu]
  · rw [readWord_dir frames _ ht' hj', heap.pdeFree j hj hj']
  · have := (List.getElem?_eq_some_iff.1 hg).1
    rw [readWord_slot frames _ ht hu, if_neg (by omega)]
    exact heap.pte i g u (by rwa [List.getElem?_append_left this]) hu
  · rw [readWord_slot frames _ ht hu]
    split_ifs with h
    · rfl
    · exact heap.pteFree i u (by omega) hu

end HeapTables

end Slots

end SimpleKernel
