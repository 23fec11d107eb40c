import Mathlib.Data.List.Infix
import Mathlib.Data.List.Nodup
import SimpleKernel.DirectMap

/-!
# Loading the frame stack

`init_pmm` scans the boot loader's memory map and pushes the frames of every usable region that
starts at 1 MB.  The scan is characterised exactly, the runs that stop included, and the frames that
it pushes are compared with the part of memory that `init_vmm` maps.
-/

namespace SimpleKernel

open ByteStore ProgramLogic

/-- How many frames the inner loop of `init_pmm` pushes. -/
def regionCount (pageAddr length : Word) : ℕ :=
  (min length.toNat (pmmMaxSize.toNat + 1) - pageAddr.toNat + 4095) / 4096

/-- The frames that the inner loop of `init_pmm` pushes, in order. -/
def regionFrames (pageAddr length : Word) : List Word :=
  (List.range (regionCount pageAddr length)).map fun i => pageAddr + BitVec.ofNat 32 (4096 * i)

/-- The addresses in the memory map that the outer loop of `init_pmm` looks at. -/
def mapEntries (mmapEnd : Word) : ℕ → Word → List Word
  | 0, _ => []
  | fuel + 1, mapEntry =>
    if mapEntry < mmapEnd then mapEntry :: mapEntries mmapEnd fuel (mapEntry + sizeofMmapEntry)
    else []

section MemoryMap

variable (m : Machine)

def mmapStart : Word := readWord (view m) (m.glbMbootPtr + MutilbootField.mmapAddr.offset)

def mmapEnd : Word :=
  mmapStart m + readWord (view m) (m.glbMbootPtr + MutilbootField.mmapLength.offset)

def examinedEntries : List Word := mapEntries (mmapEnd m) roundLimit (mmapStart m)

/-- The entry at `a` is available memory from 1 MB on. -/
def Usable (a : Word) : Prop :=
  readWord (view m) (a + MmapField.type.offset) = 1 ∧
    readWord (view m) (a + MmapField.baseAddrLow.offset) = 0x100000

instance (a : Word) : Decidable (Usable m a) := inferInstanceAs (Decidable (_ ∧ _))

def regionEnd (a : Word) : Word :=
  0x100000 + readWord (view m) (a + MmapField.lengthLow.offset)

end MemoryMap

/-- The first frame behind a kernel that ends at `kernEnd`. -/
def frameAfter (kernEnd : Word) : Word := 0x100000 + (kernEnd - kernStart)

/-- The first frame behind the kernel image. -/
def firstFrame (im : Image) : Word := frameAfter im.kernEnd

/-- The frames that one entry of the memory map contributes. -/
def entryFrames (kernEnd : Word) (m : Machine) (a : Word) : List Word :=
  if Usable m a then regionFrames (frameAfter kernEnd) (regionEnd m a) else []

theorem firstFrame_toNat (im : Image) : (firstFrame im).toNat + 0xC0000000 = im.kernEnd.toNat := by
  have := im.kernEnd_mapped
  have := im.pgdKern_start
  have := im.pgdKern_end
  unfold firstFrame frameAfter kernStart
  bv_omega

theorem firstFrame_low (im : Image) : (firstFrame im).toNat ≤ 0x400000 := by
  have := firstFrame_toNat im
  have := im.kernEnd_mapped
  omega

section RegionFrames

variable (start length : Word)

theorem regionFrames_toNat {i : ℕ}
    (hi : i < regionCount start length + 1) :
    (start + BitVec.ofNat 32 (4096 * i)).toNat = start.toNat + 4096 * i := by
  have limit : pmmMaxSize.toNat = 0x20000000 := rfl
  unfold regionCount at hi
  exact toNat_offset (by omega)

/-- The inner loop goes on as long as there are frames left to push. -/
theorem regionCount_cond {i : ℕ}
    (hi : i < regionCount start length + 1) :
    (start + BitVec.ofNat 32 (4096 * i) < length ∧
      start + BitVec.ofNat 32 (4096 * i) ≤ pmmMaxSize) ↔ i < regionCount start length := by
  have limit : pmmMaxSize.toNat = 0x20000000 := rfl
  have e := regionFrames_toNat start length hi
  rw [BitVec.lt_def, BitVec.le_def, e, limit]
  unfold regionCount at hi ⊢
  omega

theorem mem_regionFrames {start length f : Word} :
    f ∈ regionFrames start length ↔ f.toNat < length.toNat ∧ f.toNat ≤ 0x20000000 ∧
      start.toNat ≤ f.toNat ∧ (f.toNat - start.toNat) % 4096 = 0 := by
  have limit : pmmMaxSize.toNat = 0x20000000 := rfl
  simp only [regionFrames, List.mem_map, List.mem_range]
  constructor
  · rintro ⟨i, hi, rfl⟩
    have e := regionFrames_toNat start length (i := i) (by omega)
    unfold regionCount at hi
    omega
  · rintro ⟨below, bound, above, step⟩
    have hi : (f.toNat - start.toNat) / 4096 < regionCount start length := by
      unfold regionCount
      omega
    refine ⟨_, hi, BitVec.eq_of_toNat_eq ?_⟩
    rw [regionFrames_toNat start length (by omega)]
    omega

theorem regionFrames_nodup : (regionFrames start length).Nodup := by
  refine List.Nodup.map_on (fun i hi j hj same => ?_) List.nodup_range
  rw [List.mem_range] at hi hj
  have := congrArg BitVec.toNat same
  rw [regionFrames_toNat start length (by omega), regionFrames_toNat start length (by omega)] at this
  omega

end RegionFrames

/-! ## The two loops -/

section Scan

variable {kernEnd : Word} {m : Machine} {E : Stop → Machine → Prop}

/-- Machines that differ from `m` in the frame stack and the page count only. -/
def FramesOnly (m t : Machine) : Prop := ∃ stack top count, t = m.setFrames stack top count

theorem FramesOnly.refl (m : Machine) : FramesOnly m m := ⟨_, _, _, rfl⟩

theorem FramesOnly.trans {t u : Machine} (h : FramesOnly m t) (h' : FramesOnly t u) :
    FramesOnly m u := by
  obtain ⟨_, _, _, rfl⟩ := h
  obtain ⟨_, _, _, rfl⟩ := h'
  exact ⟨_, _, _, rfl⟩

/-- A stop on a full stack, which holds the first 131072 of the frames that were to be pushed. -/
def FullStack (m : Machine) (fs : List Word) (e : Stop) (t : Machine) : Prop :=
  e = .panic "out of pmm_stack stack" ∧ FramesOnly m t ∧ (frames t).length = pageMaxSize.toNat ∧
    (frames t).length < fs.length ∧ frames t <+: fs

/-- `t` is `m` with the first `i` frames of a region pushed. -/
def Pushed (m : Machine) (start : Word) (i : ℕ) (t : Machine) : Prop :=
  FramesOnly m t ∧ (frames t).length ≤ pageMaxSize.toNat ∧
    frames t = frames m ++ (List.range i).map fun j => start + BitVec.ofNat 32 (4096 * j)

/-- One round of the inner loop. -/
theorem Pushed.step {start length : Word} {t : Machine} {i : ℕ} (h : Pushed m start i t)
    (more : i < regionCount start length) :
    WP (do
      pmmFreePage (start + BitVec.ofNat 32 (4096 * i))
      modify fun m => { m with phyPageCount := m.phyPageCount + 1 })
      (FullStack m (frames m ++ regionFrames start length))
      (fun _ u => Pushed m start (i + 1) u) t := by
  obtain ⟨only, room, pushed⟩ := h
  have extended : frames t ++ [start + BitVec.ofNat 32 (4096 * i)] = frames m ++
      (List.range (i + 1)).map fun j => start + BitVec.ofNat 32 (4096 * j) := by
    rw [pushed, List.range_succ, List.map_append, List.append_assoc, List.map_singleton]
  simp only [wp_bind, wp_modify]
  refine pmmFreePage_spec room (fun full => ?_) fun free stack top grown => ?_
  · have shape : frames t <+: frames m ++ regionFrames start length := by
      rw [pushed, regionFrames, List.prefix_append_right_inj, ← Nat.min_eq_left more.le,
        ← List.take_range]
      exact (List.take_prefix _ _).map _
    refine ⟨rfl, only, full, ?_, shape⟩
    rw [pushed]
    simpa [regionFrames] using more
  · have grown' : frames (t.setFrames stack top (t.phyPageCount + 1)) = _ := grown
    refine ⟨only.trans ⟨_, _, _, rfl⟩, ?_, grown'.trans extended⟩
    show (frames (t.setFrames stack top (t.phyPageCount + 1))).length ≤ _
    rw [grown', List.length_append]
    exact free

/-- The inner loop pushes exactly the frames of the region, or fills the stack up. -/
theorem pushRegion_spec (start length : Word)
    (bound : (frames m).length ≤ pageMaxSize.toNat) :
    WP (pushRegion start length) (FullStack m (frames m ++ regionFrames start length))
      (fun _ t => Pushed m start (regionCount start length) t) m := by
  have few : regionCount start length < roundLimit := by
    unfold regionCount roundLimit
    omega
  unfold pushRegion
  refine WP.whileM
    (fun x t => ∃ i ≤ regionCount start length, x = start + BitVec.ofNat 32 (4096 * i) ∧
      Pushed m start i t)
    (fun x _ => regionCount start length - (x.toNat - start.toNat) / 4096) ?_ roundLimit ?_ ?_
  · rintro x t ⟨i, hi, rfl, pushed⟩
    have e := regionFrames_toNat start length (i := i) (by omega)
    have cond := regionCount_cond start length (i := i) (by omega)
    rw [wp_pure]
    by_cases more : i < regionCount start length
    · have e' := regionFrames_toNat start length (i := i + 1) (by omega)
      have next : start + BitVec.ofNat 32 (4096 * i) + pmmPageSize =
          start + BitVec.ofNat 32 (4096 * (i + 1)) := by
        rw [BitVec.add_assoc, Nat.mul_add, BitVec.ofNat_add]
        rfl
      rw [if_pos (decide_eq_true (cond.2 more))]
      have round := pushed.step more
      simp only [wp_bind, wp_modify, wp_pure] at round ⊢
      refine round.mono fun _ u pushed' => ⟨⟨i + 1, more, next, pushed'⟩, ?_⟩
      rw [next, e', e]
      omega
    · obtain rfl : i = regionCount start length := by omega
      rw [if_neg (by simpa using mt cond.1 more)]
      exact pushed
  · exact ⟨0, Nat.zero_le _, (BitVec.add_zero _).symm, FramesOnly.refl m, bound,
      (List.append_nil _).symm⟩
  · simpa using few

/-- How a scan that would push `total` can stop: the stack is full, an address it looks at is
unmapped, or it never comes to an end. -/
def ScanStop (m : Machine) (total : List Word) (looked : Set Word) (endless : Prop) (e : Stop)
    (t : Machine) : Prop :=
  FramesOnly m t ∧ frames t <+: total ∧
    (e = .panic "out of pmm_stack stack" ∧ pageMaxSize.toNat < total.length ∨
      (∃ va ∈ looked, e = .pageFault va ∧ translate m va = none) ∨ e = .hang ∧ endless)

/-- The bytes of the entry at `a`. -/
def entryBytes (a : Word) : Set Word := {va | ∃ i < 24, va = a + BitVec.ofNat 32 i}

section Entry

variable {total : List Word} {looked : Set Word} {endless : Prop} {t : Machine} {a : Word}

/-- Looking at a member of an entry. -/
theorem load32_entry (only : FramesOnly m t) (part : frames t <+: total)
    (seen : entryBytes a ⊆ looked) (f : MmapField) {Q : Word → Machine → Prop}
    (hQ : Q (readWord (view m) (a + f.offset)) t) :
    WP (load32 (a + f.offset)) (ScanStop m total looked endless) Q t := by
  obtain ⟨stack, top, count, rfl⟩ := only
  refine load32_view (fun i hi fault => ?_) hQ
  refine ⟨⟨_, _, _, rfl⟩, part, .inr (.inl ⟨_, seen ⟨4 * f.ctorIdx + i, ?_, ?_⟩, rfl, fault⟩)⟩
  · cases f <;> simp [MmapField.ctorIdx] <;> omega
  · rw [MmapField.offset, offset_offset]

/-- One round of the outer loop. -/
theorem scanEntry_spec {rest : List Word} (only : FramesOnly m t)
    (room : (frames t).length ≤ pageMaxSize.toNat)
    (ends : frames t ++ entryFrames kernEnd m a ++ rest = total) (seen : entryBytes a ⊆ looked) :
    WP (scanEntryAt kernEnd a) (ScanStop m total looked endless)
      (fun b u => b = a + sizeofMmapEntry ∧ FramesOnly m u ∧
        frames u = frames t ++ entryFrames kernEnd m a ∧ (frames u).length ≤ pageMaxSize.toNat) t := by
  have part : frames t <+: total := ⟨entryFrames kernEnd m a ++ rest, by rw [← List.append_assoc, ends]⟩
  have skip (unusable : ¬ Usable m a) : frames t = frames t ++ entryFrames kernEnd m a := by
    rw [entryFrames, if_neg unusable, List.append_nil]
  simp only [scanEntryAt, wp_bind]
  refine load32_entry only part seen .type ?_
  by_cases type : readWord (view m) (a + MmapField.type.offset) = 1
  · rw [if_pos type]
    simp only [wp_bind]
    refine load32_entry only part seen .baseAddrLow ?_
    by_cases base : readWord (view m) (a + MmapField.baseAddrLow.offset) = 0x100000
    · simp only [base, if_true, wp_bind, wp_pure]
      refine load32_entry only part seen .lengthLow ?_
      have region : entryFrames kernEnd m a = regionFrames (frameAfter kernEnd)
          (0x100000 + readWord (view m) (a + MmapField.lengthLow.offset)) := if_pos ⟨type, base⟩
      have spec := pushRegion_spec (frameAfter kernEnd)
        (0x100000 + readWord (view m) (a + MmapField.lengthLow.offset)) room
      refine spec.weaken (fun e u full => ?_)
        fun _ u pushed => ?_
      · obtain ⟨rfl, only', full, more, shape⟩ := full
        rw [← region] at more shape
        have shape' := shape.trans ⟨rest, ends⟩
        refine ⟨only.trans only', shape', .inl ⟨rfl, ?_⟩⟩
        have := congrArg List.length ends
        rw [List.length_append] at this
        omega
      · obtain ⟨only', room', shape⟩ := pushed
        exact ⟨trivial, only.trans only', by rw [region]; exact shape, room'⟩
    · simp only [base, if_false, wp_pure]
      have same := skip fun usable => base usable.2
      exact ⟨trivial, only, same, room⟩
  · simp only [type, if_false, wp_pure]
    have same := skip fun usable => type usable.1
    exact ⟨trivial, only, same, room⟩

/-- The outer loop: every entry it looks at contributes its frames. -/
theorem scan_spec (only : FramesOnly m t) (room : (frames t).length ≤ pageMaxSize.toNat)
    (stop : Word) (fuel : ℕ) (a : Word)
    (ends : frames t ++ (mapEntries stop fuel a).flatMap (entryFrames kernEnd m) = total)
    (seen : ∀ b ∈ mapEntries stop fuel a, entryBytes b ⊆ looked)
    (long : (mapEntries stop fuel a).length = fuel → endless) :
    WP (whileM .hang (fun mapEntry => return decide (mapEntry < stop)) (scanEntryAt kernEnd) fuel a)
      (ScanStop m total looked endless)
      (fun _ u => FramesOnly m u ∧ frames u = total) t := by
  induction fuel generalizing a t with
  | zero => exact ⟨only, ⟨_, ends⟩, .inr (.inr ⟨rfl, long rfl⟩)⟩
  | succ fuel ih =>
    unfold whileM
    simp only [wp_bind, wp_pure]
    by_cases more : a < stop
    · simp only [mapEntries, if_pos more, List.flatMap_cons, List.mem_cons, forall_eq_or_imp,
        List.length_cons, Nat.add_right_cancel_iff, ← List.append_assoc] at ends seen long
      rw [if_pos (decide_eq_true more), wp_bind]
      refine (scanEntry_spec only room ends seen.1).mono fun b u after => ?_
      obtain ⟨rfl, only', shape, room'⟩ := after
      exact ih only' room' _ (by rw [shape, ends]) seen.2 long
    · simp only [mapEntries, if_neg more, List.flatMap_nil, List.append_nil] at ends
      rw [if_neg (by simpa using more)]
      exact ⟨only, ends⟩

end Entry

/-- The addresses that `init_pmm` looks at: two members of the boot information, and the entries. -/
def lookedAt (m : Machine) : Set Word :=
  {va | ∃ i < 8, va = m.glbMbootPtr + MutilbootField.mmapLength.offset + BitVec.ofNat 32 i} ∪
    {va | ∃ a ∈ examinedEntries m, va ∈ entryBytes a}

/-- What `init_pmm` would push on `pmm_stack` if it had room for everything. -/
def framesFrom (kernEnd : Word) (m : Machine) : List Word :=
  (examinedEntries m).flatMap (entryFrames kernEnd m)

/-- These frames for the kernel image. -/
def memoryFrames (im : Image) (m : Machine) : List Word := framesFrom im.kernEnd m

/-- `init_pmm` pushes the frames of the usable entries in the order of the memory map. -/
theorem initPmmAt_spec (kernEnd : Word) (m : Machine)
    (room : (frames m).length ≤ pageMaxSize.toNat) :
    WP (initPmmAt kernEnd)
      (ScanStop m (frames m ++ framesFrom kernEnd m) (lookedAt m)
        ((examinedEntries m).length = roundLimit))
      (fun _ t => FramesOnly m t ∧ frames t = frames m ++ framesFrom kernEnd m) m := by
  have member (f : MutilbootField) (k : ℕ) (hk : k = 0 ∨ k = 4)
      (place : f.offset = MutilbootField.mmapLength.offset + BitVec.ofNat 32 k)
      {Q : Word → Machine → Prop} (hQ : Q (readWord (view m) (m.glbMbootPtr + f.offset)) m) :
      WP (load32 (m.glbMbootPtr + f.offset)) (ScanStop m (frames m ++ framesFrom kernEnd m)
        (lookedAt m) ((examinedEntries m).length = roundLimit)) Q m := by
    refine load32_view (fun i hi fault => ?_) hQ
    refine ⟨FramesOnly.refl m, List.prefix_append _ _, .inr (.inl ⟨_, .inl ⟨k + i, ?_, ?_⟩, rfl,
      fault⟩)⟩
    · omega
    · rw [place, ← BitVec.add_assoc, offset_offset]
  simp only [initPmmAt, wp_bind, wp_get, wp_pure]
  refine member .mmapAddr 4 (.inr rfl) rfl ?_
  refine member .mmapAddr 4 (.inr rfl) rfl ?_
  refine member .mmapLength 0 (.inl rfl) rfl ?_
  exact scan_spec (FramesOnly.refl m) room _ _ _ rfl (fun b hb va hva => .inr ⟨b, hb, hva⟩) id

theorem initPmm_spec (im : Image) (m : Machine) (room : (frames m).length ≤ pageMaxSize.toNat) :
    WP (initPmm im)
      (ScanStop m (frames m ++ memoryFrames im m) (lookedAt m)
        ((examinedEntries m).length = roundLimit))
      (fun _ t => FramesOnly m t ∧ frames t = frames m ++ memoryFrames im m) m :=
  initPmmAt_spec im.kernEnd m room

end Scan

/-! ## Frames and the direct map -/

/-- `map` can use the frame `f` as a page table: it ends below 512 MB, and its kernel alias is in
the direct map and below the heap. -/
structure DirectMapped (v : Machine) (f : Word) : Prop where
  below : f.toNat + pmmPageSize.toNat ≤ pmmMaxSize.toNat
  alias_eq : ∀ i < 4096, translate v (f + pageOffset + BitVec.ofNat 32 i) =
    some (f + BitVec.ofNat 32 i)
  heap : (f + pageOffset).toNat + 4096 ≤ heapStart.toNat

/-- No usable entry that `init_pmm` looks at ends above 512 MB. -/
def RegionsFit (m : Machine) : Prop :=
  ∀ a ∈ examinedEntries m, Usable m a → (regionEnd m a).toNat ≤ pmmMaxSize.toNat

section Frames

variable {im : Image} {m : Machine}

theorem KernelPaging.directMapped (paging : KernelPaging im m) {f : Word}
    (lo : 0x1000 ≤ f.toNat) (hi : f.toNat + 4096 ≤ 0x20000000) : DirectMapped m f := by
  have e : (f + pageOffset).toNat = f.toNat + 0xC0000000 := by
    unfold pageOffset
    bv_omega
  refine ⟨hi, fun i hi' => ?_, ?_⟩
  · have ei := toNat_offset (a := f + pageOffset) (i := i) (by omega)
    rw [paging.window.translate (by omega) (by omega)]
    refine congrArg some ?_
    bv_omega
  · rw [e]
    show _ ≤ 0xE0000000
    omega

theorem mem_framesFrom_iff {kernEnd f : Word} : f ∈ framesFrom kernEnd m ↔
    ∃ a ∈ examinedEntries m, Usable m a ∧ f ∈ regionFrames (frameAfter kernEnd) (regionEnd m a) := by
  simp only [framesFrom, List.mem_flatMap, entryFrames]
  refine exists_congr fun a => and_congr_right fun _ => ?_
  by_cases usable : Usable m a
  · rw [if_pos usable]
    exact (and_iff_right usable).symm
  · rw [if_neg usable]
    exact iff_of_false List.not_mem_nil fun h => usable h.1

theorem mem_memoryFrames {f : Word} : f ∈ memoryFrames im m ↔ ∃ a ∈ examinedEntries m,
    Usable m a ∧ f.toNat < (regionEnd m a).toNat ∧ f.toNat ≤ 0x20000000 ∧
      (firstFrame im).toNat ≤ f.toNat ∧ (f.toNat - (firstFrame im).toNat) % 4096 = 0 := by
  rw [memoryFrames, mem_framesFrom_iff]
  simp only [mem_regionFrames]
  exact Iff.rfl

/-- If the usable entries fit, so do the frames. -/
theorem RegionsFit.below (fit : RegionsFit m) {f : Word} (hf : f ∈ memoryFrames im m) :
    f.toNat + pmmPageSize.toNat ≤ pmmMaxSize.toNat := by
  obtain ⟨a, ha, usable, short, -, above, step⟩ := mem_memoryFrames.1 hf
  have := fit a ha usable
  have := firstFrame_toNat im
  have := im.kernEnd_aligned
  have : pmmMaxSize.toNat = 0x20000000 := rfl
  have : pmmPageSize.toNat = 4096 := rfl
  omega

/-- A usable entry that ends above 512 MB contributes the frame at 512 MB. -/
theorem pmmMaxSize_mem_of_not_fit (unfit : ¬ RegionsFit m) : pmmMaxSize ∈ memoryFrames im m := by
  simp only [RegionsFit, not_forall, not_le] at unfit
  obtain ⟨a, ha, usable, long⟩ := unfit
  have limit : pmmMaxSize.toNat = 0x20000000 := rfl
  have := firstFrame_toNat im
  have := im.kernEnd_aligned
  have := im.kernEnd_mapped
  exact mem_memoryFrames.2 ⟨a, ha, usable, long, limit.le, by omega, by omega⟩

end Frames

/-- A scan whose memory map lies below 4 MB, comes to an end and fits on the stack returns. -/
theorem initPmm_returns (im : Image) {m : Machine} (temp : TemporaryPaging m)
    (empty : frames m = []) (low : ∀ va ∈ lookedAt m, va.toNat < 0x400000)
    (ends : (examinedEntries m).length ≠ roundLimit)
    (room : (memoryFrames im m).length ≤ pageMaxSize.toNat) :
    ∃ t, Returns (initPmm im) m () t ∧ FramesOnly m t ∧ frames t = memoryFrames im m := by
  have spec := initPmm_spec im m (by rw [empty]; exact Nat.zero_le _)
  rw [empty, List.nil_append] at spec
  rcases spec.outcome with ⟨⟨⟩, t, run, result⟩ | ⟨e, t, -, -, -, reason⟩
  · exact ⟨t, run, result⟩
  · rcases reason with ⟨-, full⟩ | ⟨va, looked, -, fault⟩ | ⟨-, endless⟩
    · omega
    · rw [temp.identity.translate (Nat.zero_le _) (low va looked)] at fault
      exact absurd fault (by simp)
    · exact absurd endless ends

/-- Every frame that `init_pmm` pushes can be used as a page table under the directory of
`init_vmm` exactly when no usable entry ends above 512 MB. -/
theorem initPmm_directMapped_iff (im : Image) (m : Machine) (temp : TemporaryPaging m)
    (zeroed : ∀ a ∈ im.tablePages, m.mem a = 0) (empty : frames m = []) :
    (∀ t, Returns (initPmm im) m () t → ∃ v, Returns (initVmm im) t () v ∧
      ((∀ f ∈ frames t, DirectMapped v f) ↔ RegionsFit m)) ∧
    ∀ e t, Stops (initPmm im) m e t → RegionsFit m →
      ∀ f ∈ frames t, f.toNat + pmmPageSize.toNat ≤ pmmMaxSize.toNat := by
  have spec := initPmm_spec im m (by rw [empty]; exact Nat.zero_le _)
  rw [empty, List.nil_append] at spec
  refine ⟨fun t run => ?_, fun e t run fit f hf => ?_⟩
  · obtain ⟨⟨stack, top, count, rfl⟩, pushed⟩ := spec.returned run
    have temp' : TemporaryPaging (m.setFrames stack top count) :=
      temp.of_agree rfl rfl fun _ _ => rfl
    obtain ⟨⟨⟩, v, run', rfl⟩ := (initVmm_spec (E := fun _ _ => False) im temp'
      (Q := fun _ u => u = _) rfl).returns
    have paging := kernelPaging_of_initVmm im temp' zeroed
      (Function.update m.interruptHandlers 14 im.pageFault)
    refine ⟨_, run', fun all => ?_, fun fit f hf => ?_⟩
    · by_contra unfit
      have bad := (all _ (pushed ▸ pmmMaxSize_mem_of_not_fit unfit)).below
      exact absurd bad (by decide)
    · rw [pushed] at hf
      have below := fit.below hf
      obtain ⟨-, -, -, -, -, above, -⟩ := mem_memoryFrames.1 hf
      have := firstFrame_toNat im
      have := im.pgdKern_start
      have := im.pgdKern_end
      exact paging.directMapped (by omega) below
  · obtain ⟨-, part, -⟩ := spec.stopped run
    exact fit.below (part.subset hf)

/-! ## Concrete memory maps -/

/-- Boot information at 64 KB whose memory map, at 68 KB, has a single usable entry. -/
def bootInformation (lengthLow : Word) : Store 32 :=
  writeWord (writeWord (writeWord (writeWord (writeWord (writeWord (fun _ => 0)
    (0x11000 + MmapField.size.offset) 20)
    (0x10000 + MutilbootField.mmapLength.offset) sizeofMmapEntry)
    (0x10000 + MutilbootField.mmapAddr.offset) 0x11000)
    (0x11000 + MmapField.baseAddrLow.offset) 0x100000)
    (0x11000 + MmapField.lengthLow.offset) lengthLow)
    (0x11000 + MmapField.type.offset) 1

theorem bootInformation_zero (lengthLow : Word) {a : Word} (h : 0x20000 ≤ a.toNat) :
    bootInformation lengthLow a = 0 := by
  have above {mem : Store 32} {b v : Word} (hb : b.toNat + 4 ≤ 0x20000) :
      writeWord mem b v a = mem a := writeWord_outside _ _ (by omega) (.inr (by omega))
  simp (disch := decide) only [bootInformation, above]

theorem bootInformation_mmapLength (lengthLow : Word) : readWord (bootInformation lengthLow)
    (0x10000 + MutilbootField.mmapLength.offset) = sizeofMmapEntry := by
  simp (disch := decide) only [bootInformation, readWord_writeWord_disjoint, readWord_writeWord_self]

theorem bootInformation_mmapAddr (lengthLow : Word) : readWord (bootInformation lengthLow)
    (0x10000 + MutilbootField.mmapAddr.offset) = 0x11000 := by
  simp (disch := decide) only [bootInformation, readWord_writeWord_disjoint, readWord_writeWord_self]

theorem bootInformation_baseAddrLow (lengthLow : Word) : readWord (bootInformation lengthLow)
    (0x11000 + MmapField.baseAddrLow.offset) = 0x100000 := by
  simp (disch := decide) only [bootInformation, readWord_writeWord_disjoint, readWord_writeWord_self]

theorem bootInformation_lengthLow (lengthLow : Word) : readWord (bootInformation lengthLow)
    (0x11000 + MmapField.lengthLow.offset) = lengthLow := by
  simp (disch := decide) only [bootInformation, readWord_writeWord_disjoint, readWord_writeWord_self]

theorem bootInformation_type (lengthLow : Word) : readWord (bootInformation lengthLow)
    (0x11000 + MmapField.type.offset) = 1 :=
  readWord_writeWord_self _ _ (by decide)

/-- A memory map with a single entry, usable and of this length, at 68 KB. -/
structure SingleRegion (mem : Store 32) (lengthLow : Word) : Prop where
  mmapLength : readWord mem (0x10000 + MutilbootField.mmapLength.offset) = sizeofMmapEntry
  mmapAddr : readWord mem (0x10000 + MutilbootField.mmapAddr.offset) = 0x11000
  baseAddrLow : readWord mem (0x11000 + MmapField.baseAddrLow.offset) = 0x100000
  lengthLow : readWord mem (0x11000 + MmapField.lengthLow.offset) = lengthLow
  type : readWord mem (0x11000 + MmapField.type.offset) = 1

theorem bootInformation_singleRegion (lengthLow : Word) :
    SingleRegion (bootInformation lengthLow) lengthLow :=
  ⟨bootInformation_mmapLength lengthLow, bootInformation_mmapAddr lengthLow,
    bootInformation_baseAddrLow lengthLow, bootInformation_lengthLow lengthLow,
    bootInformation_type lengthLow⟩

/-- The state in which `kern_init` starts when the boot loader left `mem`, with the boot information
at 64 KB. -/
structure Booted (mem : Store 32) (m : Machine) : Prop where
  run : Returns (kernEntry smallImage) ((bootMachine 0x10000).setMem mem) () m
  temp : TemporaryPaging m
  info : m.glbMbootPtr = 0x10000
  top : m.pmmStackTop = 0
  count : m.phyPageCount = 0
  heapMax : m.heapMax = heapStart
  outside : ∀ a ∉ temporaryPages, m.mem a = mem a

theorem exists_booted (mem : Store 32) : ∃ m, Booted mem m := by
  have off : ((bootMachine 0x10000).setMem mem).cr0 &&& 0x80000000 = 0 :=
    (by decide : (0x11 : Word) &&& 0x80000000 = 0)
  obtain ⟨⟨⟩, m, run, temp, out, ptr, top, count, heapMax⟩ := (kernEntry_spec
    (E := fun _ _ => False) smallImage off
    (Q := fun _ t => TemporaryPaging t ∧ (∀ a ∉ temporaryPages, t.mem a = mem a) ∧
      t.glbMbootPtr = 0x10000 + pageOffset * sizeofMutilboot ∧ t.pmmStackTop = 0 ∧
      t.phyPageCount = 0 ∧ t.heapMax = heapStart)
    fun t temp out ptr top count heapMax => ⟨temp, out, ptr, top, count, heapMax⟩).returns
  exact ⟨m, run, temp, ptr, top, count, heapMax, out⟩

namespace Booted

variable {mem : Store 32} {m : Machine} {lengthLow : Word}

/-- The boot loader's bytes above the temporary tables. -/
theorem view_eq (booted : Booted mem m) {a : Word} (lo : 0x4000 ≤ a.toNat)
    (hi : a.toNat < 0x400000) : view m a = mem a := by
  rw [SimpleKernel.view_eq (booted.temp.identity.translate (Nat.zero_le _) hi), BitVec.sub_zero]
  exact booted.outside a fun table => by have := table.2; omega

theorem word (booted : Booted mem m) {a : Word} (lo : 0x4000 ≤ a.toNat)
    (hi : a.toNat + 4 ≤ 0x400000) : readWord (view m) a = readWord mem a :=
  readWord_congr (by omega) fun x hx _ => booted.view_eq (by omega) (by omega)

theorem frames_eq_nil (booted : Booted mem m) : frames m = [] :=
  (frames_eq_nil_iff m).2 booted.top

theorem mmapStart_eq (booted : Booted mem m) (region : SingleRegion mem lengthLow) :
    mmapStart m = 0x11000 := by
  rw [mmapStart, booted.info, booted.word (by decide) (by decide), region.mmapAddr]

theorem examinedEntries_eq (booted : Booted mem m) (region : SingleRegion mem lengthLow) :
    examinedEntries m = [0x11000] := by
  have last : mmapEnd m = 0x11018 := by
    rw [mmapEnd, booted.mmapStart_eq region, booted.info, booted.word (by decide) (by decide),
      region.mmapLength]
    rfl
  obtain ⟨n, hn⟩ : ∃ n, roundLimit = n + 2 := ⟨roundLimit - 2, rfl⟩
  rw [examinedEntries, booted.mmapStart_eq region, last, hn, mapEntries, if_pos (by decide),
    mapEntries, if_neg (by decide)]

theorem usable (booted : Booted mem m) (region : SingleRegion mem lengthLow) : Usable m 0x11000 := by
  rw [Usable, booted.word (by decide) (by decide), booted.word (by decide) (by decide), region.type,
    region.baseAddrLow]
  exact ⟨rfl, rfl⟩

theorem regionEnd_eq (booted : Booted mem m) (region : SingleRegion mem lengthLow) :
    regionEnd m 0x11000 = 0x100000 + lengthLow := by
  rw [regionEnd, booted.word (by decide) (by decide), region.lengthLow]

theorem framesFrom_eq (booted : Booted mem m) (region : SingleRegion mem lengthLow)
    (kernEnd : Word) :
    framesFrom kernEnd m = regionFrames (frameAfter kernEnd) (0x100000 + lengthLow) := by
  rw [framesFrom, booted.examinedEntries_eq region, List.flatMap_singleton, entryFrames,
    if_pos (booted.usable region), booted.regionEnd_eq region]

theorem lookedAt_low (booted : Booted mem m) (region : SingleRegion mem lengthLow) :
    ∀ va ∈ lookedAt m, va.toNat < 0x400000 := by
  rintro va (⟨i, hi, rfl⟩ | ⟨a, ha, i, hi, rfl⟩)
  · rw [booted.info, toNat_offset (lt_of_lt_of_le (Nat.add_lt_add_left hi _) (by decide))]
    exact lt_of_lt_of_le (Nat.add_lt_add_left hi _) (by decide)
  · rw [booted.examinedEntries_eq region, List.mem_singleton] at ha
    subst ha
    rw [toNat_offset (lt_of_lt_of_le (Nat.add_lt_add_left hi _) (by decide))]
    exact lt_of_lt_of_le (Nat.add_lt_add_left hi _) (by decide)

end Booted

/-- With that memory map `kern_entry` and `init_pmm` return, and the stack then holds the frames
of the entry. -/
theorem bootInformation_scanned (lengthLow : Word) : ∃ m t,
    Returns (kernEntry smallImage) ((bootMachine 0x10000).setMem (bootInformation lengthLow)) () m ∧
      TemporaryPaging m ∧ (∀ a ∈ smallImage.tablePages, m.mem a = 0) ∧ frames m = [] ∧
      m.heapMax = heapStart ∧ (RegionsFit m ↔ (0x100000 + lengthLow).toNat ≤ pmmMaxSize.toNat) ∧
      Returns (initPmm smallImage) m () t ∧ FramesOnly m t ∧
      frames t = regionFrames (firstFrame smallImage) (0x100000 + lengthLow) := by
  obtain ⟨m, booted⟩ := exists_booted (bootInformation lengthLow)
  have region := bootInformation_singleRegion lengthLow
  have memory := booted.framesFrom_eq region smallImage.kernEnd
  have entries := booted.examinedEntries_eq region
  have few : (memoryFrames smallImage m).length ≤ pageMaxSize.toNat := by
    have limit : pmmMaxSize.toNat = 0x20000000 := rfl
    have pages : pageMaxSize.toNat = 131072 := by decide
    have start : (frameAfter smallImage.kernEnd).toNat = 0x200000 := by decide
    rw [memoryFrames, memory, regionFrames, List.length_map, List.length_range, regionCount]
    omega
  obtain ⟨t, run', only, pushed⟩ := initPmm_returns smallImage booted.temp booted.frames_eq_nil
    (booted.lookedAt_low region) (by rw [entries]; decide) few
  rw [memoryFrames, memory] at pushed
  refine ⟨m, t, booted.run, booted.temp, fun a ha => ?_, booted.frames_eq_nil, booted.heapMax, ?_,
    run', only, pushed⟩
  · rw [booted.outside a (tablePages_high ha)]
    refine bootInformation_zero _ ?_
    rcases ha with ha | ha <;> exact le_trans (by decide) ha.1
  · rw [RegionsFit, entries]
    simp only [List.mem_singleton, forall_eq]
    rw [booted.regionEnd_eq region]
    exact forall_prop_of_true (booted.usable region)

theorem initPmm_directMapped_iff_128M : ∃ m t v,
    Returns (kernEntry smallImage) ((bootMachine 0x10000).setMem (bootInformation 0x7F00000)) () m ∧
      Returns (initPmm smallImage) m () t ∧ Returns (initVmm smallImage) t () v ∧
      ∀ f ∈ frames t, DirectMapped v f := by
  obtain ⟨m, t, run, temp, zeroed, empty, -, fit, run', -⟩ := bootInformation_scanned 0x7F00000
  obtain ⟨v, run'', all⟩ :=
    (initPmm_directMapped_iff smallImage m temp zeroed empty).1 t run'
  exact ⟨m, t, v, run, run', run'', all.2 (fit.2 (by decide))⟩

/-- With 1 GB of memory a frame ends up on the stack whose kernel alias is the start of the heap. -/
theorem frame_at_heapStart_of_1G : ¬ ∀ m t v,
    Returns (kernEntry smallImage) ((bootMachine 0x10000).setMem (bootInformation 0x3FF00000)) ()
      m → Returns (initPmm smallImage) m () t → Returns (initVmm smallImage) t () v →
      ∀ f ∈ frames t, DirectMapped v f := by
  intro claim
  obtain ⟨m, t, run, temp, zeroed, empty, -, fit, run', -⟩ :=
    bootInformation_scanned 0x3FF00000
  have spec := initPmm_spec smallImage m (by rw [empty]; exact Nat.zero_le _)
  obtain ⟨⟨stack, top, count, rfl⟩, pushed⟩ := spec.returned run'
  obtain ⟨⟨⟩, v, run'', -⟩ := (initVmm_spec (E := fun _ _ => False) smallImage
    (temp.of_agree rfl rfl fun _ _ => rfl : TemporaryPaging (m.setFrames stack top count))
    (Q := fun _ _ => True) trivial).returns
  have unfit : ¬ RegionsFit m := fun h => absurd (fit.1 h) (by decide)
  have pushed_last : pmmMaxSize ∈ frames (m.setFrames stack top count) := by
    rw [pushed, empty]
    exact pmmMaxSize_mem_of_not_fit unfit
  exact absurd (claim m _ v run run' run'' _ pushed_last).below (by decide)

end SimpleKernel
