import SimpleKernel.PmmInit

/-!
# The frame stack after `init_pmm`

With one usable region the frames behind the kernel are pushed in order, the stack never gets full,
and the stack and the page count agree.  The frames come back one by one until none is left.
-/

namespace SimpleKernel

open ByteStore ProgramLogic

/-- `n` calls of `pmm_alloc_page`. -/
def allocPages : ℕ → Kernel (List Word)
  | 0 => return []
  | n + 1 => return (← pmmAllocPage) :: (← allocPages n)

/-- The boot information holds a memory map of `n` entries, which all can be read. -/
structure MemoryMap (m : Machine) (n : ℕ) : Prop where
  length : (readWord (view m) (m.glbMbootPtr + MutilbootField.mmapLength.offset)).toNat =
    sizeofMmapEntry.toNat * n
  fits : (mmapStart m).toNat + sizeofMmapEntry.toNat * n ≤ 2 ^ 32
  readable : ∀ va ∈ lookedAt m, (translate m va).isSome

/-- The usable entries of the memory map. -/
def usableEntries (m : Machine) : List Word := (examinedEntries m).filter fun a => Usable m a

/-- Where the usable region ends; without a usable entry there is none, and every address lies
behind its end. -/
def usableEnd (m : Machine) : Word := (usableEntries m).head?.elim 0 (regionEnd m)

/-! ## The page count -/

section Count

/-- The page count runs ahead of the stack top by `d`. -/
def Counted (d : Word) (m : Machine) : Prop := m.phyPageCount - m.pmmStackTop = d

variable {d : Word}

/-- The two counters move together. -/
theorem pushRegion_counted (pageAddr length : Word) :
    Keeps (Counted d) (pushRegion pageAddr length) := by
  apply Keeps.whileM
  · exact fun x => Keeps.pure _
  · intro x m hm
    simp only [pmmFreePage, wp_bind, wp_get, wp_modify, wp_pure]
    apply assert_spec
    · intro _
      show m.phyPageCount + 1 - (m.pmmStackTop + 1) = d
      rw [← hm]
      bv_omega
    · exact fun _ => trivial

theorem scanEntryAt_counted (kernEnd mapEntry : Word) :
    Keeps (Counted d) (scanEntryAt kernEnd mapEntry) := by
  apply Keeps.bind (load32_keeps _)
  intro type
  apply Keeps.ite
  · apply Keeps.bind (load32_keeps _)
    intro base
    apply Keeps.ite
    · apply Keeps.bind (load32_keeps _)
      intro length
      exact Keeps.bind (pushRegion_counted _ _) fun _ => Keeps.pure _
    · exact Keeps.pure _
  · exact Keeps.pure _

theorem initPmmAt_counted (kernEnd : Word) : Keeps (Counted d) (initPmmAt kernEnd) := by
  apply Keeps.get_bind
  intro s _
  apply Keeps.bind (load32_keeps _)
  intro start
  apply Keeps.bind (load32_keeps _)
  intro start'
  apply Keeps.bind (load32_keeps _)
  intro length
  apply Keeps.bind
  · exact Keeps.whileM (fun _ => Keeps.pure _) (scanEntryAt_counted kernEnd) _ _
  · exact fun _ => Keeps.pure _

end Count

/-! ## Loading -/

section Load

variable {kernEnd : Word} {m t : Machine} {n : ℕ} {E : Stop → Machine → Prop}

theorem frameAfter_toNat (kernEnd : Word) (above : 0xC0100000 ≤ kernEnd.toNat) :
    (frameAfter kernEnd).toNat + 0xC0000000 = kernEnd.toNat := by
  unfold frameAfter kernStart
  bv_omega

/-- The scan ends within as many rounds as the map has entries. -/
theorem mapEntries_length {stop : Word} (fuel : ℕ) (a : Word)
    (ends : a.toNat + sizeofMmapEntry.toNat * n = stop.toNat) :
    (mapEntries stop fuel a).length ≤ n := by
  have size : sizeofMmapEntry.toNat = 24 := rfl
  rw [size] at ends
  induction fuel generalizing a n with
  | zero => exact Nat.zero_le _
  | succ fuel ih =>
    rw [mapEntries]
    by_cases more : a < stop
    · obtain ⟨k, rfl⟩ : ∃ k, n = k + 1 := by
        have : a.toNat < stop.toNat := more
        exact ⟨n - 1, by omega⟩
      have next : (a + sizeofMmapEntry).toNat = a.toNat + 24 :=
        toNat_offset (a := a) (i := 24) (by have := stop.isLt; omega)
      rw [if_pos more, List.length_cons]
      exact Nat.add_le_add_right (ih _ (by omega)) 1
    · rw [if_neg more]
      exact Nat.zero_le _

theorem mapEntries_zero (fuel : ℕ) (a : Word) : mapEntries 0 fuel a = [] := by
  cases fuel with
  | zero => rfl
  | succ fuel => rw [mapEntries, if_neg (by simp)]

theorem MemoryMap.ends (map : MemoryMap m n) : (examinedEntries m).length ≠ roundLimit := by
  have size : sizeofMmapEntry.toNat = 24 := rfl
  have length := map.length
  have fits := map.fits
  have rounds : roundLimit = 2 ^ 32 := rfl
  by_cases top : (mmapStart m).toNat + sizeofMmapEntry.toNat * n = 2 ^ 32
  · have zero : mmapEnd m = 0 := by
      apply BitVec.eq_of_toNat_eq
      rw [mmapEnd, BitVec.toNat_add, length, top]
      rfl
    rw [examinedEntries, zero, mapEntries_zero]
    decide
  · have stop : (mmapStart m).toNat + sizeofMmapEntry.toNat * n = (mmapEnd m).toNat := by
      rw [mmapEnd, BitVec.toNat_add, length, Nat.mod_eq_of_lt (by omega)]
    have few : (examinedEntries m).length ≤ n := mapEntries_length roundLimit (mmapStart m) stop
    rw [size] at fits
    omega

/-- With at most one usable entry the frames are those of its region. -/
theorem framesFrom_single (kernEnd : Word) (single : (usableEntries m).length ≤ 1) :
    framesFrom kernEnd m = regionFrames (frameAfter kernEnd) (usableEnd m) := by
  have only : framesFrom kernEnd m = (usableEntries m).flatMap (entryFrames kernEnd m) := by
    rw [framesFrom, usableEntries]
    generalize examinedEntries m = entries
    induction entries with
    | nil => rfl
    | cons a entries ih =>
      by_cases usable : Usable m a
      · rw [List.filter_cons_of_pos (by simpa using usable), List.flatMap_cons, List.flatMap_cons, ih]
      · rw [List.filter_cons_of_neg (by simpa using usable), List.flatMap_cons, ih, entryFrames,
          if_neg usable, List.nil_append]
  rw [only, usableEnd]
  rcases h : usableEntries m with _ | ⟨a, rest⟩
  · have none : regionCount (frameAfter kernEnd) 0 = 0 := by
      have zero : (0 : Word).toNat = 0 := rfl
      unfold regionCount
      omega
    show [] = regionFrames (frameAfter kernEnd) 0
    rw [regionFrames, none]
    rfl
  · rw [h, List.length_cons] at single
    obtain rfl : rest = [] := List.length_eq_zero_iff.1 (by omega)
    have mem : a ∈ usableEntries m := h ▸ List.mem_singleton_self a
    have usable : Usable m a := by simpa using (List.mem_filter.1 mem).2
    rw [List.flatMap_singleton, entryFrames, if_pos usable]
    rfl

/-- The region behind the kernel fits on the stack. -/
theorem regionCount_le (kernEnd stop : Word) (above : 0xC0100000 ≤ kernEnd.toNat) :
    regionCount (frameAfter kernEnd) stop ≤ pageMaxSize.toNat := by
  have start := frameAfter_toNat kernEnd above
  have limit : pmmMaxSize.toNat = 0x20000000 := rfl
  have pages : pageMaxSize.toNat = 131072 := by decide
  unfold regionCount
  omega

/-- Popping the whole stack gives every frame once, the last one first, and nothing more. -/
theorem allocPages_returns (fs : List Word) (t : Machine) (stack : frames t = fs) :
    ∃ u, Returns (allocPages fs.length) t fs.reverse u ∧ Stops pmmAllocPage u outOfMemory u := by
  induction fs using List.reverseRecOn generalizing t with
  | nil =>
    refine ⟨t, rfl, ?_⟩
    have spec : WP pmmAllocPage (fun e u => e = outOfMemory ∧ u = t) (fun _ _ => False) t :=
      pmmAllocPage_spec (fun _ => ⟨rfl, rfl⟩) fun f fs top split _ => by
        rw [stack] at split
        simp at split
    rcases spec.outcome with ⟨_, _, -, no⟩ | ⟨e, u, stop, rfl, rfl⟩
    · exact no.elim
    · exact stop
  | append_singleton fs f ih =>
    have spec : WP pmmAllocPage (fun _ _ => False) (fun g u => g = f ∧ frames u = fs) t :=
      pmmAllocPage_spec (fun none => by rw [stack] at none; simp at none)
        fun g gs top split popped => by
          obtain ⟨rfl, same⟩ := List.append_inj' (split.symm.trans stack) rfl
          exact ⟨(List.cons_eq_cons.1 same).1, popped⟩
    obtain ⟨g, u, run, rfl, rest⟩ := spec.returns
    obtain ⟨w, run', stop⟩ := ih u rest
    refine ⟨w, ?_, stop⟩
    have both : WP (allocPages (fs.length + 1)) (fun _ _ => False)
        (fun gs x => gs = g :: fs.reverse ∧ x = w) t := by
      simp only [allocPages, wp_bind, wp_pure]
      exact run.wp (run'.wp ⟨rfl, rfl⟩)
    obtain ⟨_, _, run'', rfl, rfl⟩ := both.returns
    rwa [List.length_append, List.length_singleton, List.reverse_append, List.reverse_singleton]

end Load

/-- `pmm_stack[1 ..]` holds the frames from `start` on that begin before `stop` and not above
512 MB, all of them and nothing else, as many as `phy_page_count` says, and `pmm_alloc_page` can be
called exactly that often. -/
structure StackLoaded (start stop : Word) (t : Machine) : Prop where
  pushed : frames t = regionFrames start stop
  complete : ∀ f, f ∈ frames t ↔ f.toNat < stop.toNat ∧ f.toNat ≤ pmmMaxSize.toNat ∧
    start.toNat ≤ f.toNat ∧ (f.toNat - start.toNat) % 4096 = 0
  length : t.pmmStackTop.toNat =
    (min stop.toNat (pmmMaxSize.toNat + 1) - start.toNat + 4095) / 4096
  top : t.pmmStackTop = t.phyPageCount
  entries : ∀ i < t.pmmStackTop.toNat, (t.pmmStack (i + 1)).toNat = start.toNat + 4096 * i
  nodup : (frames t).Nodup
  aligned : ∀ f ∈ frames t, f.toNat % 4096 = 0
  popped : ∃ u, Returns (allocPages t.pmmStackTop.toNat) t (frames t).reverse u ∧
    Stops pmmAllocPage u outOfMemory u

theorem stackLoaded_of_frames {start stop : Word} {t : Machine}
    (pushed : frames t = regionFrames start stop) (aligned : start.toNat % 4096 = 0)
    (counted : t.pmmStackTop = t.phyPageCount) : StackLoaded start stop t := by
  have length : t.pmmStackTop.toNat = regionCount start stop := by
    rw [← frames_length, pushed, regionFrames, List.length_map, List.length_range]
  have complete (f : Word) : f ∈ frames t ↔ f.toNat < stop.toNat ∧ f.toNat ≤ pmmMaxSize.toNat ∧
      start.toNat ≤ f.toNat ∧ (f.toNat - start.toNat) % 4096 = 0 := by
    rw [pushed]
    exact mem_regionFrames
  obtain ⟨u, run, stops⟩ := allocPages_returns _ t rfl
  rw [frames_length] at run
  refine ⟨pushed, complete, length, counted, fun i hi => ?_, pushed ▸ regionFrames_nodup _ _,
    fun f hf => ?_, u, run, stops⟩
  · have inStack : (frames t)[i]? = some (t.pmmStack (i + 1)) := by
      rw [frames, List.getElem?_map, List.getElem?_range hi]
      rfl
    have inRegion : (regionFrames start stop)[i]? = some (start + BitVec.ofNat 32 (4096 * i)) := by
      rw [regionFrames, List.getElem?_map, List.getElem?_range (by omega)]
      rfl
    rw [pushed, inRegion, Option.some_inj] at inStack
    rw [← inStack, regionFrames_toNat start stop (by omega)]
  · obtain ⟨-, -, above, step⟩ := (complete f).1 hf
    omega

/-- For every memory map with at most one usable entry and every page-aligned kernel end, `init_pmm`
returns with exactly the frames behind the kernel and before the end of the region on the stack. -/
theorem initPmm_stackLoaded (kernEnd : Word) (m : Machine) (n : ℕ)
    (above : kernStart.toNat ≤ kernEnd.toNat) (aligned : kernEnd.toNat % 4096 = 0)
    (map : MemoryMap m n) (single : (usableEntries m).length ≤ 1)
    (top : m.pmmStackTop = 0) (count : m.phyPageCount = 0) :
    (frameAfter kernEnd).toNat = 0x100000 + (kernEnd.toNat - kernStart.toNat) ∧
      ∃ t, Returns (initPmmAt kernEnd) m () t ∧
        StackLoaded (frameAfter kernEnd) (usableEnd m) t := by
  have start : kernStart.toNat = 0xC0100000 := rfl
  have place := frameAfter_toNat kernEnd (by omega)
  have empty : frames m = [] := (frames_eq_nil_iff m).2 top
  refine ⟨by omega, ?_⟩
  have spec := initPmmAt_spec kernEnd m (by rw [empty]; exact Nat.zero_le _)
  rw [empty, List.nil_append, framesFrom_single kernEnd single] at spec
  rcases spec.outcome with ⟨⟨⟩, t, run, -, pushed⟩ | ⟨e, t, -, -, -, reason⟩
  · have counted : Counted 0 t := (initPmmAt_counted kernEnd).returned
      (by rw [Counted, top, count]; rfl) run
    have same : t.pmmStackTop = t.phyPageCount := by
      unfold Counted at counted
      bv_omega
    exact ⟨t, run, stackLoaded_of_frames pushed (by omega) same⟩
  · have few := regionCount_le kernEnd (usableEnd m) (by omega)
    rcases reason with ⟨-, full⟩ | ⟨va, looked, -, fault⟩ | ⟨-, endless⟩
    · rw [regionFrames, List.length_map, List.length_range] at full
      omega
    · have seen := map.readable va looked
      rw [fault] at seen
      simp at seen
    · exact absurd endless map.ends

/-- With memory up to 128 MB and a kernel of 1 MB these are 126 MB. -/
theorem initPmm_stackLoaded_128M : ∃ m t, Booted (bootInformation 0x7F00000) m ∧
    Returns (initPmmAt 0xC0200000) m () t ∧ StackLoaded 0x200000 0x8000000 t ∧
    (frames t).length = 32256 := by
  obtain ⟨m, booted⟩ := exists_booted (bootInformation 0x7F00000)
  have region := bootInformation_singleRegion 0x7F00000
  have map : MemoryMap m 1 := by
    refine ⟨?_, ?_, fun va looked => ?_⟩
    · rw [booted.info, booted.word (by decide) (by decide), region.mmapLength]
      rfl
    · rw [booted.mmapStart_eq region]
      decide
    · rw [booted.temp.identity.translate (Nat.zero_le _) (booted.lookedAt_low region va looked)]
      rfl
  have usable : usableEntries m = [0x11000] := by
    rw [usableEntries, booted.examinedEntries_eq region]
    exact List.filter_cons_of_pos (decide_eq_true (booted.usable region))
  have stop : usableEnd m = 0x8000000 := by
    rw [usableEnd, usable]
    exact booted.regionEnd_eq region
  obtain ⟨-, t, run, loaded⟩ := initPmm_stackLoaded 0xC0200000 m 1 (by decide) (by decide) map
    (by rw [usable]; exact le_rfl) booted.top booted.count
  rw [stop] at loaded
  refine ⟨m, t, booted, run, loaded, ?_⟩
  rw [frames_length, loaded.length]
  decide

end SimpleKernel
