import SimpleKernel.FrameOwnership
import SimpleKernel.PageTables

/-!
# The algebra of `map`, `unmap` and `get_mapping`

As a partial function from pages to frames, a directory is updated at one page by `map` and `unmap`,
and `get_mapping` reads it.  That presupposes that the update does not pull away a page through
which the code reaches the directory itself: `map` makes no difference between the user's part of
an address space and the direct map.
-/

namespace SimpleKernel

open ByteStore ProgramLogic

/-- Asked for the frame, `get_mapping` says that `va` is mapped to `o`, or that it is unmapped. -/
def Answers (m : Machine) (pgdNow va : Word) (o : Option Word) : Prop :=
  ∃ r, Returns (getMapping pgdNow va true) m (r, o) m ∧ (r = some 1 ↔ o ≠ none)

section Algebra

variable {m t : Machine} {pgdNow dir va wa : Word} {o : Option Word}

theorem Directory.getMapping_returns (d : Directory m pgdNow dir) (va : Word) (paNonNull : Bool) :
    Returns (getMapping pgdNow va paNonNull) m (answer m.mem dir va paNonNull) m := by
  obtain ⟨_, _, run, rfl, rfl⟩ := (d.getMapping_spec (E := fun _ _ => False) va paNonNull).returns
  exact run

/-- `get_mapping` reads the address space. -/
theorem Directory.answers (d : Directory m pgdNow dir) (va : Word) :
    Answers m pgdNow va (lookup m.mem dir va) := by
  have run := d.getMapping_returns va true
  unfold answer at run
  unfold lookup
  split_ifs at run ⊢ with none unmapped mapped mapped
  · exact ⟨_, run, by simp⟩
  · exact absurd unmapped mapped.1
  · exact ⟨_, run, by simp⟩
  · exact ⟨_, run, by simp⟩
  · exact absurd ⟨unmapped, rfl⟩ mapped

theorem Directory.answers_eq (d : Directory m pgdNow dir) (h : lookup m.mem dir va = o) :
    Answers m pgdNow va o := h ▸ d.answers va

/-- A lookup that finds a frame returns 1. -/
theorem Directory.getMapping_mapped (d : Directory m pgdNow dir) {f : Word}
    (h : lookup m.mem dir va = some f) :
    Returns (getMapping pgdNow va true) m (some 1, some f) m := by
  obtain ⟨r, run, mapped⟩ := d.answers_eq h
  rwa [mapped.2 (Option.some_ne_none f)] at run

/-- The entry that `map` writes is present and names the frame of `pa`. -/
theorem mapEntry_frame {pa flags : Word} (small : flags.toNat < 4096) :
    (pa &&& pageMask ||| flags) &&& pageMask = pa &&& pageMask := by
  have aligned : (pa &&& pageMask).toNat % 4096 = 0 := by
    rw [and_pageMask_toNat]
    omega
  apply BitVec.eq_of_toNat_eq
  rw [and_pageMask_toNat, aligned_or_toNat aligned small]
  omega

theorem mapEntry_present {pa flags : Word} (present : flags &&& pagePresent ≠ 0) :
    (pa &&& pageMask ||| flags) &&& pagePresent ≠ 0 := by
  intro h
  apply present
  rw [BitVec.and_or_distrib_right] at h
  exact (BitVec.or_eq_zero_iff.1 h).2

theorem ne_zero_of_present {x : Word} (present : x &&& pagePresent ≠ 0) : x ≠ 0 := by
  rintro rfl
  exact present (BitVec.zero_and ..)

/-- What `map` leaves behind. -/
theorem Directory.map_returns (d : Directory m pgdNow dir) (clear : Clear m pgdNow dir va)
    (pa flags : Word) (enough : tableOf m.mem dir va = 0 → frames m ≠ []) :
    ∃ u, WithTable m dir va u ∧ Returns (map pgdNow va pa flags) m ()
      (u.setMem (SimpleKernel.setEntry u.mem dir va (pa &&& pageMask ||| flags))) := by
  obtain ⟨⟨⟩, t, run, u, w, rfl⟩ := (d.map_spec (E := fun _ _ => False) clear pa flags
    (fun none empty => enough none empty) (Q := fun _ t => ∃ u, WithTable m dir va u ∧
      t = u.setMem (SimpleKernel.setEntry u.mem dir va (pa &&& pageMask ||| flags)))
    fun u w => ⟨u, w, rfl⟩).returns
  exact ⟨u, w, run⟩

theorem WithTable.frames_eq (w : WithTable m dir va t) :
    (tableOf m.mem dir va ≠ 0 → frames t = frames m) ∧
      (tableOf m.mem dir va = 0 → ∃ f, frames m = frames t ++ [f]) := by
  cases w with
  | had h => exact ⟨fun _ => rfl, fun none => absurd none h⟩
  | installed h f fs top pop rest =>
    refine ⟨fun had => absurd h had, fun _ => ⟨f, ?_⟩⟩
    rw [frames_setMem, rest, pop]

theorem Clear.setEntry (d : Directory m pgdNow dir) (table : tableOf m.mem dir va ≠ 0)
    (miss : ∀ a ∈ wordBytes (pteSlot m.mem dir va), a ∉ supports m pgdNow dir) (v : Word) :
    Clear (m.setMem (SimpleKernel.setEntry m.mem dir va v)) pgdNow dir va := by
  have tables := tableOf_setEntry d.aligned (d.ne_dir va table) v va
  obtain ⟨-, fewer⟩ := d.setEntry table miss v
  refine ⟨fun none => absurd ?_ table, fun _ a ha supported => miss a ?_ (fewer supported)⟩
  · rwa [Machine.setMem_mem, tables] at none
  · rwa [Machine.setMem_mem, pteSlot, tables, ← pteSlot] at ha

end Algebra

/-- As long as the entries of `va` are none that the code's own aliases rest on, `map` and `unmap`
update the address space at the page of `va`, and `map` takes a frame exactly if `va` has no
table. -/
theorem map_unmap_algebra {m : Machine} {pgdNow dir : Word} (d : Directory m pgdNow dir)
    (free : frames m ≠ []) {va : Word} (clear : Clear m pgdNow dir va) (pa flags : Word)
    (small : flags.toNat < 4096) (present : flags &&& pagePresent ≠ 0) :
    (∃ t, Returns (map pgdNow va pa flags) m () t ∧ Directory t pgdNow dir ∧
      Clear t pgdNow dir va ∧
      (∀ wa, SamePage wa va →
        Returns (getMapping pgdNow wa true) t (some 1, some (pa &&& pageMask)) t) ∧
      (∀ wa, ¬ SamePage wa va → ∃ o, Answers m pgdNow wa o ∧ Answers t pgdNow wa o) ∧
      (tableOf m.mem dir va ≠ 0 → frames t = frames m) ∧
      (tableOf m.mem dir va = 0 → ∃ f, frames m = frames t ++ [f])) ∧
    ∃ t, Returns (unmap pgdNow va) m () t ∧ Directory t pgdNow dir ∧
      (∀ wa, SamePage wa va → Answers t pgdNow wa none) ∧
      (∀ wa, ¬ SamePage wa va → ∃ o, Answers m pgdNow wa o ∧ Answers t pgdNow wa o) ∧
      frames t = frames m := by
  constructor
  · obtain ⟨u, w, run⟩ := d.map_returns clear pa flags fun _ => free
    obtain ⟨d', table, miss, kept⟩ := d.withTable clear w
    obtain ⟨d'', -⟩ := d'.setEntry table miss (pa &&& pageMask ||| flags)
    have space := d'.lookup_setEntry table (pa &&& pageMask ||| flags)
    refine ⟨_, run, d'', Clear.setEntry d' table miss _, fun wa page => ?_, fun wa other => ?_, ?_⟩
    · apply d''.getMapping_mapped
      rw [Machine.setMem_mem, space, if_pos page,
        if_neg (ne_zero_of_present (mapEntry_present present)), mapEntry_frame small]
    · refine ⟨_, d.answers wa, d''.answers_eq ?_⟩
      rw [Machine.setMem_mem, space, if_neg other, kept]
    · rw [frames_setMem]
      exact w.frames_eq
  · by_cases table : tableOf m.mem dir va = 0
    · obtain ⟨⟨⟩, t, run, rfl⟩ := (d.unmap_spec (E := fun _ _ => False) clear.table
        (Q := fun _ t => t = m) (fun _ => rfl) fun had => absurd table had).returns
      refine ⟨_, run, d, fun wa page => d.answers_eq ?_, fun wa _ => ⟨_, d.answers wa, d.answers wa⟩,
        rfl⟩
      rw [lookup, tableOf_congr (samePage_iff.1 page).1, if_pos table]
    · obtain ⟨⟨⟩, t, run, rfl⟩ := (d.unmap_spec (E := fun _ _ => False) clear.table
        (Q := fun _ t => t = m.setMem (setEntry m.mem dir va 0)) (fun none => absurd none table)
        fun _ => rfl).returns
      obtain ⟨d', -⟩ := d.setEntry table (clear.table table) 0
      have space := d.lookup_setEntry table 0
      refine ⟨_, run, d', fun wa page => d'.answers_eq ?_, fun wa other =>
        ⟨_, d.answers wa, d'.answers_eq ?_⟩, rfl⟩
      · rw [Machine.setMem_mem, space, if_pos page, if_pos rfl]
      · rw [Machine.setMem_mem, space, if_neg other]

/-! ## The kernel's own directory -/

section Kernel

variable {im : Image} {m : Machine} {F pages tables : List Word} {va q : Word}

/-- What an alias in the direct map rests on. -/
theorem KernelPaging.walkBytes_eq (paging : KernelPaging im m) (lo : 0xC0000000 ≤ q.toNat)
    (hi : q.toNat < 0xE0000000) : walkBytes m q =
      wordBytes (im.pgdPhys + BitVec.ofNat 32 (4 * (q.toNat / 4194304))) ∪
        wordBytes (im.ptePhys + BitVec.ofNat 32 (4 * ((q - pageOffset).toNat / 4096))) := by
  have aligned := im.ptePhys_aligned
  have table := im.ptePhys_table (j := q.toNat / 4194304 - 768) (by omega)
  rw [walkBytes, paging.directory, aligned_and_pageMask im.pgdPhys_aligned, paging.pde_of_va lo hi,
    entry_frame (by omega), pte_of_va im lo hi, pgd_slot]

/-- The aliases in the direct map rest on the directory's entries for it and on its tables. -/
theorem KernelPaging.walkBytes_direct (paging : KernelPaging im m) (lo : 0xC0000000 ≤ q.toNat)
    (hi : q.toNat < 0xE0000000) {a : Word} (ha : a ∈ walkBytes m q) :
    im.pgdPhys.toNat + 3072 ≤ a.toNat ∧ a.toNat < im.pgdPhys.toNat + 3584 ∨
      im.ptePhys.toNat ≤ a.toNat ∧ a.toNat < im.ptePhys.toNat + 128 * 4096 := by
  have hpgd := im.pgdPhys_range
  have hpte := im.ptePhys_range
  have sub : (q - pageOffset).toNat = q.toNat - 0xC0000000 := by
    unfold pageOffset
    bv_omega
  have slot := im.pgdPhys_slot (i := q.toNat / 4194304) (by omega)
  have slot' := im.ptePhys_slot (i := (q - pageOffset).toNat / 4096) (by omega)
  rw [paging.walkBytes_eq lo hi] at ha
  rcases ha with ⟨i, hi4, rfl⟩ | ⟨i, hi4, rfl⟩
  · left
    rw [toNat_offset (by omega), slot]
    omega
  · right
    rw [toNat_offset (by omega), slot']
    omega

/-- The directory entry of an address: none below 3 GB, one of the direct map, or one of the heap. -/
theorem Owned.pde_cases (own : Owned im F m pages tables) (va : Word) :
    readWord m.mem (im.pgdPhys + 4 * pgdIndex va) = 0 ∨
      (768 ≤ va.toNat / 4194304 ∧ va.toNat / 4194304 < 896 ∧
        readWord m.mem (im.pgdPhys + 4 * pgdIndex va) =
          entry (im.ptePhys + BitVec.ofNat 32 (4096 * (va.toNat / 4194304 - 768)))) ∨
      896 ≤ va.toNat / 4194304 ∧ ∃ t, tables[va.toNat / 4194304 - 896]? = some t ∧
        readWord m.mem (im.pgdPhys + 4 * pgdIndex va) = entry t := by
  have index : va.toNat / 4194304 < 1024 := by omega
  rw [pgd_slot]
  rcases Nat.lt_or_ge (va.toNat / 4194304) 768 with low | high
  · exact .inl (own.mapped.paging.below _ low)
  · obtain ⟨j, hj⟩ := Nat.exists_eq_add_of_le high
    rw [hj, Nat.add_sub_cancel_left]
    rcases Nat.lt_or_ge j 128 with direct | heap
    · exact .inr (.inl ⟨by omega, by omega, own.mapped.paging.pde j direct⟩)
    · obtain ⟨k, rfl⟩ := Nat.exists_eq_add_of_le heap
      rw [← Nat.add_assoc, Nat.add_sub_cancel_left]
      rcases ht : tables[k]? with _ | t
      · exact .inl (own.mapped.tables.pdeFree k (List.getElem?_eq_none_iff.1 ht) (by omega))
      · exact .inr (.inr ⟨by omega, t, rfl, own.mapped.tables.pde k t ht⟩)

/-- The table behind it. -/
theorem Owned.tableOf_cases (own : Owned im F m pages tables) (pool : KernelFrames im F) (va : Word) :
    tableOf m.mem im.pgdPhys va = 0 ∨
      (768 ≤ va.toNat / 4194304 ∧ va.toNat / 4194304 < 896 ∧
        (tableOf m.mem im.pgdPhys va).toNat =
          im.ptePhys.toNat + 4096 * (va.toNat / 4194304 - 768)) ∨
      896 ≤ va.toNat / 4194304 ∧
        tables[va.toNat / 4194304 - 896]? = some (tableOf m.mem im.pgdPhys va) := by
  have inTables : KernelFrames im tables := (own.heap pool).of_sublist
    (List.sublist_append_right _ _)
  rw [tableOf]
  rcases own.pde_cases va with none | ⟨lo, hi, direct⟩ | ⟨lo, t, hit, heap⟩
  · rw [none]
    exact .inl (BitVec.zero_and ..)
  · have table := im.ptePhys_table (j := va.toNat / 4194304 - 768) (by omega)
    have aligned := im.ptePhys_aligned
    rw [direct, entry_frame (by omega)]
    exact .inr (.inl ⟨lo, hi, table⟩)
  · rw [heap, entry_frame (inTables.aligned t (List.mem_of_getElem? hit))]
    exact .inr (.inr ⟨lo, hit⟩)

/-- Every table is a page of its own between 1 MB and 512 MB. -/
theorem Owned.table_page (own : Owned im F m pages tables) (pool : KernelFrames im F)
    (h : tableOf m.mem im.pgdPhys va ≠ 0) :
    0x100000 ≤ (tableOf m.mem im.pgdPhys va).toNat ∧
      (tableOf m.mem im.pgdPhys va).toNat + 4096 ≤ 0x20000000 ∧
      tableOf m.mem im.pgdPhys va ≠ im.pgdPhys ∧ tableOf m.mem im.pgdPhys va ∉ frames m := by
  have hpgd := im.pgdPhys_range
  have hpte := im.ptePhys_range
  have apart := im.phys_apart
  have all := own.all pool
  rcases own.tableOf_cases pool va with none | ⟨lo, hi, place⟩ | ⟨-, hit⟩
  · exact absurd none h
  · refine ⟨by omega, by omega, fun same => ?_, fun free => ?_⟩
    · rw [same] at place
      omega
    · have above := all.above_tables (List.mem_append_left _ (List.mem_append_left _ free))
      omega
  · have isTable := List.mem_of_getElem? hit
    have inAll : tableOf m.mem im.pgdPhys va ∈ frames m ++ pages ++ tables :=
      List.mem_append_right _ isTable
    have above := all.above_tables inAll
    have below := all.below _ inAll
    refine ⟨by omega, by omega, fun same => ?_, fun free => ?_⟩
    · rw [same] at above
      omega
    · exact (List.nodup_append'.1 all.nodup).2.2 (List.mem_append_left _ free) isTable

/-- Different directory entries name different tables. -/
theorem Owned.table_distinct (own : Owned im F m pages tables) (pool : KernelFrames im F)
    {wa : Word} (h : tableOf m.mem im.pgdPhys va ≠ 0)
    (same : tableOf m.mem im.pgdPhys va = tableOf m.mem im.pgdPhys wa) :
    pgdIndex va = pgdIndex wa := by
  have all := own.all pool
  have nodup : tables.Nodup := (List.nodup_append'.1 all.nodup).2.1
  have above (t : Word) (k : ℕ) (hit : tables[k]? = some t) :
      im.ptePhys.toNat + 128 * 4096 ≤ t.toNat :=
    (all.above_tables (List.mem_append_right _ (List.mem_of_getElem? hit))).2
  apply BitVec.eq_of_toNat_eq
  rw [pgdIndex_toNat, pgdIndex_toNat]
  rcases own.tableOf_cases pool va with none | ⟨lo, hi, place⟩ | ⟨lo, hit⟩
  · exact absurd none h
  · rcases own.tableOf_cases pool wa with none | ⟨lo', hi', place'⟩ | ⟨lo', hit'⟩
    · exact absurd (same.trans none) h
    · rw [same] at place
      omega
    · rw [← same] at hit'
      have := above _ _ hit'
      omega
  · rcases own.tableOf_cases pool wa with none | ⟨lo', hi', place'⟩ | ⟨lo', hit'⟩
    · exact absurd (same.trans none) h
    · rw [same] at hit
      have := above _ _ hit
      omega
    · rw [← same] at hit'
      have inside := (List.getElem?_eq_some_iff.1 hit).1
      have := (List.getElem?_inj inside nodup).1 (hit.trans hit'.symm)
      omega

/-- All that the code reaches through its aliases is in the direct map. -/
theorem Owned.reaches (own : Owned im F m pages tables) (pool : KernelFrames im F) {p : Word}
    (r : Reaches m im.pgdKern im.pgdPhys q p) :
    0xC0100000 ≤ q.toNat ∧ q.toNat < 0xE0000000 ∧ translate m q = some p := by
  have hpgd := im.pgdPhys_range
  have phys := im.pgdPhys_toNat
  have win := own.mapped.paging.window
  have inDirectMap (p : Word) (lo : 0x100000 ≤ p.toNat) (hi : p.toNat + 4096 ≤ 0x20000000) :
      0xC0100000 ≤ (p + pageOffset).toNat ∧ (p + pageOffset).toNat < 0xE0000000 ∧
        translate m (p + pageOffset) = some p := by
    have up : (p + pageOffset).toNat = p.toNat + 0xC0000000 := by
      unfold pageOffset
      bv_omega
    refine ⟨by omega, by omega, ?_⟩
    rw [win.translate (by omega) (by omega), BitVec.add_sub_cancel]
  obtain ⟨rfl, rfl⟩ | ⟨rfl, free | ⟨nonnull, va, rfl⟩⟩ := r
  · refine ⟨by omega, by omega, ?_⟩
    rw [win.translate (by omega) (by omega), Image.pgdPhys]
  · have inAll : p ∈ frames m ++ pages ++ tables :=
      List.mem_append_left _ (List.mem_append_left _ free)
    have above := (own.all pool).above_tables inAll
    exact inDirectMap p (by omega) ((own.all pool).below p inAll)
  · obtain ⟨lo, hi, -⟩ := own.table_page pool nonnull
    exact inDirectMap _ lo hi

/-- What the kernel's directory rests on. -/
theorem Owned.supports (own : Owned im F m pages tables) (pool : KernelFrames im F) {a : Word}
    (ha : a ∈ supports m im.pgdKern im.pgdPhys) :
    im.pgdPhys.toNat + 3072 ≤ a.toNat ∧ a.toNat < im.pgdPhys.toNat + 3584 ∨
      im.ptePhys.toNat ≤ a.toNat ∧ a.toNat < im.ptePhys.toNat + 128 * 4096 := by
  obtain ⟨q, p, r, ha⟩ := ha
  obtain ⟨lo, hi, -⟩ := own.reaches pool r
  exact own.mapped.paging.walkBytes_direct (by omega) hi ha

/-- In every state of the heap the kernel's directory is one that the functions can work on. -/
theorem Owned.directory (own : Owned im F m pages tables) (pool : KernelFrames im F) :
    Directory m im.pgdKern im.pgdPhys := by
  have all := own.all pool
  have inAll (f : Word) (hf : f ∈ frames m) : f ∈ frames m ++ pages ++ tables :=
    List.mem_append_left _ (List.mem_append_left _ hf)
  refine ⟨im.pgdKern_aligned, im.pgdPhys_aligned, fun va => ?_, fun va h => ?_,
    fun va wa h same => own.table_distinct pool h same, ?_, fun f hf => ?_, fun f hf => ?_,
    fun q p r => (own.reaches pool r).2.2, fun f hf a ha => ?_⟩
  · by_cases h : tableOf m.mem im.pgdPhys va = 0
    · rw [h]
      decide
    · have := (own.table_page pool h).2.1
      omega
  · exact (own.table_page pool h).2.2.1
  · exact (List.nodup_append'.1 (List.nodup_append'.1 all.nodup).1).1
  · have above := all.above_tables (inAll f hf)
    have below := all.below f (inAll f hf)
    refine ⟨all.aligned f (inAll f hf), fun zero => ?_, by omega⟩
    have : f.toNat = 0 := by rw [zero]; rfl
    omega
  · have above := all.above_tables (inAll f hf)
    refine ⟨fun same => ?_, fun va table => ?_⟩
    · rw [same] at above
      omega
    · by_cases h : tableOf m.mem im.pgdPhys va = 0
      · rw [← table, h] at above
        have zero : (0 : Word).toNat = 0 := rfl
        omega
      · exact (own.table_page pool h).2.2.2 (table ▸ hf)
  · have above := all.above_tables (inAll f hf)
    have := own.supports pool ha
    omega

/-- Outside the direct map nothing that `map` and `unmap` change is in their way. -/
theorem Owned.clear (own : Owned im F m pages tables) (pool : KernelFrames im F)
    (outside : va.toNat < 0xC0000000 ∨ 0xE0000000 ≤ va.toNat) :
    Clear m im.pgdKern im.pgdPhys va := by
  have hpgd := im.pgdPhys_range
  have apart := im.phys_apart
  constructor
  · rintro - a ⟨i, hi, rfl⟩ ha
    have slot := dirSlot_toNat im.pgdPhys_aligned va
    have byte := toNat_offset (a := im.pgdPhys + 4 * pgdIndex va) (i := i) (by omega)
    have := own.supports pool ha
    omega
  · rintro h a ⟨i, hi, rfl⟩ ha
    have slot := pteSlot_toNat m.mem im.pgdPhys va
    have aligned := tableOf_aligned m.mem im.pgdPhys va
    have page := own.table_page pool h
    have byte := toNat_offset (a := pteSlot m.mem im.pgdPhys va) (i := i) (by omega)
    have := own.supports pool ha
    rcases own.tableOf_cases pool va with none | ⟨lo, hi', -⟩ | ⟨-, hit⟩
    · exact absurd none h
    · omega
    · have above := (own.all pool).above_tables
        (List.mem_append_right _ (List.mem_of_getElem? hit))
      omega

end Kernel

/-! ## A machine with 128 MB -/

/-- The kernel's directory right after `init_vmm`. -/
theorem exists_owned_128M : ∃ v F, KernelFrames smallImage F ∧ Owned smallImage F v [] [] ∧
    frames v ≠ [] := by
  obtain ⟨m, v, temp, zeroed, empty, pool, enough, boot⟩ := booted_128M
  obtain ⟨own, -⟩ := owned_of_initVmm smallImage temp zeroed empty boot
  have free := own.conserved.length_eq
  rw [List.append_nil, List.append_nil, enough] at free
  exact ⟨v, frames m, pool, own, fun none => by rw [none] at free; cases free⟩

theorem map_unmap_algebra_128M : ∃ v F t, Owned smallImage F v [] [] ∧
    Returns (map smallImage.pgdKern 0xE0000000 0x300000 3) v () t ∧
    Returns (getMapping smallImage.pgdKern 0xE0000FFF true) t (some 1, some 0x300000) t := by
  obtain ⟨v, F, pool, own, some_free⟩ := exists_owned_128M
  obtain ⟨⟨t, run, -, -, mapped, -⟩, -⟩ := map_unmap_algebra (own.directory pool) some_free
    (own.clear pool (.inr (by decide) : (0xE0000000 : Word).toNat < 0xC0000000 ∨ _))
    0x300000 3 (by decide) (by decide)
  exact ⟨v, F, t, own, run, mapped 0xE0000FFF (by decide)⟩

section Remapped

variable {v : Machine}

theorem wordBytes_apart {a b : Word} (ha : a.toNat + 4 ≤ 2 ^ 32) (hb : b.toNat + 4 ≤ 2 ^ 32)
    (h : a.toNat + 4 ≤ b.toNat ∨ b.toNat + 4 ≤ a.toNat) : ∀ x ∈ wordBytes a, x ∉ wordBytes b := by
  rintro x ⟨i, hi, rfl⟩ ⟨j, hj, same⟩
  have := congrArg BitVec.toNat same
  rw [toNat_offset (by omega), toNat_offset (by omega)] at this
  omega

/-- A directory entry of the direct map in the small image. -/
theorem tableOf_small (paging : KernelPaging smallImage v) (va : Word) {j : ℕ} (hj : j < 128)
    (h : va.toNat / 4194304 = 768 + j) :
    tableOf v.mem smallImage.pgdPhys va = smallImage.ptePhys + BitVec.ofNat 32 (4096 * j) := by
  have aligned := smallImage.ptePhys_aligned
  have table := smallImage.ptePhys_table hj
  rw [tableOf, pgd_slot, h, paging.pde j hj, entry_frame (by omega)]

/-- The memory in which the alias of the second table shows the directory instead. -/
def remapped (v : Machine) : Store 32 := writeWord v.mem 0x150544 0x140003

theorem map_second_alias (paging : KernelPaging smallImage v) :
    Returns (map smallImage.pgdKern 0xC0151000 0x140000 3) v () (v.setMem (remapped v)) := by
  have pgd : translate v smallImage.pgdKern = some 0x140000 :=
    paging.window.translate (by decide) (by decide)
  have pte : translate v 0xC0150000 = some 0x150000 :=
    paging.window.translate (by decide) (by decide)
  have table := tableOf_small paging 0xC0151000 (j := 0) (by decide) (by decide)
  obtain ⟨⟨⟩, t, run, rfl⟩ : ∃ a t, Returns (map smallImage.pgdKern 0xC0151000 0x140000 3) v a t ∧
      t = v.setMem (remapped v) := by
    apply WP.returns
    simp only [map, wp_bind]
    apply load32_page (by decide) (by decide) pgd (pgdIndex_lt _)
    show WP (if tableOf v.mem smallImage.pgdPhys 0xC0151000 = 0 then _ else _) _ _ _
    rw [if_neg (by rw [table]; decide), wp_bind, wp_pure]
    have place : (readWord v.mem (0x140000 + 4 * pgdIndex 0xC0151000) &&& pageMask) + pageOffset +
        4 * pteIndex 0xC0151000 = 0xC0150000 + 4 * pteIndex 0xC0151000 := by
      rw [show readWord v.mem (0x140000 + 4 * pgdIndex 0xC0151000) &&& pageMask = _ from table]
      decide
    rw [place]
    apply store32_page (by decide) (by decide) pte (pteIndex_lt _)
    · rw [paging.walkBytes_eq (by decide) (by decide)]
      rintro a ha (walked | walked)
      · exact wordBytes_apart (by decide) (by decide) (by decide) a ha walked
      · exact wordBytes_apart (by decide) (by decide) (by decide) a ha walked
    · rfl
  exact run

/-- `get_mapping` then looks for the second table in the directory, where it finds nothing. -/
theorem getMapping_remapped (paging : KernelPaging smallImage v) :
    Returns (getMapping smallImage.pgdKern 0xC0400000 true) (v.setMem (remapped v)) (some 0, none)
      (v.setMem (remapped v)) := by
  have kept (a : Word) (ha : a.toNat < 0x150544 ∨ 0x150548 ≤ a.toNat) : remapped v a = v.mem a :=
    writeWord_outside _ _ (by decide) ha
  have keptWord (a : Word) (bound : a.toNat + 4 ≤ 2 ^ 32)
      (ha : a.toNat + 4 ≤ 0x150544 ∨ 0x150548 ≤ a.toNat) :
      readWord (remapped v) a = readWord v.mem a :=
    readWord_congr bound fun x _ _ => kept x (by omega)
  have pgd : translate (v.setMem (remapped v)) smallImage.pgdKern = some 0x140000 := by
    rw [translate_congr (m := v) (t := v.setMem (remapped v)) rfl rfl]
    · exact paging.window.translate (by decide) (by decide)
    · rw [paging.walkBytes_eq (by decide) (by decide)]
      rintro a (⟨i, hi, rfl⟩ | ⟨i, hi, rfl⟩)
      · exact kept _ (by interval_cases i <;> decide)
      · exact kept _ (by interval_cases i <;> decide)
  have second : translate (v.setMem (remapped v)) 0xC0151000 = some 0x140000 := by
    rw [translate, if_neg (by exact paging.enabled)]
    have directory : (v.setMem (remapped v)).cr3 = 0x140000 := paging.directory
    rw [directory]
    refine walk_eq_some (t := 0x150000) (f := 0x140000) (by decide) (by decide) (by decide) ?_ ?_
    · rw [Machine.setMem_mem, keptWord _ (by decide) (by decide), pgd_slot]
      exact paging.pde 0 (by decide)
    · exact readWord_writeWord_self _ _ (by decide)
  have table : readWord (remapped v) (0x140000 + 4 * pgdIndex 0xC0400000) &&& pageMask =
      0x151000 := by
    rw [keptWord _ (by decide) (by decide)]
    exact tableOf_small paging 0xC0400000 (j := 1) (by decide) (by decide)
  have empty : readWord (remapped v) (0x140000 + 4 * pteIndex 0xC0400000) = 0 := by
    rw [keptWord _ (by decide) (by decide)]
    exact paging.below 0 (by decide)
  obtain ⟨a, t, run, rfl, rfl⟩ : ∃ a t, Returns (getMapping smallImage.pgdKern 0xC0400000 true)
      (v.setMem (remapped v)) a t ∧ t = v.setMem (remapped v) ∧ a = (some 0, none) := by
    apply WP.returns
    simp only [getMapping, wp_bind]
    apply load32_page (by decide) (by decide) pgd (pgdIndex_lt _)
    rw [Machine.setMem_mem, table, if_neg (by decide), wp_bind]
    apply load32_page (q := 0xC0151000) (by decide) (by decide) second (pteIndex_lt _)
    rw [Machine.setMem_mem, empty, if_neg (by simp)]
    exact ⟨rfl, rfl⟩
  exact run

/-- `map` of one page makes another unmapped: `0xC0151000` is where the kernel reaches the table
that serves `0xC0400000`. -/
theorem unmapped_by_map : ∃ v F t, Owned smallImage F v [] [] ∧
    Directory v smallImage.pgdKern smallImage.pgdPhys ∧ frames v ≠ [] ∧
    Returns (map smallImage.pgdKern 0xC0151000 0x140000 3) v () t ∧
    ¬ SamePage 0xC0400000 0xC0151000 ∧
    Answers v smallImage.pgdKern 0xC0400000 (some 0x400000) ∧
    Answers t smallImage.pgdKern 0xC0400000 none := by
  obtain ⟨v, F, pool, own, some_free⟩ := exists_owned_128M
  have paging := own.mapped.paging
  have table := tableOf_small paging 0xC0400000 (j := 1) (by decide) (by decide)
  have before : lookup v.mem smallImage.pgdPhys 0xC0400000 = some 0x400000 := by
    have pte : readWord v.mem (pteSlot v.mem smallImage.pgdPhys 0xC0400000) = 0x400003 := by
      rw [pteSlot, table]
      exact paging.pte 1024 (by decide) (by decide)
    rw [lookup, table, pte]
    decide
  exact ⟨v, F, _, own, own.directory pool, some_free, map_second_alias paging, by decide,
    (own.directory pool).answers_eq before, _, getMapping_remapped paging, by simp⟩

end Remapped

end SimpleKernel
