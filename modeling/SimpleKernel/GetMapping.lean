import SimpleKernel.MapAlgebra

/-!
# The contract of `get_mapping`

The processor's walk and the code's lookup agree on directories whose entries are null or present,
and `map` and `unmap` keep a directory like that.  On them the result of `get_mapping` is what its
comment promises when there is a table and the caller asks for the frame, but not in general.
-/

namespace SimpleKernel

open ByteStore ProgramLogic

/-- Every entry of the directory and its tables is null or present. -/
structure PresentOnly (mem : Store 32) (dir : Word) : Prop where
  pde : ∀ va, readWord mem (dir + 4 * pgdIndex va) &&& pagePresent ≠ 0 ↔ tableOf mem dir va ≠ 0
  pte : ∀ va, tableOf mem dir va ≠ 0 → readWord mem (pteSlot mem dir va) ≠ 0 →
    readWord mem (pteSlot mem dir va) &&& pagePresent ≠ 0

/-- One call of `map`, with present pages, or of `unmap`, for an address whose entries no alias of
the code rests on. -/
inductive EditStep (pgdNow dir : Word) : Machine → Machine → Prop where
  | map {m t : Machine} (va pa flags : Word) (present : flags &&& pagePresent ≠ 0)
      (clear : Clear m pgdNow dir va) (run : Returns (map pgdNow va pa flags) m () t) :
      EditStep pgdNow dir m t
  | unmap {m t : Machine} (va : Word) (clear : Clear m pgdNow dir va)
      (run : Returns (unmap pgdNow va) m () t) : EditStep pgdNow dir m t

/-- What `vmm.h` says that `get_mapping` returns, and what it writes through `pa`. -/
def Contract (mem : Store 32) (dir va : Word) (paNonNull : Bool) (ret wrote : Option Word) : Prop :=
  ret = some (if (walk mem dir va).isSome then 1 else 0) ∧
    wrote = if paNonNull then (walk mem dir va).map (· &&& pageMask) else none

section Present

variable {m t : Machine} {mem : Store 32} {pgdNow dir va : Word}

/-- The processor finds what `lookup` finds. -/
theorem PresentOnly.walk_eq (p : PresentOnly mem dir) (aligned : dir.toNat % 4096 = 0) (va : Word) :
    walk mem dir va = (lookup mem dir va).map (· ||| offsetIndex va) := by
  have pde := p.pde va
  have pte := p.pte va
  rw [walk, aligned_and_pageMask aligned, lookup]
  dsimp only
  rw [← tableOf, ← pteSlot]
  by_cases table : tableOf mem dir va = 0
  · rw [if_pos table, if_pos (not_not.1 (mt pde.1 (not_not.2 table)))]
    rfl
  · rw [if_neg table, if_neg (pde.2 table)]
    by_cases zero : readWord mem (pteSlot mem dir va) = 0
    · rw [if_pos zero, if_pos (by rw [zero]; decide)]
      rfl
    · rw [if_neg zero, if_neg (pte table zero)]
      rfl

theorem PresentOnly.setEntry (p : PresentOnly m.mem dir) (d : Directory m pgdNow dir)
    (table : tableOf m.mem dir va ≠ 0) {v : Word} (hv : v ≠ 0 → v &&& pagePresent ≠ 0) :
    PresentOnly (setEntry m.mem dir va v) dir := by
  have ne := d.ne_dir va table
  refine ⟨fun wa => ?_, fun wa h => ?_⟩
  · rw [pde_setEntry d.aligned ne, tableOf_setEntry d.aligned ne]
    exact p.pde wa
  · rw [tableOf_setEntry d.aligned ne] at h
    rw [pteSlot_setEntry d.aligned ne, d.pte_setEntry v h]
    split_ifs
    · exact hv
    · exact p.pte wa h

theorem PresentOnly.withTable (p : PresentOnly m.mem dir) (d : Directory m pgdNow dir)
    (w : WithTable m dir va t) : PresentOnly t.mem dir := by
  cases w with
  | had h => exact p
  | installed h f fs top pop rest =>
    have hf : f ∈ frames m := by
      rw [pop]
      exact List.mem_append_right _ (List.mem_singleton_self f)
    obtain ⟨aligned, nonzero, -⟩ := d.frame f hf
    have ne := (d.frame_ne f hf).1
    refine ⟨fun wa => ?_, fun wa table => ?_⟩
    · rw [Machine.setMem_mem, pde_installTable d.aligned aligned ne,
        tableOf_installTable _ _ d.aligned aligned ne]
      split_ifs
      · exact iff_of_true (entry_present aligned) nonzero
      · exact p.pde wa
    · rw [Machine.setMem_mem, tableOf_installTable _ _ d.aligned aligned ne] at table
      have old (other : pgdIndex wa ≠ pgdIndex va) : tableOf m.mem dir wa ≠ 0 := by
        rwa [if_neg other] at table
      rw [Machine.setMem_mem, d.pte_installTable hf old]
      split_ifs with pgd
      · exact fun zero => absurd rfl zero
      · exact p.pte wa (old pgd)

/-- Directories with entries that are null or present only stay like that in every call. -/
theorem EditStep.keeps (step : EditStep pgdNow dir m t) (d : Directory m pgdNow dir)
    (p : PresentOnly m.mem dir) : Directory t pgdNow dir ∧ PresentOnly t.mem dir := by
  cases step with
  | map va pa flags present clear run =>
    obtain ⟨u, w, rfl⟩ := (d.map_spec (E := fun _ _ => True) clear pa flags (fun _ _ => trivial)
      (Q := fun _ t => ∃ u, WithTable m dir va u ∧
        t = u.setMem (SimpleKernel.setEntry u.mem dir va (pa &&& pageMask ||| flags)))
      fun u w => ⟨u, w, rfl⟩).returned run
    obtain ⟨d', table, miss, -⟩ := d.withTable clear w
    exact ⟨(d'.setEntry table miss _).1, (p.withTable d w).setEntry d' table
      fun _ => mapEntry_present present⟩
  | unmap va clear run =>
    rcases (d.unmap_spec (E := fun _ _ => True) clear.table
      (Q := fun _ t => t = m ∨ tableOf m.mem dir va ≠ 0 ∧
        t = m.setMem (SimpleKernel.setEntry m.mem dir va 0)) (fun _ => .inl rfl)
      fun table => .inr ⟨table, rfl⟩).returned run with rfl | ⟨table, rfl⟩
    · exact ⟨d, p⟩
    · exact ⟨(d.setEntry table (clear.table table) 0).1, p.setEntry d table fun h => absurd rfl h⟩

theorem Directory.run (d : Directory m pgdNow dir) (p : PresentOnly m.mem dir)
    (steps : Relation.ReflTransGen (EditStep pgdNow dir) m t) :
    Directory t pgdNow dir ∧ PresentOnly t.mem dir := by
  induction steps with
  | refl => exact ⟨d, p⟩
  | tail _ step ih => exact step.keeps ih.1 ih.2

/-- The outcome of `get_mapping` keeps the contract if there is a table and the caller asks for the
frame or there is none. -/
theorem answer_contract_iff (aligned : dir.toNat % 4096 = 0) (p : PresentOnly mem dir) (va : Word)
    (paNonNull : Bool) :
    Contract mem dir va paNonNull (answer mem dir va paNonNull).1 (answer mem dir va paNonNull).2 ↔
      tableOf mem dir va ≠ 0 ∧ (paNonNull = true ∨ walk mem dir va = none) := by
  have walked := p.walk_eq aligned va
  unfold lookup at walked
  unfold answer Contract
  by_cases table : tableOf mem dir va = 0
  · rw [if_pos table]
    exact iff_of_false (fun h => Option.some_ne_none _ h.1.symm) fun h => h.1 table
  · rw [if_neg table] at walked
    rw [if_neg table, and_iff_right table]
    by_cases zero : readWord mem (pteSlot mem dir va) = 0
    · rw [if_pos zero] at walked
      rw [if_neg fun h => h.1 zero, walked]
      simp
    · have frame : (readWord mem (pteSlot mem dir va) &&& pageMask ||| offsetIndex va) &&& pageMask =
          readWord mem (pteSlot mem dir va) &&& pageMask :=
        mapEntry_frame (by rw [offsetIndex_toNat]; omega)
      rw [if_neg zero] at walked
      rw [walked]
      cases paNonNull with
      | false =>
        rw [if_neg fun h => Bool.false_ne_true h.2]
        simp
      | true =>
        rw [if_pos ⟨zero, rfl⟩]
        simp [frame]

end Present

/-- In every state that calls of `map` and `unmap` reach, `get_mapping` keeps its contract exactly
if there is a table for `va` and the caller asks for the frame or there is none to give. -/
theorem getMapping_contract_iff {m t : Machine} {pgdNow dir : Word} (d : Directory m pgdNow dir)
    (p : PresentOnly m.mem dir) (steps : Relation.ReflTransGen (EditStep pgdNow dir) m t)
    (va : Word) (paNonNull : Bool) :
    ∃ ret wrote, Returns (getMapping pgdNow va paNonNull) t (ret, wrote) t ∧
      (Contract t.mem dir va paNonNull ret wrote ↔
        tableOf t.mem dir va ≠ 0 ∧ (paNonNull = true ∨ walk t.mem dir va = none)) := by
  obtain ⟨d', p'⟩ := d.run p steps
  exact ⟨_, _, d'.getMapping_returns va paNonNull, answer_contract_iff d'.aligned p' va paNonNull⟩

/-! ## The kernel's own directory -/

section Kernel

variable {im : Image} {m : Machine} {F pages tables : List Word}

/-- An entry of a table of the direct map or of the heap. -/
theorem Owned.pte_cases (own : Owned im F m pages tables) (pool : KernelFrames im F) {va : Word}
    (h : tableOf m.mem im.pgdPhys va ≠ 0) : readWord m.mem (pteSlot m.mem im.pgdPhys va) = 0 ∨
      ∃ f, f.toNat % 4096 = 0 ∧ readWord m.mem (pteSlot m.mem im.pgdPhys va) = entry f := by
  rcases own.tableOf_cases pool va with none | ⟨lo, hi, place⟩ | ⟨lo, hit⟩
  · exact absurd none h
  · have table : tableOf m.mem im.pgdPhys va =
        im.ptePhys + BitVec.ofNat 32 (4096 * (va.toNat / 4194304 - 768)) := by
      apply BitVec.eq_of_toNat_eq
      rw [place, im.ptePhys_table (by omega)]
    have sub : (va - pageOffset).toNat = va.toNat - 0xC0000000 := by
      unfold pageOffset
      bv_omega
    rw [pteSlot, table, KernelPaging.pte_of_va im (by omega) (by omega)]
    rcases Nat.eq_zero_or_pos ((va - pageOffset).toNat / 4096) with first | pos
    · left
      rw [first, Nat.mul_zero, BitVec.add_zero]
      exact own.mapped.paging.guard
    · right
      refine ⟨_, ?_, own.mapped.paging.pte _ pos (by omega)⟩
      rw [frame_toNat (by omega)]
      omega
  · have split : (va.toNat - 0xE0000000) / 4096 / 1024 = va.toNat / 4194304 - 896 := by omega
    have index : (va.toNat - 0xE0000000) / 4096 % 1024 = va.toNat / 4096 % 1024 := by omega
    rw [← split] at hit
    rw [pteSlot, pte_slot, ← index]
    rcases page : pages[(va.toNat - 0xE0000000) / 4096]? with _ | f
    · exact .inl (own.mapped.tables.pteFree _ _ (List.getElem?_eq_none_iff.1 page) hit)
    · exact .inr ⟨f, (own.heap pool).aligned f (List.mem_append_left _ (List.mem_of_getElem? page)),
        own.mapped.tables.pte _ _ _ page hit⟩

/-- In every state of the heap the kernel's directory has null and present entries only. -/
theorem Owned.presentOnly (own : Owned im F m pages tables) (pool : KernelFrames im F) :
    PresentOnly m.mem im.pgdPhys := by
  have hpte := im.ptePhys_range
  have aligned := im.ptePhys_aligned
  have listed (f t : Word) (ht : f.toNat % 4096 = 0) (hf : f.toNat ≠ 0) (word : t = entry f) :
      t &&& pagePresent ≠ 0 ↔ t &&& pageMask ≠ 0 := by
    rw [word, entry_frame ht]
    exact iff_of_true (entry_present ht) fun zero => hf (congrArg BitVec.toNat zero)
  refine ⟨fun va => ?_, fun va h => ?_⟩
  · rw [tableOf]
    rcases own.pde_cases va with none | ⟨lo, hi, direct⟩ | ⟨lo, t, hit, heap⟩
    · rw [none]
      decide
    · have table := im.ptePhys_table (j := va.toNat / 4194304 - 768) (by omega)
      exact listed _ _ (by omega) (by omega) direct
    · have inAll : t ∈ frames m ++ pages ++ tables :=
        List.mem_append_right _ (List.mem_of_getElem? hit)
      have above := (own.all pool).above_tables inAll
      exact listed _ _ ((own.all pool).aligned t inAll) (by omega) heap
  · rcases own.pte_cases pool h with zero | ⟨f, hf, word⟩
    · exact fun nonzero => absurd zero nonzero
    · rw [word]
      exact fun _ => entry_present hf

end Kernel

/-- A mapped address without a place for the frame, and an address without a table. -/
theorem getMapping_contract_broken : ∃ v F, Owned smallImage F v [] [] ∧
    Directory v smallImage.pgdKern smallImage.pgdPhys ∧ PresentOnly v.mem smallImage.pgdPhys ∧
    Returns (getMapping smallImage.pgdKern 0xC0400000 false) v (some 0, none) v ∧
    ¬ Contract v.mem smallImage.pgdPhys 0xC0400000 false (some 0) none ∧
    Returns (getMapping smallImage.pgdKern 0xE0000000 true) v (none, none) v ∧
    ¬ Contract v.mem smallImage.pgdPhys 0xE0000000 true none none := by
  obtain ⟨v, F, pool, own, -⟩ := exists_owned_128M
  have d := own.directory pool
  have p := own.presentOnly pool
  have paging := own.mapped.paging
  have table := tableOf_small paging 0xC0400000 (j := 1) (by decide) (by decide)
  have pte : readWord v.mem (pteSlot v.mem smallImage.pgdPhys 0xC0400000) = 0x400003 := by
    rw [pteSlot, table]
    exact paging.pte 1024 (by decide) (by decide)
  have noTable : tableOf v.mem smallImage.pgdPhys 0xE0000000 = 0 := by
    rw [tableOf, pgd_slot]
    have free := own.mapped.tables.pdeFree 0 (Nat.zero_le _) (by decide)
    rw [show (0xE0000000 : Word).toNat / 4194304 = 896 + 0 from rfl, free]
    decide
  have first := d.getMapping_returns 0xC0400000 false
  have second := d.getMapping_returns 0xE0000000 true
  have answer₁ : answer v.mem smallImage.pgdPhys 0xC0400000 false = (some 0, none) := by
    rw [answer, table, if_neg (by decide), if_neg fun h => Bool.false_ne_true h.2]
  have answer₂ : answer v.mem smallImage.pgdPhys 0xE0000000 true = (none, none) := by
    rw [answer, if_pos noTable]
  rw [answer₁] at first
  rw [answer₂] at second
  refine ⟨v, F, own, d, p, first, fun kept => ?_, second,
    fun kept => Option.some_ne_none _ kept.1.symm⟩
  have walked := p.walk_eq d.aligned 0xC0400000
  rw [lookup, table, pte] at walked
  have some_frame : (walk v.mem smallImage.pgdPhys 0xC0400000).isSome = true := by
    rw [walked]
    decide
  have ret := kept.1
  rw [some_frame] at ret
  exact absurd ret (by decide)

theorem getMapping_contract_iff_128M : ∃ v F t, Owned smallImage F v [] [] ∧
    Relation.ReflTransGen (EditStep smallImage.pgdKern smallImage.pgdPhys) v t ∧
    Returns (getMapping smallImage.pgdKern 0xE0000FFF true) t (some 1, some 0x300000) t ∧
    Contract t.mem smallImage.pgdPhys 0xE0000FFF true (some 1) (some 0x300000) := by
  obtain ⟨v, F, pool, own, some_free⟩ := exists_owned_128M
  have d := own.directory pool
  have p := own.presentOnly pool
  have clear := own.clear pool (.inr (by decide) : (0xE0000000 : Word).toNat < 0xC0000000 ∨ _)
  obtain ⟨u, w, run⟩ := d.map_returns clear 0x300000 3 fun _ => some_free
  have steps : Relation.ReflTransGen (EditStep smallImage.pgdKern smallImage.pgdPhys) v _ :=
    .single (.map 0xE0000000 0x300000 3 (by decide) clear run)
  obtain ⟨d', table, -, -⟩ := d.withTable clear w
  have space := d'.lookup_setEntry table (0x300000 &&& pageMask ||| 3) 0xE0000FFF
  obtain ⟨ret, wrote, got, exact⟩ := getMapping_contract_iff d p steps 0xE0000FFF true
  have d'' := (d.run p steps).1
  have mapped : Returns (getMapping smallImage.pgdKern 0xE0000FFF true) _ (some 1, some 0x300000) _ :=
    d''.getMapping_mapped (by
      rw [Machine.setMem_mem, space, if_pos (by decide), if_neg (by decide)]
      decide)
  have same := Prod.mk.inj (Except.ok.inj (Prod.mk.inj (got.symm.trans mapped)).1)
  refine ⟨v, F, _, own, steps, mapped, ?_⟩
  rw [same.1, same.2] at exact
  refine exact.2 ⟨?_, .inl rfl⟩
  rw [Machine.setMem_mem, tableOf_setEntry d'.aligned (d'.ne_dir _ table)]
  rwa [tableOf_congr (by decide : pgdIndex 0xE0000FFF = pgdIndex 0xE0000000)]

end SimpleKernel
