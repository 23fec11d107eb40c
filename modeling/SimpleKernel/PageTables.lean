import Mathlib.Data.List.Nodup
import SimpleKernel.Entry

/-!
# Page directories as the code sees them

`map`, `unmap` and `get_mapping` work on any page directory, the running one or another.  They reach
its tables and the free frames through the running address space.  As long as they leave alone the
entries that this rests on, the directory is a partial function from pages to frames, of which each
of them edits or reads one value.
-/

namespace SimpleKernel

open ByteStore ProgramLogic

/-! ## What a translation rests on -/

/-- The bytes of the two entries on the walk to `va`. -/
def walkBytes (m : Machine) (va : Word) : Set Word :=
  wordBytes ((m.cr3 &&& pageMask) + 4 * pgdIndex va) ∪
    wordBytes ((readWord m.mem ((m.cr3 &&& pageMask) + 4 * pgdIndex va) &&& pageMask) +
      4 * pteIndex va)

def SamePage (va wa : Word) : Prop := va.toNat / 4096 = wa.toNat / 4096

instance (va wa : Word) : Decidable (SamePage va wa) := inferInstanceAs (Decidable (_ = _))

theorem samePage_iff {va wa : Word} :
    SamePage va wa ↔ pgdIndex va = pgdIndex wa ∧ pteIndex va = pteIndex wa := by
  rw [← BitVec.toNat_inj, ← BitVec.toNat_inj, pgdIndex_toNat, pgdIndex_toNat, pteIndex_toNat,
    pteIndex_toNat, SamePage]
  omega

section Walk

variable {m t : Machine} {va q p : Word}

theorem walkBytes_congr (h3 : t.cr3 = m.cr3) (h : ∀ a ∈ walkBytes m va, t.mem a = m.mem a) :
    walkBytes t va = walkBytes m va := by
  unfold walkBytes
  rw [h3, readWord_wordBytes fun a ha => h a (.inl ha)]

theorem translate_congr (h0 : t.cr0 = m.cr0) (h3 : t.cr3 = m.cr3)
    (h : ∀ a ∈ walkBytes m va, t.mem a = m.mem a) : translate t va = translate m va := by
  unfold translate walk
  rw [h0, h3, readWord_wordBytes fun a ha => h a (.inl ha)]
  dsimp only
  rw [readWord_wordBytes fun a ha => h a (.inr ha)]

/-- A page that is translated at its first address is translated everywhere, as long as the two
entries stay. -/
theorem window_of_translate (hq : q.toNat % 4096 = 0) (hp : p.toNat % 4096 = 0)
    (here : translate m q = some p) :
    Window m (walkBytes m q) q.toNat (q.toNat + 4096) (q - p) := by
  intro mem same va lo hi
  have page : SamePage va q := by
    unfold SamePage
    omega
  obtain ⟨pgd, pte⟩ := samePage_iff.1 page
  have start : translate (m.setMem mem) q = some p :=
    (translate_congr (m := m) (t := m.setMem mem) rfl rfl same).trans here
  unfold translate walk at start ⊢
  rw [pgd, pte]
  dsimp only at start ⊢
  split_ifs at start ⊢ with off pde pte
  · obtain rfl := Option.some_inj.1 start
    rw [BitVec.sub_self, BitVec.sub_zero]
  · have zero : offsetIndex q = 0#32 := BitVec.eq_of_toNat_eq (by rw [offsetIndex_toNat, hq]; rfl)
    rw [Option.some_inj, zero, BitVec.or_zero] at start
    rw [start, Option.some_inj]
    apply BitVec.eq_of_toNat_eq
    rw [aligned_or_toNat hp (by rw [offsetIndex_toNat]; omega), offsetIndex_toNat]
    bv_omega

/-! ## Entries of a page -/

theorem pgdIndex_lt (va : Word) : (pgdIndex va).toNat < 1024 := by
  rw [pgdIndex_toNat]
  omega

theorem pteIndex_lt (va : Word) : (pteIndex va).toNat < 1024 := by
  rw [pteIndex_toNat]
  omega

/-- A slot lies in its page. -/
theorem slot_toNat {a i : Word} (ha : a.toNat % 4096 = 0) (hi : i.toNat < 1024) :
    (a + 4 * i).toNat = a.toNat + 4 * i.toNat := by bv_omega

/-- The word behind an entry of a page. -/
theorem entry_sub (q p i : Word) : q + 4 * i - (q - p) = p + 4 * i := by bv_omega

variable {E : Stop → Machine → Prop} {i : Word}

theorem load32_page (hq : q.toNat % 4096 = 0) (hp : p.toNat % 4096 = 0)
    (here : translate m q = some p) (hi : i.toNat < 1024) {Q : Word → Machine → Prop}
    (hQ : Q (readWord m.mem (p + 4 * i)) m) : WP (load32 (q + 4 * i)) E Q m := by
  have slot := slot_toNat hq hi
  apply (window_of_translate hq hp here).load32 (by omega) (by omega) (by omega)
  rwa [entry_sub]

/-- A store to an entry that is not on the way to it. -/
theorem store32_page (hq : q.toNat % 4096 = 0) (hp : p.toNat % 4096 = 0)
    (here : translate m q = some p) (hi : i.toNat < 1024)
    (miss : ∀ a ∈ wordBytes (p + 4 * i), a ∉ walkBytes m q) {v : Word}
    {Q : Unit → Machine → Prop} (hQ : Q () (m.setMem (writeWord m.mem (p + 4 * i) v))) :
    WP (store32 (q + 4 * i) v) E Q m := by
  have slot := slot_toNat hq hi
  refine (window_of_translate hq hp here).store32 (by omega) (by omega) (by omega)
    (fun a ha k hk place => ?_) ?_
  · rw [entry_sub] at place
    exact miss a ⟨k, hk, place⟩ ha
  · rwa [entry_sub]

end Walk

/-! ## Directories -/

section Lookup

variable (mem : Store 32) (dir va : Word)

/-- The table that serves `va`, null if there is none. -/
def tableOf : Word := readWord mem (dir + 4 * pgdIndex va) &&& pageMask

/-- The address of the table entry of `va`. -/
def pteSlot : Word := tableOf mem dir va + 4 * pteIndex va

/-- The frame that the directory at `dir` gives to the page of `va`. -/
def lookup : Option Word :=
  if tableOf mem dir va = 0 then none
  else if readWord mem (pteSlot mem dir va) = 0 then none
  else some (readWord mem (pteSlot mem dir va) &&& pageMask)

end Lookup

/-- The code works on the physical page `p` at the address `q`: on the directory `dir` through
`pgdNow`, on its tables and on the free frames through the direct map. -/
def Reaches (m : Machine) (pgdNow dir q p : Word) : Prop :=
  q = pgdNow ∧ p = dir ∨
    q = p + pageOffset ∧ (p ∈ frames m ∨ p ≠ 0 ∧ ∃ va, tableOf m.mem dir va = p)

/-- The bytes of the running tables on which that rests. -/
def supports (m : Machine) (pgdNow dir : Word) : Set Word :=
  {a | ∃ q p, Reaches m pgdNow dir q p ∧ a ∈ walkBytes m q}

/-- A page directory at `dir`, reached through `pgdNow`, whose tables and the free frames are
different pages below 512 MB that can all be reached, with no running table among the free frames. -/
structure Directory (m : Machine) (pgdNow dir : Word) : Prop where
  pointer : pgdNow.toNat % 4096 = 0
  aligned : dir.toNat % 4096 = 0
  low : ∀ va, (tableOf m.mem dir va).toNat < 0x20000000
  ne_dir : ∀ va, tableOf m.mem dir va ≠ 0 → tableOf m.mem dir va ≠ dir
  distinct : ∀ va wa, tableOf m.mem dir va ≠ 0 → tableOf m.mem dir va = tableOf m.mem dir wa →
    pgdIndex va = pgdIndex wa
  nodup : (frames m).Nodup
  frame : ∀ f ∈ frames m, f.toNat % 4096 = 0 ∧ f ≠ 0 ∧ f.toNat < 0x20000000
  frame_ne : ∀ f ∈ frames m, f ≠ dir ∧ ∀ va, tableOf m.mem dir va ≠ f
  reached : ∀ q p, Reaches m pgdNow dir q p → translate m q = some p
  unused : ∀ f ∈ frames m, ∀ a ∈ supports m pgdNow dir,
    a.toNat < f.toNat ∨ f.toNat + 4096 ≤ a.toNat

section Slots

variable {mem : Store 32} {dir va wa : Word}

theorem tableOf_aligned (mem : Store 32) (dir va : Word) : (tableOf mem dir va).toNat % 4096 = 0 := by
  rw [tableOf, and_pageMask_toNat]
  omega

theorem tableOf_congr (h : pgdIndex va = pgdIndex wa) : tableOf mem dir va = tableOf mem dir wa := by
  rw [tableOf, h, tableOf]

theorem dirSlot_toNat (h : dir.toNat % 4096 = 0) (va : Word) :
    (dir + 4 * pgdIndex va).toNat = dir.toNat + 4 * (va.toNat / 4194304) := by
  rw [slot_toNat h (by rw [pgdIndex_toNat]; omega), pgdIndex_toNat]

theorem pteSlot_toNat (mem : Store 32) (dir va : Word) : (pteSlot mem dir va).toNat =
    (tableOf mem dir va).toNat + 4 * (va.toNat / 4096 % 1024) := by
  rw [pteSlot, slot_toNat (tableOf_aligned _ _ _) (by rw [pteIndex_toNat]; omega), pteIndex_toNat]

/-- Different pages at page-aligned addresses share no byte. -/
theorem pages_apart {a b : Word} (ha : a.toNat % 4096 = 0) (hb : b.toNat % 4096 = 0) (h : a ≠ b) :
    a.toNat + 4096 ≤ b.toNat ∨ b.toNat + 4096 ≤ a.toNat := by
  have : a.toNat ≠ b.toNat := fun e => h (BitVec.eq_of_toNat_eq e)
  omega

end Slots

section Edits

variable {m t : Machine} {pgdNow dir va wa q p : Word}

theorem Directory.pages_aligned (d : Directory m pgdNow dir) (r : Reaches m pgdNow dir q p) :
    q.toNat % 4096 = 0 ∧ p.toNat % 4096 = 0 := by
  have up : pageOffset.toNat = 0xC0000000 := rfl
  obtain ⟨rfl, rfl⟩ | ⟨rfl, free | ⟨-, va, rfl⟩⟩ := r
  · exact ⟨d.pointer, d.aligned⟩
  · have := (d.frame p free).1
    rw [BitVec.toNat_add]
    omega
  · have := tableOf_aligned m.mem dir va
    rw [BitVec.toNat_add]
    omega

/-- The pages that the code works on, each through its window. -/
theorem Directory.window (d : Directory m pgdNow dir) (r : Reaches m pgdNow dir q p) :
    Window m (supports m pgdNow dir) q.toNat (q.toNat + 4096) (q - p) := by
  obtain ⟨hq, hp⟩ := d.pages_aligned r
  have page := window_of_translate hq hp (d.reached q p r)
  exact fun mem same => page mem fun a ha => same a ⟨q, p, r, ha⟩

/-- An edit that leaves alone what the directory rests on, and reaches no new page, keeps the pages
within reach. -/
theorem Directory.reached_of_edit (d : Directory m pgdNow dir) (h0 : t.cr0 = m.cr0)
    (h3 : t.cr3 = m.cr3) (same : ∀ a ∈ supports m pgdNow dir, t.mem a = m.mem a)
    (reach : ∀ q p, Reaches t pgdNow dir q p → Reaches m pgdNow dir q p) :
    (∀ q p, Reaches t pgdNow dir q p → translate t q = some p) ∧
      supports t pgdNow dir ⊆ supports m pgdNow dir := by
  constructor
  · intro q p r
    rw [translate_congr h0 h3 fun a ha => same a ⟨q, p, reach q p r, ha⟩]
    exact d.reached q p (reach q p r)
  · rintro a ⟨q, p, r, ha⟩
    rw [walkBytes_congr h3 fun a ha => same a ⟨q, p, reach q p r, ha⟩] at ha
    exact ⟨q, p, reach q p r, ha⟩

theorem not_mem_of_wordBytes {a x : Word} {s : Set Word} (miss : ∀ b ∈ wordBytes a, b ∉ s)
    (bound : a.toNat + 4 ≤ 2 ^ 32) (hx : x ∈ s) : x.toNat < a.toNat ∨ a.toNat + 4 ≤ x.toNat := by
  by_contra inside
  apply miss x _ hx
  refine ⟨x.toNat - a.toNat, by omega, BitVec.eq_of_toNat_eq ?_⟩
  rw [toNat_offset (by omega)]
  omega

/-! ## Writing a table entry -/

/-- The memory in which `va` has the table entry `v`. -/
def setEntry (mem : Store 32) (dir va v : Word) : Store 32 := writeWord mem (pteSlot mem dir va) v

theorem pde_setEntry (aligned : dir.toNat % 4096 = 0) {mem : Store 32}
    (ne : tableOf mem dir va ≠ dir) (v wa : Word) :
    readWord (setEntry mem dir va v) (dir + 4 * pgdIndex wa) =
      readWord mem (dir + 4 * pgdIndex wa) := by
  have slot := pteSlot_toNat mem dir va
  have slot' := dirSlot_toNat aligned wa
  have table := tableOf_aligned mem dir va
  have apart := pages_apart table aligned ne
  exact readWord_writeWord_disjoint _ _ (by omega) (by omega) (by omega)

theorem tableOf_setEntry (aligned : dir.toNat % 4096 = 0) {mem : Store 32}
    (ne : tableOf mem dir va ≠ dir) (v wa : Word) :
    tableOf (setEntry mem dir va v) dir wa = tableOf mem dir wa := by
  rw [tableOf, pde_setEntry aligned ne, tableOf]

/-- One table entry changes, that of the page of `va`. -/
theorem Directory.pte_setEntry (d : Directory m pgdNow dir) (v : Word)
    (h : tableOf m.mem dir wa ≠ 0) :
    readWord (setEntry m.mem dir va v) (pteSlot m.mem dir wa) =
      if SamePage wa va then v else readWord m.mem (pteSlot m.mem dir wa) := by
  have slot := pteSlot_toNat m.mem dir va
  have slot' := pteSlot_toNat m.mem dir wa
  have aligned := tableOf_aligned m.mem dir va
  have aligned' := tableOf_aligned m.mem dir wa
  by_cases page : SamePage wa va
  · obtain ⟨pgd, pte⟩ := samePage_iff.1 page
    have here : pteSlot m.mem dir wa = pteSlot m.mem dir va := by
      rw [pteSlot, pteSlot, tableOf_congr pgd, pte]
    rw [if_pos page, here, setEntry, readWord_writeWord_self _ _ (by omega)]
  · have apart : (pteSlot m.mem dir wa).toNat + 4 ≤ (pteSlot m.mem dir va).toNat ∨
        (pteSlot m.mem dir va).toNat + 4 ≤ (pteSlot m.mem dir wa).toNat := by
      by_cases shared : tableOf m.mem dir wa = tableOf m.mem dir va
      · have pgd := congrArg BitVec.toNat (d.distinct wa va h shared)
        rw [pgdIndex_toNat, pgdIndex_toNat] at pgd
        rw [shared] at slot'
        unfold SamePage at page
        omega
      · have := pages_apart aligned' aligned shared
        omega
    rw [if_neg page, setEntry, readWord_writeWord_disjoint _ _ (by omega) (by omega) apart]

theorem pteSlot_setEntry (aligned : dir.toNat % 4096 = 0) {mem : Store 32}
    (ne : tableOf mem dir va ≠ dir) (v wa : Word) :
    pteSlot (setEntry mem dir va v) dir wa = pteSlot mem dir wa := by
  rw [pteSlot, tableOf_setEntry aligned ne, pteSlot]

theorem Directory.lookup_setEntry (d : Directory m pgdNow dir) (table : tableOf m.mem dir va ≠ 0)
    (v wa : Word) : lookup (setEntry m.mem dir va v) dir wa =
      if SamePage wa va then (if v = 0 then none else some (v &&& pageMask))
      else lookup m.mem dir wa := by
  have ne := d.ne_dir va table
  rw [lookup, tableOf_setEntry d.aligned ne, pteSlot_setEntry d.aligned ne, lookup]
  by_cases none : tableOf m.mem dir wa = 0
  · have other : ¬ SamePage wa va := by
      intro page
      rw [tableOf_congr (samePage_iff.1 page).1] at none
      exact table none
    rw [if_pos none, if_pos none, if_neg other]
  · rw [if_neg none, if_neg none, d.pte_setEntry v none]
    split_ifs <;> rfl

/-- Writing a table entry that no alias rests on keeps all that a directory needs, and the directory
rests on nothing new. -/
theorem Directory.setEntry (d : Directory m pgdNow dir) (table : tableOf m.mem dir va ≠ 0)
    (miss : ∀ a ∈ wordBytes (pteSlot m.mem dir va), a ∉ supports m pgdNow dir) (v : Word) :
    Directory (m.setMem (setEntry m.mem dir va v)) pgdNow dir ∧
      supports (m.setMem (setEntry m.mem dir va v)) pgdNow dir ⊆ supports m pgdNow dir := by
  have slot := pteSlot_toNat m.mem dir va
  have aligned := tableOf_aligned m.mem dir va
  have tables := tableOf_setEntry d.aligned (d.ne_dir va table) v
  have same (a : Word) (ha : a ∈ supports m pgdNow dir) :
      (m.setMem (SimpleKernel.setEntry m.mem dir va v)).mem a = m.mem a :=
    writeWord_outside _ _ (by omega) (not_mem_of_wordBytes miss (by omega) ha)
  have reach (q p : Word)
      (r : Reaches (m.setMem (SimpleKernel.setEntry m.mem dir va v)) pgdNow dir q p) :
      Reaches m pgdNow dir q p := by
    simpa only [Reaches, frames_setMem, Machine.setMem_mem, tables] using r
  obtain ⟨reached, fewer⟩ := d.reached_of_edit
    (t := m.setMem (SimpleKernel.setEntry m.mem dir va v)) rfl rfl same reach
  refine ⟨⟨d.pointer, d.aligned, ?_, ?_, ?_, d.nodup, d.frame, ?_, reached, ?_⟩, fewer⟩
  · simpa only [Machine.setMem_mem, tables] using d.low
  · simpa only [Machine.setMem_mem, tables] using d.ne_dir
  · simpa only [Machine.setMem_mem, tables] using d.distinct
  · simpa only [Machine.setMem_mem, frames_setMem, tables] using d.frame_ne
  · exact fun f hf a ha => d.unused f hf a (fewer ha)

/-! ## Installing an empty table -/

/-- The memory in which the zeroed page `f` is the table that serves `va`. -/
def installTable (mem : Store 32) (dir va f : Word) : Store 32 :=
  zeroFill (writeWord mem (dir + 4 * pgdIndex va) (entry f)) f 4096

section Install

variable {fs : List Word} {f : Word} {stack : ℕ → Word} {top count : Word}

theorem pde_installTable {mem : Store 32} (aligned : dir.toNat % 4096 = 0)
    (hf : f.toNat % 4096 = 0) (ne : f ≠ dir) (wa : Word) :
    readWord (installTable mem dir va f) (dir + 4 * pgdIndex wa) =
      if pgdIndex wa = pgdIndex va then entry f else readWord mem (dir + 4 * pgdIndex wa) := by
  have slot := dirSlot_toNat aligned va
  have slot' := dirSlot_toNat aligned wa
  have apart := pages_apart hf aligned ne
  have kept : readWord (installTable mem dir va f) (dir + 4 * pgdIndex wa) =
      readWord (writeWord mem (dir + 4 * pgdIndex va) (entry f)) (dir + 4 * pgdIndex wa) :=
    readWord_congr (by omega) fun x _ _ => zeroFill_outside _ (by omega)
  rw [kept]
  split_ifs with pgd
  · rw [pgd, readWord_writeWord_self _ _ (by omega)]
  · have : (pgdIndex wa).toNat ≠ (pgdIndex va).toNat := fun h => pgd (BitVec.eq_of_toNat_eq h)
    rw [pgdIndex_toNat, pgdIndex_toNat] at this
    exact readWord_writeWord_disjoint _ _ (by omega) (by omega) (by omega)

theorem tableOf_installTable (mem : Store 32) (va : Word) (aligned : dir.toNat % 4096 = 0)
    (hf : f.toNat % 4096 = 0) (ne : f ≠ dir) (wa : Word) :
    tableOf (installTable mem dir va f) dir wa =
      if pgdIndex wa = pgdIndex va then f else tableOf mem dir wa := by
  rw [tableOf, pde_installTable aligned hf ne]
  split_ifs
  · exact entry_frame hf
  · rfl

/-- The entries of the new table are null, those of the others stay. -/
theorem Directory.pte_installTable (d : Directory m pgdNow dir) (hf : f ∈ frames m)
    (h : pgdIndex wa ≠ pgdIndex va → tableOf m.mem dir wa ≠ 0) :
    readWord (installTable m.mem dir va f) (pteSlot (installTable m.mem dir va f) dir wa) =
      if pgdIndex wa = pgdIndex va then 0 else readWord m.mem (pteSlot m.mem dir wa) := by
  obtain ⟨aligned, nonzero, -⟩ := d.frame f hf
  obtain ⟨ne, neTable⟩ := d.frame_ne f hf
  have table := tableOf_installTable m.mem va d.aligned aligned ne wa
  rw [pteSlot, table]
  by_cases pgd : pgdIndex wa = pgdIndex va
  · have index := pteIndex_lt wa
    have slot := slot_toNat aligned index
    rw [if_pos pgd, if_pos pgd]
    exact readWord_zero (by omega) fun x _ _ => zeroFill_inside _ (by omega) (by omega)
  · have dirAligned := d.aligned
    have slot := dirSlot_toNat d.aligned va
    have slot' := pteSlot_toNat m.mem dir wa
    have aligned' := tableOf_aligned m.mem dir wa
    have apart := pages_apart aligned' d.aligned (d.ne_dir wa (h pgd))
    have apart' := pages_apart aligned' aligned (neTable wa)
    rw [if_neg pgd, if_neg pgd, ← pteSlot]
    exact readWord_congr (by omega) fun x _ _ =>
      (zeroFill_outside _ (by omega)).trans (writeWord_outside _ _ (by omega) (by omega))

/-- A fresh table changes no answer. -/
theorem Directory.lookup_installTable (d : Directory m pgdNow dir) (hf : f ∈ frames m)
    (none : tableOf m.mem dir va = 0) (wa : Word) :
    lookup (installTable m.mem dir va f) dir wa = lookup m.mem dir wa := by
  obtain ⟨aligned, nonzero, -⟩ := d.frame f hf
  have table := tableOf_installTable m.mem va d.aligned aligned
    (d.frame_ne f hf).1 wa
  rw [lookup, table, lookup]
  by_cases pgd : pgdIndex wa = pgdIndex va
  · rw [d.pte_installTable hf fun other => absurd pgd other, if_pos pgd, if_pos pgd, if_pos rfl,
      if_neg nonzero, tableOf_congr pgd, if_pos none]
  · rw [if_neg pgd]
    by_cases none' : tableOf m.mem dir wa = 0
    · rw [if_pos none', if_pos none']
    · rw [if_neg none', if_neg none', d.pte_installTable hf fun _ => none', if_neg pgd]

/-- Installing the last free frame as a table keeps all that a directory needs, and the directory
rests on nothing new. -/
theorem Directory.install (d : Directory m pgdNow dir) (pop : frames m = fs ++ [f])
    (rest : frames (m.setFrames stack top count) = fs)
    (miss : ∀ a ∈ wordBytes (dir + 4 * pgdIndex va), a ∉ supports m pgdNow dir) :
    Directory ((m.setFrames stack top count).setMem (installTable m.mem dir va f)) pgdNow dir ∧
      supports ((m.setFrames stack top count).setMem (installTable m.mem dir va f)) pgdNow dir ⊆
        supports m pgdNow dir := by
  have hf : f ∈ frames m := by
    rw [pop]
    exact List.mem_append_right _ (List.mem_singleton_self f)
  have dirAligned := d.aligned
  obtain ⟨aligned, nonzero, low⟩ := d.frame f hf
  obtain ⟨ne, neTable⟩ := d.frame_ne f hf
  have slot := dirSlot_toNat d.aligned va
  have tables := tableOf_installTable m.mem va d.aligned aligned ne
  have older : fs ⊆ frames m := by
    rw [pop]
    exact List.subset_append_left _ _
  have once : f ∉ fs := by
    have nodup := d.nodup
    rw [pop] at nodup
    exact fun h => (List.nodup_append'.1 nodup).2.2 h (List.mem_singleton_self f)
  have same (a : Word) (ha : a ∈ supports m pgdNow dir) : installTable m.mem dir va f a = m.mem a :=
    (zeroFill_outside _ (d.unused f hf a ha)).trans
      (writeWord_outside _ _ (by omega) (not_mem_of_wordBytes miss (by omega) ha))
  have reach (q p : Word) (r : Reaches
      ((m.setFrames stack top count).setMem (installTable m.mem dir va f)) pgdNow dir q p) :
      Reaches m pgdNow dir q p := by
    refine r.imp_right fun reached => ⟨reached.1, ?_⟩
    have page := reached.2
    rw [frames_setMem, rest] at page
    rcases page with free | ⟨nonnull, wa, table⟩
    · exact .inl (older free)
    · rw [Machine.setMem_mem, tables] at table
      split_ifs at table
      · exact .inl (table ▸ hf)
      · exact .inr ⟨nonnull, wa, table⟩
  obtain ⟨reached, fewer⟩ := d.reached_of_edit
    (t := (m.setFrames stack top count).setMem (installTable m.mem dir va f)) rfl rfl same reach
  refine ⟨⟨d.pointer, d.aligned, fun wa => ?_, fun wa => ?_, fun wa xa => ?_, ?_, ?_, ?_, reached,
    ?_⟩, fewer⟩
  · rw [Machine.setMem_mem, tables]
    split_ifs
    · exact low
    · exact d.low wa
  · rw [Machine.setMem_mem, tables]
    split_ifs
    · exact fun _ => ne
    · exact d.ne_dir wa
  · rw [Machine.setMem_mem, tables, tables]
    split_ifs with hwa hxa hxa
    · exact fun _ _ => hwa.trans hxa.symm
    · exact fun _ h => absurd h.symm (neTable xa)
    · exact fun _ h => absurd h (neTable wa)
    · exact d.distinct wa xa
  · rw [frames_setMem, rest]
    exact (List.sublist_append_left fs [f]).nodup (pop ▸ d.nodup)
  · rw [frames_setMem, rest]
    exact fun g hg => d.frame g (older hg)
  · rw [frames_setMem, rest]
    refine fun g hg => ⟨(d.frame_ne g (older hg)).1, fun wa => ?_⟩
    rw [Machine.setMem_mem, tables]
    split_ifs
    · rintro rfl
      exact once hg
    · exact (d.frame_ne g (older hg)).2 wa
  · rw [frames_setMem, rest]
    exact fun g hg a ha => d.unused g (older hg) a (fewer ha)

end Install

/-! ## The three functions -/

theorem Reaches.self : Reaches m pgdNow dir pgdNow dir := .inl ⟨rfl, rfl⟩

theorem Reaches.table (h : tableOf m.mem dir va ≠ 0) :
    Reaches m pgdNow dir (tableOf m.mem dir va + pageOffset) (tableOf m.mem dir va) :=
  .inr ⟨rfl, .inr ⟨h, va, rfl⟩⟩

theorem Reaches.free (h : p ∈ frames m) : Reaches m pgdNow dir (p + pageOffset) p :=
  .inr ⟨rfl, .inl h⟩

section Specs

variable {E : Stop → Machine → Prop} {i : Word}

theorem Directory.load32 (d : Directory m pgdNow dir) (r : Reaches m pgdNow dir q p)
    (hi : i.toNat < 1024) {Q : Word → Machine → Prop} (hQ : Q (readWord m.mem (p + 4 * i)) m) :
    WP (load32 (q + 4 * i)) E Q m :=
  load32_page (d.pages_aligned r).1 (d.pages_aligned r).2 (d.reached q p r) hi hQ

/-- A store to an entry that no alias rests on, from a machine that may have fewer frames. -/
theorem Directory.store32 (d : Directory m pgdNow dir) (r : Reaches m pgdNow dir q p)
    (hi : i.toNat < 1024) (miss : ∀ a ∈ wordBytes (p + 4 * i), a ∉ supports m pgdNow dir)
    {u : Machine} (h0 : u.cr0 = m.cr0) (h3 : u.cr3 = m.cr3) (hmem : u.mem = m.mem) {v : Word}
    {Q : Unit → Machine → Prop} (hQ : Q () (u.setMem (writeWord m.mem (p + 4 * i) v))) :
    WP (store32 (q + 4 * i) v) E Q u := by
  have here := (translate_congr h0 h3 fun a _ => congrFun hmem a).trans (d.reached q p r)
  apply store32_page (d.pages_aligned r).1 (d.pages_aligned r).2 here hi
  · rw [walkBytes_congr h3 fun a _ => congrFun hmem a]
    exact fun a ha walked => miss a ha ⟨q, p, r, walked⟩
  · rwa [hmem]

/-- What `get_mapping` makes of the table entry of `va`. -/
def answer (mem : Store 32) (dir va : Word) (paNonNull : Bool) : Option Word × Option Word :=
  if tableOf mem dir va = 0 then (none, none)
  else if readWord mem (pteSlot mem dir va) ≠ 0 ∧ paNonNull then
    (some 1, some (readWord mem (pteSlot mem dir va) &&& pageMask))
  else (some 0, none)

theorem Directory.getMapping_spec (d : Directory m pgdNow dir) (va : Word) (paNonNull : Bool) :
    WP (getMapping pgdNow va paNonNull) E
      (fun x t => t = m ∧ x = answer m.mem dir va paNonNull) m := by
  simp only [getMapping, wp_bind]
  apply d.load32 .self (pgdIndex_lt va)
  show WP (if tableOf m.mem dir va = 0 then _ else _) _ _ _
  unfold answer
  split_ifs with none mapped
  · exact ⟨rfl, rfl⟩
  · rw [wp_bind]
    apply d.load32 (.table none) (pteIndex_lt va)
    rw [← pteSlot, if_pos mapped, wp_bind]
    exact d.load32 (.table none) (pteIndex_lt va) ⟨rfl, rfl⟩
  · rw [wp_bind]
    apply d.load32 (.table none) (pteIndex_lt va)
    rw [← pteSlot, if_neg mapped]
    exact ⟨rfl, rfl⟩

theorem Directory.unmap_spec (d : Directory m pgdNow dir)
    (miss : tableOf m.mem dir va ≠ 0 →
      ∀ a ∈ wordBytes (pteSlot m.mem dir va), a ∉ supports m pgdNow dir)
    {Q : Unit → Machine → Prop} (absent : tableOf m.mem dir va = 0 → Q () m)
    (present : tableOf m.mem dir va ≠ 0 → Q () (m.setMem (SimpleKernel.setEntry m.mem dir va 0))) :
    WP (unmap pgdNow va) E Q m := by
  simp only [unmap, wp_bind]
  apply d.load32 .self (pgdIndex_lt va)
  show WP (if tableOf m.mem dir va = 0 then _ else _) _ _ _
  split_ifs with none
  · exact absent none
  · exact d.store32 (.table none) (pteIndex_lt va) (miss none) rfl rfl rfl (present none)

/-- The entries that `map` and `unmap` change for `va` are none that an alias rests on. -/
structure Clear (m : Machine) (pgdNow dir va : Word) : Prop where
  directory : tableOf m.mem dir va = 0 →
    ∀ a ∈ wordBytes (dir + 4 * pgdIndex va), a ∉ supports m pgdNow dir
  table : tableOf m.mem dir va ≠ 0 →
    ∀ a ∈ wordBytes (pteSlot m.mem dir va), a ∉ supports m pgdNow dir

/-- The state of `map` when it has a table for `va`: the state before, or one in which the last free
frame became the table. -/
inductive WithTable (m : Machine) (dir va : Word) : Machine → Prop where
  | had (h : tableOf m.mem dir va ≠ 0) : WithTable m dir va m
  | installed (h : tableOf m.mem dir va = 0) (f : Word) (fs : List Word) (top : Word)
      (pop : frames m = fs ++ [f])
      (rest : frames (m.setFrames m.pmmStack top m.phyPageCount) = fs) :
      WithTable m dir va ((m.setFrames m.pmmStack top m.phyPageCount).setMem
        (installTable m.mem dir va f))

theorem Directory.withTable (d : Directory m pgdNow dir) (clear : Clear m pgdNow dir va)
    (w : WithTable m dir va t) : Directory t pgdNow dir ∧ tableOf t.mem dir va ≠ 0 ∧
      (∀ a ∈ wordBytes (pteSlot t.mem dir va), a ∉ supports t pgdNow dir) ∧
      ∀ wa, lookup t.mem dir wa = lookup m.mem dir wa := by
  cases w with
  | had h => exact ⟨d, h, clear.table h, fun _ => rfl⟩
  | installed h f fs top pop rest =>
    have hf : f ∈ frames m := by
      rw [pop]
      exact List.mem_append_right _ (List.mem_singleton_self f)
    obtain ⟨aligned, nonzero, -⟩ := d.frame f hf
    obtain ⟨d', fewer⟩ := d.install pop rest (clear.directory h)
    have table : tableOf (installTable m.mem dir va f) dir va = f := by
      rw [tableOf_installTable _ _ d.aligned aligned (d.frame_ne f hf).1, if_pos rfl]
    refine ⟨d', ?_, fun a ha supported => ?_, d.lookup_installTable hf h⟩
    · rw [Machine.setMem_mem, table]
      exact nonzero
    · rw [Machine.setMem_mem, pteSlot, table] at ha
      obtain ⟨k, hk, rfl⟩ := ha
      have slot := slot_toNat aligned (pteIndex_lt va)
      have index := pteIndex_lt va
      have byte := toNat_offset (a := f + 4 * pteIndex va) (i := k) (by omega)
      have := d.unused f hf _ (fewer supported)
      omega

/-- `map` writes its entry into a table that is there or that it installs; without a table and a
free frame it panics. -/
theorem Directory.map_spec (d : Directory m pgdNow dir) (clear : Clear m pgdNow dir va)
    (pa flags : Word) (oom : tableOf m.mem dir va = 0 → frames m = [] → E outOfMemory m)
    {Q : Unit → Machine → Prop} (hQ : ∀ t, WithTable m dir va t →
      Q () (t.setMem (SimpleKernel.setEntry t.mem dir va (pa &&& pageMask ||| flags)))) :
    WP (map pgdNow va pa flags) E Q m := by
  have last (t : Machine) (w : WithTable m dir va t) : WP (SimpleKernel.store32
      (tableOf t.mem dir va + pageOffset + 4 * pteIndex va) (pa &&& pageMask ||| flags)) E Q t := by
    obtain ⟨d', table, miss, -⟩ := d.withTable clear w
    exact d'.store32 (.table table) (pteIndex_lt va) miss rfl rfl rfl (hQ t w)
  simp only [map, wp_bind]
  apply d.load32 .self (pgdIndex_lt va)
  show WP (if tableOf m.mem dir va = 0 then _ else _) _ _ _
  split_ifs with none
  · simp only [wp_bind, wp_pure]
    apply pmmAllocPage_spec (oom none)
    intro f fs top pop rest
    have w := WithTable.installed none f fs top pop rest
    have hf : f ∈ frames m := by
      rw [pop]
      exact List.mem_append_right _ (List.mem_singleton_self f)
    obtain ⟨aligned, nonzero, low⟩ := d.frame f hf
    have slot := dirSlot_toNat d.aligned va
    have dirAligned := d.aligned
    have place : (f + pageOffset).toNat = f.toNat + 0xC0000000 := by
      rw [BitVec.toNat_add, show pageOffset.toNat = 0xC0000000 from rfl]
      omega
    have phys : f + pageOffset - (f + pageOffset - f) = f := by bv_omega
    have table : tableOf (installTable m.mem dir va f) dir va = f := by
      rw [tableOf_installTable _ _ d.aligned aligned (d.frame_ne f hf).1, if_pos rfl]
    have win : Window ((m.setFrames m.pmmStack top m.phyPageCount).setMem
        (writeWord m.mem (dir + 4 * pgdIndex va) (entry f))) (supports m pgdNow dir)
        (f + pageOffset).toNat ((f + pageOffset).toNat + 4096) (f + pageOffset - f) :=
      (d.window (.free hf)).of_agree rfl rfl fun a ha => writeWord_outside _ _ (by omega)
        (not_mem_of_wordBytes (clear.directory none) (by omega) ha)
    refine d.store32 .self (pgdIndex_lt va) (clear.directory none)
      (u := m.setFrames m.pmmStack top m.phyPageCount) rfl rfl rfl ?_
    refine win.bzero le_rfl le_rfl (by omega) (by rw [phys]; omega)
      (fun a ha => by rw [phys]; exact d.unused f hf a ha) ?_
    rw [phys]
    have := last _ w
    rwa [Machine.setMem_mem, table] at this
  · exact last m (.had none)

end Specs

end Edits

end SimpleKernel
