import SimpleKernel.PmmInit

/-!
# Walking the memory map

The entries of the boot loader's memory map carry their own length, in a `size` that does not count
itself.  `init_pmm` and `show_memory_map` step from entry to entry by `sizeof(mmap_entry_t)`, which
is right for entries of size 20 only.
-/

namespace SimpleKernel

open ByteStore ProgramLogic

/-! ## `show_memory_map` -/

/-- The arguments of `printk` for the entry at `mmap`. -/
def showEntry (mmap : Word) : Kernel (List Word) := do
  let baseAddrHigh ← load32 (mmap + MmapField.baseAddrHigh.offset)
  let baseAddrLow ← load32 (mmap + MmapField.baseAddrLow.offset)
  let lengthHigh ← load32 (mmap + MmapField.lengthHigh.offset)
  let lengthLow ← load32 (mmap + MmapField.lengthLow.offset)
  let type ← load32 (mmap + MmapField.type.offset)
  return [baseAddrHigh, baseAddrLow, lengthHigh, lengthLow, type]

/-- `show_memory_map`, with the arguments of its calls of `printk` for entries, one after the
other. -/
def showMemoryMap : Kernel (List (List Word)) := do
  let mb := (← get).glbMbootPtr
  let mmapAddr ← load32 (mb + MutilbootField.mmapAddr.offset)
  let mmapLength ← load32 (mb + MutilbootField.mmapLength.offset)
  let x ← whileM .hang (fun x : Word × List (List Word) =>
      return decide (x.1 < mmapAddr + mmapLength))
    (fun x => do
      let line ← showEntry x.1
      return (x.1 + sizeofMmapEntry, x.2 ++ [line])) roundLimit (mmapAddr, [])
  return x.2

/-! ## Memory maps -/

/-- An entry by the words of its members; `size` counts what follows it. -/
structure MmapEntry where
  word : MmapField → Word
  size_ge : 20 ≤ (word .size).toNat

namespace MmapEntry

variable (e : MmapEntry)

/-- How far the next entry is away. -/
def extent : ℕ := (e.word .size).toNat + 4

/-- Base, length and type. -/
def triple : BitVec 64 × BitVec 64 × Word :=
  (e.word .baseAddrHigh ++ e.word .baseAddrLow, e.word .lengthHigh ++ e.word .lengthLow,
    e.word .type)

/-- The entry as `show_memory_map` prints it. -/
def line : List Word :=
  [e.word .baseAddrHigh, e.word .baseAddrLow, e.word .lengthHigh, e.word .lengthLow, e.word .type]

end MmapEntry

/-- The bytes that the entries take. -/
def totalExtent (es : List MmapEntry) : ℕ := (es.map MmapEntry.extent).sum

/-- The entries lie one behind the other from `a` on. -/
def LaidOut (mem : Store 32) : Word → List MmapEntry → Prop
  | _, [] => True
  | a, e :: es => (∀ f, readWord mem (a + f.offset) = e.word f) ∧
    LaidOut mem (a + BitVec.ofNat 32 e.extent) es

/-- The boot information describes a memory map with the entries `es`. -/
structure DescribesMap (m : Machine) (es : List MmapEntry) : Prop where
  entries : LaidOut (view m) (mmapStart m) es
  length : (readWord (view m) (m.glbMbootPtr + MutilbootField.mmapLength.offset)).toNat =
    totalExtent es
  fits : (mmapStart m).toNat + totalExtent es < 2 ^ 32
  info : ∀ i < 8, translate m (m.glbMbootPtr + MutilbootField.mmapLength.offset +
    BitVec.ofNat 32 i) ≠ none
  mapped : ∀ x : Word, (mmapStart m).toNat ≤ x.toNat → x.toNat < (mmapStart m).toNat +
    totalExtent es → translate m x ≠ none

/-- The triple at the address `a`. -/
def tripleAt (m : Machine) (a : Word) : BitVec 64 × BitVec 64 × Word :=
  (readWord (view m) (a + MmapField.baseAddrHigh.offset) ++
    readWord (view m) (a + MmapField.baseAddrLow.offset),
    readWord (view m) (a + MmapField.lengthHigh.offset) ++
    readWord (view m) (a + MmapField.lengthLow.offset),
    readWord (view m) (a + MmapField.type.offset))

def lineAt (m : Machine) (a : Word) : List Word :=
  [readWord (view m) (a + MmapField.baseAddrHigh.offset),
    readWord (view m) (a + MmapField.baseAddrLow.offset),
    readWord (view m) (a + MmapField.lengthHigh.offset),
    readWord (view m) (a + MmapField.lengthLow.offset),
    readWord (view m) (a + MmapField.type.offset)]

/-! ## The walk -/

section Walk

theorem totalExtent_cons (e : MmapEntry) (es : List MmapEntry) :
    totalExtent (e :: es) = e.extent + totalExtent es := List.sum_cons

theorem le_totalExtent (es : List MmapEntry) : 24 * es.length ≤ totalExtent es := by
  induction es with
  | nil => exact Nat.zero_le _
  | cons e es ih =>
    have := e.size_ge
    rw [totalExtent_cons, MmapEntry.extent, List.length_cons]
    omega

/-- Only entries of size 20 take no more room than that. -/
theorem totalExtent_eq_iff (es : List MmapEntry) :
    totalExtent es = 24 * es.length ↔ ∀ e ∈ es, e.word .size = 20 := by
  induction es with
  | nil => simp [totalExtent]
  | cons e es ih =>
    have low := e.size_ge
    have rest := le_totalExtent es
    rw [List.forall_mem_cons, ← ih, totalExtent_cons, MmapEntry.extent, List.length_cons]
    constructor
    · intro h
      exact ⟨BitVec.eq_of_toNat_eq (show (e.word .size).toNat = 20 by omega), by omega⟩
    · rintro ⟨size, h⟩
      rw [size, h]
      show 20 + 4 + 24 * es.length = _
      omega

/-- A walk makes at least as many rounds as entries of size 20 would fit in. -/
theorem lt_length_mapEntries {stop : Word} {n fuel : ℕ} {a : Word}
    (inside : a.toNat + 24 * n < stop.toNat) (enough : n < fuel) :
    n < (mapEntries stop fuel a).length := by
  induction n generalizing a fuel with
  | zero =>
    obtain ⟨fuel, rfl⟩ := Nat.exists_eq_succ_of_ne_zero (by omega : fuel ≠ 0)
    have more : a < stop := by
      rw [BitVec.lt_def]
      omega
    rw [mapEntries, if_pos more]
    exact Nat.succ_pos _
  | succ n ih =>
    obtain ⟨fuel, rfl⟩ := Nat.exists_eq_succ_of_ne_zero (by omega : fuel ≠ 0)
    have more : a < stop := by
      rw [BitVec.lt_def]
      omega
    have next : (a + sizeofMmapEntry).toNat = a.toNat + 24 :=
      toNat_offset (i := 24) (by have := stop.isLt; omega)
    rw [mapEntries, if_pos more, List.length_cons]
    have rest : n < (mapEntries stop fuel (a + sizeofMmapEntry)).length :=
      ih (by omega) (by omega)
    omega

/-- A walk over entries of size 20 makes one round for each of them. -/
theorem mapEntries_forall₂ {mem : Store 32} {stop : Word} {fuel : ℕ} {a : Word}
    {es : List MmapEntry} (laid : LaidOut mem a es) (sizes : ∀ e ∈ es, e.word .size = 20)
    (ends : a.toNat + 24 * es.length = stop.toNat) (enough : es.length < fuel) :
    List.Forall₂ (fun b e => (∀ f, readWord mem (b + f.offset) = e.word f) ∧
      a.toNat ≤ b.toNat ∧ b.toNat + 24 ≤ stop.toNat) (mapEntries stop fuel a) es := by
  induction es generalizing a fuel with
  | nil =>
    obtain ⟨fuel, rfl⟩ := Nat.exists_eq_succ_of_ne_zero (by omega : fuel ≠ 0)
    have done : ¬ a < stop := by
      rw [BitVec.lt_def]
      rw [List.length_nil] at ends
      omega
    rw [mapEntries, if_neg done]
    exact .nil
  | cons e es ih =>
    obtain ⟨fuel, rfl⟩ := Nat.exists_eq_succ_of_ne_zero (by omega : fuel ≠ 0)
    rw [List.length_cons] at ends enough
    rw [List.forall_mem_cons] at sizes
    have more : a < stop := by
      rw [BitVec.lt_def]
      omega
    have step : BitVec.ofNat 32 e.extent = sizeofMmapEntry := by
      rw [MmapEntry.extent, sizes.1]
      rfl
    have next : (a + sizeofMmapEntry).toNat = a.toNat + 24 :=
      toNat_offset (i := 24) (by have := stop.isLt; omega)
    have rest := laid.2
    rw [step] at rest
    rw [mapEntries, if_pos more]
    refine .cons ⟨laid.1, le_rfl, by omega⟩ ?_
    exact (ih rest sizes.2 (by omega) (by omega)).imp fun b e h => ⟨h.1, by omega, h.2.2⟩

end Walk

/-! ## The two loops -/

section Loops

variable {kernEnd : Word} {E : Stop → Machine → Prop} {m : Machine}

/-- A round of the loop in `init_pmm` ends at the next address whatever it finds. -/
theorem scanEntryAt_next (kernEnd a : Word) {Q : Word → Machine → Prop} :
    WP (scanEntryAt kernEnd a) E Q m ↔
      WP (scanEntryAt kernEnd a) E (fun _ => Q (a + sizeofMmapEntry)) m := by
  simp only [scanEntryAt, wp_bind, wp_pure, wp_ite]

/-- What `init_pmm` does to the entry at `a`. -/
def scanVisit (kernEnd a : Word) : Kernel Unit := do
  let _ ← scanEntryAt kernEnd a

/-- The loop of `init_pmm` runs its body at the addresses of `mapEntries`. -/
theorem scan_iff_forM {stop : Word} {fuel : ℕ} {a : Word}
    (short : (mapEntries stop fuel a).length < fuel) {Q : Machine → Prop} :
    WP (whileM .hang (fun mapEntry => return decide (mapEntry < stop)) (scanEntryAt kernEnd) fuel a)
        E (fun _ => Q) m ↔
      WP ((mapEntries stop fuel a).forM (scanVisit kernEnd)) E (fun _ => Q) m := by
  induction fuel generalizing a m with
  | zero => exact absurd short (Nat.not_lt_zero _)
  | succ fuel ih =>
    rw [whileM, wp_bind, wp_pure]
    by_cases more : a < stop
    · rw [mapEntries, if_pos more, List.length_cons, Nat.add_lt_add_iff_right] at short
      rw [mapEntries, if_pos more, if_pos (decide_eq_true more), List.forM_eq_forM,
        List.forM_cons, wp_bind, scanEntryAt_next, wp_bind, scanVisit, wp_bind]
      simp only [wp_pure, ih short]
      exact Iff.rfl
    · rw [mapEntries, if_neg more, if_neg (by simpa using more)]
      exact Iff.rfl

theorem load32_member {a : Word} (f : MmapField)
    (fault : ∀ x ∈ entryBytes a, translate m x = none → E (.pageFault x) m)
    {Q : Word → Machine → Prop} (hQ : Q (readWord (view m) (a + f.offset)) m) :
    WP (load32 (a + f.offset)) E Q m := by
  refine load32_view (fun i hi unmapped => fault _ ⟨4 * f.ctorIdx + i, ?_, ?_⟩ unmapped) hQ
  · have bound : f.ctorIdx < 6 := by cases f <;> decide
    omega
  · rw [MmapField.offset, offset_offset]

theorem showEntry_spec {a : Word}
    (fault : ∀ x ∈ entryBytes a, translate m x = none → E (.pageFault x) m)
    {Q : List Word → Machine → Prop} (hQ : Q (lineAt m a) m) : WP (showEntry a) E Q m := by
  rw [showEntry, wp_bind]
  refine load32_member .baseAddrHigh fault ?_
  rw [wp_bind]
  refine load32_member .baseAddrLow fault ?_
  rw [wp_bind]
  refine load32_member .lengthHigh fault ?_
  rw [wp_bind]
  refine load32_member .lengthLow fault ?_
  rw [wp_bind]
  exact load32_member .type fault hQ

theorem showLoop_spec {stop : Word} {fuel : ℕ} {a : Word} {lines : List (List Word)}
    (fault : ∀ b ∈ mapEntries stop fuel a, ∀ x ∈ entryBytes b,
      translate m x = none → E (.pageFault x) m)
    (long : (mapEntries stop fuel a).length = fuel → E .hang m)
    {Q : Word × List (List Word) → Machine → Prop}
    (hQ : ∀ b, Q (b, lines ++ (mapEntries stop fuel a).map (lineAt m)) m) :
    WP (whileM .hang (fun x : Word × List (List Word) => return decide (x.1 < stop))
      (fun x => do
        let line ← showEntry x.1
        return (x.1 + sizeofMmapEntry, x.2 ++ [line])) fuel (a, lines)) E Q m := by
  induction fuel generalizing a lines with
  | zero => exact long rfl
  | succ fuel ih =>
    rw [whileM, wp_bind, wp_pure]
    by_cases more : a < stop
    · simp only [mapEntries, if_pos more, List.map_cons, List.length_cons, List.forall_mem_cons,
        Nat.add_right_cancel_iff] at fault long hQ
      rw [if_pos (decide_eq_true more), wp_bind, wp_bind]
      refine showEntry_spec fault.1 ?_
      refine ih fault.2 long fun b => ?_
      rw [List.append_assoc]
      exact hQ b
    · simp only [mapEntries, if_neg more, List.map_nil, List.append_nil] at hQ
      rw [if_neg (by simpa using more)]
      exact hQ a

/-- The boot information says where the memory map lies. -/
theorem load32_info
    (info : ∀ i < 8, translate m (m.glbMbootPtr + MutilbootField.mmapLength.offset +
      BitVec.ofNat 32 i) ≠ none) {f : MutilbootField} (hf : f = .mmapLength ∨ f = .mmapAddr) :
    Returns (load32 (m.glbMbootPtr + f.offset)) m
      (readWord (view m) (m.glbMbootPtr + f.offset)) m := by
  refine load32_returns fun i hi unmapped => ?_
  rcases hf with rfl | rfl
  · exact info i (by omega) unmapped
  · refine info (4 + i) (by omega) (Eq.trans (congrArg (translate m) ?_) unmapped)
    rw [BitVec.ofNat_add, ← BitVec.add_assoc, BitVec.add_assoc m.glbMbootPtr]
    rfl

/-- `show_memory_map` prints the entries at the addresses of `mapEntries`. -/
theorem showMemoryMap_spec
    (info : ∀ i < 8, translate m (m.glbMbootPtr + MutilbootField.mmapLength.offset +
      BitVec.ofNat 32 i) ≠ none)
    (fault : ∀ b ∈ examinedEntries m, ∀ x ∈ entryBytes b,
      translate m x = none → E (.pageFault x) m)
    (long : (examinedEntries m).length = roundLimit → E .hang m)
    {Q : List (List Word) → Machine → Prop} (hQ : Q ((examinedEntries m).map (lineAt m)) m) :
    WP showMemoryMap E Q m := by
  rw [showMemoryMap, wp_bind, wp_get, wp_bind, (load32_info info (.inr rfl)).wp_iff, wp_bind,
    (load32_info info (.inl rfl)).wp_iff, wp_bind]
  exact showLoop_spec fault long fun _ => hQ

/-- `init_pmm` looks at the entries at the addresses of `mapEntries`. -/
theorem initPmmAt_iff_forM
    (info : ∀ i < 8, translate m (m.glbMbootPtr + MutilbootField.mmapLength.offset +
      BitVec.ofNat 32 i) ≠ none)
    (short : (examinedEntries m).length < roundLimit) {Q : Machine → Prop} :
    WP (initPmmAt kernEnd) E (fun _ => Q) m ↔
      WP ((examinedEntries m).forM (scanVisit kernEnd)) E (fun _ => Q) m := by
  rw [initPmmAt, wp_bind, wp_get, wp_bind, (load32_info info (.inr rfl)).wp_iff, wp_bind,
    (load32_info info (.inr rfl)).wp_iff, wp_bind, (load32_info info (.inl rfl)).wp_iff, wp_bind]
  exact scan_iff_forM short

end Loops

/-! ## Entry by entry -/

/-- Both loops look at the entries `es`, at each of them once and in this order, and at nothing
else. -/
structure WalkedAs (m : Machine) (es : List MmapEntry) : Prop where
  triples : (examinedEntries m).map (tripleAt m) = es.map MmapEntry.triple
  inside : ∀ a ∈ examinedEntries m, (mmapStart m).toNat ≤ a.toNat ∧
    a.toNat + 24 ≤ (mmapStart m).toNat + totalExtent es
  initPmm : ∀ kernEnd E (Q : Machine → Prop), WP (initPmmAt kernEnd) E (fun _ => Q) m ↔
    WP ((examinedEntries m).forM (scanVisit kernEnd)) E (fun _ => Q) m
  shown : Returns showMemoryMap m (es.map MmapEntry.line) m

section WalkedAs

variable {m : Machine} {es : List MmapEntry}

theorem DescribesMap.mmapEnd_toNat (map : DescribesMap m es) :
    (mmapEnd m).toNat = (mmapStart m).toNat + totalExtent es := by
  have fits := map.fits
  rw [mmapEnd, BitVec.toNat_add, map.length, Nat.mod_eq_of_lt fits]

/-- With entries of size 20 the examined addresses are those of the entries. -/
theorem DescribesMap.examined (map : DescribesMap m es) (sizes : ∀ e ∈ es, e.word .size = 20) :
    List.Forall₂ (fun b e => (∀ f, readWord (view m) (b + f.offset) = e.word f) ∧
      (mmapStart m).toNat ≤ b.toNat ∧ b.toNat + 24 ≤ (mmapEnd m).toNat) (examinedEntries m) es := by
  have fits := map.fits
  have ends := map.mmapEnd_toNat
  have total := (totalExtent_eq_iff es).2 sizes
  have limit : roundLimit = 2 ^ 32 := rfl
  exact mapEntries_forall₂ map.entries sizes (by omega) (by omega)

/-- Whatever depends on the words of an entry only is the same at the examined addresses. -/
theorem DescribesMap.map_eq {α : Type} (map : DescribesMap m es)
    (sizes : ∀ e ∈ es, e.word .size = 20) {f : Word → α} {g : MmapEntry → α}
    (h : ∀ b e, (∀ f, readWord (view m) (b + f.offset) = e.word f) → f b = g e) :
    (examinedEntries m).map f = es.map g :=
  List.forall₂_eq_eq_eq ▸ List.forall₂_map_left_iff.2
    (List.forall₂_map_right_iff.2 ((map.examined sizes).imp fun b e words => h b e words.1))

theorem DescribesMap.walkedAs (map : DescribesMap m es) (sizes : ∀ e ∈ es, e.word .size = 20) :
    WalkedAs m es := by
  have fits := map.fits
  have ends := map.mmapEnd_toNat
  have total := (totalExtent_eq_iff es).2 sizes
  have limit : roundLimit = 2 ^ 32 := rfl
  have walk := map.examined sizes
  have inside (a : Word) (ha : a ∈ examinedEntries m) : (mmapStart m).toNat ≤ a.toNat ∧
      a.toNat + 24 ≤ (mmapStart m).toNat + totalExtent es := by
    rw [← ends]
    exact ((List.forall₂_and_left _ _).1 (walk.imp fun b e h => ⟨h.2, h.1⟩)).1 a ha
  have lines : (examinedEntries m).map (lineAt m) = es.map MmapEntry.line :=
    map.map_eq sizes fun b e words => by simp only [lineAt, words, MmapEntry.line]
  have short : (examinedEntries m).length < roundLimit := by
    have := walk.length_eq
    omega
  have mapped (b : Word) (hb : b ∈ examinedEntries m) (x : Word) (hx : x ∈ entryBytes b) :
      translate m x ≠ none := by
    obtain ⟨i, hi, rfl⟩ := hx
    obtain ⟨low, high⟩ := inside b hb
    have e := toNat_offset (a := b) (i := i) (by omega)
    exact map.mapped _ (by omega) (by omega)
  refine ⟨?_, inside, fun _ _ _ => initPmmAt_iff_forM map.info short, ?_⟩
  · exact map.map_eq sizes fun b e words => by simp only [tripleAt, words, MmapEntry.triple]
  · obtain ⟨_, _, run, rfl, rfl⟩ := (showMemoryMap_spec (E := fun _ _ => False) map.info
      (fun b hb x hx unmapped => mapped b hb x hx unmapped) (fun long => by omega)
      (Q := fun out t => out = es.map MmapEntry.line ∧ t = m) ⟨lines, rfl⟩).returns
    exact run

/-- Behind a longer entry the walk looks at one entry too many at least. -/
theorem WalkedAs.sizes (walked : WalkedAs m es) (map : DescribesMap m es) :
    ∀ e ∈ es, e.word .size = 20 := by
  have fits := map.fits
  have ends := map.mmapEnd_toNat
  have low := le_totalExtent es
  have limit : roundLimit = 2 ^ 32 := rfl
  have count := congrArg List.length walked.triples
  rw [List.length_map, List.length_map] at count
  refine (totalExtent_eq_iff es).1 ?_
  by_contra longer
  have more : es.length < (examinedEntries m).length :=
    lt_length_mapEntries (by omega) (by omega)
  omega

/-- The memory map is walked entry by entry exactly if all entries have the size of the struct. -/
theorem walkedAs_iff (map : DescribesMap m es) :
    WalkedAs m es ↔ ∀ e ∈ es, e.word .size = 20 :=
  ⟨fun walked => walked.sizes map, map.walkedAs⟩

end WalkedAs

/-! ## A memory map with a single entry -/

/-- Boot information at 64 KB whose memory map, at 68 KB, is one entry of this size. -/
def singleEntry (size : Word) : Store 32 :=
  writeWord (writeWord (writeWord (fun _ => 0)
    (0x10000 + MutilbootField.mmapLength.offset) (size + 4))
    (0x10000 + MutilbootField.mmapAddr.offset) 0x11000)
    (0x11000 + MmapField.size.offset) size

/-- The words of that entry. -/
def entryOfSize (size : Word) (low : 20 ≤ size.toNat) : MmapEntry where
  word := fun f => if f = .size then size else 0
  size_ge := low

theorem singleEntry_word (size : Word) (f : MmapField) :
    readWord (singleEntry size) (0x11000 + f.offset) = if f = .size then size else 0 := by
  by_cases self : f = .size
  · rw [self]
    exact readWord_writeWord_self _ _ (by decide)
  · rw [if_neg self, singleEntry]
    have place : 0x11004 ≤ (0x11000 + f.offset).toNat ∧
        (0x11000 + f.offset).toNat + 4 ≤ 2 ^ 32 := by
      cases f with
      | size => exact absurd rfl self
      | _ => decide
    have behind {mem : Store 32} {a v : Word} (ha : a.toNat + 4 ≤ 0x11004) :
        readWord (writeWord mem a v) (0x11000 + f.offset) = readWord mem (0x11000 + f.offset) :=
      readWord_writeWord_disjoint _ _ (by omega) place.2 (by omega)
    rw [behind (by decide), behind (by decide), behind (by decide)]
    exact readWord_zero place.2 fun _ _ _ => rfl

/-- Boot information at 64 KB and an entry at 68 KB make up a memory map. -/
theorem Booted.describesMap {mem : Store 32} {m : Machine} {e : MmapEntry} (booted : Booted mem m)
    (addr : readWord mem (0x10000 + MutilbootField.mmapAddr.offset) = 0x11000)
    (length : (readWord mem (0x10000 + MutilbootField.mmapLength.offset)).toNat = e.extent)
    (words : ∀ f, readWord mem (0x11000 + f.offset) = e.word f) (small : e.extent < 0x200000) :
    DescribesMap m [e] := by
  have start : mmapStart m = 0x11000 := by
    rw [mmapStart, booted.info, booted.word (by decide) (by decide), addr]
  have extent : totalExtent [e] = e.extent := rfl
  have mapped {x : Word} (hx : x.toNat < 0x400000) : translate m x ≠ none := by
    rw [booted.temp.identity.translate (Nat.zero_le _) hx]
    exact Option.some_ne_none _
  refine ⟨?_, ?_, ?_, fun i hi => ?_, fun x lo hi => ?_⟩
  · rw [start]
    refine ⟨fun f => ?_, trivial⟩
    rw [booted.word (by cases f <;> decide) (by cases f <;> decide), words]
  · rw [booted.info, booted.word (by decide) (by decide), length, extent]
  · rw [start, extent]
    show 0x11000 + _ < _
    omega
  · refine mapped ?_
    rw [booted.info, toNat_offset (lt_of_lt_of_le (Nat.add_lt_add_left hi _) (by decide))]
    exact lt_of_lt_of_le (Nat.add_lt_add_left hi _) (by decide)
  · rw [start, extent] at hi
    change x.toNat < 0x11000 + _ at hi
    exact mapped (by omega)

theorem exists_singleEntry (size : Word) (low : 20 ≤ size.toNat) (high : size.toNat < 0x100000) :
    ∃ m, Returns (kernEntry smallImage) ((bootMachine 0x10000).setMem (singleEntry size)) () m ∧
      DescribesMap m [entryOfSize size low] := by
  obtain ⟨m, booted⟩ := exists_booted (singleEntry size)
  have extent : (entryOfSize size low).extent = size.toNat + 4 := rfl
  refine ⟨m, booted.run, booted.describesMap ?_ ?_ (singleEntry_word size) (by omega)⟩
  · rw [singleEntry, readWord_writeWord_disjoint _ _ (by decide) (by decide) (by decide)]
    exact readWord_writeWord_self _ _ (by decide)
  · rw [singleEntry, readWord_writeWord_disjoint _ _ (by decide) (by decide) (by decide),
      readWord_writeWord_disjoint _ _ (by decide) (by decide) (by decide),
      readWord_writeWord_self _ _ (by decide), extent]
    bv_omega

theorem walkedAs_iff_single : ∃ m, Returns (kernEntry smallImage)
    ((bootMachine 0x10000).setMem (singleEntry 20)) () m ∧
      WalkedAs m [entryOfSize 20 (by decide)] := by
  obtain ⟨m, run, map⟩ := exists_singleEntry 20 (by decide) (by decide)
  refine ⟨m, run, (walkedAs_iff map).2 fun e he => ?_⟩
  rw [List.mem_singleton.1 he]
  rfl

/-- With four bytes behind the type of the only entry the walk goes on after it. -/
theorem not_walkedAs_of_extended : ¬ ∀ m es, Returns (kernEntry smallImage)
    ((bootMachine 0x10000).setMem (singleEntry 24)) () m → DescribesMap m es → WalkedAs m es := by
  intro claim
  obtain ⟨m, run, map⟩ := exists_singleEntry 24 (by decide) (by decide)
  have size := (claim m _ run map).sizes map _ (List.mem_singleton_self _)
  exact absurd size (by decide : (24 : Word) ≠ 20)

end SimpleKernel
