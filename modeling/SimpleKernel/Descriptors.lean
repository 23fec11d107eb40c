import SimpleKernel.Buffer
import SimpleKernel.PmmInit

/-!
# Segment and gate descriptors

`gdt_set_gate` and `idt_set_gate` cut the parts of a descriptor into the members of a packed entry of
eight bytes.  The processor reads the entry as one number of 64 bits and finds the parts in it.
-/

namespace SimpleKernel

open ByteStore ProgramLogic

/-! ## `gdt.h` and `gdt.c` -/

def gdtLength : ℕ := 5

/-- The members of `gdt_entry_t`. -/
inductive GdtField where
  | limitLow | baseLow | baseMiddle | access | granularty | baseHigh
  deriving DecidableEq, Repr

/-- The entry is packed. -/
def GdtField.offset : GdtField → Word
  | .limitLow => 0
  | .baseLow => 2
  | .baseMiddle => 4
  | .access => 5
  | .granularty => 6
  | .baseHigh => 7

/-- `&gdt_entries[num].f` in the table at `entries`. -/
def gdtEntryAt (entries num : Word) (f : GdtField) : Word := entries + 8 * num + f.offset

def gdtSetGate (entries num base limit : Word) (access gran : Byte) : Kernel Unit := do
  store16 (gdtEntryAt entries num .baseLow) ((base &&& 0xffff).setWidth 16)
  store8 (gdtEntryAt entries num .baseMiddle) ((base >>> 16 &&& 0xff).setWidth 8)
  store8 (gdtEntryAt entries num .baseHigh) ((base >>> 24 &&& 0xff).setWidth 8)
  store16 (gdtEntryAt entries num .limitLow) ((limit &&& 0xffff).setWidth 16)
  store8 (gdtEntryAt entries num .granularty) ((limit >>> 16 &&& 0x0f).setWidth 8)
  let granularty ← load8 (gdtEntryAt entries num .granularty)
  store8 (gdtEntryAt entries num .granularty) (granularty ||| (gran &&& 0xf0))
  store8 (gdtEntryAt entries num .access) access

/-! ## `idt.h` and `idt.c` -/

/-- `idt_entries` has an entry for every vector. -/
def idtLength : ℕ := 256

/-- The members of `idt_entry_t`. -/
inductive IdtField where
  | baseLo | sel | always0 | flags | baseHi
  deriving DecidableEq, Repr

/-- The entry is packed. -/
def IdtField.offset : IdtField → Word
  | .baseLo => 0
  | .sel => 2
  | .always0 => 4
  | .flags => 5
  | .baseHi => 6

/-- `&idt_entries[num].f` in the table at `entries`. -/
def idtEntryAt (entries : Word) (num : Byte) (f : IdtField) : Word :=
  entries + 8 * num.setWidth 32 + f.offset

def idtSetGate (entries : Word) (num : Byte) (base : Word) (sel : BitVec 16) (flags : Byte) :
    Kernel Unit := do
  store16 (idtEntryAt entries num .baseLo) ((base &&& 0xffff).setWidth 16)
  store16 (idtEntryAt entries num .baseHi) ((base >>> 16 &&& 0xffff).setWidth 16)
  store16 (idtEntryAt entries num .sel) sel
  store8 (idtEntryAt entries num .always0) 0
  store8 (idtEntryAt entries num .flags) flags

/-! ## The processor -/

/-- The descriptor at `a`, the lowest byte first. -/
def descriptorAt (mem : Store 32) (a : Word) : BitVec (32 + 32) :=
  readWord mem (a + 4) ++ readWord mem a

/-- What a segment descriptor says. -/
structure Segment where
  base : Word
  limit : Word
  access : Byte
  flags : BitVec 4
  deriving DecidableEq, Repr

/-- The parts of a segment descriptor: the base in bits 16 to 39 and from 56 on, the limit of 20 bits
in bits 0 to 15 and 48 to 51. -/
def segmentOf (d : BitVec (32 + 32)) : Segment where
  base := (d.extractLsb' 56 8 ++ d.extractLsb' 32 8 ++ d.extractLsb' 16 16 : BitVec (8 + 8 + 16))
  limit := (d.extractLsb' 48 4 ++ d.extractLsb' 0 16 : BitVec (4 + 16)).setWidth 32
  access := d.extractLsb' 40 8
  flags := d.extractLsb' 52 4

/-- What an interrupt gate says. -/
structure Gate where
  offset : Word
  selector : BitVec 16
  flags : Byte
  deriving DecidableEq, Repr

/-- The parts of an interrupt gate: the offset in bits 0 to 15 and from 48 on. -/
def gateOf (d : BitVec (32 + 32)) : Gate where
  offset := (d.extractLsb' 48 16 ++ d.extractLsb' 0 16 : BitVec (16 + 16))
  selector := d.extractLsb' 16 16
  flags := d.extractLsb' 40 8

/-! ## Entries as bytes -/

/-- The bytes of the entry that `gdt_set_gate` writes. -/
def gdtBytes (base limit : Word) (access gran : Byte) : List Byte :=
  [limit.extractLsb' 0 8, limit.extractLsb' 8 8, base.extractLsb' 0 8, base.extractLsb' 8 8,
   base.extractLsb' 16 8, access, limit.extractLsb' 16 8 &&& 0x0f ||| gran &&& 0xf0,
   base.extractLsb' 24 8]

/-- The bytes of the entry that `idt_set_gate` writes. -/
def idtBytes (base : Word) (sel : BitVec 16) (flags : Byte) : List Byte :=
  [base.extractLsb' 0 8, base.extractLsb' 8 8, sel.extractLsb' 0 8, sel.extractLsb' 8 8,
   0, flags, base.extractLsb' 16 8, base.extractLsb' 24 8]

/-- Eight bytes as a descriptor. -/
def descriptor (c : ℕ → Byte) : BitVec (32 + 32) :=
  (c 7 ++ c 6 ++ c 5 ++ c 4 : BitVec (8 + 8 + 8 + 8)) ++
    (c 3 ++ c 2 ++ c 1 ++ c 0 : BitVec (8 + 8 + 8 + 8))

/-- Masking and then narrowing is narrowing and then masking. -/
theorem setWidth_masked (v mask : Word) (s k : ℕ) :
    (v >>> s &&& mask).setWidth k = v.extractLsb' s k &&& mask.setWidth k := by
  apply BitVec.eq_of_getLsbD_eq
  intro i hi
  simp [hi]

theorem masked_half (v : Word) (s : ℕ) : (v >>> s &&& 0xffff).setWidth 16 = v.extractLsb' s 16 :=
  (setWidth_masked v 0xffff s 16).trans BitVec.and_allOnes

theorem low_half (v : Word) : (v &&& 0xffff).setWidth 16 = v.extractLsb' 0 16 := masked_half v 0

theorem masked_byte (v : Word) (s : ℕ) : (v >>> s &&& 0xff).setWidth 8 = v.extractLsb' s 8 :=
  (setWidth_masked v 0xff s 8).trans BitVec.and_allOnes

theorem masked_nibble (v : Word) (s : ℕ) :
    (v >>> s &&& 0x0f).setWidth 8 = v.extractLsb' s 8 &&& 0x0f :=
  setWidth_masked v 0x0f s 8

/-- A byte of a half is a byte of the word. -/
theorem byte_of_half (v : Word) (s c : ℕ) (h : c + 8 ≤ 16) :
    (v.extractLsb' s 16).extractLsb' c 8 = v.extractLsb' (s + c) 8 := by
  apply BitVec.eq_of_getLsbD_eq
  intro i hi
  have inside : c + i < 16 := by omega
  simp [hi, inside, Nat.add_assoc]

/-- `&entries[num]`, and a member behind it. -/
theorem entry_place (entries num off : Word) :
    entries + 8 * num + off = entries + BitVec.ofNat 32 (8 * num.toNat + off.toNat) := by
  bv_omega

theorem vector_toNat (num : Byte) : (num.setWidth 32).toNat = num.toNat := by
  rw [BitVec.toNat_setWidth, Nat.mod_eq_of_lt (by omega)]

/-! ## `gdt_set_gate` and `idt_set_gate` -/

section SetGate

variable {E : Stop → Machine → Prop} {m m' : Machine} {entries : Word} {n : ℕ} {f : ℕ → Byte}

/-- `gdt_set_gate` writes the eight bytes of its entry. -/
theorem Filled.gdtSetGate (filled : Filled m entries n f m') (buffer : Buffer m entries n)
    (num base limit : Word) (access gran : Byte) (inside : 8 * num.toNat + 8 ≤ n)
    {Q : Unit → Machine → Prop}
    (hQ : ∀ m'', Filled m entries n
      (overwrite f (8 * num.toNat) (gdtBytes base limit access gran)) m'' → Q () m'') :
    WP (gdtSetGate entries num base limit access gran) E Q m' := by
  have place (g : GdtField) (i : ℕ) (hi : g.offset.toNat = i) :
      gdtEntryAt entries num g = entries + BitVec.ofNat 32 (8 * num.toNat + i) :=
    hi ▸ entry_place _ _ _
  simp only [SimpleKernel.gdtSetGate, wp_bind, low_half, masked_byte, masked_nibble,
    place .limitLow 0 rfl, place .baseLow 2 rfl, place .baseMiddle 4 rfl, place .access 5 rfl,
    place .granularty 6 rfl, place .baseHigh 7 rfl]
  refine filled.store16 buffer (by omega) fun _ h => ?_
  refine h.store8 buffer (by omega) fun _ h => ?_
  refine h.store8 buffer (by omega) fun _ h => ?_
  refine h.store16 buffer (by omega) fun _ h => ?_
  refine h.store8 buffer (by omega) fun _ h => ?_
  refine h.load8 buffer (by omega) ?_
  refine h.store8 buffer (by omega) fun _ h => ?_
  refine h.store8 buffer (by omega) fun _ h => hQ _ ?_
  refine h.overwritten (fun i hi => ?_) fun j hj => ?_
  · have eight : i < 8 := hi
    interval_cases i <;> simp [gdtBytes]
  · have eight : j < 8 * num.toNat ∨ 8 * num.toNat + 8 ≤ j := hj
    simp (disch := omega) only [Function.update_of_ne]

/-- `idt_set_gate` writes the eight bytes of its entry. -/
theorem Filled.idtSetGate (filled : Filled m entries n f m') (buffer : Buffer m entries n)
    (num : Byte) (base : Word) (sel : BitVec 16) (flags : Byte) (inside : 8 * num.toNat + 8 ≤ n)
    {Q : Unit → Machine → Prop}
    (hQ : ∀ m'', Filled m entries n
      (overwrite f (8 * num.toNat) (idtBytes base sel flags)) m'' → Q () m'') :
    WP (idtSetGate entries num base sel flags) E Q m' := by
  have place (g : IdtField) (i : ℕ) (hi : g.offset.toNat = i) :
      idtEntryAt entries num g = entries + BitVec.ofNat 32 (8 * num.toNat + i) := by
    rw [idtEntryAt, entry_place, vector_toNat, hi]
  simp only [SimpleKernel.idtSetGate, wp_bind, low_half base, masked_half, place .baseLo 0 rfl,
    place .sel 2 rfl, place .always0 4 rfl, place .flags 5 rfl, place .baseHi 6 rfl]
  refine filled.store16 buffer (by omega) fun _ h => ?_
  refine h.store16 buffer (by omega) fun _ h => ?_
  refine h.store16 buffer (by omega) fun _ h => ?_
  refine h.store8 buffer (by omega) fun _ h => ?_
  refine h.store8 buffer (by omega) fun _ h => hQ _ ?_
  refine h.overwritten (fun i hi => ?_) fun j hj => ?_
  · have eight : i < 8 := hi
    interval_cases i <;> simp [idtBytes, Nat.add_assoc, byte_of_half]
  · have eight : j < 8 * num.toNat ∨ 8 * num.toNat + 8 ≤ j := hj
    simp (disch := omega) only [Function.update_of_ne]

end SetGate

/-! ## Decoding -/

section Decoding

theorem extract_low_bytes (b3 b2 b1 b0 : Byte) :
    (b3 ++ b2 ++ b1 ++ b0 : BitVec (8 + 8 + 8 + 8)).extractLsb' 0 16 = (b1 ++ b0 : BitVec (8 + 8)) := by
  apply BitVec.eq_of_getLsbD_eq
  intro i hi
  simp only [BitVec.getLsbD_extractLsb', BitVec.getLsbD_append, Nat.zero_add, decide_eq_true hi,
    Bool.true_and, if_pos (by omega : i - 8 < 8)]

/-- The fields of a descriptor, each within one of its bytes or made of two. -/
theorem descriptor_fields (c : ℕ → Byte) :
    (descriptor c).extractLsb' 0 16 = (c 1 ++ c 0 : BitVec (8 + 8)) ∧
    (descriptor c).extractLsb' 16 16 = (c 3 ++ c 2 : BitVec (8 + 8)) ∧
    (descriptor c).extractLsb' 32 8 = c 4 ∧ (descriptor c).extractLsb' 40 8 = c 5 ∧
    (descriptor c).extractLsb' 48 4 = (c 6).extractLsb' 0 4 ∧
    (descriptor c).extractLsb' 52 4 = (c 6).extractLsb' 4 4 ∧
    (descriptor c).extractLsb' 56 8 = c 7 ∧
    (descriptor c).extractLsb' 48 16 = (c 7 ++ c 6 : BitVec (8 + 8)) := by
  simp (disch := decide) only [descriptor, BitVec.extractLsb'_append_eq_of_le,
    BitVec.extractLsb'_append_eq_of_add_le, extract_low_bytes]
  exact ⟨trivial, BitVec.extractLsb'_eq_self, BitVec.extractLsb'_eq_self,
    BitVec.extractLsb'_eq_self, trivial, trivial, BitVec.extractLsb'_eq_self,
    BitVec.extractLsb'_eq_self⟩

/-- A word put together again from its half and its two high bytes. -/
theorem word_of_parts (v : Word) :
    (v.extractLsb' 24 8 ++ v.extractLsb' 16 8 ++
      (v.extractLsb' 8 8 ++ v.extractLsb' 0 8 : BitVec (8 + 8)) : BitVec (8 + 8 + 16)) = v := by
  apply BitVec.eq_of_getLsbD_eq
  intro i hi
  simp only [BitVec.getLsbD_append, BitVec.getLsbD_extractLsb']
  split_ifs <;> grind

theorem low_nibble (x y : Byte) :
    (x &&& 0x0f ||| y &&& 0xf0).extractLsb' 0 4 = x.extractLsb' 0 4 := by
  apply BitVec.eq_of_getLsbD_eq
  intro i hi
  simp only [BitVec.getLsbD_extractLsb', BitVec.getLsbD_or, BitVec.getLsbD_and]
  interval_cases i <;> simp

theorem high_nibble (x y : Byte) :
    (x &&& 0x0f ||| y &&& 0xf0).extractLsb' 4 4 = y.extractLsb' 4 4 := by
  apply BitVec.eq_of_getLsbD_eq
  intro i hi
  simp only [BitVec.getLsbD_extractLsb', BitVec.getLsbD_or, BitVec.getLsbD_and]
  interval_cases i <;> simp

theorem low20_of_parts (v : Word) :
    ((v.extractLsb' 16 8).extractLsb' 0 4 ++
      (v.extractLsb' 8 8 ++ v.extractLsb' 0 8 : BitVec (8 + 8)) : BitVec (4 + 16)) =
      v.extractLsb' 0 20 := by
  apply BitVec.eq_of_getLsbD_eq
  intro i hi
  simp only [BitVec.getLsbD_append, BitVec.getLsbD_extractLsb']
  split_ifs <;> grind

/-- A segment comes back from its entry with 20 bits of its limit. -/
theorem segmentOf_gdtBytes (base limit : Word) (access gran : Byte) :
    segmentOf (descriptor fun i => (gdtBytes base limit access gran).getD i 0) =
      ⟨base, (limit.extractLsb' 0 20).setWidth 32, access, gran.extractLsb' 4 4⟩ := by
  obtain ⟨f0, f16, f32, f40, f48, f52, f56, -⟩ :=
    descriptor_fields fun i => (gdtBytes base limit access gran).getD i 0
  unfold segmentOf
  rw [f0, f16, f32, f40, f48, f52, f56]
  simp only [gdtBytes, List.getD_cons_zero, List.getD_cons_succ, low_nibble, high_nibble,
    word_of_parts, low20_of_parts]

theorem word_of_halves (v : Word) :
    ((v.extractLsb' 24 8 ++ v.extractLsb' 16 8 : BitVec (8 + 8)) ++
      (v.extractLsb' 8 8 ++ v.extractLsb' 0 8 : BitVec (8 + 8)) : BitVec (16 + 16)) = v := by
  apply BitVec.eq_of_getLsbD_eq
  intro i hi
  simp only [BitVec.getLsbD_append, BitVec.getLsbD_extractLsb']
  split_ifs <;> grind

/-- An interrupt gate comes back from its entry. -/
theorem gateOf_idtBytes (base : Word) (sel : BitVec 16) (flags : Byte) :
    gateOf (descriptor fun i => (idtBytes base sel flags).getD i 0) = ⟨base, sel, flags⟩ := by
  obtain ⟨f0, f16, -, f40, -, -, -, f48⟩ :=
    descriptor_fields fun i => (idtBytes base sel flags).getD i 0
  have half : (sel.extractLsb' 8 8 ++ sel.extractLsb' 0 8 : BitVec (8 + 8)) = sel :=
    BitVec.extractLsb'_append_extractLsb'
  unfold gateOf
  rw [f0, f16, f40, f48]
  simp only [idtBytes, List.getD_cons_zero, List.getD_cons_succ, word_of_halves, half]

end Decoding

/-! ## Entries of a table -/

section Table

variable {m m' : Machine} {entries : Word} {j k n : ℕ} {t : List Byte}

theorem descriptor_congr {c c' : ℕ → Byte} (h : ∀ i < 8, c i = c' i) :
    descriptor c = descriptor c' := by
  unfold descriptor
  rw [h 0 (by omega), h 1 (by omega), h 2 (by omega), h 3 (by omega), h 4 (by omega),
    h 5 (by omega), h 6 (by omega), h 7 (by omega)]

theorem descriptorAt_eq (m : Machine) (p : Word) (k : ℕ) :
    descriptorAt (view m) (p + BitVec.ofNat 32 k) = descriptor fun i => contents m p (k + i) := by
  simp only [descriptorAt, readWord, descriptor, contents, ← offset_offset, BitVec.add_zero,
    BitVec.add_assoc]
  rfl

/-- The entry whose eight bytes were written. -/
theorem Filled.descriptorAt_written
    (filled : Filled m entries n (overwrite (contents m entries) k t) m') (eight : t.length = 8)
    (inside : k + 8 ≤ n) :
    descriptorAt (view m') (entries + BitVec.ofNat 32 k) = descriptor fun i => t.getD i 0 := by
  rw [descriptorAt_eq]
  refine descriptor_congr fun i hi => ?_
  rw [filled.inside _ (by omega), overwrite_inside (by omega)]

/-- The other entries. -/
theorem Filled.descriptorAt_other
    (filled : Filled m entries n (overwrite (contents m entries) k t) m') (eight : t.length = 8)
    (inside : j + 8 ≤ n) (apart : j + 8 ≤ k ∨ k + 8 ≤ j) :
    descriptorAt (view m') (entries + BitVec.ofNat 32 j) =
      descriptorAt (view m) (entries + BitVec.ofNat 32 j) := by
  rw [descriptorAt_eq, descriptorAt_eq]
  refine descriptor_congr fun i hi => ?_
  rw [filled.inside _ (by omega), overwrite_outside (by omega)]

/-- `&entries[num]`. -/
theorem entry_offset (entries num : Word) :
    entries + 8 * num = entries + BitVec.ofNat 32 (8 * num.toNat) := by
  bv_omega

/-- `gdt_set_gate` makes its entry the segment asked for, with 20 bits of the limit. -/
theorem gdtSetGate_returns (buffer : Buffer m entries (8 * gdtLength)) {num : Word}
    (inside : num.toNat < gdtLength) (base limit : Word) (access gran : Byte) :
    ∃ m', Returns (gdtSetGate entries num base limit access gran) m () m' ∧
      segmentOf (descriptorAt (view m') (entries + 8 * num)) =
        ⟨base, (limit.extractLsb' 0 20).setWidth 32, access, gran.extractLsb' 4 4⟩ ∧
      ∀ i : Word, i.toNat < gdtLength → i ≠ num →
        descriptorAt (view m') (entries + 8 * i) = descriptorAt (view m) (entries + 8 * i) := by
  have written : WP (gdtSetGate entries num base limit access gran) (fun _ _ => False)
      (fun _ => Filled m entries (8 * gdtLength) (overwrite (contents m entries) (8 * num.toNat)
        (gdtBytes base limit access gran))) m :=
    (filled_self m entries _).gdtSetGate buffer num base limit access gran (by omega) fun _ h => h
  obtain ⟨⟨⟩, m', run, filled⟩ := written.returns
  refine ⟨m', run, ?_, fun i hi ne => ?_⟩
  · rw [entry_offset, filled.descriptorAt_written rfl (by omega), segmentOf_gdtBytes]
  · have apart : i.toNat ≠ num.toNat := fun h => ne (BitVec.eq_of_toNat_eq h)
    rw [entry_offset, filled.descriptorAt_other rfl (by omega) (by omega)]

/-- `idt_set_gate` makes its entry the gate asked for. -/
theorem idtSetGate_returns (buffer : Buffer m entries (8 * idtLength)) (num : Byte) (base : Word)
    (sel : BitVec 16) (flags : Byte) :
    ∃ m', Returns (idtSetGate entries num base sel flags) m () m' ∧
      gateOf (descriptorAt (view m') (entries + 8 * num.setWidth 32)) = ⟨base, sel, flags⟩ ∧
      ∀ i : Byte, i ≠ num → descriptorAt (view m') (entries + 8 * i.setWidth 32) =
        descriptorAt (view m) (entries + 8 * i.setWidth 32) := by
  have room (i : Byte) : 8 * i.toNat + 8 ≤ 8 * idtLength := by
    have below : i.toNat < idtLength := i.isLt
    omega
  have written : WP (idtSetGate entries num base sel flags) (fun _ _ => False)
      (fun _ => Filled m entries (8 * idtLength) (overwrite (contents m entries) (8 * num.toNat)
        (idtBytes base sel flags))) m :=
    (filled_self m entries _).idtSetGate buffer num base sel flags (room num) fun _ h => h
  obtain ⟨⟨⟩, m', run, filled⟩ := written.returns
  refine ⟨m', run, ?_, fun i ne => ?_⟩
  · rw [entry_offset, vector_toNat, filled.descriptorAt_written rfl (room num), gateOf_idtBytes]
  · have apart : i.toNat ≠ num.toNat := fun h => ne (BitVec.eq_of_toNat_eq h)
    rw [entry_offset, vector_toNat, filled.descriptorAt_other rfl (room i) (by omega)]

/-- The encoders lose nothing and leave the other entries alone. -/
theorem setGate_decodes {gdt idt : Word} (hgdt : Buffer m gdt (8 * gdtLength))
    (hidt : Buffer m idt (8 * idtLength)) :
    (∀ (num base limit : Word) (access gran : Byte), num.toNat < gdtLength → limit.toNat < 2 ^ 20 →
      ∃ m', Returns (gdtSetGate gdt num base limit access gran) m () m' ∧
        segmentOf (descriptorAt (view m') (gdt + 8 * num)) =
          ⟨base, limit, access, gran.extractLsb' 4 4⟩ ∧
        ∀ i : Word, i.toNat < gdtLength → i ≠ num →
          descriptorAt (view m') (gdt + 8 * i) = descriptorAt (view m) (gdt + 8 * i)) ∧
    ∀ (num : Byte) (base : Word) (sel : BitVec 16) (flags : Byte),
      ∃ m', Returns (idtSetGate idt num base sel flags) m () m' ∧
        gateOf (descriptorAt (view m') (idt + 8 * num.setWidth 32)) = ⟨base, sel, flags⟩ ∧
        ∀ i : Byte, i ≠ num → descriptorAt (view m') (idt + 8 * i.setWidth 32) =
          descriptorAt (view m) (idt + 8 * i.setWidth 32) := by
  refine ⟨fun num base limit access gran inside small => ?_, idtSetGate_returns hidt⟩
  have whole : (limit.extractLsb' 0 20).setWidth 32 = limit := by
    apply BitVec.eq_of_toNat_eq
    rw [BitVec.toNat_setWidth, BitVec.extractLsb'_toNat, Nat.shiftRight_zero]
    omega
  have returns := gdtSetGate_returns hgdt inside base limit access gran
  rwa [whole] at returns

end Table

/-- An entry of ones becomes a segment whose base and limit use all their fields. -/
theorem setGate_decodes_ones : ∃ m m', Booted (fun _ => 0xFF) m ∧
    Returns (gdtSetGate 0x200000 1 0x12345678 0xABCDE 0x9A 0xCF) m () m' ∧
    segmentOf (descriptorAt (view m') 0x200008) = ⟨0x12345678, 0xABCDE, 0x9A, 0xC⟩ := by
  obtain ⟨m, booted⟩ := exists_booted fun _ => 0xFF
  have both := setGate_decodes (booted.temp.buffer (p := 0x200000) (by decide) (by decide))
    (booted.temp.buffer (p := 0x201000) (by decide) (by decide))
  obtain ⟨m', run, segment, -⟩ := both.1 1 0x12345678 0xABCDE 0x9A 0xCF (by decide) (by decide)
  exact ⟨m, m', booted, run, segment⟩

end SimpleKernel
