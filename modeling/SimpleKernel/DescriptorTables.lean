import SimpleKernel.Descriptors
import SimpleKernel.Interrupts
import SimpleKernel.Lib.Refinement

/-!
# The tables of segments and interrupts

`init_gdt`, `gdt_flush`, `idt_flush` and the part of `init_idt` that fills the table.  The processor
takes segments and interrupts through the tables that its table registers name, and refuses
descriptors that are not present, not of the right kind or behind the limit.
-/

namespace SimpleKernel

open ByteStore ProgramLogic X86

/-! ## The processor -/

/-- `gdtr` and `idtr`. -/
structure TableRegister where
  limit : BitVec 16
  base : Word
  deriving DecidableEq, Repr

/-- The machine with the registers of protected mode, at privilege level 0. -/
structure Protected where
  machine : Machine
  gdtr : TableRegister
  idtr : TableRegister
  seg : Seg → BitVec 16

/-- Why privileged code stops. -/
inductive ProtectedStop where
  | kernel (e : Stop)
  | generalProtection (selector : BitVec 16)
  deriving DecidableEq, Repr

namespace Segment

/-- A data segment register takes segments that are present and readable; the stack segment is
writable data of level 0. -/
def loadable (d : Segment) (s : Seg) : Bool :=
  if s = .ss then d.access &&& 0xFA == 0x92
  else d.access &&& 0x90 == 0x90 && !(d.access &&& 0x0A == 0x08)

/-- The segment is present code of level 0. -/
def code (d : Segment) : Bool := d.access &&& 0xF8 == 0x98

/-- The limit counts bytes or, with the granularity flag, pages. -/
def covers (d : Segment) (x : Word) : Bool :=
  x.toNat ≤ if d.flags.getLsbD 3 then d.limit.toNat * 4096 + 4095 else d.limit.toNat

end Segment

namespace Protected

@[simps -fullyApplied]
def setMachine (t : Protected) (machine : Machine) : Protected := { t with machine := machine }

/-- The segment that a selector names: neither the null selector nor one of a local table, and not
behind the limit. -/
def segmentAt (t : Protected) (selector : BitVec 16) : Option Segment :=
  if 8 ≤ selector.toNat ∧ selector.getLsbD 2 = false ∧
      selector.toNat / 8 * 8 + 7 ≤ t.gdtr.limit.toNat then
    some (segmentOf (descriptorAt (view t.machine)
      (t.gdtr.base + 8 * BitVec.ofNat 32 (selector.toNat / 8))))
  else
    none

/-- The gate for the vector `n`, if it is a present interrupt gate of 32 bits. -/
def gateAt (t : Protected) (n : Byte) : Option Gate :=
  let gate := gateOf (descriptorAt (view t.machine) (t.idtr.base + 8 * n.setWidth 32))
  if 8 * n.toNat + 7 ≤ t.idtr.limit.toNat ∧ gate.flags &&& 0x9F = 0x8E then some gate else none

/-- Where the processor goes on at an interrupt with the vector `n`, with its new code segment. -/
def vectorEntry (t : Protected) (n : Byte) : Option (BitVec 16 × Word) := do
  let gate ← t.gateAt n
  let d ← t.segmentAt gate.selector
  if d.code ∧ d.covers gate.offset then
    return (gate.selector, d.base + gate.offset)
  else
    none

abbrev Privileged (α : Type) := Prog Protected ProtectedStop α

def onMachine {α : Type} (c : Kernel α) : Privileged α := focus .kernel machine setMachine c

/-- The operand of `lgdt` and `lidt`. -/
def loadTable (a : Word) : Privileged TableRegister := do
  let low ← onMachine (load8 a)
  let high ← onMachine (load8 (a + 1))
  let base ← onMachine (load32 (a + 2))
  return ⟨(high ++ low : BitVec (8 + 8)), base⟩

/-- A selector is moved to a data segment register. -/
def loadSeg (s : Seg) (selector : BitVec 16) : Privileged Unit := do
  match (← get).segmentAt selector with
  | some d =>
    if d.loadable s then
      modify fun t => { t with seg := Function.update t.seg s selector }
    else
      throw (.generalProtection selector)
  | none => throw (.generalProtection selector)

/-- A jump to another code segment. -/
def farJump (selector : BitVec 16) : Privileged Unit := do
  match (← get).segmentAt selector with
  | some d =>
    if d.code then
      modify fun t => { t with seg := Function.update t.seg .cs selector }
    else
      throw (.generalProtection selector)
  | none => throw (.generalProtection selector)

/-! ## `gdt.c` and `gdt_s.s` -/

def gdtFlush (gdtPtr : Word) : Privileged Unit := do
  let gdtr ← loadTable gdtPtr
  modify fun t => { t with gdtr := gdtr }
  loadSeg .ds 0x10
  loadSeg .es 0x10
  loadSeg .fs 0x10
  loadSeg .gs 0x10
  loadSeg .ss 0x10
  farJump 0x08

/-- `gdt_ptr` or `idt_ptr`, which are packed. -/
def storePtr (ptr : Word) (limit : BitVec 16) (base : Word) : Kernel Unit := do
  store16 ptr limit
  store32 (ptr + 2) base

def initGdt (gdtEntries gdtPtr : Word) : Privileged Unit := do
  onMachine do
    storePtr gdtPtr (BitVec.ofNat 16 (8 * gdtLength - 1)) gdtEntries
    gdtSetGate gdtEntries 0 0 0 0 0
    gdtSetGate gdtEntries 1 0 0xffffffff 0x9A 0xCF
    gdtSetGate gdtEntries 2 0 0xffffffff 0x92 0xCF
    gdtSetGate gdtEntries 3 0 0xffffffff 0xFA 0xCF
    gdtSetGate gdtEntries 4 0 0xffffffff 0xF2 0xCF
  gdtFlush gdtPtr

/-! ## `idt.c` and `idt_s.s` -/

/-- The vectors for which `init_idt` sets a gate, in its order. -/
def installed : List Byte := (List.range 48).map (BitVec.ofNat 8) ++ [255]

/-- They are those that have a stub. -/
example : installed.Perm ((isrs ++ irqs).map fun e => e.1.setWidth 8) := by decide

def idtFlush (idtPtr : Word) : Privileged Unit := do
  let idtr ← loadTable idtPtr
  modify fun t => { t with idtr := idtr }

/-- `init_idt` behind `init_8259APIC`; the stub for the vector `n` is at `stub n`. -/
def initIdt (idtEntries idtPtr : Word) (stub : Byte → Word) : Privileged Unit := do
  onMachine do
    modify fun m => { m with interruptHandlers := fun _ => 0 }
    storePtr idtPtr (BitVec.ofNat 16 (8 * idtLength - 1)) idtEntries
    bzero idtEntries (8 * idtLength)
    installed.forM fun n => idtSetGate idtEntries n (stub n) 0x08 0x8E
  idtFlush idtPtr

end Protected

/-! ## Tables in memory -/

/-- Where the tables lie in the kernel's data. -/
structure Tables where
  data : Word
  size : ℕ
  gdt : ℕ
  gdtPtr : ℕ
  idt : ℕ
  idtPtr : ℕ
  inside : gdt + 40 ≤ size ∧ gdtPtr + 6 ≤ size ∧ idt + 2048 ≤ size ∧ idtPtr + 6 ≤ size
  apart : [(gdt, 40), (gdtPtr, 6), (idt, 2048), (idtPtr, 6)].Pairwise fun x y =>
    x.1 + x.2 ≤ y.1 ∨ y.1 + y.2 ≤ x.1

namespace Tables

def gdtEntries (T : Tables) : Word := T.data + BitVec.ofNat 32 T.gdt

def gdtPtrAt (T : Tables) : Word := T.data + BitVec.ofNat 32 T.gdtPtr

def idtEntries (T : Tables) : Word := T.data + BitVec.ofNat 32 T.idt

def idtPtrAt (T : Tables) : Word := T.data + BitVec.ofNat 32 T.idtPtr

end Tables

/-- The bytes of `gdt_ptr_t` and `idt_ptr_t`, which are packed. -/
def ptrBytes (limit : BitVec 16) (base : Word) : List Byte :=
  [limit.extractLsb' 0 8, limit.extractLsb' 8 8, byteOf base 0, byteOf base 1, byteOf base 2,
   byteOf base 3]

/-- The entry `i` that `init_gdt` writes. -/
def gdtEntry : ℕ → List Byte
  | 1 => gdtBytes 0 0xffffffff 0x9A 0xCF
  | 2 => gdtBytes 0 0xffffffff 0x92 0xCF
  | 3 => gdtBytes 0 0xffffffff 0xFA 0xCF
  | 4 => gdtBytes 0 0xffffffff 0xF2 0xCF
  | _ => gdtBytes 0 0 0 0

/-- `f` with the gates for the vectors in `l`. -/
def withGates (idt : ℕ) (stub : Byte → Word) (l : List Byte) (f : ℕ → Byte) : ℕ → Byte :=
  l.foldl (fun f n => overwrite f (idt + 8 * n.toNat) (idtBytes (stub n) 0x08 0x8E)) f

section Filling

variable {E : Stop → Machine → Prop} {m m' : Machine} {p : Word} {size k l : ℕ} {f : ℕ → Byte}

theorem Filled.storePtr (filled : Filled m p size f m') (buffer : Buffer m p size)
    (inside : k + 6 ≤ size) (limit : BitVec 16) (base : Word) {Q : Unit → Machine → Prop}
    (hQ : ∀ m'', Filled m p size (overwrite f k (ptrBytes limit base)) m'' → Q () m'') :
    WP (Protected.storePtr (p + BitVec.ofNat 32 k) limit base) E Q m' := by
  have two : p + BitVec.ofNat 32 k + 2 = p + BitVec.ofNat 32 (k + 2) := offset_offset ..
  simp only [Protected.storePtr, wp_bind, two]
  refine filled.store16 buffer (by omega) fun _ h => ?_
  refine h.store32 buffer (by omega) fun _ h => hQ _ ?_
  rwa [show k + 2 = k + 1 + 1 from rfl, overwrite_cons, overwrite_cons] at h

theorem Filled.gdtGate (filled : Filled m p size f m') (buffer : Buffer m p size)
    (inside : k + 40 ≤ size) {num : Word} (few : num.toNat < 5) (base limit : Word)
    (access gran : Byte) {Q : Unit → Machine → Prop}
    (hQ : ∀ m'', Filled m p size
      (overwrite f (k + 8 * num.toNat) (gdtBytes base limit access gran)) m'' → Q () m'') :
    WP (SimpleKernel.gdtSetGate (p + BitVec.ofNat 32 k) num base limit access gran) E Q m' := by
  refine (filled.sub inside).gdtSetGate (filled.part buffer inside) num base limit access gran
    (by omega) fun m'' h => hQ m'' ?_
  have whole := filled.splice buffer inside h
  rwa [splice_overwrite (by simp [gdtBytes]; omega)] at whole

theorem Filled.idtGate (filled : Filled m p size f m') (buffer : Buffer m p size)
    (inside : k + 2048 ≤ size) (num : Byte) (base : Word) (sel : BitVec 16) (flags : Byte)
    {Q : Unit → Machine → Prop}
    (hQ : ∀ m'', Filled m p size (overwrite f (k + 8 * num.toNat) (idtBytes base sel flags)) m'' →
      Q () m'') : WP (SimpleKernel.idtSetGate (p + BitVec.ofNat 32 k) num base sel flags) E Q m' := by
  have few := num.isLt
  refine (filled.sub inside).idtSetGate (filled.part buffer inside) num base sel flags (by omega)
    fun m'' h => hQ m'' ?_
  have whole := filled.splice buffer inside h
  rwa [splice_overwrite (by simp [idtBytes]; omega)] at whole

/-- The entry with these eight bytes. -/
theorem Filled.descriptor_eq (filled : Filled m p size f m') (inside : k + 8 ≤ size) {t : List Byte}
    (bytes : ∀ j < 8, f (k + j) = t.getD j 0) :
    descriptorAt (view m') (p + BitVec.ofNat 32 k) = descriptor fun j => t.getD j 0 := by
  rw [descriptorAt_eq]
  refine descriptor_congr fun j hj => ?_
  rw [filled.inside (k + j) (by omega), bytes j hj]

end Filling

section Gates

variable {idt k : ℕ} {stub : Byte → Word} {l : List Byte} {f : ℕ → Byte}

theorem withGates_outside (h : k < idt ∨ idt + 2048 ≤ k) : withGates idt stub l f k = f k := by
  induction l generalizing f with
  | nil => rfl
  | cons n l ih =>
    have few := n.isLt
    rw [withGates, List.foldl_cons, ← withGates, ih, overwrite_outside]
    simp only [idtBytes, List.length_cons, List.length_nil]
    omega

/-- The entry of a vector is its gate, or is left alone. -/
theorem withGates_entry (n : Byte) {j : ℕ} (hj : j < 8) :
    withGates idt stub l f (idt + 8 * n.toNat + j) =
      if n ∈ l then (idtBytes (stub n) 0x08 0x8E).getD j 0 else f (idt + 8 * n.toNat + j) := by
  induction l generalizing f with
  | nil => rfl
  | cons a l ih =>
    rw [withGates, List.foldl_cons, ← withGates, ih]
    by_cases later : n ∈ l
    · simp [later]
    by_cases same : n = a
    · subst same
      rw [if_neg later, if_pos List.mem_cons_self, overwrite_inside (by simpa [idtBytes] using hj)]
    · have other : n.toNat ≠ a.toNat := fun h => same (BitVec.eq_of_toNat_eq h)
      rw [if_neg later, if_neg (by simp [same, later]), overwrite_outside]
      simp only [idtBytes, List.length_cons, List.length_nil]
      omega

end Gates

/-! ## `init_gdt` and `init_idt` -/

namespace Protected

section Specs

variable {E : ProtectedStop → Protected → Prop} {t : Protected} {m : Machine} {p : Word}
  {size k : ℕ} {f : ℕ → Byte}

/-- The operand of `lgdt` and `lidt` is read back. -/
theorem loadTable_spec (filled : Filled m p size f t.machine) (buffer : Buffer m p size)
    (inside : k + 6 ≤ size) {limit : BitVec 16} {base : Word}
    (bytes : ∀ j < 6, f (k + j) = (ptrBytes limit base).getD j 0)
    {Q : TableRegister → Protected → Prop} (hQ : Q ⟨limit, base⟩ t) :
    WP (loadTable (p + BitVec.ofNat 32 k)) E Q t := by
  have two : p + BitVec.ofNat 32 k + 2 = p + BitVec.ofNat 32 (k + 2) := offset_offset ..
  have low : f k = limit.extractLsb' 0 8 := bytes 0 (by decide)
  have high : f (k + 1) = limit.extractLsb' 8 8 := bytes 1 (by decide)
  have b0 : f (k + 2) = byteOf base 0 := bytes 2 (by decide)
  have b1 : f (k + 2 + 1) = byteOf base 1 := bytes 3 (by decide)
  have b2 : f (k + 2 + 2) = byteOf base 2 := bytes 4 (by decide)
  have b3 : f (k + 2 + 3) = byteOf base 3 := bytes 5 (by decide)
  have halves : (limit.extractLsb' 8 8 ++ limit.extractLsb' 0 8 : BitVec (8 + 8)) = limit := by
    rw [BitVec.extractLsb'_append_extractLsb'_eq_extractLsb' (by decide)]
    exact BitVec.extractLsb'_eq_self
  simp only [loadTable, onMachine, wp_bind, wp_focus, two, offset_succ, setMachine_machine]
  refine filled.load8 buffer (by omega) ?_
  refine filled.load8 buffer (by omega) ?_
  refine filled.load32 buffer (by omega) ?_
  rw [low, high, b0, b1, b2, b3, word_of_bytes, halves]
  exact hQ

/-- The contents of the kernel's data behind `init_gdt`. -/
def withGdt (T : Tables) (f : ℕ → Byte) : ℕ → Byte :=
  (List.range 5).foldl (fun f i => overwrite f (T.gdt + 8 * i) (gdtEntry i))
    (overwrite f T.gdtPtr (ptrBytes 39 T.gdtEntries))

theorem gdtEntry_length : ∀ i < 5, (gdtEntry i).length = 8 := by
  intro i hi
  interval_cases i <;> rfl

theorem withGdt_entry (T : Tables) {i j : ℕ} (hi : i < 5) (hj : j < 8) :
    withGdt T f (T.gdt + 8 * i + j) = (gdtEntry i).getD j 0 := by
  have len := gdtEntry_length
  have each (g : ℕ → Byte) (e : ℕ) (he : e < 5) :
      overwrite g (T.gdt + 8 * e) (gdtEntry e) (T.gdt + 8 * i + j) =
        if e = i then (gdtEntry i).getD j 0 else g (T.gdt + 8 * i + j) := by
    split
    next h =>
      subst h
      exact overwrite_inside (by rw [len e he]; exact hj)
    next h => exact overwrite_outside (by rw [len e he]; omega)
  simp only [withGdt, List.range_succ, List.range_zero, List.nil_append, List.foldl_append,
    List.foldl_cons, List.foldl_nil, each _ 4 (by decide), each _ 3 (by decide), each _ 2 (by decide),
    each _ 1 (by decide), each _ 0 (by decide)]
  interval_cases i <;> simp

theorem withGdt_outside (T : Tables) {i : ℕ} (h : i < T.gdt ∨ T.gdt + 40 ≤ i) :
    withGdt T f i = overwrite f T.gdtPtr (ptrBytes 39 T.gdtEntries) i := by
  have len := gdtEntry_length
  have each (g : ℕ → Byte) (e : ℕ) (he : e < 5) :
      overwrite g (T.gdt + 8 * e) (gdtEntry e) i = g i :=
    overwrite_outside (by rw [len e he]; omega)
  simp only [withGdt, List.range_succ, List.range_zero, List.nil_append, List.foldl_append,
    List.foldl_cons, List.foldl_nil, each _ 4 (by decide), each _ 3 (by decide), each _ 2 (by decide),
    each _ 1 (by decide), each _ 0 (by decide)]

/-- The segments of the table that `init_gdt` loads. -/
theorem segmentAt_eq {T : Tables} (filled : Filled m T.data T.size f t.machine)
    (gdtr : t.gdtr = ⟨39, T.gdtEntries⟩)
    (table : ∀ i < 5, ∀ j < 8, f (T.gdt + 8 * i + j) = (gdtEntry i).getD j 0) {i : ℕ} (pos : 0 < i)
    (few : i < 5) : t.segmentAt (BitVec.ofNat 16 (8 * i)) =
      some (segmentOf (descriptor fun j => (gdtEntry i).getD j 0)) := by
  obtain ⟨inside, -⟩ := T.inside
  have place : T.gdtEntries + 8 * BitVec.ofNat 32 i = T.data + BitVec.ofNat 32 (T.gdt + 8 * i) := by
    rw [Tables.gdtEntries, ← offset_offset, BitVec.ofNat_mul]
    rfl
  have selector : (BitVec.ofNat 16 (8 * i)).toNat = 8 * i := by
    rw [BitVec.toNat_ofNat]
    omega
  have global : (BitVec.ofNat 16 (8 * i)).getLsbD 2 = false := by
    interval_cases i <;> rfl
  have index : 8 * i / 8 = i := by omega
  have reach : i * 8 + 7 ≤ 39 := by omega
  rw [segmentAt, selector, global, gdtr, index, place,
    filled.descriptor_eq (by omega) fun j hj => table i few j hj]
  exact if_pos ⟨by omega, rfl, reach⟩

theorem loadSeg_spec {s : Seg} {selector : BitVec 16} {d : Segment}
    (named : t.segmentAt selector = some d) (ok : d.loadable s) {Q : Unit → Protected → Prop}
    (hQ : Q () { t with seg := Function.update t.seg s selector }) :
    WP (loadSeg s selector) E Q t := by
  simp only [loadSeg, wp_bind, wp_get, named, if_pos ok]
  exact hQ

theorem farJump_spec {selector : BitVec 16} {d : Segment} (named : t.segmentAt selector = some d)
    (ok : d.code) {Q : Unit → Protected → Prop}
    (hQ : Q () { t with seg := Function.update t.seg .cs selector }) :
    WP (farJump selector) E Q t := by
  simp only [farJump, wp_bind, wp_get, named, if_pos ok]
  exact hQ

/-- The segments are flat: they begin at 0 and cover all addresses. -/
def flatSegment (access : Byte) : Segment := ⟨0, 0xFFFFF, access, 0xC⟩

theorem flatSegment_covers (access : Byte) (x : Word) : (flatSegment access).covers x := by
  have := x.isLt
  simp [Segment.covers, flatSegment]
  omega

theorem gdtEntry_flat : segmentOf (descriptor fun j => (gdtEntry 1).getD j 0) = flatSegment 0x9A ∧
    segmentOf (descriptor fun j => (gdtEntry 2).getD j 0) = flatSegment 0x92 ∧
    segmentOf (descriptor fun j => (gdtEntry 3).getD j 0) = flatSegment 0xFA ∧
    segmentOf (descriptor fun j => (gdtEntry 4).getD j 0) = flatSegment 0xF2 :=
  ⟨segmentOf_gdtBytes .., segmentOf_gdtBytes .., segmentOf_gdtBytes .., segmentOf_gdtBytes ..⟩

/-- The kernel's selectors. -/
def kernelSeg : Seg → BitVec 16 := fun s => if s = .cs then 0x08 else 0x10

/-- `gdt_flush` loads the table and then segments that are in it. -/
theorem gdtFlush_spec {T : Tables} (filled : Filled m T.data T.size f t.machine)
    (buffer : Buffer m T.data T.size)
    (ptr : ∀ j < 6, f (T.gdtPtr + j) = (ptrBytes 39 T.gdtEntries).getD j 0)
    (table : ∀ i < 5, ∀ j < 8, f (T.gdt + 8 * i + j) = (gdtEntry i).getD j 0)
    {Q : Unit → Protected → Prop} (hQ : Q () ⟨t.machine, ⟨39, T.gdtEntries⟩, t.idtr, kernelSeg⟩) :
    WP (gdtFlush T.gdtPtrAt) E Q t := by
  have data (seg : Seg → BitVec 16) (s : Seg) {R : Unit → Protected → Prop}
      (hR : R () ⟨t.machine, ⟨39, T.gdtEntries⟩, t.idtr, Function.update seg s 0x10⟩) :
      WP (loadSeg s 0x10) E R ⟨t.machine, ⟨39, T.gdtEntries⟩, t.idtr, seg⟩ := by
    have named : Protected.segmentAt ⟨t.machine, ⟨39, T.gdtEntries⟩, t.idtr, seg⟩ 0x10 =
        some (flatSegment 0x92) := by
      rw [← gdtEntry_flat.2.1]
      exact segmentAt_eq (t := ⟨t.machine, _, t.idtr, seg⟩) filled rfl table (i := 2) (by decide)
        (by decide)
    exact loadSeg_spec named (by cases s <;> decide) hR
  have code (seg : Seg → BitVec 16) {R : Unit → Protected → Prop}
      (hR : R () ⟨t.machine, ⟨39, T.gdtEntries⟩, t.idtr, Function.update seg .cs 0x08⟩) :
      WP (farJump 0x08) E R ⟨t.machine, ⟨39, T.gdtEntries⟩, t.idtr, seg⟩ := by
    have named : Protected.segmentAt ⟨t.machine, ⟨39, T.gdtEntries⟩, t.idtr, seg⟩ 0x08 =
        some (flatSegment 0x9A) := by
      rw [← gdtEntry_flat.1]
      exact segmentAt_eq (t := ⟨t.machine, _, t.idtr, seg⟩) filled rfl table (i := 1) (by decide)
        (by decide)
    exact farJump_spec named (by decide) hR
  simp only [gdtFlush, wp_bind, wp_modify]
  refine loadTable_spec filled buffer T.inside.2.1 ptr ?_
  refine data _ .ds (data _ .es (data _ .fs (data _ .gs (data _ .ss (code _ ?_)))))
  have all : Function.update (Function.update (Function.update (Function.update (Function.update
      (Function.update t.seg .ds 0x10) .es 0x10) .fs 0x10) .gs 0x10) .ss 0x10) .cs 0x08 =
      kernelSeg := by
    funext s
    cases s <;> rfl
  rwa [all]

theorem initGdt_spec {T : Tables} (filled : Filled m T.data T.size f t.machine)
    (buffer : Buffer m T.data T.size) {Q : Unit → Protected → Prop}
    (hQ : ∀ m', Filled m T.data T.size (withGdt T f) m' →
      Q () ⟨m', ⟨39, T.gdtEntries⟩, t.idtr, kernelSeg⟩) :
    WP (initGdt T.gdtEntries T.gdtPtrAt) E Q t := by
  obtain ⟨inside, insidePtr, -⟩ := T.inside
  have apart := T.apart
  simp only [List.pairwise_cons, List.mem_cons, List.not_mem_nil, or_false] at apart
  have away := apart.1 (T.gdtPtr, 6) (.inl rfl)
  have limit : BitVec.ofNat 16 (8 * gdtLength - 1) = 39 := by decide
  simp only [initGdt, onMachine, wp_bind, wp_focus, limit]
  refine filled.storePtr buffer insidePtr 39 T.gdtEntries fun u h => ?_
  refine h.gdtGate buffer inside (by decide) _ _ _ _ fun u h => ?_
  refine h.gdtGate buffer inside (by decide) _ _ _ _ fun u h => ?_
  refine h.gdtGate buffer inside (by decide) _ _ _ _ fun u h => ?_
  refine h.gdtGate buffer inside (by decide) _ _ _ _ fun u h => ?_
  refine h.gdtGate buffer inside (by decide) _ _ _ _ fun u h => ?_
  have whole : Filled m T.data T.size (withGdt T f) u := h
  refine gdtFlush_spec (t := (t.setMachine u)) whole buffer (fun j hj => ?_)
    (fun i hi j hj => withGdt_entry T hi hj) (hQ u whole)
  rw [withGdt_outside T (by omega), overwrite_inside (by simpa [ptrBytes] using hj)]

/-- The machine without handlers. -/
def noHandlers (m : Machine) : Machine := { m with interruptHandlers := fun _ => 0 }

theorem buffer_noHandlers (buffer : Buffer m p size) : Buffer (noHandlers m) p size :=
  ⟨buffer.stays, buffer.distinct⟩

theorem filled_noHandlers {m' : Machine} (filled : Filled m p size f m') :
    Filled (noHandlers m) p size f (noHandlers m') :=
  ⟨congrArg noHandlers filled.rest, filled.outside, filled.inside⟩

/-- The contents of the kernel's data behind `init_idt`. -/
def withIdt (T : Tables) (stub : Byte → Word) (f : ℕ → Byte) : ℕ → Byte :=
  withGates T.idt stub installed (overwrite (overwrite f T.idtPtr (ptrBytes 2047 T.idtEntries)) T.idt
    (List.replicate 2048 0))

theorem withIdt_outside (T : Tables) (stub : Byte → Word) {i : ℕ} (h : i < T.idt ∨ T.idt + 2048 ≤ i) :
    withIdt T stub f i = overwrite f T.idtPtr (ptrBytes 2047 T.idtEntries) i := by
  rw [withIdt, withGates_outside h, overwrite_outside (by rwa [List.length_replicate])]

theorem setGates_spec {E : Stop → Machine → Prop} {m' : Machine} (stub : Byte → Word) (l : List Byte)
    (filled : Filled m p size f m') (buffer : Buffer m p size) (inside : k + 2048 ≤ size)
    {Q : Unit → Machine → Prop} (hQ : ∀ u, Filled m p size (withGates k stub l f) u → Q () u) :
    WP (l.forM fun n => idtSetGate (p + BitVec.ofNat 32 k) n (stub n) 0x08 0x8E) E Q m' := by
  induction l generalizing f m' with
  | nil => exact hQ m' filled
  | cons n l ih =>
    refine (wp_bind _ _).2 ?_
    exact filled.idtGate buffer inside n _ _ _ fun u h => ih h hQ

theorem initIdt_spec {T : Tables} {stub : Byte → Word} (filled : Filled m T.data T.size f t.machine)
    (buffer : Buffer m T.data T.size) {Q : Unit → Protected → Prop}
    (hQ : ∀ u, Filled (noHandlers m) T.data T.size (withIdt T stub f) u →
      Q () ⟨u, t.gdtr, ⟨2047, T.idtEntries⟩, t.seg⟩) :
    WP (initIdt T.idtEntries T.idtPtrAt stub) E Q t := by
  obtain ⟨-, -, inside, insidePtr⟩ := T.inside
  have apart := T.apart
  simp only [List.pairwise_cons, List.mem_cons, List.not_mem_nil, or_false] at apart
  have away := apart.2.2.1 (T.idtPtr, 6) rfl
  have limit : BitVec.ofNat 16 (8 * idtLength - 1) = 2047 := by decide
  simp only [initIdt, onMachine, wp_bind, wp_focus, wp_modify, limit]
  refine (filled_noHandlers filled).storePtr (buffer_noHandlers buffer) insidePtr 2047 T.idtEntries
    fun u h => ?_
  refine h.bzero (buffer_noHandlers buffer) inside fun u h => ?_
  refine setGates_spec stub installed h (buffer_noHandlers buffer) inside fun u h => ?_
  simp only [idtFlush, wp_bind, wp_modify]
  refine loadTable_spec (t := t.setMachine u) h (buffer_noHandlers buffer) insidePtr (fun j hj => ?_)
    (hQ u h)
  rw [← withIdt, withIdt_outside T stub (by omega), overwrite_inside (by simpa [ptrBytes] using hj)]

/-- The gates of the table that `init_idt` loads. -/
theorem gateAt_eq {T : Tables} {stub : Byte → Word} {g : ℕ → Byte}
    (filled : Filled m T.data T.size (withIdt T stub g) t.machine) (idtr : t.idtr = ⟨2047, T.idtEntries⟩)
    (n : Byte) : t.gateAt n = if n ∈ installed then some ⟨stub n, 0x08, 0x8E⟩ else none := by
  obtain ⟨-, -, inside, -⟩ := T.inside
  have few := n.isLt
  have place : T.idtEntries + 8 * n.setWidth 32 = T.data + BitVec.ofNat 32 (T.idt + 8 * n.toNat) := by
    rw [entry_offset, vector_toNat, Tables.idtEntries, offset_offset]
  have reach : 8 * n.toNat + 7 ≤ 2047 := by omega
  have limit : (2047 : BitVec 16).toNat = 2047 := rfl
  simp only [gateAt, idtr, place, limit]
  by_cases given : n ∈ installed
  · rw [filled.descriptor_eq (by omega) (t := idtBytes (stub n) 0x08 0x8E) fun j hj => by
      rw [withIdt, withGates_entry n hj, if_pos given], gateOf_idtBytes, if_pos given]
    exact if_pos ⟨reach, (by decide : (0x8E : Byte) &&& 0x9F = 0x8E)⟩
  · have zeros (j : ℕ) (hj : j < 8) : withIdt T stub g (T.idt + 8 * n.toNat + j) =
        (List.replicate 8 0).getD j 0 := by
      rw [withIdt, withGates_entry n hj, if_neg given, Nat.add_assoc,
        overwrite_inside (by rw [List.length_replicate]; omega), List.getD_replicate _ (by omega),
        List.getD_replicate _ hj]
    rw [filled.descriptor_eq (by omega) zeros, if_neg given]
    exact if_neg fun h => absurd h.2 (by decide)

/-- The processor has loaded the tables at `T`, and memory shows what `init_gdt` and `init_idt` wrote
there. -/
structure TablesLoaded (T : Tables) (stub : Byte → Word) (t : Protected) : Prop where
  gdtr : t.gdtr = ⟨39, T.gdtEntries⟩
  idtr : t.idtr = ⟨2047, T.idtEntries⟩
  shows : ∃ g, ∀ i < T.size, contents t.machine T.data i = withIdt T stub (withGdt T g) i

namespace TablesLoaded

variable {T : Tables} {stub : Byte → Word}

/-- The entry `i` of the global table. -/
theorem segmentAt (loaded : TablesLoaded T stub t) {i : ℕ} (pos : 0 < i) (few : i < 5) :
    t.segmentAt (BitVec.ofNat 16 (8 * i)) =
      some (segmentOf (descriptor fun j => (gdtEntry i).getD j 0)) := by
  obtain ⟨g, shows⟩ := loaded.shows
  have apart := T.apart
  simp only [List.pairwise_cons, List.mem_cons, List.not_mem_nil, or_false] at apart
  have idt := apart.1 (T.idt, 2048) (.inr (.inl rfl))
  have idtPtr := apart.1 (T.idtPtr, 6) (.inr (.inr rfl))
  have filled : Filled t.machine T.data T.size (withIdt T stub (withGdt T g)) t.machine :=
    ⟨rfl, fun _ _ => rfl, shows⟩
  refine segmentAt_eq filled loaded.gdtr (fun i hi j hj => ?_) pos few
  rw [withIdt_outside T stub (by omega), overwrite_outside (by simp [ptrBytes]; omega),
    withGdt_entry T hi hj]

theorem code (loaded : TablesLoaded T stub t) : t.segmentAt 0x08 = some (flatSegment 0x9A) := by
  rw [← gdtEntry_flat.1]
  exact loaded.segmentAt (i := 1) (by decide) (by decide)

theorem data (loaded : TablesLoaded T stub t) : t.segmentAt 0x10 = some (flatSegment 0x92) := by
  rw [← gdtEntry_flat.2.1]
  exact loaded.segmentAt (i := 2) (by decide) (by decide)

theorem vectorEntry (loaded : TablesLoaded T stub t) (n : Byte) :
    t.vectorEntry n = if n ∈ installed then some (0x08, stub n) else none := by
  obtain ⟨g, shows⟩ := loaded.shows
  have filled : Filled t.machine T.data T.size (withIdt T stub (withGdt T g)) t.machine :=
    ⟨rfl, fun _ _ => rfl, shows⟩
  rw [Protected.vectorEntry, gateAt_eq filled loaded.idtr]
  split
  · have enters : (flatSegment 0x9A).code ∧ (flatSegment 0x9A).covers (stub n) :=
      ⟨by decide, flatSegment_covers _ _⟩
    simp only [Option.bind_eq_bind, Option.bind_some, loaded.code, if_pos enters]
    exact congrArg (fun x => some (0x08, x)) (BitVec.zero_add _)
  · rfl

/-- The tables stay loaded as long as memory shows them. -/
theorem setMachine (loaded : TablesLoaded T stub t) {m : Machine}
    (same : ∀ i < T.size, contents m T.data i = contents t.machine T.data i) :
    TablesLoaded T stub (t.setMachine m) := by
  obtain ⟨g, shows⟩ := loaded.shows
  exact ⟨loaded.gdtr, loaded.idtr, g, fun i hi => (same i hi).trans (shows i hi)⟩

end TablesLoaded

theorem initTables_spec {T : Tables} (stub : Byte → Word) (buffer : Buffer t.machine T.data T.size) :
    WP (do
      initGdt T.gdtEntries T.gdtPtrAt
      initIdt T.idtEntries T.idtPtrAt stub) E (fun _ u => TablesLoaded T stub u ∧ u.seg = kernelSeg ∧
      ∃ f, Filled (noHandlers t.machine) T.data T.size f u.machine) t := by
  refine (wp_bind _ _).2 ?_
  refine initGdt_spec (filled_self ..) buffer fun m' filled => ?_
  exact initIdt_spec (t := ⟨m', ⟨39, T.gdtEntries⟩, t.idtr, kernelSeg⟩) filled buffer
    fun u filled => ⟨⟨rfl, rfl, _, filled.inside⟩, rfl, _, filled⟩

end Specs

/-- After `init_gdt` and `init_idt` the processor enters, at each vector that has a stub, the code at
that stub's address in the kernel's code segment, and refuses all other vectors.  Every segment
register holds a segment of the new table that it may hold, and all of them are flat.  No handler is
registered, and memory outside the tables is as it was. -/
theorem initTables_deliver (T : Tables) (stub : Byte → Word) (t₀ : Protected)
    (buffer : Buffer t₀.machine T.data T.size) :
    ∃ t, Returns (do
        initGdt T.gdtEntries T.gdtPtrAt
        initIdt T.idtEntries T.idtPtrAt stub) t₀ () t ∧
      (∀ n, t.vectorEntry n = if n ∈ installed then some (0x08, stub n) else none) ∧
      (∀ s, ∃ d, t.segmentAt (t.seg s) = some d ∧ d.base = 0 ∧ (∀ x, d.covers x) ∧
        if s = .cs then d.code else d.loadable s) ∧
      (∀ n, t.machine.interruptHandlers n = 0) ∧
      ∀ a ∉ bytesBehind t₀.machine T.data T.size, t.machine.mem a = t₀.machine.mem a := by
  obtain ⟨⟨⟩, t, run, loaded, seg, f, filled⟩ :=
    (initTables_spec (E := fun _ _ => False) stub buffer).returns
  refine ⟨t, run, loaded.vectorEntry, fun s => ?_, fun n => ?_, fun a ha => filled.outside a ha⟩
  · rw [seg]
    by_cases h : s = .cs
    · refine ⟨_, by rw [kernelSeg, if_pos h, loaded.code], rfl, flatSegment_covers _, ?_⟩
      rw [if_pos h]
      decide
    · refine ⟨_, by rw [kernelSeg, if_neg h, loaded.data], rfl, flatSegment_covers _, ?_⟩
      rw [if_neg h]
      cases s <;> decide
  · rw [← filled.rest]
    rfl

/-- The tables of a kernel that the boot loader has put at 2 MB. -/
def sampleTables : Tables where
  data := 0x200000
  size := 0x1000
  gdt := 0
  gdtPtr := 0x30
  idt := 0x40
  idtPtr := 0x840
  inside := by decide
  apart := by decide

/-- There the page fault vector leads to its stub, and vector 48 nowhere. -/
theorem initTables_deliver_pageFault : ∃ t₀ t : Protected, Returns (do
      initGdt sampleTables.gdtEntries sampleTables.gdtPtrAt
      initIdt sampleTables.idtEntries sampleTables.idtPtrAt fun n => 0xC0100000 + 16 * n.setWidth 32)
        t₀ () t ∧ t.vectorEntry 14 = some (0x08, 0xC01000E0) ∧ t.vectorEntry 48 = none := by
  obtain ⟨m, booted⟩ := exists_booted fun _ => 0xFF
  have buffer := booted.temp.buffer (p := 0x200000) (n := 0x1000) (by decide) (by decide)
  obtain ⟨t, run, vectors, -⟩ := initTables_deliver sampleTables
    (fun n => 0xC0100000 + 16 * n.setWidth 32) ⟨m, ⟨0, 0⟩, ⟨0, 0⟩, fun _ => 0⟩ buffer
  exact ⟨_, t, run, (vectors 14).trans rfl, (vectors 48).trans rfl⟩

end Protected

end SimpleKernel
