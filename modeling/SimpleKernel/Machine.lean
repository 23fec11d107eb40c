import Mathlib.Data.Nat.Bitwise
import Mathlib.Data.Set.Basic
import SimpleKernel.Lib.ByteStore
import SimpleKernel.Lib.Program

/-!
# The machine under the kernel

Words, the reasons for which kernel code stops, the state that the C code reads and writes, and the
two-level page walk through which every C pointer reaches physical memory.  A `Window` is a range
of virtual addresses that one offset translates, and it survives every store that misses the
tables it rests on.  All kernel data is reached through windows, so loads and stores are specified
once, for windows.
-/

namespace SimpleKernel

open ByteStore ProgramLogic

abbrev Word := BitVec 32

abbrev Byte := BitVec 8

/-- Why kernel code stops. -/
inductive Stop where
  /-- `panic`, with its message. -/
  | panic (msg : String)
  /-- The page walk found no page for this address. -/
  | pageFault (va : Word)
  /-- An uninitialised local variable was used. -/
  | uninitialised
  /-- The text does not fit into the buffer. -/
  | overrun
  /-- A loop that runs forever. -/
  | hang
  deriving DecidableEq, Repr

/-- Physical memory, the control registers and the kernel's scalar globals. -/
structure Machine where
  mem : Store 32
  cr0 : Word
  cr3 : Word
  interruptHandlers : Byte → Word
  kernStackTop : Word
  mbootPtrTmp : Word
  glbMbootPtr : Word
  pmmStack : ℕ → Word
  pmmStackTop : Word
  phyPageCount : Word
  heapMax : Word
  heapFirst : Word

namespace Machine

@[simps -fullyApplied]
def setMem (m : Machine) (mem : Store 32) : Machine := { m with mem := mem }

/-- Replace the frame stack, its top and the page count. -/
@[simps -fullyApplied]
def setFrames (m : Machine) (stack : ℕ → Word) (top count : Word) : Machine :=
  { m with pmmStack := stack, pmmStackTop := top, phyPageCount := count }

@[simps -fullyApplied]
def setHeapMax (m : Machine) (heapMax : Word) : Machine := { m with heapMax := heapMax }

@[simps -fullyApplied]
def setHeapFirst (m : Machine) (heapFirst : Word) : Machine := { m with heapFirst := heapFirst }

@[simp] theorem setMem_self (m : Machine) : m.setMem m.mem = m := rfl

@[simp] theorem setMem_setMem (m : Machine) (mem mem' : Store 32) :
    (m.setMem mem).setMem mem' = m.setMem mem' := rfl

end Machine

abbrev Kernel (α : Type) := Prog Machine Stop α

/-- More rounds than any loop of the kernel can make without repeating itself. -/
def roundLimit : ℕ := 2 ^ 32

/-! ## Constants of `vmm.h` -/

def pageOffset : Word := 0xC0000000

def pagePresent : Word := 0x1

def pageWrite : Word := 0x2

def pageSize : Word := 4096

def pageMask : Word := 0xfffff000

def pgdIndex (x : Word) : Word := (x >>> 22) &&& 0x3ff

def pteIndex (x : Word) : Word := (x >>> 12) &&& 0x3ff

def offsetIndex (x : Word) : Word := x &&& 0xfff

def pteCount : ℕ := 128

def pteSize : ℕ := 1024

theorem and_low_toNat (x : Word) (k : ℕ) (hk : k ≤ 32) :
    (x &&& BitVec.ofNat 32 (2 ^ k - 1)).toNat = x.toNat % 2 ^ k := by
  have h : 2 ^ k - 1 < 2 ^ 32 := by
    have := Nat.pow_le_pow_right (n := 2) (by omega) hk
    have := Nat.two_pow_pos k
    omega
  rw [BitVec.toNat_and, BitVec.toNat_ofNat, Nat.mod_eq_of_lt h, Nat.and_two_pow_sub_one_eq_mod]

theorem pgdIndex_toNat (x : Word) : (pgdIndex x).toNat = x.toNat / 4194304 := by
  have h := and_low_toNat (x >>> 22) 10 (by decide)
  rw [BitVec.toNat_ushiftRight, Nat.shiftRight_eq_div_pow] at h
  exact h.trans (by omega)

theorem pteIndex_toNat (x : Word) : (pteIndex x).toNat = x.toNat / 4096 % 1024 := by
  have h := and_low_toNat (x >>> 12) 10 (by decide)
  rwa [BitVec.toNat_ushiftRight, Nat.shiftRight_eq_div_pow] at h

theorem offsetIndex_toNat (x : Word) : (offsetIndex x).toNat = x.toNat % 4096 :=
  and_low_toNat x 12 (by decide)

theorem and_pageMask_toNat (x : Word) : (x &&& pageMask).toNat = x.toNat / 4096 * 4096 := by
  have h : x &&& pageMask = x >>> 12 <<< 12 := by
    apply BitVec.eq_of_getLsbD_eq
    intro i hi
    simp only [BitVec.getLsbD_and, BitVec.getLsbD_shiftLeft, BitVec.getLsbD_ushiftRight, pageMask]
    interval_cases i <;> simp
  rw [h, BitVec.toNat_shiftLeft, BitVec.toNat_ushiftRight, Nat.shiftRight_eq_div_pow,
    Nat.shiftLeft_eq]
  omega

theorem aligned_and_pageMask {f : Word} (hf : f.toNat % 4096 = 0) : f &&& pageMask = f := by
  apply BitVec.eq_of_toNat_eq
  rw [and_pageMask_toNat]
  omega

/-- Or-ing flags into a page-aligned address adds them. -/
theorem aligned_or_toNat {f g : Word} (hf : f.toNat % 4096 = 0) (hg : g.toNat < 4096) :
    (f ||| g).toNat = f.toNat + g.toNat := by
  have h := Nat.two_pow_add_eq_or_of_lt (i := 12) hg (f.toNat / 4096)
  rw [show 2 ^ 12 * (f.toNat / 4096) = f.toNat by omega] at h
  rw [BitVec.toNat_or, h]

/-- A table entry for the frame `f`, as `map`, `init_vmm` and `kern_entry` write it. -/
def entry (f : Word) : Word := f ||| pagePresent ||| pageWrite

theorem entry_toNat {f : Word} (hf : f.toNat % 4096 = 0) : (entry f).toNat = f.toNat + 3 := by
  rw [entry, BitVec.or_assoc]
  exact aligned_or_toNat hf (by decide)

theorem entry_frame {f : Word} (hf : f.toNat % 4096 = 0) : entry f &&& pageMask = f := by
  apply BitVec.eq_of_toNat_eq
  rw [and_pageMask_toNat, entry_toNat hf]
  omega

theorem entry_present {f : Word} (hf : f.toNat % 4096 = 0) : entry f &&& pagePresent ≠ 0 := by
  intro h
  have h' := and_low_toNat (entry f) 1 (by decide)
  rw [show BitVec.ofNat 32 (2 ^ 1 - 1) = pagePresent from rfl, h, entry_toNat hf] at h'
  simp at h'
  omega

/-! ## The page walk -/

/-- The processor's two-level walk from the page directory at the physical address `cr3`. -/
def walk (mem : Store 32) (cr3 va : Word) : Option Word :=
  let pde := readWord mem ((cr3 &&& pageMask) + 4 * pgdIndex va)
  if pde &&& pagePresent = 0 then
    none
  else
    let pte := readWord mem ((pde &&& pageMask) + 4 * pteIndex va)
    if pte &&& pagePresent = 0 then none else some ((pte &&& pageMask) ||| offsetIndex va)

/-- Virtual to physical, with paging off (bit 31 of `cr0`) the identity. -/
def translate (m : Machine) (va : Word) : Option Word :=
  if m.cr0 &&& 0x80000000 = 0 then some va else walk m.mem m.cr3 va

theorem walk_eq_some {mem : Store 32} {cr3 va t f : Word} (hd : cr3.toNat % 4096 = 0)
    (ht : t.toNat % 4096 = 0) (hf : f.toNat % 4096 = 0)
    (pde : readWord mem (cr3 + 4 * pgdIndex va) = entry t)
    (pte : readWord mem (t + 4 * pteIndex va) = entry f) :
    walk mem cr3 va = some (f ||| offsetIndex va) := by
  simp only [walk, aligned_and_pageMask hd, pde, entry_frame ht, pte, entry_frame hf,
    if_neg (entry_present ht), if_neg (entry_present hf)]

theorem walk_eq_none_of_pde {mem : Store 32} {cr3 va : Word} (hd : cr3.toNat % 4096 = 0)
    (pde : readWord mem (cr3 + 4 * pgdIndex va) = 0) : walk mem cr3 va = none := by
  simp only [walk, aligned_and_pageMask hd, pde]
  exact if_pos (by decide)

theorem walk_eq_none_of_pte {mem : Store 32} {cr3 va t : Word} (hd : cr3.toNat % 4096 = 0)
    (ht : t.toNat % 4096 = 0) (pde : readWord mem (cr3 + 4 * pgdIndex va) = entry t)
    (pte : readWord mem (t + 4 * pteIndex va) = 0) : walk mem cr3 va = none := by
  simp only [walk, aligned_and_pageMask hd, pde, entry_frame ht, pte, if_neg (entry_present ht)]
  exact if_pos (by decide)

/-- The byte seen at a virtual address, zero where nothing is mapped. -/
def view (m : Machine) : Store 32 := fun va =>
  match translate m va with
  | some pa => m.mem pa
  | none => 0

/-! ## Loads and stores through the walk -/

def load8 (va : Word) : Kernel Byte := do
  match translate (← get) va with
  | some pa => return (← get).mem pa
  | none => throw (.pageFault va)

def store8 (va : Word) (b : Byte) : Kernel Unit := do
  match translate (← get) va with
  | some pa => modify fun m => m.setMem (writeByte m.mem pa b)
  | none => throw (.pageFault va)

def load32 (va : Word) : Kernel Word := do
  let b0 ← load8 va
  let b1 ← load8 (va + 1)
  let b2 ← load8 (va + 2)
  let b3 ← load8 (va + 3)
  return (b3 ++ b2 ++ b1 ++ b0 : BitVec (8 + 8 + 8 + 8))

def store32 (va v : Word) : Kernel Unit := do
  store8 va (byteOf v 0)
  store8 (va + 1) (byteOf v 1)
  store8 (va + 2) (byteOf v 2)
  store8 (va + 3) (byteOf v 3)

/-- `bzero`, one byte after the other, over any memory in which `store8` stores a byte. -/
def bzeroWith {σ ε : Type} (store8 : Word → Byte → Prog σ ε Unit) (dest : Word) : ℕ → Prog σ ε Unit
  | 0 => pure ()
  | len + 1 => do
    store8 dest 0
    bzeroWith store8 (dest + 1) len

def bzero : Word → ℕ → Kernel Unit := bzeroWith store8

section Access

variable {E : Stop → Machine → Prop} {m : Machine} {va pa : Word}

theorem load8_spec {Q : Byte → Machine → Prop} (h : translate m va = some pa)
    (hQ : Q (m.mem pa) m) : WP (load8 va) E Q m := by
  simp only [load8, wp_bind, wp_get, h, wp_pure]
  exact hQ

theorem view_eq (h : translate m va = some pa) : view m va = m.mem pa := by
  simp only [view, h]

/-- A load gives the byte in view or faults, and changes nothing. -/
theorem load8_view {Q : Byte → Machine → Prop}
    (fault : translate m va = none → E (.pageFault va) m) (hQ : Q (view m va) m) :
    WP (load8 va) E Q m := by
  simp only [load8, wp_bind, wp_get]
  simp only [view] at hQ
  cases h : translate m va with
  | none => exact fault h
  | some pa =>
    rw [h] at hQ
    exact hQ

/-- A word load gives the word in view or faults at one of its bytes, and changes nothing. -/
theorem load32_view {Q : Word → Machine → Prop}
    (fault : ∀ i < 4, translate m (va + BitVec.ofNat 32 i) = none →
      E (.pageFault (va + BitVec.ofNat 32 i)) m) (hQ : Q (readWord (view m) va) m) :
    WP (load32 va) E Q m := by
  have first := fault 0 (by decide)
  rw [BitVec.add_zero] at first
  simp only [load32, wp_bind, wp_pure]
  refine load8_view first ?_
  refine load8_view (fault 1 (by decide)) ?_
  refine load8_view (fault 2 (by decide)) ?_
  exact load8_view (fault 3 (by decide)) hQ

theorem load8_returns (mapped : translate m va ≠ none) : Returns (load8 va) m (view m va) m := by
  obtain ⟨_, _, run, rfl, rfl⟩ := (load8_view (E := fun _ _ => False)
    (Q := fun b t => b = view m va ∧ t = m) (fun h => mapped h) ⟨rfl, rfl⟩).returns
  exact run

theorem load8_stops (unmapped : translate m va = none) :
    Stops (load8 va) m (.pageFault va) m := by
  have fault : WP (load8 va) (fun e t => e = .pageFault va ∧ t = m) (fun _ _ => False) m := by
    simp only [load8, wp_bind, wp_get, unmapped, wp_throw, and_self]
  rcases fault.outcome with ⟨b, t, -, h⟩ | ⟨e, t, stop, rfl, rfl⟩
  · exact h.elim
  · exact stop

theorem load32_returns (mapped : ∀ i < 4, translate m (va + BitVec.ofNat 32 i) ≠ none) :
    Returns (load32 va) m (readWord (view m) va) m := by
  obtain ⟨_, _, run, rfl, rfl⟩ := (load32_view (E := fun _ _ => False)
    (Q := fun w t => w = readWord (view m) va ∧ t = m) mapped ⟨rfl, rfl⟩).returns
  exact run

theorem load8_keeps {I : Machine → Prop} (va : Word) : Keeps I (load8 va) :=
  fun _ hs => load8_view (fun _ => trivial) hs

theorem load32_keeps {I : Machine → Prop} (va : Word) : Keeps I (load32 va) :=
  fun _ hs => load32_view (fun _ _ _ => trivial) hs

theorem store8_spec {Q : Unit → Machine → Prop} {b : Byte} (h : translate m va = some pa)
    (hQ : Q () (m.setMem (writeByte m.mem pa b))) : WP (store8 va b) E Q m := by
  simp only [store8, wp_bind, wp_get, h, wp_modify]
  exact hQ

end Access

/-! ## Windows -/

/-- The bytes of the word at `a`. -/
def wordBytes (a : Word) : Set Word := {x | ∃ i < 4, x = a + BitVec.ofNat 32 i}

theorem readWord_wordBytes {mem mem' : Store 32} {a : Word}
    (h : ∀ x ∈ wordBytes a, mem' x = mem x) : readWord mem' a = readWord mem a := by
  have first := h (a + 0#32) ⟨0, by decide, rfl⟩
  rw [BitVec.add_zero] at first
  unfold readWord
  rw [first, h (a + 1#32) ⟨1, by decide, rfl⟩, h (a + 2#32) ⟨2, by decide, rfl⟩,
    h (a + 3#32) ⟨3, by decide, rfl⟩]

/-- In every memory that agrees with `m` on `tables`, the addresses from `lo` up to `hi` translate
by subtracting `off`. -/
def Window (m : Machine) (tables : Set Word) (lo hi : ℕ) (off : Word) : Prop :=
  ∀ mem : Store 32, (∀ a ∈ tables, mem a = m.mem a) → ∀ va : Word, lo ≤ va.toNat → va.toNat < hi →
    translate (m.setMem mem) va = some (va - off)

namespace Window

variable {E : Stop → Machine → Prop} {m : Machine} {tables : Set Word} {lo hi : ℕ} {off : Word}

theorem translate (win : Window m tables lo hi off) {va : Word} (h : lo ≤ va.toNat)
    (h' : va.toNat < hi) : translate m va = some (va - off) :=
  win m.mem (fun _ _ => rfl) va h h'

/-- Windows survive changes of memory outside their tables. -/
theorem of_mem (win : Window m tables lo hi off) {mem : Store 32}
    (h : ∀ a ∈ tables, mem a = m.mem a) : Window (m.setMem mem) tables lo hi off :=
  fun mem' h' => win mem' fun a ha => (h' a ha).trans (h a ha)

/-- Windows look at memory and the control registers only. -/
theorem of_agree (win : Window m tables lo hi off) {m' : Machine} (h0 : m'.cr0 = m.cr0)
    (h3 : m'.cr3 = m.cr3) (h : ∀ a ∈ tables, m'.mem a = m.mem a) :
    Window m' tables lo hi off := by
  intro mem hmem va hlo hhi
  have := win mem (fun a ha => (hmem a ha).trans (h a ha)) va hlo hhi
  simpa only [SimpleKernel.translate, Machine.setMem_cr0, Machine.setMem_cr3,
    Machine.setMem_mem, h0, h3] using this

/-- A word seen through the window. -/
theorem readWord_view (win : Window m tables lo hi off) {va : Word} (h : lo ≤ va.toNat)
    (h' : va.toNat + 4 ≤ hi) (bound : va.toNat + 4 ≤ 2 ^ 32) :
    readWord (view m) va = readWord m.mem (va - off) := by
  have at_offset (i : ℕ) (hi4 : i < 4) :
      view m (va + BitVec.ofNat 32 i) = m.mem (va - off + BitVec.ofNat 32 i) := by
    have e := toNat_offset (a := va) (i := i) (by omega)
    rw [view_eq (win.translate (by omega) (by omega))]
    congr 1
    bv_omega
  have zero : view m va = m.mem (va - off) := view_eq (win.translate h (by omega))
  unfold readWord
  rw [zero, at_offset 1 (by omega), at_offset 2 (by omega), at_offset 3 (by omega)]

theorem load32 (win : Window m tables lo hi off) {va : Word} {Q : Word → Machine → Prop}
    (h : lo ≤ va.toNat) (h' : va.toNat + 4 ≤ hi) (bound : va.toNat + 4 ≤ 2 ^ 32)
    (hQ : Q (readWord m.mem (va - off)) m) : WP (load32 va) E Q m := by
  have at_offset (i : ℕ) (hi : i < 4) :
      SimpleKernel.translate m (va + BitVec.ofNat 32 i) =
        some (va - off + BitVec.ofNat 32 i) := by
    have e := toNat_offset (a := va) (i := i) (by omega)
    rw [win.translate (by omega) (by omega)]
    congr 1
    bv_omega
  simp only [SimpleKernel.load32, wp_bind, wp_pure]
  refine load8_spec (win.translate h (by omega)) ?_
  refine load8_spec (at_offset 1 (by omega)) ?_
  refine load8_spec (at_offset 2 (by omega)) ?_
  exact load8_spec (at_offset 3 (by omega)) hQ

/-- A byte store through the window. -/
theorem store8 (win : Window m tables lo hi off) {a : Word} {b : Byte}
    {Q : Unit → Machine → Prop} (h : lo ≤ a.toNat) (h' : a.toNat < hi)
    (hQ : Q () (m.setMem (writeByte m.mem (a - off) b))) : WP (store8 a b) E Q m :=
  store8_spec (win.translate h h') hQ

/-- A word store through the window that misses its tables. -/
theorem store32 (win : Window m tables lo hi off) {va v : Word} {Q : Unit → Machine → Prop}
    (h : lo ≤ va.toNat) (h' : va.toNat + 4 ≤ hi) (bound : va.toNat + 4 ≤ 2 ^ 32)
    (miss : ∀ a ∈ tables, ∀ i < 4, a ≠ va - off + BitVec.ofNat 32 i)
    (hQ : Q () (m.setMem (writeWord m.mem (va - off) v))) : WP (store32 va v) E Q m := by
  have at_offset (i : ℕ) (hi : i < 4) :
      va + BitVec.ofNat 32 i - off = va - off + BitVec.ofNat 32 i := by bv_omega
  have inside (i : ℕ) (hi : i < 4) : (va + BitVec.ofNat 32 i).toNat = va.toNat + i :=
    toNat_offset (by omega)
  have zero : va - off + BitVec.ofNat 32 0 = va - off := BitVec.add_zero _
  have step (w : Machine) (ww : Window w tables lo hi off) (i : ℕ) (hi4 : i < 4) (b : Byte) :
      Window (w.setMem (writeByte w.mem (va - off + BitVec.ofNat 32 i) b)) tables lo hi off :=
    ww.of_mem fun a ha => writeByte_of_ne _ (miss a ha i hi4)
  have w0 := step m win 0 (by omega) (byteOf v 0)
  rw [zero] at w0
  have w1 := step _ w0 1 (by omega) (byteOf v 1)
  have w2 := step _ w1 2 (by omega) (byteOf v 2)
  simp only [SimpleKernel.store32, wp_bind]
  refine win.store8 h (by omega) ?_
  refine w0.store8 (a := va + 1#32) (by rw [inside 1 (by omega)]; omega)
    (by rw [inside 1 (by omega)]; omega) ?_
  rw [at_offset 1 (by omega)]
  refine w1.store8 (a := va + 2#32) (by rw [inside 2 (by omega)]; omega)
    (by rw [inside 2 (by omega)]; omega) ?_
  rw [at_offset 2 (by omega)]
  refine w2.store8 (a := va + 3#32) (by rw [inside 3 (by omega)]; omega)
    (by rw [inside 3 (by omega)]; omega) ?_
  rw [at_offset 3 (by omega)]
  exact hQ

/-- `bzero` through the window. -/
theorem bzero (win : Window m tables lo hi off) {a : Word} {n : ℕ} {Q : Unit → Machine → Prop}
    (h : lo ≤ a.toNat) (h' : a.toNat + n ≤ hi) (bound : a.toNat + n ≤ 2 ^ 32)
    (phys : (a - off).toNat + n ≤ 2 ^ 32)
    (miss : ∀ b ∈ tables, b.toNat < (a - off).toNat ∨ (a - off).toNat + n ≤ b.toNat)
    (hQ : Q () (m.setMem (zeroFill m.mem (a - off) n))) : WP (SimpleKernel.bzero a n) E Q m := by
  induction n generalizing m a with
  | zero =>
    rw [zeroFill_zero] at hQ
    exact hQ
  | succ n ih =>
    have shift : a + 1 - off = a - off + 1#32 := by bv_omega
    simp only [SimpleKernel.bzero, bzeroWith, wp_bind]
    refine win.store8 h (by omega) ?_
    have win' : Window (m.setMem (writeByte m.mem (a - off) 0)) tables lo hi off :=
      win.of_mem fun b hb => writeByte_of_ne _ (by rintro rfl; have := miss _ hb; omega)
    rw [← zeroFill_succ _ (by omega)] at hQ
    rcases Nat.eq_zero_or_pos n with rfl | pos
    · rw [zeroFill_zero] at hQ
      exact hQ
    · have e : (a + 1).toNat = a.toNat + 1 := toNat_offset (i := 1) (by omega)
      have ep : (a - off + 1#32).toNat = (a - off).toNat + 1 := toNat_offset (by omega)
      refine ih win' (by omega) (by omega) (by omega) (by rw [shift]; omega)
        (fun b hb => by rw [shift]; have := miss b hb; omega) ?_
      rw [shift]
      exact hQ

/-- A loop that stores `n` words one behind the other. -/
theorem storeWords (win : Window m tables lo hi off) {b : Word} {n : ℕ} {addr vs : ℕ → Word}
    (haddr : ∀ i < n, addr i = b + BitVec.ofNat 32 (4 * i)) (h : lo ≤ b.toNat)
    (h' : b.toNat + 4 * n ≤ hi) (bound : b.toNat + 4 * n ≤ 2 ^ 32)
    (phys : (b - off).toNat + 4 * n ≤ 2 ^ 32)
    (miss : ∀ a ∈ tables, a.toNat < (b - off).toNat ∨ (b - off).toNat + 4 * n ≤ a.toNat)
    {Q : Unit → Machine → Prop} (hQ : Q () (m.setMem (writeWords m.mem (b - off) vs n))) :
    WP ((List.range n).forM fun i => SimpleKernel.store32 (addr i) (vs i)) E Q m := by
  refine (WP.forM_range
    (fun i t => t = m.setMem (writeWords m.mem (b - off) vs i)) n ?_ rfl).mono
    fun _ _ ht => by rw [ht]; exact hQ
  rintro i t hin rfl
  have e := toNat_offset (a := b) (i := 4 * i) (by omega)
  have ep := toNat_offset (a := b - off) (i := 4 * i) (by omega)
  have shift : b + BitVec.ofNat 32 (4 * i) - off = b - off + BitVec.ofNat 32 (4 * i) := by
    bv_omega
  have wi : Window (m.setMem (writeWords m.mem (b - off) vs i)) tables lo hi off :=
    win.of_mem fun a ha => writeWords_outside _ _ (by omega) (by have := miss a ha; omega)
  rw [haddr i hin]
  refine wi.store32 (by omega) (by omega) (by omega) (fun a ha j hj => ?_) ?_
  · rintro rfl
    have := miss _ ha
    rw [shift, toNat_offset (by omega), ep] at this
    omega
  · rw [shift]
    rfl

end Window

end SimpleKernel
