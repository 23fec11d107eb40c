import SimpleKernel.Lib.X86System
import SimpleKernel.Task

/-!
# The assembly of a context switch

`switch_to.s`.  `switch_to` saves the registers that the C calling convention keeps over a call and
takes over those of another task.
-/

namespace SimpleKernel

open ByteStore X86

/-- `switch_to` saves registers in the context to which `eax` points. -/
def storeContext : List Op :=
  [.storeAt .eax 0 .esp,
   .storeAt .eax 4 .ebp,
   .storeAt .eax 8 .ebx,
   .storeAt .eax 12 .esi,
   .storeAt .eax 16 .edi]

/-- `switch_to` saves the flags. -/
def storeFlags : List Op :=
  [.pushf,
   .pop .ecx,
   .storeAt .eax 20 .ecx]

/-- `switch_to` takes over the context to which `eax` points. -/
def loadContext : List Op :=
  [.load .esp .eax 0,
   .load .ebp .eax 4,
   .load .ebx .eax 8,
   .load .esi .eax 12,
   .load .edi .eax 16,
   .load .eax .eax 20,
   .basic (.push .eax),
   .popf]

/-- `switch_to` up to its `ret`. -/
def switchTo : List Op :=
  .load .eax .esp 4 :: storeContext ++ storeFlags ++ .load .eax .esp 8 :: loadContext

/-- The `struct context` at `p`. -/
def contextAt (mem : Store 32) (p : Word) : Context where
  esp := readWord mem p
  ebp := readWord mem (p + 4)
  ebx := readWord mem (p + 8)
  esi := readWord mem (p + 12)
  edi := readWord mem (p + 16)
  eflags := readWord mem (p + 20)

/-- `&task->context`. -/
def contextOf (task : Word) : Word := task + TaskField.esp.offset

/-- The registers that `switch_to` saves. -/
def savedContext (c : Core) : Context where
  esp := c.reg .esp
  ebp := c.reg .ebp
  ebx := c.reg .ebx
  esi := c.reg .esi
  edi := c.reg .edi
  eflags := flagsImage c.eflags

/-- A context depends on its 24 bytes only. -/
theorem contextAt_congr {mem mem' : Store 32} {p : Word} (room : p.toNat + 24 ≤ 2 ^ 32)
    (h : ∀ x : Word, p.toNat ≤ x.toNat → x.toNat < p.toNat + 24 → mem' x = mem x) :
    contextAt mem' p = contextAt mem p := by
  have word (k : ℕ) (hk : k + 4 ≤ 24) :
      readWord mem' (p + BitVec.ofNat 32 k) = readWord mem (p + BitVec.ofNat 32 k) := by
    have e := toNat_offset (a := p) (i := k) (by omega)
    exact readWord_congr (by omega) fun x lo hi => h x (by omega) (by omega)
  have first : readWord mem' p = readWord mem p :=
    readWord_congr (by omega) fun x lo hi => h x (by omega) (by omega)
  rw [contextAt, first]
  exact Context.mk.injEq .. ▸ ⟨rfl, word 4 (by decide), word 8 (by decide), word 12 (by decide),
    word 16 (by decide), word 20 (by decide)⟩

/-- The context of a task in the words of its struct. -/
theorem contextAt_contextOf (mem : Store 32) (task : Word) : contextAt mem (contextOf task) =
    ⟨taskField mem task .esp, taskField mem task .ebp, taskField mem task .ebx,
      taskField mem task .esi, taskField mem task .edi, taskField mem task .eflags⟩ := by
  have word (k : ℕ) : contextOf task + BitVec.ofNat 32 k = task + BitVec.ofNat 32 (16 + k) := by
    rw [BitVec.ofNat_add, ← BitVec.add_assoc]
    rfl
  exact Context.mk.injEq .. ▸ ⟨rfl, congrArg (readWord mem) (word 4),
    congrArg (readWord mem) (word 8), congrArg (readWord mem) (word 12),
    congrArg (readWord mem) (word 16), congrArg (readWord mem) (word 20)⟩

section Switch

variable {c : Core} {p : Word}

/-- The first five words of a saved context. -/
def savedWords (c : Core) (i : ℕ) : Word :=
  [c.reg .esp, c.reg .ebp, c.reg .ebx, c.reg .esi, c.reg .edi].getD i 0

theorem runOps_storeContext (c : Core) : runOps storeContext c =
    c.onCpu fun cpu => cpu.setMem (writeWords c.mem (c.reg .eax) (savedWords c) 5) := rfl

theorem storeFlags_mem (c : Core) : (runOps storeFlags c).mem =
    writeWord (writeWord c.mem (c.reg .esp - 4) (flagsImage c.eflags)) (c.reg .eax + 20)
      (readWord (writeWord c.mem (c.reg .esp - 4) (flagsImage c.eflags)) (c.reg .esp - 4)) := rfl

theorem storeFlags_esp (c : Core) : (runOps storeFlags c).reg .esp = c.reg .esp - 4 + 4 := rfl

/-- What `loadContext` makes of the registers that a context holds. -/
theorem loadContext_reg (c : Core) :
    (runOps loadContext c).reg .esp = readWord c.mem (c.reg .eax + 0) - 4 + 4 ∧
      (runOps loadContext c).reg .ebp = readWord c.mem (c.reg .eax + 4) ∧
      (runOps loadContext c).reg .ebx = readWord c.mem (c.reg .eax + 8) ∧
      (runOps loadContext c).reg .esi = readWord c.mem (c.reg .eax + 12) ∧
      (runOps loadContext c).reg .edi = readWord c.mem (c.reg .eax + 16) :=
  ⟨rfl, rfl, rfl, rfl, rfl⟩

theorem loadContext_mem (c : Core) : (runOps loadContext c).mem =
    writeWord c.mem (readWord c.mem (c.reg .eax + 0) - 4) (readWord c.mem (c.reg .eax + 20)) := rfl

theorem loadContext_eflags (c : Core) : (runOps loadContext c).eflags = flagsOfImage c.eflags
    (readWord (writeWord c.mem (readWord c.mem (c.reg .eax + 0) - 4)
      (readWord c.mem (c.reg .eax + 20)))
      (readWord c.mem (c.reg .eax + 0) - 4 + BitVec.ofNat 32 (4 * 0))) := rfl

/-- The processor behind the first half of `switch_to`, with the old context at `p`. -/
structure Saved (c t : Core) (p : Word) : Prop where
  context : contextAt t.mem p = savedContext c
  mem : ∀ x : Word, (x.toNat < p.toNat ∨ p.toNat + 24 ≤ x.toNat) →
    (x.toNat < (c.reg .esp).toNat - 4 ∨ (c.reg .esp).toNat ≤ x.toNat) → t.mem x = c.mem x
  esp : t.reg .esp = c.reg .esp
  eflags : t.eflags = c.eflags
  seg : t.seg = c.seg
  eip : t.eip = c.eip

theorem saved_of_store (hp : readWord c.mem (c.reg .esp + 4) = p) (room : p.toNat + 24 ≤ 2 ^ 32)
    (stack : 4 ≤ (c.reg .esp).toNat)
    (apart : p.toNat + 24 ≤ (c.reg .esp).toNat - 4 ∨ (c.reg .esp).toNat ≤ p.toNat) :
    Saved c (runOps (.load .eax .esp 4 :: storeContext ++ storeFlags) c) p := by
  have e4 : (c.reg .esp - 4).toNat = (c.reg .esp).toNat - 4 := by bv_omega
  have e20 : (p + 20).toNat = p.toNat + 20 := toNat_offset (i := 20) (by omega)
  rw [runOps_append, runOps_cons, runOps_storeContext]
  have pointer : (Op.load .eax .esp 4).exec c = c.onCpu fun cpu => cpu.set .eax p := by
    rw [← hp]
    rfl
  rw [pointer]
  change Saved c (runOps storeFlags ((c.onCpu fun cpu => cpu.set .eax p).onCpu fun cpu =>
    cpu.setMem (writeWords c.mem p (savedWords c) 5))) p
  let stored := writeWords c.mem p (savedWords c) 5
  let flagged := writeWord stored (c.reg .esp - 4) (flagsImage c.eflags)
  have image : readWord flagged (c.reg .esp - 4) = flagsImage c.eflags :=
    readWord_writeWord_self _ _ (by omega)
  have mem : (runOps storeFlags ((c.onCpu fun cpu => cpu.set .eax p).onCpu fun cpu =>
      cpu.setMem stored)).mem = writeWord flagged (p + 20) (flagsImage c.eflags) :=
    (storeFlags_mem _).trans (congrArg (writeWord flagged (p + 20)) image)
  have word (i : ℕ) (hi : i < 5) : readWord (writeWord flagged (p + 20) (flagsImage c.eflags))
      (p + BitVec.ofNat 32 (4 * i)) = savedWords c i := by
    have e := toNat_offset (a := p) (i := 4 * i) (by omega)
    rw [readWord_writeWord_disjoint _ _ (by omega) (by omega) (by omega),
      readWord_writeWord_disjoint _ _ (by omega) (by omega) (by omega)]
    exact readWord_writeWords _ _ (by omega) hi
  refine ⟨?_, fun x outside below => ?_, ?_, rfl, rfl, rfl⟩
  · have first := word 0 (by decide)
    rw [Nat.mul_zero, BitVec.add_zero] at first
    show contextAt (runOps storeFlags _).mem p = _
    rw [mem, contextAt, first]
    exact Context.mk.injEq .. ▸ ⟨rfl, word 1 (by decide), word 2 (by decide), word 3 (by decide),
      word 4 (by decide), readWord_writeWord_self _ _ (by omega)⟩
  · show (runOps storeFlags _).mem x = _
    rw [mem, writeWord_outside _ _ (by omega) (by omega)]
    refine (writeWord_outside stored _ (by omega) (by omega)).trans ?_
    exact writeWords_outside _ _ (by omega) (by omega)
  · exact (storeFlags_esp _).trans (BitVec.sub_add_cancel _ _)

/-- The processor before the `ret` of `switch_to`, with the new context at `n`. -/
structure Loaded (c t : Core) (n : Word) : Prop where
  esp : t.reg .esp = (contextAt c.mem n).esp
  ebp : t.reg .ebp = (contextAt c.mem n).ebp
  ebx : t.reg .ebx = (contextAt c.mem n).ebx
  esi : t.reg .esi = (contextAt c.mem n).esi
  edi : t.reg .edi = (contextAt c.mem n).edi
  eflags : t.eflags = flagsOfImage c.eflags (contextAt c.mem n).eflags
  mem : ∀ x : Word, (x.toNat < (contextAt c.mem n).esp.toNat - 4 ∨
    (contextAt c.mem n).esp.toNat ≤ x.toNat) → t.mem x = c.mem x
  seg : t.seg = c.seg
  eip : t.eip = c.eip

theorem loaded_of_load {n : Word} (hn : readWord c.mem (c.reg .esp + 8) = n)
    (stack : 4 ≤ (contextAt c.mem n).esp.toNat) :
    Loaded c (runOps (.load .eax .esp 8 :: loadContext) c) n := by
  have pointer : (Op.load .eax .esp 8).exec c = c.onCpu fun cpu => cpu.set .eax n := by
    rw [← hn]
    rfl
  rw [runOps_cons, pointer]
  let d := c.onCpu fun cpu => cpu.set .eax n
  obtain ⟨esp, ebp, ebx, esi, edi⟩ := loadContext_reg d
  have start : readWord d.mem (d.reg .eax + 0) = (contextAt c.mem n).esp :=
    congrArg (readWord c.mem) (BitVec.add_zero n)
  have mem := loadContext_mem d
  have eflags := loadContext_eflags d
  rw [start] at esp mem eflags
  rw [Nat.mul_zero, BitVec.add_zero, readWord_writeWord_self _ _ (by bv_omega)] at eflags
  refine ⟨?_, ebp, ebx, esi, edi, eflags, fun x outside => ?_, rfl, rfl⟩
  · rw [esp, BitVec.sub_add_cancel]
  · rw [mem]
    exact writeWord_outside _ _ (by bv_omega) (by bv_omega)

/-- The processor before the `ret` of `switch_to(p, n)`. -/
structure Switched (c t : Core) (p n : Word) : Prop where
  old : contextAt t.mem p = savedContext c
  esp : t.reg .esp = (contextAt c.mem n).esp
  ebp : t.reg .ebp = (contextAt c.mem n).ebp
  ebx : t.reg .ebx = (contextAt c.mem n).ebx
  esi : t.reg .esi = (contextAt c.mem n).esi
  edi : t.reg .edi = (contextAt c.mem n).edi
  eflags : t.eflags = flagsOfImage c.eflags (contextAt c.mem n).eflags
  mem : ∀ x : Word, (x.toNat < p.toNat ∨ p.toNat + 24 ≤ x.toNat) →
    (x.toNat < (c.reg .esp).toNat - 4 ∨ (c.reg .esp).toNat ≤ x.toNat) →
    (x.toNat < (contextAt c.mem n).esp.toNat - 4 ∨ (contextAt c.mem n).esp.toNat ≤ x.toNat) →
    t.mem x = c.mem x
  seg : t.seg = c.seg

/-- The places that `switch_to(p, n)` writes and reads do not overlap. -/
structure Switchable (c : Core) (p n : Word) : Prop where
  room : 4 ≤ (c.reg .esp).toNat ∧ (c.reg .esp).toNat + 12 ≤ 2 ^ 32
  contexts : p.toNat + 24 ≤ 2 ^ 32 ∧ n.toNat + 24 ≤ 2 ^ 32
  apart : p.toNat + 24 ≤ n.toNat ∨ n.toNat + 24 ≤ p.toNat
  old : p.toNat + 24 ≤ (c.reg .esp).toNat - 4 ∨ (c.reg .esp).toNat + 12 ≤ p.toNat
  new : n.toNat + 24 ≤ (c.reg .esp).toNat - 4 ∨ (c.reg .esp).toNat ≤ n.toNat
  next : 4 ≤ (contextAt c.mem n).esp.toNat
  away : p.toNat + 24 ≤ (contextAt c.mem n).esp.toNat - 4 ∨
    (contextAt c.mem n).esp.toNat ≤ p.toNat

theorem switchTo_spec {n : Word} (able : Switchable c p n)
    (hp : readWord c.mem (c.reg .esp + 4) = p) (hn : readWord c.mem (c.reg .esp + 8) = n) :
    Switched c (runOps switchTo c) p n := by
  obtain ⟨⟨low, high⟩, ⟨pEnd, nEnd⟩, apart, old, new, next, away⟩ := able
  have saved := saved_of_store hp pEnd low (by omega)
  have e8 : (c.reg .esp + 8).toNat = (c.reg .esp).toNat + 8 := toNat_offset (i := 8) (by omega)
  rw [switchTo, runOps_append]
  let d := runOps (.load .eax .esp 4 :: storeContext ++ storeFlags) c
  have context : contextAt d.mem n = contextAt c.mem n :=
    contextAt_congr nEnd fun x lo hi => saved.mem x (by omega) (by omega)
  have pointer : readWord d.mem (d.reg .esp + 8) = n := by
    rw [saved.esp, ← hn]
    exact readWord_congr (by omega) fun x lo hi => saved.mem x (by omega) (by omega)
  have loaded := loaded_of_load pointer (by rw [context]; exact next)
  have mem := loaded.mem
  have eflags := loaded.eflags
  rw [context] at mem
  rw [context, saved.eflags] at eflags
  refine ⟨?_, ?_, ?_, ?_, ?_, ?_, eflags, fun x outside below other => ?_, loaded.seg.trans saved.seg⟩
  · rw [← saved.context]
    exact contextAt_congr pEnd fun x lo hi => mem x (by omega)
  · rw [loaded.esp, context]
  · rw [loaded.ebp, context]
  · rw [loaded.ebx, context]
  · rw [loaded.esi, context]
  · rw [loaded.edi, context]
  · rw [mem x other, saved.mem x outside below]

end Switch

end SimpleKernel
