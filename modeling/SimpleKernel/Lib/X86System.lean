import SimpleKernel.Lib.X86

/-!
# Frames, flags and interrupts of a 32-bit x86 processor

The instructions of interrupt handlers and context switches: those that load and store through
registers, save and restore flags and whole register sets, move segment selectors, and return.
All code runs at privilege level 0.  `eip` is followed where control is transferred: at an interrupt
and at a return.
-/

namespace X86

open ByteStore

inductive Seg where
  | cs | ds | es | fs | gs | ss
  deriving DecidableEq, Repr

structure Core extends Cpu where
  eip : BitVec 32
  seg : Seg → BitVec 16

namespace Cpu

/-- Put words on the stack, one after the other. -/
def pushes (c : Cpu) (vs : List (BitVec 32)) : Cpu := vs.foldl push c

def pop (c : Cpu) (d : Reg) : Cpu :=
  (c.set .esp (c.reg .esp + 4)).set d (readWord c.mem (c.reg .esp))

/-- Replace the low half of a register. -/
def setLow (c : Cpu) (d : Reg) (v : BitVec 16) : Cpu :=
  c.set d ((c.reg d &&& 0xFFFF0000) ||| v.setWidth 32)

end Cpu

/-- The flags that an addition with these operands sets: carry, parity, auxiliary carry, zero, sign
and overflow. -/
def addFlags (eflags x y : BitVec 32) : BitVec 32 :=
  let sum := x + y
  let parity := ((List.range 8).filter sum.getLsbD).length % 2 = 0
  (eflags &&& ~~~0x8D5) ||| (if sum.toNat < x.toNat then 0x1 else 0) |||
    (if parity then 0x4 else 0) ||| (if (x &&& 0xF) + (y &&& 0xF) > 0xF then 0x10 else 0) |||
    (if sum = 0 then 0x40 else 0) ||| (if sum.msb then 0x80 else 0) |||
    (if x.msb = y.msb ∧ sum.msb ≠ x.msb then 0x800 else 0)

/-- The image of the flags that `pushf` stores, without the virtual-8086 and resume flags. -/
def flagsImage (eflags : BitVec 32) : BitVec 32 := eflags &&& 0x00FCFFFF

/-- The flags that `popf` makes of an image: it clears the resume flag and leaves the reserved bits,
virtual-8086 mode and virtual interrupts alone. -/
def flagsOfImage (eflags image : BitVec 32) : BitVec 32 :=
  (eflags &&& ~~~0x257FD5) ||| (image &&& 0x247FD5)

theorem flagsImage_interruptFlag (eflags : BitVec 32) :
    flagsImage eflags &&& interruptFlag = eflags &&& interruptFlag := by
  have kept : (0x00FCFFFF : BitVec 32) &&& interruptFlag = interruptFlag := by decide
  rw [flagsImage, BitVec.and_assoc, kept]

theorem flagsOfImage_interruptFlag (eflags image : BitVec 32) :
    flagsOfImage eflags image &&& interruptFlag = image &&& interruptFlag := by
  have dropped : ~~~(0x257FD5 : BitVec 32) &&& interruptFlag = 0 := by decide
  have taken : (0x247FD5 : BitVec 32) &&& interruptFlag = interruptFlag := by decide
  rw [flagsOfImage, BitVec.and_or_distrib_right, BitVec.and_assoc, BitVec.and_assoc, dropped, taken]
  exact (congrArg (· ||| _) BitVec.and_zero).trans BitVec.zero_or

inductive Op where
  | basic (i : Instr)
  | pushImm (v : BitVec 32)
  | pop (d : Reg)
  /-- `mov d, [b + disp]` -/
  | load (d b : Reg) (disp : BitVec 32)
  /-- `mov [b + disp], s` -/
  | storeAt (b : Reg) (disp : BitVec 32) (s : Reg)
  /-- `add d, v` -/
  | addImm (d : Reg) (v : BitVec 32)
  | pushf
  | popf
  | pusha
  | popa
  /-- `mov d, v`, for the low half of `d` -/
  | movLow (d : Reg) (v : BitVec 16)
  /-- `mov d, s`, for the low half of `d` -/
  | movOfSeg (d : Reg) (s : Seg)
  /-- `mov s, d`, for the low half of `d` -/
  | movToSeg (s : Seg) (d : Reg)
  | ret
  | iret
  deriving DecidableEq, Repr

namespace Core

def onCpu (c : Core) (f : Cpu → Cpu) : Core := { c with toCpu := f c.toCpu }

/-- The word `n` words above the top of the stack. -/
def stackWord (c : Core) (n : ℕ) : BitVec 32 :=
  readWord c.mem (c.reg .esp + BitVec.ofNat 32 (4 * n))

/-- `pusha`; the stack pointer that it saves is the one before. -/
def pushAll (c : Cpu) : Cpu :=
  c.pushes [c.reg .eax, c.reg .ecx, c.reg .edx, c.reg .ebx, c.reg .esp, c.reg .ebp, c.reg .esi,
    c.reg .edi]

/-- `popa`, which skips the stack pointer. -/
def popAll (c : Core) : Core :=
  { c with reg := fun
    | .edi => c.stackWord 0
    | .esi => c.stackWord 1
    | .ebp => c.stackWord 2
    | .esp => c.reg .esp + 32
    | .ebx => c.stackWord 4
    | .edx => c.stackWord 5
    | .ecx => c.stackWord 6
    | .eax => c.stackWord 7 }

/-- The flags that an interrupt gate clears: interrupts, single step, nested task, resume and
virtual-8086. -/
def gateFlags : BitVec 32 := 0x34300

/-- An interrupt arrives: the processor saves flags, code segment and instruction pointer. -/
def interrupt (c : Core) : Core :=
  c.onCpu fun cpu => (cpu.pushes [c.eflags, (c.seg .cs).setWidth 32, c.eip]).setFlags
    (c.eflags &&& ~~~gateFlags)

end Core

def Op.exec : Op → Core → Core
  | basic i, c => c.onCpu i.exec
  | pushImm v, c => c.onCpu fun cpu => cpu.push v
  | pop d, c => c.onCpu fun cpu => cpu.pop d
  | load d b disp, c => c.onCpu fun cpu => cpu.set d (readWord c.mem (c.reg b + disp))
  | storeAt b disp s, c =>
    c.onCpu fun cpu => cpu.setMem (writeWord c.mem (c.reg b + disp) (c.reg s))
  | addImm d v, c => c.onCpu fun cpu =>
    (cpu.set d (c.reg d + v)).setFlags (addFlags c.eflags (c.reg d) v)
  | pushf, c => c.onCpu fun cpu => cpu.push (flagsImage c.eflags)
  | popf, c => c.onCpu fun cpu => (cpu.set .esp (c.reg .esp + 4)).setFlags
    (flagsOfImage c.eflags (c.stackWord 0))
  | pusha, c => c.onCpu Core.pushAll
  | popa, c => c.popAll
  | movLow d v, c => c.onCpu fun cpu => cpu.setLow d v
  | movOfSeg d s, c => c.onCpu fun cpu => cpu.setLow d (c.seg s)
  | movToSeg s d, c => { c with seg := Function.update c.seg s ((c.reg d).setWidth 16) }
  | ret, c => { c with
    toCpu := c.toCpu.set .esp (c.reg .esp + 4)
    eip := c.stackWord 0 }
  | iret, c => { c with
    toCpu := (c.toCpu.set .esp (c.reg .esp + 12)).setFlags (c.stackWord 2)
    eip := c.stackWord 0
    seg := Function.update c.seg .cs ((c.stackWord 1).setWidth 16) }

/-- Execute one instruction after the other. -/
def runOps (code : List Op) (c : Core) : Core := code.foldl (fun c op => op.exec c) c

/-- A function that was called in `c` has returned in `t`: control is behind the call, and the
registers that belong to the caller are back. -/
structure Cdecl (c t : Core) : Prop where
  eip : t.eip = readWord c.mem (c.reg .esp)
  esp : t.reg .esp = c.reg .esp + 4
  saved : ∀ r ∈ [Reg.ebx, .esi, .edi, .ebp], t.reg r = c.reg r

/-- A plain return follows the calling convention. -/
theorem ret_cdecl (c : Core) : Cdecl c (Op.ret.exec c) := by
  refine ⟨congrArg (readWord c.mem) (BitVec.add_zero _), rfl, fun r hr => ?_⟩
  exact Cpu.set_reg_of_ne _ _ fun e => absurd (e ▸ hr) (by decide)

theorem runOps_cons (op : Op) (code : List Op) (c : Core) :
    runOps (op :: code) c = runOps code (op.exec c) := rfl

theorem runOps_append (code rest : List Op) (c : Core) :
    runOps (code ++ rest) c = runOps rest (runOps code c) := List.foldl_append

/-- The low half of a register after it was replaced. -/
theorem setWidth_setLow (x : BitVec 32) (v : BitVec 16) :
    ((x &&& 0xFFFF0000) ||| v.setWidth 32).setWidth 16 = v := by
  apply BitVec.eq_of_getLsbD_eq
  intro i hi
  simp only [BitVec.getLsbD_setWidth, BitVec.getLsbD_or, BitVec.getLsbD_and]
  interval_cases i <;> simp

theorem not_and_and (x y : BitVec 32) : (x &&& ~~~y) &&& y = 0 := by
  rw [BitVec.and_assoc, BitVec.and_comm (~~~y), BitVec.and_not_self]
  exact BitVec.and_zero

namespace Cpu

variable {c : Cpu} {vs : List (BitVec 32)}

theorem pushes_append (c : Cpu) (vs ws : List (BitVec 32)) :
    c.pushes (vs ++ ws) = (c.pushes vs).pushes ws := List.foldl_append

/-- Pushing looks at the stack pointer and the memory only. -/
theorem pushes_mem_congr {c' : Cpu} (vs : List (BitVec 32)) (mem : c'.mem = c.mem)
    (esp : c'.reg .esp = c.reg .esp) : (c'.pushes vs).mem = (c.pushes vs).mem := by
  induction vs generalizing c c' with
  | nil => exact mem
  | cons v vs ih =>
    refine @ih (c.push v) (c'.push v) ?_ ?_
    · show writeWord c'.mem (c'.reg .esp - 4) v = writeWord c.mem (c.reg .esp - 4) v
      rw [mem, esp]
    · rw [push_esp, push_esp, esp]

/-- Pushed words lie below the old top of the stack. -/
theorem pushes_mem (room : 4 * vs.length ≤ (c.reg .esp).toNat) {x : BitVec 32}
    (h : x.toNat < (c.reg .esp).toNat - 4 * vs.length ∨ (c.reg .esp).toNat ≤ x.toNat) :
    (c.pushes vs).mem x = c.mem x := by
  induction vs generalizing c with
  | nil => rfl
  | cons v vs ih =>
    rw [List.length_cons] at room h
    have e : ((c.push v).reg .esp).toNat = (c.reg .esp).toNat - 4 := by
      rw [push_esp]
      bv_omega
    refine (ih (c := c.push v) (by omega) (by omega)).trans ?_
    refine writeWord_outside _ _ ?_ ?_
    all_goals
      rw [← push_esp c v]
      omega

/-- A push leaves the words above it alone, also where the addresses wrap around. -/
theorem readWord_push_above (v d : BitVec 32) (h : d.toNat + 8 ≤ 2 ^ 32) :
    readWord (c.push v).mem (c.reg .esp + d) = readWord c.mem (c.reg .esp + d) := by
  refine readWord_congr_offset fun i hi => ?_
  have apart (j : ℕ) (hj : j < 4) :
      c.reg .esp + d + BitVec.ofNat 32 i ≠ c.reg .esp - 4 + BitVec.ofNat 32 j := by
    intro e
    have same : d + BitVec.ofNat 32 i + 4 = BitVec.ofNat 32 j := by
      have := congrArg (fun x => x - c.reg .esp + 4) e
      bv_omega
    have := congrArg BitVec.toNat same
    bv_omega
  have first := apart 0 (by omega)
  rw [BitVec.add_zero] at first
  show writeWord c.mem (c.reg .esp - 4) v _ = _
  unfold writeWord
  rw [writeByte_of_ne _ (apart 3 (by omega)), writeByte_of_ne _ (apart 2 (by omega)),
    writeByte_of_ne _ (apart 1 (by omega)), writeByte_of_ne _ first]

theorem readWord_pushes_above (d : BitVec 32) (h : d.toNat + 4 * vs.length + 4 ≤ 2 ^ 32) :
    readWord (c.pushes vs).mem (c.reg .esp + d) = readWord c.mem (c.reg .esp + d) := by
  induction vs generalizing c d with
  | nil => rfl
  | cons v vs ih =>
    rw [List.length_cons] at h
    have up : (d + 4).toNat = d.toNat + 4 := by bv_omega
    have place : (c.push v).reg .esp + (d + 4) = c.reg .esp + d := by
      rw [push_esp]
      bv_omega
    have rest := ih (c := c.push v) (d + 4) (by omega)
    rw [place] at rest
    exact rest.trans (readWord_push_above v d (by omega))

/-- The words on the stack, the one pushed last on top. -/
theorem pushes_word (room : 4 * vs.length ≤ 2 ^ 32) {i : ℕ} {v : BitVec 32}
    (h : vs[i]? = some v) :
    readWord (c.pushes vs).mem (c.reg .esp - BitVec.ofNat 32 (4 * (i + 1))) = v := by
  induction vs generalizing c i with
  | nil => simp at h
  | cons w vs ih =>
    rw [List.length_cons] at room
    cases i with
    | zero =>
      obtain rfl : w = v := Option.some_inj.1 h
      have top := @readWord_pushes_above (c.push w) vs 0#32 (by simp; omega)
      rw [BitVec.add_zero] at top
      exact top.trans (readWord_writeWord_same _ _ _ (by decide))
    | succ i =>
      have rest := ih (c := c.push w) (by omega) h
      rw [push_esp] at rest
      rw [← rest]
      congr 1
      bv_omega

end Cpu

end X86
