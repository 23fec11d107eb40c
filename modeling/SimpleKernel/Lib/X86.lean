import SimpleKernel.Lib.ByteStore

/-!
# Straight-line code of a 32-bit x86 processor

General registers, `eflags` and flat memory, and the instructions that move words between registers,
memory and the stack.  The stack grows towards lower addresses, and `esp` is the address of the word
pushed last.
-/

namespace X86

open ByteStore

inductive Reg where
  | eax | ecx | edx | ebx | esp | ebp | esi | edi
  deriving DecidableEq, Repr

structure Cpu where
  reg : Reg → BitVec 32
  eflags : BitVec 32
  mem : Store 32

namespace Cpu

def set (c : Cpu) (r : Reg) (v : BitVec 32) : Cpu := { c with reg := Function.update c.reg r v }

@[simp] theorem set_reg_self (c : Cpu) (r : Reg) (v : BitVec 32) : (c.set r v).reg r = v :=
  Function.update_self ..

theorem set_reg_of_ne (c : Cpu) {r s : Reg} (v : BitVec 32) (h : s ≠ r) :
    (c.set r v).reg s = c.reg s := Function.update_of_ne h ..

@[simp] theorem set_mem (c : Cpu) (r : Reg) (v : BitVec 32) : (c.set r v).mem = c.mem := rfl

def setMem (c : Cpu) (mem : Store 32) : Cpu := { c with mem := mem }

@[simp] theorem setMem_reg (c : Cpu) (mem : Store 32) : (c.setMem mem).reg = c.reg := rfl

def setFlags (c : Cpu) (eflags : BitVec 32) : Cpu := { c with eflags := eflags }

@[simp] theorem setFlags_reg (c : Cpu) (eflags : BitVec 32) : (c.setFlags eflags).reg = c.reg := rfl

/-- Put a word on the stack. -/
def push (c : Cpu) (v : BitVec 32) : Cpu :=
  (c.set .esp (c.reg .esp - 4)).setMem (writeWord c.mem (c.reg .esp - 4) v)

@[simp] theorem push_esp (c : Cpu) (v : BitVec 32) : (c.push v).reg .esp = c.reg .esp - 4 := rfl

end Cpu

/-- Bit 9 of `eflags`, which lets interrupts in. -/
def interruptFlag : BitVec 32 := 0x200

/-- What a bitwise operation with this result makes of `eflags`: carry and overflow are cleared,
parity, zero and sign follow the result. -/
def bitwiseFlags (eflags result : BitVec 32) : BitVec 32 :=
  let parity := ((List.range 8).filter result.getLsbD).length % 2 = 0
  (eflags &&& ~~~0x8C5) ||| (if parity then 0x4 else 0) ||| (if result = 0 then 0x40 else 0) |||
    (if result.msb then 0x80 else 0)

inductive Instr where
  | cli
  /-- `mov d, v` -/
  | movImm (d : Reg) (v : BitVec 32)
  /-- `mov d, s` -/
  | mov (d s : Reg)
  /-- `mov [a], s` -/
  | store (a : BitVec 32) (s : Reg)
  /-- `and d, v` -/
  | andImm (d : Reg) (v : BitVec 32)
  /-- `xor d, s` -/
  | xor (d s : Reg)
  | push (s : Reg)
  /-- `call`, up to the first instruction of the function; `next` is where it returns to. -/
  | call (next : BitVec 32)
  deriving DecidableEq, Repr

def Instr.exec : Instr → Cpu → Cpu
  | cli, c => c.setFlags (c.eflags &&& ~~~interruptFlag)
  | movImm d v, c => c.set d v
  | mov d s, c => c.set d (c.reg s)
  | store a s, c => c.setMem (writeWord c.mem a (c.reg s))
  | andImm d v, c =>
    (c.set d (c.reg d &&& v)).setFlags (bitwiseFlags c.eflags (c.reg d &&& v))
  | xor d s, c =>
    (c.set d (c.reg d ^^^ c.reg s)).setFlags (bitwiseFlags c.eflags (c.reg d ^^^ c.reg s))
  | push s, c => c.push (c.reg s)
  | call next, c => c.push next

/-- Execute one instruction after the other. -/
def run (code : List Instr) (c : Cpu) : Cpu := code.foldl (fun c i => i.exec c) c

@[simp] theorem run_nil (c : Cpu) : run [] c = c := rfl

@[simp] theorem run_cons (i : Instr) (code : List Instr) (c : Cpu) :
    run (i :: code) c = run code (i.exec c) := rfl

end X86
