import SimpleKernel.Layout
import SimpleKernel.Lib.X86

/-!
# The stacks of the boot thread

`start` of `boot.s`, the prologue of `kern_entry` and its stack switch.  `STACK_TOP` is a distance
and no address, and the switch mixes the frame pointer into `esp`, so the boot thread runs in
neither of the two stacks that are reserved for it.
-/

namespace SimpleKernel

open X86

/-! ## `boot.s` -/

/-- `stack: times 1024 db 0`. -/
def bootStackSize : Word := 1024

/-- `STACK_TOP equ $-stack-1`, evaluated directly behind the 1024 bytes at `stack`. -/
def stackTop (stack : Word) : Word := stack + bootStackSize - stack - 1

/-- `start` up to its call of `kern_entry`. -/
def start (stack mbootPtrTmp : Word) : List Instr :=
  [.cli, .store mbootPtrTmp .ebx, .movImm .esp (stackTop stack), .movImm .ebp 0,
    .andImm .esp 0x0ffffff0]

/-! ## `kern_entry` -/

/-- The prologue that sets up a frame pointer. -/
def prologue : List Instr := [.push .ebp, .mov .ebp .esp]

def kernStackTop (kernStack : Word) : Word := (kernStack + stackSize) &&& 0xfffffff0

/-- `mov %0, %%esp; xor %%ebp, %%esp`, with `kern_stack_top` in the register `r`. -/
def stackSwitch (r : Reg) : List Instr := [.mov .esp r, .xor .esp .ebp]

/-- The processor when `start` calls `kern_entry`. -/
def atCall (stack mbootPtrTmp : Word) (c : Cpu) : Cpu := run (start stack mbootPtrTmp) c

/-- The processor behind the prologue of `kern_entry`. -/
def framed (stack mbootPtrTmp next : Word) (c : Cpu) : Cpu :=
  run (.call next :: prologue) (atCall stack mbootPtrTmp c)

section Boot

variable (stack mbootPtrTmp next : Word) (c : Cpu)

/-- `STACK_TOP` does not depend on where the stack is. -/
theorem stackTop_eq : stackTop stack = 1023 := by
  unfold stackTop bootStackSize
  bv_omega

theorem atCall_esp : (atCall stack mbootPtrTmp c).reg .esp = 0x3F0 := by
  show stackTop stack &&& 0x0ffffff0 = 0x3F0
  rw [stackTop_eq]
  rfl

theorem framed_ebp : (framed stack mbootPtrTmp next c).reg .ebp = 0x3E8 := by
  show (atCall stack mbootPtrTmp c).reg .esp - 4 - 4 = 0x3E8
  rw [atCall_esp]
  rfl

end Boot

theorem stackSwitch_esp (r : Reg) (d : Cpu) :
    (run (stackSwitch r) d).reg .esp = d.reg r ^^^ d.reg .ebp := rfl

theorem xor_ne_self {x y : Word} (h : y ≠ 0) : x ^^^ y ≠ x := by
  intro e
  apply h
  have same := congrArg (x ^^^ ·) e
  simp only [← BitVec.xor_assoc, BitVec.xor_self, BitVec.zero_xor] at same
  exact same

/-- Wherever the image is linked, `start` calls `kern_entry` with `esp` outside its stack.  With the
frame pointer that the prologue sets up, the stack switch then misses `kern_stack_top`. -/
theorem bootStacks_missed (stack mbootPtrTmp next kernStack : Word) (c : Cpu)
    (linked : kernLoad.toNat ≤ stack.toNat) :
    ¬ (stack.toNat < ((atCall stack mbootPtrTmp c).reg .esp).toNat ∧
        ((atCall stack mbootPtrTmp c).reg .esp).toNat ≤ stack.toNat + bootStackSize.toNat) ∧
      ∀ (r : Reg) (d : Cpu), d.reg .ebp = (framed stack mbootPtrTmp next c).reg .ebp →
        d.reg r = kernStackTop kernStack →
        (run (stackSwitch r) d).reg .esp ≠ kernStackTop kernStack := by
  constructor
  · have load : kernLoad.toNat = 0x100000 := rfl
    have called : ((atCall stack mbootPtrTmp c).reg .esp).toNat = 0x3F0 := by
      rw [atCall_esp]
      rfl
    omega
  · intro r d frame top
    rw [stackSwitch_esp, top, frame, framed_ebp]
    exact xor_ne_self (by decide)

/-- A processor as the boot loader leaves it, with the boot information at 64 KB. -/
def bootCpu : Cpu where
  reg := fun r => if r = .ebx then 0x10000 else 0
  eflags := 0
  mem := fun _ => 0

theorem bootStacks_missed_small :
    ¬ (0x101000 < ((atCall 0x101000 0x101400 bootCpu).reg .esp).toNat ∧
        ((atCall 0x101000 0x101400 bootCpu).reg .esp).toNat ≤ 0x101000 + 1024) ∧
      (run (stackSwitch .eax) ((framed 0x101000 0x101400 0x100025 bootCpu).set .eax
        (kernStackTop 0xC0130000))).reg .esp ≠ kernStackTop 0xC0130000 := by
  obtain ⟨outside, missed⟩ :=
    bootStacks_missed 0x101000 0x101400 0x100025 0xC0130000 bootCpu (by decide)
  exact ⟨outside, missed .eax _ rfl rfl⟩

/-- With `kern_stack` at `0xC0130000` the boot thread goes on 1000 bytes above its end. -/
theorem stack_switched_above :
    ¬ (0x101000 < ((atCall 0x101000 0x101400 bootCpu).reg .esp).toNat ∧
        ((atCall 0x101000 0x101400 bootCpu).reg .esp).toNat ≤ 0x101000 + 1024) ∧
      kernStackTop 0xC0130000 = 0xC0130000 + stackSize ∧
      (run (stackSwitch .eax) ((framed 0x101000 0x101400 0x100025 bootCpu).set .eax
        (kernStackTop 0xC0130000))).reg .esp = kernStackTop 0xC0130000 + 1000 := by
  refine ⟨?_, ?_, ?_⟩
  all_goals decide

end SimpleKernel
