import SimpleKernel.Lib.X86System
import SimpleKernel.Machine

/-!
# Interrupt stubs

`idt_s.s`.  The processor pushes flags, code segment, instruction pointer and, at some vectors, an
error code; the stub adds the vector, a zero where there is no error code, all general registers and
the data segment.  The handler gets the address of this frame, which is a `pt_regs`; when it returns
the stub takes the registers back from there.
-/

namespace SimpleKernel

open ByteStore X86

/-! ## `idt_s.s` -/

/-- `ISR_NOERRCODE`. -/
def isrNoErrcode (n : Word) : List Op :=
  [.basic .cli,
   .pushImm 0,
   .pushImm n]

/-- `ISR_ERRCODE`. -/
def isrErrcode (n : Word) : List Op :=
  [.basic .cli,
   .pushImm n]

/-- `IRQ`, for the interrupt `n`; the number of the request stands in the label only. -/
def irq (n : Word) : List Op :=
  [.basic .cli,
   .pushImm 0,
   .pushImm n]

def irq0 : List Op := irq 32

/-- `irq_common_stub` up to its call of `irq_handler`, which returns to `back`. -/
def irqCommonStub (back : Word) : List Op :=
  [.pusha,
   .movOfSeg .eax .ds,
   .basic (.push .eax),
   .movLow .eax 0x10,
   .movToSeg .ds .eax,
   .movToSeg .es .eax,
   .movToSeg .fs .eax,
   .movToSeg .gs .eax,
   .movToSeg .ss .eax,
   .basic (.push .esp),
   .basic (.call back)]

/-- `irq_common_stub` behind the call of `irq_handler`. -/
def irqCommonReturn : List Op :=
  [.addImm .esp 4,
   .pop .ebx,
   .movToSeg .ds .ebx,
   .movToSeg .es .ebx,
   .movToSeg .fs .ebx,
   .movToSeg .gs .ebx,
   .movToSeg .ss .ebx,
   .popa,
   .addImm .esp 8,
   .iret]

/-- `isr_common_stub` calls another function and is `irq_common_stub` otherwise. -/
def isrCommonStub (back : Word) : List Op := irqCommonStub back

def isrCommonReturn : List Op := irqCommonReturn

/-- The stubs that jump to `isr_common_stub`, with the vectors for which `init_idt` installs them. -/
def isrs : List (Word × List Op) :=
  [(0, isrNoErrcode 0), (1, isrNoErrcode 1), (2, isrNoErrcode 2), (3, isrNoErrcode 3),
   (4, isrNoErrcode 4), (5, isrNoErrcode 5), (6, isrNoErrcode 6), (7, isrNoErrcode 7),
   (8, isrErrcode 8), (9, isrNoErrcode 9), (10, isrErrcode 10), (11, isrErrcode 11),
   (12, isrErrcode 12), (13, isrErrcode 13), (14, isrErrcode 14), (15, isrNoErrcode 15),
   (16, isrNoErrcode 16), (17, isrErrcode 17), (18, isrNoErrcode 18), (19, isrNoErrcode 19),
   (20, isrNoErrcode 20), (21, isrNoErrcode 21), (22, isrNoErrcode 22), (23, isrNoErrcode 23),
   (24, isrNoErrcode 24), (25, isrNoErrcode 25), (26, isrNoErrcode 26), (27, isrNoErrcode 27),
   (28, isrNoErrcode 28), (29, isrNoErrcode 29), (30, isrNoErrcode 30), (31, isrNoErrcode 31),
   (255, isrNoErrcode 255)]

/-- The stubs that jump to `irq_common_stub`, with the vectors for which `init_idt` installs
them. -/
def irqs : List (Word × List Op) :=
  [(32, irq 32), (33, irq 33), (34, irq 34), (35, irq 35), (36, irq 36), (37, irq 37),
   (38, irq 38), (39, irq 39), (40, irq 40), (41, irq 41), (42, irq 42), (43, irq 43),
   (44, irq 44), (45, irq 45), (46, irq 46), (47, irq 47)]

/-- The code of a stub up to its call of the handler, which returns to `back`, and behind it, with
the vector. -/
def stubs (back : Word) : List (Word × List Op × List Op) :=
  isrs.map (fun e => (e.1, e.2 ++ isrCommonStub back, isrCommonReturn)) ++
    irqs.map fun e => (e.1, e.2 ++ irqCommonStub back, irqCommonReturn)

/-! ## `idt.h` -/

/-- The members of `pt_regs` that are there when an interrupt does not change the privilege level. -/
inductive PtRegsField where
  | ds | edi | esi | ebp | esp | ebx | edx | ecx | eax | intNo | errCode | eip | cs | eflags
  deriving DecidableEq, Repr

def PtRegsField.offset (f : PtRegsField) : Word := BitVec.ofNat 32 (4 * f.ctorIdx)

/-- `regs->f`. -/
def ptRegs (mem : Store 32) (regs : Word) (f : PtRegsField) : Word := readWord mem (regs + f.offset)

/-- The member for a general register. -/
def PtRegsField.ofReg : Reg → PtRegsField
  | .eax => .eax
  | .ecx => .ecx
  | .edx => .edx
  | .ebx => .ebx
  | .esp => .esp
  | .ebp => .ebp
  | .esi => .esi
  | .edi => .edi

/-! ## The processor -/

/-- The vectors at which the processor pushes an error code. -/
def errorCodeVectors : List Word := [8, 10, 11, 12, 13, 14, 17]

/-- The processor, at the first instruction of the stub for the vector `n`. -/
def interruptAt (n code : Word) (c : Core) : Core :=
  if n ∈ errorCodeVectors then c.interrupt.onCpu fun cpu => cpu.push code else c.interrupt

/-- What lies on the stack where the processor has no error code. -/
def errorCode (n code : Word) : Word := if n ∈ errorCodeVectors then code else 0

/-! ## Entry -/

/-- The word in which the stub keeps the data segment. -/
def dataSegWord (c : Core) : Word := (c.reg .eax &&& 0xFFFF0000) ||| (c.seg .ds).setWidth 32

/-- What is on the stack above the handler, in the order in which it is put there. -/
def stubFrame (back n err : Word) (c : Core) : List Word :=
  [c.eflags, (c.seg .cs).setWidth 32, c.eip, err, n,
   c.reg .eax, c.reg .ecx, c.reg .edx, c.reg .ebx, c.reg .esp - 4 - 4 - 4 - 4 - 4, c.reg .ebp,
   c.reg .esi, c.reg .edi, dataSegWord c,
   c.reg .esp - 4 - 4 - 4 - 4 - 4 - 4 - 4 - 4 - 4 - 4 - 4 - 4 - 4 - 4, back]

/-- All data segment selectors are the kernel's. -/
def KernelSegments (c : Core) : Prop := ∀ s, s ≠ .cs → c.seg s = 0x10

/-- The stub, entered because of an interrupt in `c`, has put error code and vector on the stack. -/
structure Numbered (n err : Word) (c d : Core) : Prop where
  mem : d.mem = (c.toCpu.pushes [c.eflags, (c.seg .cs).setWidth 32, c.eip, err, n]).mem
  esp : d.reg .esp = c.reg .esp - 4 - 4 - 4 - 4 - 4
  reg : ∀ r, r ≠ .esp → d.reg r = c.reg r
  masked : d.eflags &&& interruptFlag = 0
  seg : d.seg = c.seg

/-- What the handler finds. -/
structure Entered (back n err : Word) (c t : Core) : Prop where
  mem : t.mem = (c.toCpu.pushes (stubFrame back n err c)).mem
  esp : t.reg .esp = c.reg .esp - 64
  reg : ∀ r, r ≠ .esp → r ≠ .eax → t.reg r = c.reg r
  masked : t.eflags &&& interruptFlag = 0
  segments : KernelSegments t
  cs : t.seg .cs = c.seg .cs

section Entry

variable {back n err : Word} {c d : Core}

theorem isrNoErrcode_numbered (n : Word) (c : Core) :
    Numbered n 0 c (runOps (isrNoErrcode n) c.interrupt) := by
  refine ⟨rfl, rfl, fun r hr => ?_, not_and_and _ _, rfl⟩
  cases r with
  | esp => exact absurd rfl hr
  | _ => rfl

theorem isrErrcode_numbered (n code : Word) (c : Core) :
    Numbered n code c (runOps (isrErrcode n) (c.interrupt.onCpu fun cpu => cpu.push code)) := by
  refine ⟨rfl, rfl, fun r hr => ?_, not_and_and _ _, rfl⟩
  cases r with
  | esp => exact absurd rfl hr
  | _ => rfl

theorem stub_eq : ∀ e ∈ isrs ++ irqs,
    e.2 = if e.1 ∈ errorCodeVectors then isrErrcode e.1 else isrNoErrcode e.1 := by
  decide

/-- Every stub of either family is of the kind that its vector needs. -/
theorem stub_numbered {stub : List Op} (h : (n, stub) ∈ isrs ++ irqs) (code : Word) (c : Core) :
    Numbered n (errorCode n code) c (runOps stub (interruptAt n code c)) := by
  have kind : stub = if n ∈ errorCodeVectors then isrErrcode n else isrNoErrcode n := stub_eq _ h
  unfold errorCode interruptAt
  by_cases pushed : n ∈ errorCodeVectors
  · rw [if_pos pushed] at kind
    rw [kind, if_pos pushed, if_pos pushed]
    exact isrErrcode_numbered n code c
  · rw [if_neg pushed] at kind
    rw [kind, if_neg pushed, if_neg pushed]
    exact isrNoErrcode_numbered n c

theorem stub_mem (back : Word) (c : Core) : (runOps (irqCommonStub back) c).mem = (c.toCpu.pushes
    [c.reg .eax, c.reg .ecx, c.reg .edx, c.reg .ebx, c.reg .esp, c.reg .ebp, c.reg .esi,
      c.reg .edi, dataSegWord c, c.reg .esp - 4 - 4 - 4 - 4 - 4 - 4 - 4 - 4 - 4, back]).mem := by rfl

theorem stub_esp (back : Word) (c : Core) : (runOps (irqCommonStub back) c).reg .esp =
    c.reg .esp - 4 - 4 - 4 - 4 - 4 - 4 - 4 - 4 - 4 - 4 - 4 := by rfl

theorem stub_reg (back : Word) (c : Core) {r : Reg} (sp : r ≠ .esp) (acc : r ≠ .eax) :
    (runOps (irqCommonStub back) c).reg r = c.reg r := by
  cases r with
  | esp => exact absurd rfl sp
  | eax => exact absurd rfl acc
  | _ => rfl

theorem Numbered.entered (numbered : Numbered n err c d) :
    Entered back n err c (runOps (irqCommonStub back) d) := by
  have frame : stubFrame back n err c = [c.eflags, (c.seg .cs).setWidth 32, c.eip, err, n] ++
      [c.reg .eax, c.reg .ecx, c.reg .edx, c.reg .ebx, c.reg .esp - 4 - 4 - 4 - 4 - 4, c.reg .ebp,
        c.reg .esi, c.reg .edi, dataSegWord c,
        c.reg .esp - 4 - 4 - 4 - 4 - 4 - 4 - 4 - 4 - 4 - 4 - 4 - 4 - 4 - 4, back] := rfl
  have data : dataSegWord d = dataSegWord c := by
    rw [dataSegWord, numbered.reg .eax (by decide), numbered.seg, dataSegWord]
  refine ⟨?_, ?_, fun r sp acc => ?_, numbered.masked, fun s hs => ?_, ?_⟩
  · rw [stub_mem, frame, Cpu.pushes_append, data, numbered.esp, numbered.reg .eax (by decide),
      numbered.reg .ecx (by decide), numbered.reg .edx (by decide), numbered.reg .ebx (by decide),
      numbered.reg .ebp (by decide), numbered.reg .esi (by decide), numbered.reg .edi (by decide)]
    exact Cpu.pushes_mem_congr _ numbered.mem numbered.esp
  · rw [stub_esp, numbered.esp]
    bv_omega
  · rw [stub_reg back d sp acc, numbered.reg r sp]
  · cases s with
    | cs => exact absurd rfl hs
    | _ => exact setWidth_setLow _ _
  · exact congrFun numbered.seg .cs

/-- The word `i` of the frame. -/
theorem Entered.word {t : Core} (entered : Entered back n err c t) {i : ℕ} {v : Word}
    (h : (stubFrame back n err c)[i]? = some v) :
    readWord t.mem (c.reg .esp - BitVec.ofNat 32 (4 * (i + 1))) = v := by
  have room : 4 * (stubFrame back n err c).length ≤ 2 ^ 32 := by
    show 64 ≤ 2 ^ 32
    decide
  rw [entered.mem]
  exact Cpu.pushes_word room h

/-- The return address of the handler. -/
theorem Entered.returnAddress {t : Core} (entered : Entered back n err c t) :
    readWord t.mem (t.reg .esp) = back := by
  rw [entered.esp]
  exact entered.word (i := 15) rfl

/-- The argument of the handler. -/
theorem Entered.argument {t : Core} (entered : Entered back n err c t) :
    readWord t.mem (t.reg .esp + 4) = c.reg .esp - 56 := by
  have place : t.reg .esp + 4 = c.reg .esp - BitVec.ofNat 32 (4 * (14 + 1)) := by
    rw [entered.esp]
    bv_omega
  rw [place, entered.word (i := 14) rfl]
  bv_omega

end Entry

/-! ## Return -/

section Return

variable {back n err : Word} {c d t : Core}

/-- The word `k` bytes above the top of the stack. -/
def stackAt (c : Core) (k : ℕ) : Word := readWord c.mem (c.reg .esp + BitVec.ofNat 32 k)

/-- The registers that `popa` restores lie above two words. -/
theorem popa_slot (x : Word) (k : ℕ) :
    x + 4 + 4 + BitVec.ofNat 32 k = x + BitVec.ofNat 32 (8 + k) := by
  rw [BitVec.ofNat_add, ← BitVec.add_assoc, BitVec.add_assoc x 4 4]
  rfl

/-- What `iret` restores lies above these and two more. -/
theorem iret_slot (x : Word) (k : ℕ) :
    x + 4 + 4 + 32 + 8 + BitVec.ofNat 32 k = x + BitVec.ofNat 32 (48 + k) := by
  rw [BitVec.ofNat_add, ← BitVec.add_assoc, BitVec.add_assoc x 4 4, BitVec.add_assoc x (4 + 4) 32,
    BitVec.add_assoc x (4 + 4 + 32) 8]
  rfl

theorem irqReturn_reg (c : Core) (r : Reg) : (runOps irqCommonReturn c).reg r = match r with
    | .edi => stackAt c 8
    | .esi => stackAt c 12
    | .ebp => stackAt c 16
    | .esp => c.reg .esp + 60
    | .ebx => stackAt c 24
    | .edx => stackAt c 28
    | .ecx => stackAt c 32
    | .eax => stackAt c 36 := by
  cases r with
  | edi => exact congrArg (readWord c.mem) (popa_slot _ 0)
  | esi => exact congrArg (readWord c.mem) (popa_slot _ 4)
  | ebp => exact congrArg (readWord c.mem) (popa_slot _ 8)
  | esp => exact iret_slot _ 12
  | ebx => exact congrArg (readWord c.mem) (popa_slot _ 16)
  | edx => exact congrArg (readWord c.mem) (popa_slot _ 20)
  | ecx => exact congrArg (readWord c.mem) (popa_slot _ 24)
  | eax => exact congrArg (readWord c.mem) (popa_slot _ 28)

theorem irqReturn_eip (c : Core) : (runOps irqCommonReturn c).eip = stackAt c 48 :=
  congrArg (readWord c.mem) (iret_slot _ 0)

theorem irqReturn_eflags (c : Core) : (runOps irqCommonReturn c).eflags = stackAt c 56 :=
  congrArg (readWord c.mem) (iret_slot _ 8)

theorem irqReturn_cs (c : Core) : (runOps irqCommonReturn c).seg .cs = (stackAt c 52).setWidth 16 :=
  congrArg (fun a => (readWord c.mem a).setWidth 16) (iret_slot _ 4)

theorem irqReturn_seg (c : Core) {s : Seg} (h : s ≠ .cs) :
    (runOps irqCommonReturn c).seg s = (stackAt c 4).setWidth 16 := by
  cases s with
  | cs => exact absurd rfl h
  | _ => rfl

theorem irqReturn_mem (d : Core) : (runOps irqCommonReturn d).mem = d.mem := by rfl

/-- Two processors have the same registers. -/
structure SameRegisters (t c : Core) : Prop where
  reg : ∀ r, t.reg r = c.reg r
  eip : t.eip = c.eip
  eflags : t.eflags = c.eflags
  seg : ∀ s, t.seg s = c.seg s

/-- The end of the stub restores the registers of the interrupted processor `c` from its frame. -/
theorem irqReturn_restores (entered : Entered back n err c t)
    (segments : ∀ s, s ≠ .cs → c.seg s = c.seg .ds) (esp : d.reg .esp = c.reg .esp - 60)
    (frame : ∀ k < 56, d.mem (c.reg .esp - 56 + BitVec.ofNat 32 k) =
      t.mem (c.reg .esp - 56 + BitVec.ofNat 32 k)) :
    SameRegisters (runOps irqCommonReturn d) c := by
  have word (i : ℕ) (hi : i < 14) {v : Word} (hv : (stubFrame back n err c)[i]? = some v) :
      stackAt d (56 - 4 * i) = v := by
    have place : d.reg .esp + BitVec.ofNat 32 (56 - 4 * i) =
        c.reg .esp - BitVec.ofNat 32 (4 * (i + 1)) := by
      rw [esp]
      bv_omega
    rw [stackAt, place, ← entered.word hv]
    refine readWord_congr_offset fun j hj => ?_
    have byte : c.reg .esp - BitVec.ofNat 32 (4 * (i + 1)) + BitVec.ofNat 32 j =
        c.reg .esp - 56 + BitVec.ofNat 32 (52 - 4 * i + j) := by bv_omega
    rw [byte]
    exact frame _ (by omega)
  refine ⟨fun r => ?_, ?_, ?_, fun s => ?_⟩
  · rw [irqReturn_reg]
    cases r with
    | edi => exact word 12 (by decide) rfl
    | esi => exact word 11 (by decide) rfl
    | ebp => exact word 10 (by decide) rfl
    | esp =>
      show d.reg .esp + 60 = c.reg .esp
      rw [esp, BitVec.sub_add_cancel]
    | ebx => exact word 8 (by decide) rfl
    | edx => exact word 7 (by decide) rfl
    | ecx => exact word 6 (by decide) rfl
    | eax => exact word 5 (by decide) rfl
  · rw [irqReturn_eip]
    exact word 2 (by decide) rfl
  · rw [irqReturn_eflags]
    exact word 0 (by decide) rfl
  · by_cases isCode : s = .cs
    · rw [isCode, irqReturn_cs, word 1 (by decide) rfl]
      exact BitVec.setWidth_setWidth_of_le _ (by decide)
    · rw [irqReturn_seg d isCode, word 13 (by decide) rfl, dataSegWord, setWidth_setLow,
        segments s isCode]

end Return

/-! ## All stubs -/

/-- What `regs` tells the handler about the interrupted processor `c`. -/
structure Describes (mem : Store 32) (regs n err : Word) (c : Core) : Prop where
  intNo : ptRegs mem regs .intNo = n
  errCode : ptRegs mem regs .errCode = err
  ds : (ptRegs mem regs .ds).setWidth 16 = c.seg .ds
  general : ∀ r, r ≠ .esp → ptRegs mem regs (.ofReg r) = c.reg r
  eip : ptRegs mem regs .eip = c.eip
  cs : ptRegs mem regs .cs = (c.seg .cs).setWidth 32
  eflags : ptRegs mem regs .eflags = c.eflags

theorem Entered.describes {back n err : Word} {c t : Core} (entered : Entered back n err c t) :
    Describes t.mem (c.reg .esp - 56) n err c := by
  have member (f : PtRegsField) {v : Word}
      (hv : (stubFrame back n err c)[13 - f.ctorIdx]? = some v) :
      ptRegs t.mem (c.reg .esp - 56) f = v := by
    have place : c.reg .esp - 56 + f.offset =
        c.reg .esp - BitVec.ofNat 32 (4 * (13 - f.ctorIdx + 1)) := by
      have bound : f.ctorIdx < 14 := by cases f <;> decide
      unfold PtRegsField.offset
      bv_omega
    rw [ptRegs, place]
    exact entered.word hv
  refine ⟨member .intNo rfl, member .errCode rfl, ?_, fun r hr => ?_, member .eip rfl,
    member .cs rfl, member .eflags rfl⟩
  · rw [member .ds rfl]
    exact setWidth_setLow _ _
  · cases r with
    | esp => exact absurd rfl hr
    | eax => exact member .eax rfl
    | ecx => exact member .ecx rfl
    | edx => exact member .edx rfl
    | ebx => exact member .ebx rfl
    | ebp => exact member .ebp rfl
    | esi => exact member .esi rfl
    | edi => exact member .edi rfl

theorem exists_of_mem_stubs {back n : Word} {enter leave : List Op}
    (h : (n, enter, leave) ∈ stubs back) : ∃ stub, (n, stub) ∈ isrs ++ irqs ∧
      enter = stub ++ irqCommonStub back ∧ leave = irqCommonReturn := by
  rcases List.mem_append.1 h with h | h
  all_goals
    obtain ⟨⟨v, stub⟩, mem, e⟩ := List.mem_map.1 h
    cases e
  · exact ⟨stub, List.mem_append_left _ mem, rfl, rfl⟩
  · exact ⟨stub, List.mem_append_right _ mem, rfl, rfl⟩

/-- Every stub passes a `pt_regs` that describes the interrupted processor, and when its handler
has returned and has left that alone, the processor goes on as it was interrupted. -/
theorem interrupt_balanced {back n : Word} {enter leave : List Op}
    (installed : (n, enter, leave) ∈ stubs back) (code : Word) (c : Core)
    (segments : ∀ s, s ≠ .cs → c.seg s = c.seg .ds) :
    let t := runOps enter (interruptAt n code c)
    let regs := readWord t.mem (t.reg .esp + 4)
    Describes t.mem regs n (errorCode n code) c ∧
      ∀ d, Cdecl t d →
        (∀ k < 56, d.mem (regs + BitVec.ofNat 32 k) = t.mem (regs + BitVec.ofNat 32 k)) →
        d.eip = back ∧ SameRegisters (runOps leave d) c := by
  obtain ⟨stub, kind, rfl, rfl⟩ := exists_of_mem_stubs installed
  intro t regs
  have entered : Entered back n (errorCode n code) c t := by
    show Entered back n _ c (runOps (stub ++ irqCommonStub back) _)
    rw [runOps_append]
    exact (stub_numbered kind code c).entered
  have argument : regs = c.reg .esp - 56 := entered.argument
  rw [argument]
  refine ⟨entered.describes, fun d cdecl frame => ⟨?_, ?_⟩⟩
  · exact cdecl.eip.trans entered.returnAddress
  · refine irqReturn_restores entered segments ?_ frame
    rw [cdecl.esp, entered.esp]
    bv_omega

/-- A processor in the kernel's code. -/
def kernelCore : Core where
  reg := fun _ => 0xC0130000
  eflags := 0x202
  mem := fun _ => 0
  eip := 0xC0100800
  seg := fun s => if s = .cs then 0x8 else 0x10

/-- A page fault there whose handler returns at once. -/
theorem interrupt_balanced_pageFault : ∃ t d,
    t = runOps (isrErrcode 14 ++ isrCommonStub 0xC0100400) (interruptAt 14 2 kernelCore) ∧
      Describes t.mem (readWord t.mem (t.reg .esp + 4)) 14 2 kernelCore ∧ Cdecl t d ∧
      SameRegisters (runOps isrCommonReturn d) kernelCore := by
  have installed : (14, isrErrcode 14 ++ isrCommonStub 0xC0100400, isrCommonReturn) ∈
      stubs 0xC0100400 :=
    List.mem_append_left _ (List.mem_map.2 ⟨(14, isrErrcode 14), by decide, rfl⟩)
  have balanced := interrupt_balanced installed 2 kernelCore fun s hs => if_neg hs
  exact ⟨_, _, rfl, balanced.1, ret_cdecl _, (balanced.2 _ (ret_cdecl _) fun _ _ => rfl).2⟩

end SimpleKernel
