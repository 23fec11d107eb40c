import SimpleKernel.Descriptors
import SimpleKernel.Interrupts
import SimpleKernel.Vmm
import SimpleKernel.Lib.Pic8259
import SimpleKernel.Lib.Pit8253
import SimpleKernel.Lib.Refinement

/-!
# Interrupt controllers and timer

The port writes of `idt.c` and `timer.c`, and `irq_handler`.  A call through `interrupt_handlers` is
recorded; it is the last thing that `irq_handler` does, so what the called function does comes after
everything here.
-/

namespace SimpleKernel

open ProgramLogic Pic8259 Pit8253

/-- The machine with its interrupt controllers, its timer, and the calls through
`interrupt_handlers` with their argument, the last one in front. -/
structure Board where
  machine : Machine
  pics : Pics
  pit : Pit
  calls : List (Word × Word)

namespace Board

@[simps -fullyApplied]
def setMachine (b : Board) (machine : Machine) : Board := { b with machine := machine }

@[simps -fullyApplied]
def setPics (b : Board) (pics : Pics) : Board := { b with pics := pics }

@[simps -fullyApplied]
def setPit (b : Board) (pit : Pit) : Board := { b with pit := pit }

@[simp] theorem setMachine_self (b : Board) : b.setMachine b.machine = b := rfl

@[simp] theorem setPics_self (b : Board) : b.setPics b.pics = b := rfl

end Board

/-- Why code that uses ports stops. -/
inductive BoardStop where
  | kernel (e : Stop)
  /-- No device here takes this byte. -/
  | port (port : BitVec 16) (value : Byte)
  /-- A division by zero. -/
  | divide
  /-- An element behind the end of `interrupt_handlers`. -/
  | outside
  deriving DecidableEq, Repr

namespace Board

abbrev Wiring (α : Type) := Prog Board BoardStop α

def onMachine {α : Type} (c : Kernel α) : Wiring α := focus .kernel machine setMachine c

/-- `outb`, for the ports of the interrupt controllers and of the timer. -/
def outb (port : BitVec 16) (value : Byte) : Wiring Unit := do
  let b ← get
  match b.pics.write port value with
  | some pics => set (b.setPics pics)
  | none => match b.pit.write port value with
    | some pit => set (b.setPit pit)
    | none => throw (.port port value)

/-! ## `idt.c` -/

def init8259APIC : Wiring Unit := do
  outb 0x20 0x11
  outb 0xA0 0x11
  outb 0x21 0x20
  outb 0xA1 0x28
  outb 0x21 0x04
  outb 0xA1 0x02
  outb 0x21 0x01
  outb 0xA1 0x01
  outb 0x21 0x0
  outb 0xA1 0x0

/-- `interrupt_handlers[n]`. -/
def interruptHandler (n : Word) : Wiring Word := do
  if n.toNat < 256 then
    return (← get).machine.interruptHandlers (n.setWidth 8)
  else
    throw .outside

def callHandler (func regs : Word) : Wiring Unit :=
  modify fun b => { b with calls := (func, regs) :: b.calls }

def irqHandler (regs : Word) : Wiring Unit := do
  let intNo ← onMachine (load32 (regs + PtRegsField.intNo.offset))
  if 40 ≤ intNo.toNat then
    outb 0xA0 0x20
  outb 0x20 0x20
  let func ← interruptHandler intNo
  if func ≠ 0 then
    callHandler func regs

/-! ## `timer.c` -/

/-- `HZ`. -/
def hz : Word := 1193180

/-- The vector of the timer. -/
def IRQ0 : Byte := 32

def initTimer (timerCallback frequency : Word) : Wiring Unit := do
  onMachine (registerInterruptHandler IRQ0 timerCallback)
  if frequency = 0 then
    throw .divide
  let divisor := hz / frequency
  outb 0x43 0x36
  let low : Byte := (divisor &&& 0xff).setWidth 8
  let high : Byte := ((divisor >>> 8) &&& 0xff).setWidth 8
  outb 0x40 low
  outb 0x40 high

section Specs

variable {E : BoardStop → Board → Prop} {b : Board} {port : BitVec 16} {v : Byte}

theorem outb_pics {Q : Unit → Board → Prop} {p : Pics} (written : b.pics.write port v = some p)
    (hQ : Q () (b.setPics p)) : WP (outb port v) E Q b := by
  simp only [outb, wp_bind, wp_get, written]
  exact hQ

theorem outb_pit {Q : Unit → Board → Prop} {p : Pit} (other : b.pics.write port v = none)
    (written : b.pit.write port v = some p) (hQ : Q () (b.setPit p)) : WP (outb port v) E Q b := by
  simp only [outb, wp_bind, wp_get, other, written]
  exact hQ

/-- Both controllers after `init_8259APIC`. -/
def initialPics : Pics where
  master := ⟨0, 0, 0, 0x11, 0x20, 0x04, 0x01, .ready⟩
  slave := ⟨0, 0, 0, 0x11, 0x28, 0x02, 0x01, .ready⟩

theorem initialPics_idle : initialPics.Idle :=
  ⟨⟨by decide, by decide, rfl, rfl⟩, rfl, rfl, rfl, rfl⟩

theorem initialPics_pending (k : ℕ) : initialPics.pending k = false := by
  simp [Pics.pending, initialPics]

/-- `init_8259APIC` does the same from every state of the controllers. -/
theorem init8259APIC_spec {Q : Unit → Board → Prop} (hQ : Q () (b.setPics initialPics)) :
    WP init8259APIC E Q b := by
  simpa [init8259APIC, outb, Pics.write, Pic.write, setPics, initialPics] using hQ

/-- The controllers do not have the timer's ports. -/
theorem write_timer (p : Pics) (h : port = 0x43 ∨ port = 0x40) : p.write port v = none := by
  rcases h with rfl | rfl <;> rfl

/-- The timer takes the divisor as it is cut to 16 bits. -/
theorem initTimer_spec {timerCallback frequency : Word} (nonzero : frequency ≠ 0)
    {Q : Unit → Board → Prop}
    (hQ : ∀ m, m.interruptHandlers = Function.update b.machine.interruptHandlers IRQ0 timerCallback →
      Q () ((b.setMachine m).setPit ⟨0x36, none, some ((hz / frequency).extractLsb' 0 16)⟩)) :
    WP (initTimer timerCallback frequency) E Q b := by
  have written := b.pit.write_initial ((hz / frequency).extractLsb' 0 16)
  have halves (s : ℕ) (hs : s + 8 ≤ 16) : ((hz / frequency).extractLsb' 0 16).extractLsb' s 8 =
      (hz / frequency).extractLsb' s 8 := by
    rw [byte_of_half _ 0 s hs, Nat.zero_add]
  rw [halves 0 (by decide), halves 8 (by decide)] at written
  have low : ((hz / frequency) &&& 0xff).setWidth 8 = (hz / frequency).extractLsb' 0 8 :=
    masked_byte (hz / frequency) 0
  obtain ⟨p₂, written₂, third⟩ := Option.bind_eq_some_iff.1 written
  obtain ⟨p₁, first, second⟩ := Option.bind_eq_some_iff.1 written₂
  simp only [initTimer, wp_bind, wp_ite, onMachine, wp_focus, registerInterruptHandler, wp_modify]
  refine ⟨fun zero => (nonzero zero).elim, fun _ => ?_⟩
  rw [low, masked_byte]
  refine outb_pit (write_timer _ (.inl rfl)) first ?_
  refine outb_pit (write_timer _ (.inr rfl)) second ?_
  exact outb_pit (write_timer _ (.inr rfl)) third (hQ _ rfl)

end Specs

/-- `init_timer` makes the timer ask for an interrupt once in a period that is the longest one of at
most `1 / frequency` seconds, exactly for frequencies from 19 to `HZ`.  Below, the divisor does not
fit its 16 bits; above, it is 0.  For the frequency 0 it divides by zero. -/
theorem initTimer_period_iff (b : Board) (timerCallback frequency : Word) :
    (∃ t, Stops (initTimer timerCallback frequency) b .divide t) ∧ frequency = 0 ∨
    ∃ t n, Returns (initTimer timerCallback frequency) b () t ∧
      t.machine.interruptHandlers IRQ0 = timerCallback ∧ t.pit.SquareWave ∧ t.pit.Period n ∧
      (n * frequency.toNat ≤ hz.toNat ∧ hz.toNat < (n + 1) * frequency.toNat ↔
        19 ≤ frequency.toNat ∧ frequency.toNat ≤ hz.toNat) := by
  by_cases zero : frequency = 0
  · left
    subst zero
    exact ⟨⟨_, rfl⟩, rfl⟩
  right
  have positive : 0 < frequency.toNat := by
    have := BitVec.toNat_ne.1 zero
    simp at this
    omega
  set divisor := hz / frequency with hd
  have value : divisor.toNat = hz.toNat / frequency.toNat := BitVec.toNat_udiv
  have few : hz.toNat = 1193180 := rfl
  have initial : divisor.extractLsb' 0 16 = BitVec.ofNat 16 divisor.toNat := by
    refine BitVec.eq_of_toNat_eq ?_
    rw [BitVec.extractLsb'_toNat, BitVec.toNat_ofNat, Nat.shiftRight_zero]
  have programmed : WP (initTimer timerCallback frequency) (fun _ _ => False) (fun _ t =>
      t.machine.interruptHandlers IRQ0 = timerCallback ∧
      t.pit = ⟨0x36, none, some (divisor.extractLsb' 0 16)⟩) b :=
    initTimer_spec zero fun m hm => ⟨by simp [hm], rfl⟩
  obtain ⟨⟨⟩, t, run, handlers, pit⟩ := programmed.returns
  refine ⟨t, Pit.pulses (divisor.extractLsb' 0 16), run, handlers, ?_, ?_, ?_⟩
  · rw [pit]
    exact (by decide : (0x36 : Byte) &&& 0x07 = 0x06)
  · rw [pit]
    exact ⟨rfl, _, rfl, rfl⟩
  have division (n : ℕ) : n * frequency.toNat ≤ hz.toNat ∧ hz.toNat < (n + 1) * frequency.toNat ↔
      hz.toNat / frequency.toNat = n := by
    rw [Nat.div_eq_iff positive, Nat.succ_mul]
    omega
  have small : hz.toNat / frequency.toNat ≤ 2 ^ 16 ↔ 19 ≤ frequency.toNat := by
    rw [← Nat.lt_succ_iff, Nat.div_lt_iff_lt_mul positive, few]
    omega
  rw [division, initial, ← value, eq_comm, Pit.pulses_eq_iff, value, small, Nat.div_pos_iff]
  omega

end Board

end SimpleKernel
