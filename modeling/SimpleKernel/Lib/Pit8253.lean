import Mathlib.Algebra.GroupWithZero.Nat

/-!
# Counter 0 of an 8253 interval timer

A control word selects how the counter counts and how its initial value is written.  In the rate
generator and square wave modes it then asks for one interrupt in each period of as many pulses of
its clock as the initial value says.
-/

namespace Pit8253

/-- The last control word, the half of an initial value that waits for the other, and the initial
value. -/
structure Pit where
  control : BitVec 8
  lowByte : Option (BitVec 8)
  initial : Option (BitVec 16)
  deriving DecidableEq, Repr

namespace Pit

/-- Bits 4 and 5 of a control word: the bytes of an initial value that are written, and whether the
counter is to be latched instead. -/
def access (v : BitVec 8) : BitVec 8 := v &&& 0x30

/-- A byte is written to a port of the timer.  Other counters are not described. -/
def write (p : Pit) (port : BitVec 16) (v : BitVec 8) : Option Pit :=
  if port = 0x43 then
    if v &&& 0xC0 = 0 then
      if access v = 0 then some p else some ⟨v, none, none⟩
    else
      none
  else if port = 0x40 then
    if access p.control = 0x10 then some { p with initial := some (v.setWidth 16) }
    else if access p.control = 0x20 then some { p with initial := some (v.setWidth 16 <<< 8) }
    else match p.lowByte with
      | none => some { p with lowByte := some v }
      | some low => some { p with
          lowByte := none
          initial := some (v.setWidth 16 <<< 8 ||| low.setWidth 16) }
  else
    none

/-- The mode is the square wave generator, and the counter is binary. -/
def SquareWave (p : Pit) : Prop := p.control &&& 0x07 = 0x06

/-- How many pulses a counter of 16 bits counts from this initial value: 0 counts as 65536.  The
value 1 is taken as one pulse, although the documented minimum of the square wave mode is 2. -/
def pulses (initial : BitVec 16) : ℕ := if initial = 0 then 2 ^ 16 else initial.toNat

/-- An initial value is in effect, and each period has `n` pulses. -/
def Period (p : Pit) (n : ℕ) : Prop := p.lowByte = none ∧ ∃ v, p.initial = some v ∧ pulses v = n

/-- Low byte and high byte of an initial value are written behind a control word. -/
theorem write_initial (p : Pit) (v : BitVec 16) :
    (((p.write 0x43 0x36).bind fun p => p.write 0x40 (v.extractLsb' 0 8)).bind
      fun p => p.write 0x40 (v.extractLsb' 8 8)) = some ⟨0x36, none, some v⟩ := by
  have halves : (v.extractLsb' 8 8).setWidth 16 <<< 8 ||| (v.extractLsb' 0 8).setWidth 16 = v := by
    refine BitVec.eq_of_getLsbD_eq fun i hi => ?_
    by_cases low : i < 8
    · simp [-BitVec.getLsbD_eq_getElem, low, hi]
    · simp [-BitVec.getLsbD_eq_getElem, low, hi, show 8 + (i - 8) = i by omega,
        show i - 8 < 8 by omega, show i - 8 < 16 by omega]
  simp [write, access, halves]

/-- The divisors that 16 bits can say. -/
theorem pulses_eq_iff (n : ℕ) : pulses (BitVec.ofNat 16 n) = n ↔ 0 < n ∧ n ≤ 2 ^ 16 := by
  have few := Nat.mod_lt n (show 0 < 2 ^ 16 by decide)
  have value : (BitVec.ofNat 16 n).toNat = n % 2 ^ 16 := BitVec.toNat_ofNat ..
  unfold pulses
  split
  next h =>
    have zero : n % 2 ^ 16 = 0 := value.symm.trans (congrArg BitVec.toNat h)
    omega
  next h =>
    have nonzero : n % 2 ^ 16 ≠ 0 := fun zero => h (BitVec.eq_of_toNat_eq (value.trans zero))
    rw [value]
    omega

end Pit

end Pit8253
