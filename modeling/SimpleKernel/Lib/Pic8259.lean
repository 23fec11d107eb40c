import Mathlib.Data.List.Find
import Mathlib.Data.List.Nodup

/-!
# Two 8259A interrupt controllers

A controller keeps one bit for each of its eight lines in three registers: the requests that wait,
the requests in service, and the lines that are masked.  Line 0 is the most urgent one.  A second
controller, the slave, has its output on line 2 of the first one, as in a PC.

The only mode described is the one of `Usual`: requests are edges, a slave is there, and a request
stays in service until a command ends it.
-/

namespace Pic8259

/-! ## One controller -/

/-- What the next byte at the odd address is for. -/
inductive Stage where
  | icw2 | icw3 | icw4 | ready
  deriving DecidableEq, Repr

structure Pic where
  irr : BitVec 8
  isr : BitVec 8
  imr : BitVec 8
  icw1 : BitVec 8
  icw2 : BitVec 8
  icw3 : BitVec 8
  icw4 : BitVec 8
  stage : Stage
  deriving DecidableEq, Repr

def setBit (b : BitVec 8) (k : ℕ) : BitVec 8 := b ||| BitVec.twoPow 8 k

def clearBit (b : BitVec 8) (k : ℕ) : BitVec 8 := b &&& ~~~BitVec.twoPow 8 k

namespace Pic

/-- A controller is initialized for edges, a slave, an 8086 and commanded ends. -/
def Usual (p : Pic) : Prop := p.stage = .ready ∧ p.icw1 = 0x11 ∧ p.icw4 = 0x01

instance (p : Pic) : Decidable p.Usual := inferInstanceAs (Decidable (_ ∧ _ ∧ _))

/-- The request whose vector goes to the processor: the most urgent one on `lines` that is not
masked and is more urgent than all in service. -/
def selected (p : Pic) (lines : BitVec 8) : Option ℕ :=
  (List.range 8).find? fun k => lines.getLsbD k && !p.imr.getLsbD k &&
    (List.range (k + 1)).all fun j => !p.isr.getLsbD j

def vector (p : Pic) (k : ℕ) : BitVec 8 := (p.icw2 &&& 0xF8) ||| BitVec.ofNat 8 k

/-- A request arrives. -/
def request (p : Pic) (k : ℕ) : Pic := { p with irr := setBit p.irr k }

/-- A request comes into service. -/
def begin (p : Pic) (k : ℕ) : Pic := { p with irr := clearBit p.irr k, isr := setBit p.isr k }

/-- The most urgent request in service ends. -/
def endOfInterrupt (p : Pic) : Pic :=
  match (List.range 8).find? fun k => p.isr.getLsbD k with
  | some k => { p with isr := clearBit p.isr k }
  | none => p

/-- A byte is written to one of the two addresses of a controller.  Of the commands in operation,
masks and the end of the most urgent interrupt are described. -/
def write (p : Pic) (odd : Bool) (v : BitVec 8) : Option Pic :=
  if odd then
    match p.stage with
    | .icw2 => some { p with
        icw2 := v
        stage := if p.icw1.getLsbD 1 then (if p.icw1.getLsbD 0 then .icw4 else .ready) else .icw3 }
    | .icw3 => some { p with icw3 := v, stage := if p.icw1.getLsbD 0 then .icw4 else .ready }
    | .icw4 => some { p with icw4 := v, stage := .ready }
    | .ready => some { p with imr := v }
  else if v.getLsbD 4 then
    some { p with
      irr := 0
      isr := 0
      imr := 0
      icw1 := v
      icw4 := if v.getLsbD 0 then p.icw4 else 0
      stage := .icw2 }
  else if v = 0x20 then
    some p.endOfInterrupt
  else
    none

end Pic

theorem getLsbD_setBit {k : ℕ} (hk : k < 8) (b : BitVec 8) (j : ℕ) :
    (setBit b k).getLsbD j = (b.getLsbD j || decide (j = k)) := by
  simp [setBit, BitVec.getLsbD_twoPow, hk, eq_comm]

theorem getLsbD_clearBit {j : ℕ} (hj : j < 8) (b : BitVec 8) (k : ℕ) :
    (clearBit b k).getLsbD j = (b.getLsbD j && decide (j ≠ k)) := by
  simp only [clearBit, BitVec.getLsbD_and, BitVec.getLsbD_not, BitVec.getLsbD_twoPow, hj]
  by_cases h : k = j
  · simp [h, hj]
  · simp [h, Ne.symm h]

/-- At most one request in service. -/
def onlyBit : Option ℕ → BitVec 8
  | none => 0
  | some k => setBit 0 k

/-- The end of the only interrupt in service; where there is none, the command does nothing. -/
theorem Pic.endOfInterrupt_only {p : Pic} {a : Option ℕ} (ha : ∀ k ∈ a, k < 8)
    (only : p.isr = onlyBit a) : p.endOfInterrupt = { p with isr := 0 } := by
  cases a with
  | none =>
    have none : p.isr = 0 := only
    rw [Pic.endOfInterrupt, none]
    exact congrArg (fun isr => { p with isr := isr }) none
  | some k =>
    have found : ∀ k < 8, (List.range 8).find? (fun j => (setBit 0 k).getLsbD j) = some k := by
      decide
    have cleared : ∀ k < 8, clearBit (setBit 0 k) k = 0 := by decide
    have hk := ha k rfl
    rw [Pic.endOfInterrupt, only, onlyBit, found k hk]
    simp only [cleared k hk]

/-! ## Two controllers -/

structure Pics where
  master : Pic
  slave : Pic
  deriving DecidableEq, Repr

namespace Pics

/-- Both controllers are in the usual mode and know how they are connected. -/
structure Usual (p : Pics) : Prop where
  master : p.master.Usual
  slave : p.slave.Usual
  wired : p.master.icw3 = 0x04
  identity : p.slave.icw3 = 0x02

/-- A device asks for an interrupt on a line of the master or, from 8 on, of the slave. -/
def raise (p : Pics) (k : ℕ) : Pics :=
  if k < 8 then
    { p with master := p.master.request k }
  else
    { p with slave := p.slave.request (k - 8) }

/-- The request on line `k` waits. -/
def pending (p : Pics) (k : ℕ) : Bool :=
  if k < 8 then p.master.irr.getLsbD k else p.slave.irr.getLsbD (k - 8)

/-- The lines of the master, of which the slave drives one. -/
def lines (p : Pics) : BitVec 8 :=
  if (p.slave.selected p.slave.irr).isSome then setBit p.master.irr 2 else clearBit p.master.irr 2

/-- The processor acknowledges the interrupt and gets its vector.  A slave answers only where the
master expects it. -/
def acknowledge (p : Pics) : Option (BitVec 8 × Pics) := do
  let k ← p.master.selected p.lines
  if p.master.icw3.getLsbD k then
    let j ← p.slave.selected p.slave.irr
    if p.slave.icw3 = BitVec.ofNat 8 k then
      return (p.slave.vector j, ⟨p.master.begin k, p.slave.begin j⟩)
    else
      none
  else
    return (p.master.vector k, { p with master := p.master.begin k })

/-- The request is gone when the processor acknowledges it: the master answers for line 7. -/
def spuriousMaster (p : Pics) : BitVec 8 × Pics := (p.master.vector 7, p)

/-- The request is gone when the slave is asked: the slave answers for its line 7. -/
def spuriousSlave (p : Pics) : BitVec 8 × Pics :=
  (p.slave.vector 7, { p with master := p.master.begin 2 })

/-- All lines that devices can have, the most urgent first. -/
def order : List ℕ := [0, 1] ++ (List.range 8).map (8 + ·) ++ [3, 4, 5, 6, 7]

/-- No line is masked, and in service are at most one request of each controller. -/
structure InService (p : Pics) (a b : Option ℕ) : Prop extends Usual p where
  masterImr : p.master.imr = 0
  slaveImr : p.slave.imr = 0
  masterIsr : p.master.isr = onlyBit a
  slaveIsr : p.slave.isr = onlyBit b

/-- No line is masked and nothing is in service. -/
abbrev Idle (p : Pics) : Prop := p.InService none none

/-- The request on line `k` comes into service. -/
def accept (p : Pics) (k : ℕ) : Pics :=
  if k < 8 then
    { p with master := p.master.begin k }
  else
    ⟨p.master.begin 2, p.slave.begin (k - 8)⟩

/-- The vector of line `k`. -/
def vector (p : Pics) (k : ℕ) : BitVec 8 :=
  if k < 8 then p.master.vector k else p.slave.vector (k - 8)

/-- What is in service while line `k` is. -/
def masterLine (k : ℕ) : Option ℕ := some (if k < 8 then k else 2)

def slaveLine (k : ℕ) : Option ℕ := if k < 8 then none else some (k - 8)

/-- A byte is written to a port of the controllers in a PC. -/
def write (p : Pics) (port : BitVec 16) (v : BitVec 8) : Option Pics :=
  if port = 0x20 then (p.master.write false v).map fun c => { p with master := c }
  else if port = 0x21 then (p.master.write true v).map fun c => { p with master := c }
  else if port = 0xA0 then (p.slave.write false v).map fun c => { p with slave := c }
  else if port = 0xA1 then (p.slave.write true v).map fun c => { p with slave := c }
  else none

variable {p : Pics} {k : ℕ} {a b : Option ℕ}

theorem mem_order_iff : k ∈ order ↔ k < 16 ∧ k ≠ 2 := by
  constructor
  · revert k
    decide
  · rintro ⟨hk, h2⟩
    have all : ∀ k < 16, k ≠ 2 → k ∈ order := by decide
    exact all k hk h2

theorem order_nodup : order.Nodup := by decide

theorem pending_raise (hk : k < 16) (j : ℕ) :
    (p.raise k).pending j = (p.pending j || decide (j = k)) := by
  by_cases hk8 : k < 8
  · by_cases hj8 : j < 8
    · simp only [pending, raise, Pic.request, if_pos hk8, if_pos hj8, getLsbD_setBit hk8]
    · have h : j ≠ k := by omega
      simp [pending, raise, hk8, hj8, h]
  · by_cases hj8 : j < 8
    · have h : j ≠ k := by omega
      simp [pending, raise, hk8, hj8, h]
    · have h : j - 8 = k - 8 ↔ j = k := by omega
      simp only [pending, raise, Pic.request, if_neg hk8, if_neg hj8,
        getLsbD_setBit (show k - 8 < 8 by omega), h]

theorem pending_accept {j : ℕ} (hj : j ∈ order) :
    (p.accept k).pending j = (p.pending j && decide (j ≠ k)) := by
  obtain ⟨hj16, h2⟩ := mem_order_iff.1 hj
  by_cases hk8 : k < 8
  · by_cases hj8 : j < 8
    · simp only [pending, accept, Pic.begin, if_pos hk8, if_pos hj8, getLsbD_clearBit hj8]
    · have h : j ≠ k := by omega
      simp [pending, accept, hk8, hj8, h]
  · by_cases hj8 : j < 8
    · have h : j ≠ k := by omega
      simp only [pending, accept, Pic.begin, if_neg hk8, if_pos hj8, getLsbD_clearBit hj8, ne_eq, h,
        h2, not_false_eq_true]
    · have h : j - 8 = k - 8 ↔ j = k := by omega
      simp only [pending, accept, Pic.begin, if_neg hk8, if_neg hj8,
        getLsbD_clearBit (show j - 8 < 8 by omega), ne_eq, h]

theorem pending_spuriousSlave {j : ℕ} (hj : j ∈ order) :
    p.spuriousSlave.2.pending j = p.pending j := by
  obtain ⟨-, h2⟩ := mem_order_iff.1 hj
  by_cases hj8 : j < 8
  · simp only [pending, spuriousSlave, Pic.begin, if_pos hj8, getLsbD_clearBit hj8, ne_eq, h2,
      not_false_eq_true, decide_true, Bool.and_true]
  · simp only [pending, spuriousSlave, if_neg hj8]

theorem vector_raise (p : Pics) (k : ℕ) : (p.raise k).vector = p.vector := by
  unfold raise
  split <;> rfl

theorem vector_accept (p : Pics) (k : ℕ) : (p.accept k).vector = p.vector := by
  unfold accept
  split <;> rfl

theorem InService.raise (served : p.InService a b) (k : ℕ) : (p.raise k).InService a b := by
  unfold Pics.raise
  split <;> exact ⟨⟨served.master, served.slave, served.wired, served.identity⟩, served.masterImr,
    served.slaveImr, served.masterIsr, served.slaveIsr⟩

theorem Idle.accept (idle : p.Idle) (k : ℕ) :
    (p.accept k).InService (masterLine k) (slaveLine k) := by
  have master := idle.masterIsr
  have slave := idle.slaveIsr
  unfold Pics.accept masterLine slaveLine
  split <;> refine ⟨⟨idle.master, idle.slave, idle.wired, idle.identity⟩, idle.masterImr,
    idle.slaveImr, ?_, ?_⟩ <;> simp_all [Pic.begin, onlyBit]

/-- The slave was asked for a request that is gone. -/
theorem Idle.spuriousSlave (idle : p.Idle) : p.spuriousSlave.2.InService (some 2) none := by
  have master := idle.masterIsr
  refine ⟨⟨idle.master, idle.slave, idle.wired, idle.identity⟩, idle.masterImr, idle.slaveImr, ?_,
    idle.slaveIsr⟩
  simp_all [Pics.spuriousSlave, Pic.begin, onlyBit]

/-- The command to the slave ends what the slave has in service. -/
theorem InService.endSlave (served : p.InService a b) (hb : ∀ k ∈ b, k < 8) :
    ∃ q, p.write 0xA0 0x20 = some q ∧ q.InService a none ∧ q.pending = p.pending ∧
      q.vector = p.vector := by
  refine ⟨{ p with slave := { p.slave with isr := 0 } }, ?_, ⟨⟨served.master, served.slave, served.wired,
    served.identity⟩, served.masterImr, served.slaveImr, served.masterIsr, rfl⟩, rfl, rfl⟩
  simp [Pics.write, Pic.write, Pic.endOfInterrupt_only hb served.slaveIsr]

/-- The command to the master ends what the master has in service. -/
theorem InService.endMaster (served : p.InService a b) (ha : ∀ k ∈ a, k < 8) :
    ∃ q, p.write 0x20 0x20 = some q ∧ q.InService none b ∧ q.pending = p.pending ∧
      q.vector = p.vector := by
  refine ⟨{ p with master := { p.master with isr := 0 } }, ?_, ⟨⟨served.master, served.slave,
    served.wired, served.identity⟩, served.masterImr, served.slaveImr, rfl, served.slaveIsr⟩,
    rfl, rfl⟩
  simp [Pics.write, Pic.write, Pic.endOfInterrupt_only ha served.masterIsr]

/-- Where nothing is masked or in service, the first line with a request is selected. -/
theorem selected_idle {c : Pic} (imr : c.imr = 0) (isr : c.isr = 0) (lines : BitVec 8) :
    c.selected lines = (List.range 8).find? fun k => lines.getLsbD k := by
  have above (k : ℕ) : ((List.range (k + 1)).all fun _ => true) = true := by simp
  simp only [Pic.selected, imr, isr, BitVec.ofNat_eq_ofNat, BitVec.getLsbD_zero, Bool.not_false,
    Bool.and_true, above]

/-- The line of the slave. -/
theorem lines_two : p.lines.getLsbD 2 = (p.slave.selected p.slave.irr).isSome := by
  unfold lines
  split
  next h => rw [getLsbD_setBit (by decide), h, decide_eq_true rfl, Bool.or_true]
  next h => rw [getLsbD_clearBit (by decide), Bool.eq_false_of_not_eq_true h, decide_eq_false (by simp),
    Bool.and_false]

theorem lines_other (hk : k < 8) (h2 : k ≠ 2) : p.lines.getLsbD k = p.master.irr.getLsbD k := by
  unfold lines
  split
  · rw [getLsbD_setBit (by decide), decide_eq_false h2, Bool.or_false]
  · rw [getLsbD_clearBit hk, decide_eq_true h2, Bool.and_true]

theorem find_lines {l : List ℕ} (hl : ∀ k ∈ l, k < 8 ∧ k ≠ 2) :
    l.find? (fun k => p.lines.getLsbD k) = l.find? p.pending := by
  refine List.find?_congr fun k hk => ?_
  obtain ⟨hk8, h2⟩ := hl k hk
  rw [lines_other hk8 h2, pending, if_pos hk8]

/-- The most urgent request of both controllers is the one that the master selects, or that the
slave selects when the master selects the slave. -/
theorem Idle.find_order (idle : p.Idle) : order.find? p.pending = (p.master.selected p.lines).bind
    fun k => if k = 2 then (p.slave.selected p.slave.irr).map (8 + ·) else some k := by
  have slave : ((List.range 8).map (8 + ·)).find? p.pending =
      (p.slave.selected p.slave.irr).map (8 + ·) := by
    rw [selected_idle idle.slaveImr idle.slaveIsr, List.find?_map]
    congr 2
    funext k
    simp [pending]
  have first : [0, 1].find? (fun k => p.lines.getLsbD k) = [0, 1].find? p.pending :=
    find_lines (by simp)
  have last : [3, 4, 5, 6, 7].find? (fun k => p.lines.getLsbD k) = [3, 4, 5, 6, 7].find? p.pending :=
    find_lines (by simp)
  have wire : [2].find? (fun k => p.lines.getLsbD k) =
      if (p.slave.selected p.slave.irr).isSome then some 2 else none := by
    rw [List.find?_cons, lines_two]
    cases p.slave.selected p.slave.irr <;> rfl
  have range : List.range 8 = [0, 1] ++ [2] ++ [3, 4, 5, 6, 7] := by decide
  rw [selected_idle idle.masterImr idle.masterIsr, range, order, List.find?_append, List.find?_append,
    slave, List.find?_append, List.find?_append, first, wire, last]
  cases low : [0, 1].find? p.pending with
  | some k =>
    have h2 : k ≠ 2 := by
      rintro rfl
      simpa using List.mem_of_find?_eq_some low
    simp [h2]
  | none =>
    cases mid : p.slave.selected p.slave.irr with
    | some j => simp
    | none =>
      cases high : [3, 4, 5, 6, 7].find? p.pending with
      | some k =>
        have h2 : k ≠ 2 := by
          rintro rfl
          simpa using List.mem_of_find?_eq_some high
        simp [h2]
      | none => simp

/-- The processor gets the vector of the most urgent request. -/
theorem Idle.acknowledge_eq (idle : p.Idle) :
    p.acknowledge = (order.find? p.pending).map fun k => (p.vector k, p.accept k) := by
  rw [idle.find_order, acknowledge, idle.wired, idle.identity]
  cases top : p.master.selected p.lines with
  | none => rfl
  | some k =>
    have hk : k < 8 := by
      have found := List.mem_of_find?_eq_some top
      simpa using found
    have wire : ∀ k < 8, (0x04 : BitVec 8).getLsbD k = decide (k = 2) := by decide
    simp only [Option.bind_eq_bind, Option.bind_some, wire k hk]
    by_cases h2 : k = 2
    · subst h2
      cases p.slave.selected p.slave.irr with
      | none => rfl
      | some j => simp [vector, Pics.accept]
    · simp [h2, vector, Pics.accept, hk]

end Pics

end Pic8259
