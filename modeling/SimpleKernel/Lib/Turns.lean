import Mathlib.Data.Nat.Find
import Mathlib.Logic.Function.Basic

/-!
# Two parties that take turns

Each of two parties loops: it waits until a flag names it, works, and sets the flag to the other
party.  The work is a machine with local states; every one of its steps may change what the parties
share.  The steps of the two are interleaved in any way.  Then only the party that the flag names
works, so that the rounds follow each other as if each were one step, and under every fair schedule
there is no end of rounds.
-/

namespace Turns

variable {Λ σ : Type}

/-- Where a party is in its loop. -/
inductive Control (Λ : Type) where
  | waiting
  | working (l : Λ)
  | leaving

/-- The work of the two parties: where it starts, and what one step does and where it leads, if it
is not the last one. -/
structure Parties (Λ σ : Type) where
  start : Bool → Λ
  move : Bool → Λ → σ → σ × Option Λ

/-- The flag, where the parties are, what they share, and how many rounds have been completed. -/
structure State (Λ σ : Type) where
  flag : Bool
  control : Bool → Control Λ
  shared : σ
  rounds : ℕ

namespace State

def goTo (s : State Λ σ) (p : Bool) (c : Control Λ) : State Λ σ :=
  { s with control := Function.update s.control p c }

/-- Both parties wait. -/
def init (flag : Bool) (x : σ) : State Λ σ := ⟨flag, fun _ => .waiting, x, 0⟩

end State

namespace Parties

variable (P : Parties Λ σ)

/-- A step of the party `p`. -/
def step (p : Bool) (s : State Λ σ) : State Λ σ :=
  match s.control p with
  | .waiting => if s.flag = p then s.goTo p (.working (P.start p)) else s
  | .working l =>
    let next := P.move p l s.shared
    { s.goTo p (next.2.elim .leaving .working) with shared := next.1 }
  | .leaving => { s.goTo p .waiting with flag := !p, rounds := s.rounds + 1 }

/-- The state at each time, if `f` says which party takes the next step. -/
def run (f : ℕ → Bool) (s : State Λ σ) : ℕ → State Λ σ
  | 0 => s
  | t + 1 => P.step (f t) (run f s t)

/-- From the local state `l`, the work of `p` ends with `y` after `n` steps and a last one. -/
inductive Ends (p : Bool) : ℕ → Λ → σ → σ → Prop where
  | last {l : Λ} {x y : σ} (move : P.move p l x = (y, none)) : Ends p 0 l x y
  | more {n : ℕ} {l l' : Λ} {x y z : σ} (move : P.move p l x = (y, some l'))
      (rest : Ends p n l' y z) : Ends p (n + 1) l x z

/-- The work of `p`, begun with `x`, leads to `y`. -/
def Works (p : Bool) (x y : σ) : Prop := ∃ n, P.Ends p n (P.start p) x y

/-- Whose turn it is after `n` rounds, if `b` begins. -/
def turn (b : Bool) (n : ℕ) : Bool := b ^^ decide (n % 2 = 1)

theorem turn_succ (b : Bool) (n : ℕ) : turn b (n + 1) = !turn b n := by
  have parity : decide ((n + 1) % 2 = 1) = !decide (n % 2 = 1) := by
    rw [← decide_not, decide_eq_decide]
    omega
  rw [turn, turn, parity, Bool.xor_not]

/-! ## One step -/

section Steps

variable {P} {b p : Bool} {I : ℕ → σ → Prop} {s : State Λ σ} {n : ℕ}

/-- The party that the flag names sets the flag after `n` steps of its own and one more, and what
the parties share is then as `I` says. -/
inductive Needs (P : Parties Λ σ) (I : ℕ → σ → Prop) (s : State Λ σ) : ℕ → Prop where
  | waiting {n : ℕ} {y : σ} (control : s.control s.flag = .waiting)
      (ends : P.Ends s.flag n (P.start s.flag) s.shared y) (next : I (s.rounds + 1) y) :
      Needs P I s (n + 2)
  | working {n : ℕ} {l : Λ} {y : σ} (control : s.control s.flag = .working l)
      (ends : P.Ends s.flag n l s.shared y) (next : I (s.rounds + 1) y) : Needs P I s (n + 1)
  | leaving (control : s.control s.flag = .leaving) (next : I (s.rounds + 1) s.shared) :
      Needs P I s 0

/-- What holds between steps: only the party that the flag names can have left its wait, and its
work will establish what is to hold after the round. -/
structure Kept (P : Parties Λ σ) (b : Bool) (I : ℕ → σ → Prop) (s : State Λ σ) : Prop where
  flag : s.flag = turn b s.rounds
  other : s.control (!s.flag) = .waiting
  waiting : s.control s.flag = .waiting → I s.rounds s.shared
  needs : ∃ n, Needs P I s n

/-- The party that the flag does not name only reads the flag. -/
theorem Kept.step_other (kept : Kept P b I s) (other : p ≠ s.flag) : P.step p s = s := by
  have waits : s.control p = .waiting := by
    rw [Bool.eq_not_of_ne other]
    exact kept.other
  simp only [step, waits]
  exact if_neg other.symm

/-- A step of the work, or the one into it. -/
theorem Needs.step (needs : Needs P I s (n + 1)) :
    Needs P I (P.step s.flag s) n ∧ (P.step s.flag s).flag = s.flag ∧
      (P.step s.flag s).rounds = s.rounds ∧
      (P.step s.flag s).control (!s.flag) = s.control (!s.flag) ∧
      (P.step s.flag s).control s.flag ≠ .waiting := by
  cases needs with
  | waiting control ends next =>
    have stepped : P.step s.flag s = s.goTo s.flag (.working (P.start s.flag)) := by
      simp only [Parties.step, control, if_true]
    rw [stepped]
    refine ⟨.working (by simp [State.goTo]) ends next, rfl, rfl, ?_, ?_⟩ <;> simp [State.goTo]
  | @working n l y control ends next =>
    cases ends with
    | last move =>
      have stepped : P.step s.flag s = { s.goTo s.flag .leaving with shared := y } := by
        simp only [Parties.step, control, move, Option.elim]
      rw [stepped]
      refine ⟨.leaving (by simp [State.goTo]) next, rfl, rfl, ?_, ?_⟩ <;> simp [State.goTo]
    | @more n l l' x x' z move rest =>
      have stepped : P.step s.flag s = { s.goTo s.flag (.working l') with shared := x' } := by
        simp only [Parties.step, control, move, Option.elim]
      rw [stepped]
      refine ⟨.working (by simp [State.goTo]) rest next, rfl, rfl, ?_, ?_⟩ <;> simp [State.goTo]

/-- The step that sets the flag. -/
theorem Needs.leave (needs : Needs P I s 0) :
    (P.step s.flag s).flag = !s.flag ∧ (P.step s.flag s).rounds = s.rounds + 1 ∧
      (P.step s.flag s).control s.flag = .waiting ∧
      (P.step s.flag s).control (!s.flag) = s.control (!s.flag) ∧
      I (s.rounds + 1) (P.step s.flag s).shared := by
  cases needs with
  | leaving control next =>
    have stepped : P.step s.flag s =
        { s.goTo s.flag .waiting with flag := !s.flag, rounds := s.rounds + 1 } := by
      simp only [Parties.step, control]
    rw [stepped]
    refine ⟨rfl, rfl, ?_, ?_, next⟩ <;> simp [State.goTo]

variable (carry : ∀ n x, I n x → ∃ y, P.Works (turn b n) x y ∧ I (n + 1) y)
include carry

theorem kept_of_waiting (flag : s.flag = turn b s.rounds) (waits : ∀ p, s.control p = .waiting)
    (holds : I s.rounds s.shared) : Kept P b I s := by
  obtain ⟨y, ⟨n, ends⟩, next⟩ := carry _ _ holds
  rw [← flag] at ends
  exact ⟨flag, waits _, fun _ => holds, _, .waiting (waits _) ends next⟩

theorem Kept.step (kept : Kept P b I s) (p : Bool) : Kept P b I (P.step p s) := by
  by_cases turn : p = s.flag
  · subst turn
    obtain ⟨n, needs⟩ := kept.needs
    cases n with
    | zero =>
      obtain ⟨flag, rounds, waits, other, holds⟩ := needs.leave
      have all (p : Bool) : (P.step s.flag s).control p = .waiting := by
        by_cases own : p = s.flag
        · rw [own, waits]
        · rw [Bool.eq_not_of_ne own, other, kept.other]
      apply kept_of_waiting carry _ all
      · rw [rounds]
        exact holds
      · rw [flag, rounds, turn_succ, kept.flag]
    | succ n =>
      obtain ⟨rest, flag, rounds, other, busy⟩ := needs.step
      refine ⟨?_, ?_, ?_, n, rest⟩
      · rw [flag, rounds, kept.flag]
      · rw [flag, other, kept.other]
      · rw [flag]
        exact fun waits => absurd waits busy
  · rw [kept.step_other turn]
    exact kept

/-- In every run, from two waiting parties on. -/
theorem Kept.run (kept : Kept P b I s) (f : ℕ → Bool) (t : ℕ) : Kept P b I (P.run f s t) := by
  induction t with
  | zero => exact kept
  | succ t ih => exact ih.step carry (f t)

end Steps

/-! ## Fair schedules -/

section Fairness

variable {P} {b : Bool} {I : ℕ → σ → Prop} {s : State Λ σ} {f : ℕ → Bool}

/-- Both parties get to take steps again and again. -/
def Fair (f : ℕ → Bool) : Prop := ∀ t p, ∃ t' ≥ t, f t' = p

variable (carry : ∀ n x, I n x → ∃ y, P.Works (turn b n) x y ∧ I (n + 1) y) (kept : Kept P b I s)
  (fair : Fair f)
include carry kept fair

/-- Until the party that the flag names takes a step, nothing changes. -/
theorem exists_own_step (t : ℕ) :
    ∃ t' ≥ t, f t' = (P.run f s t).flag ∧ P.run f s t' = P.run f s t := by
  classical
  have later : ∃ k, f (t + k) = (P.run f s t).flag := by
    obtain ⟨t', ht, own⟩ := fair t (P.run f s t).flag
    exact ⟨t' - t, by rwa [Nat.add_sub_cancel' ht]⟩
  have same (k : ℕ) (hk : k ≤ Nat.find later) : P.run f s (t + k) = P.run f s t := by
    induction k with
    | zero => rfl
    | succ k ih =>
      have before := ih (Nat.le_of_succ_le hk)
      have away : f (t + k) ≠ (P.run f s (t + k)).flag := by
        rw [before]
        exact Nat.find_min later hk
      exact ((kept.run carry f (t + k)).step_other away).trans before
  exact ⟨t + Nat.find later, Nat.le_add_right _ _, Nat.find_spec later, same _ (le_refl _)⟩

/-- The round that a party is in comes to its end. -/
theorem exists_next_round (t : ℕ) : ∃ t' ≥ t, (P.run f s t').rounds = (P.run f s t).rounds + 1 := by
  obtain ⟨n, needs⟩ := (kept.run carry f t).needs
  induction n generalizing t with
  | zero =>
    obtain ⟨t', ht, own, same⟩ := exists_own_step carry kept fair t
    have stepped : P.run f s (t' + 1) = P.step (P.run f s t).flag (P.run f s t) := by
      rw [Parties.run, own, same]
    exact ⟨t' + 1, Nat.le_succ_of_le ht, by rw [stepped, needs.leave.2.1]⟩
  | succ n ih =>
    obtain ⟨t', ht, own, same⟩ := exists_own_step carry kept fair t
    have stepped : P.run f s (t' + 1) = P.step (P.run f s t).flag (P.run f s t) := by
      rw [Parties.run, own, same]
    have rest := needs.step
    rw [← stepped] at rest
    obtain ⟨t'', ht', rounds⟩ := ih (t' + 1) rest.1
    exact ⟨t'', by omega, by rw [rounds, rest.2.2.1]⟩

/-- There is no last round. -/
theorem exists_rounds (n : ℕ) : ∃ t, n ≤ (P.run f s t).rounds := by
  induction n with
  | zero => exact ⟨0, Nat.zero_le _⟩
  | succ n ih =>
    obtain ⟨t, before⟩ := ih
    obtain ⟨t', -, next⟩ := exists_next_round carry kept fair t
    exact ⟨t', by omega⟩

end Fairness

end Parties

end Turns
