import Mathlib.Order.Basic

/-!
# Programs with state and early stops

A program reads and changes a state and either returns a value or stops for a reason; either way it
leaves a last state.  `WP` is the weakest precondition of such a program, with one postcondition for
a return and one for a stop.
This file gives a rule for each way of composing programs, the rule of consequence, and the
invariant rules of bounded and unbounded loops.
-/

namespace ProgramLogic

/-- Programs over states `σ` that return a value of `α` or stop with a reason of `ε`. -/
abbrev Prog (σ ε α : Type) := ExceptT ε (StateM σ) α

section Rules

variable {σ ε α β τ : Type}

/-- Run from `s`, the program returns `a` in state `t`. -/
def Returns (c : Prog σ ε α) (s : σ) (a : α) (t : σ) : Prop := c s = (.ok a, t)

/-- Run from `s`, the program stops for the reason `e` in state `t`. -/
def Stops (c : Prog σ ε α) (s : σ) (e : ε) (t : σ) : Prop := c s = (.error e, t)

/-- From `s`, the program returns with `Q` of its value and its last state, or stops with `E` of
its reason and its last state. -/
def WP (c : Prog σ ε α) (E : ε → σ → Prop) (Q : α → σ → Prop) (s : σ) : Prop :=
  match c s with
  | (.ok a, t) => Q a t
  | (.error e, t) => E e t

variable {E : ε → σ → Prop} {Q : α → σ → Prop} {s t : σ}

@[simp] theorem wp_pure (a : α) : WP (pure a : Prog σ ε α) E Q s ↔ Q a s := Iff.rfl

@[simp] theorem wp_throw (e : ε) : WP (throw e : Prog σ ε α) E Q s ↔ E e s :=
  Iff.rfl

@[simp] theorem wp_get {Q : σ → σ → Prop} : WP (get : Prog σ ε σ) E Q s ↔ Q s s := Iff.rfl

@[simp] theorem wp_set {Q : PUnit → σ → Prop} : WP (set t : Prog σ ε PUnit) E Q s ↔ Q ⟨⟩ t :=
  Iff.rfl

@[simp] theorem wp_modify {Q : PUnit → σ → Prop} (f : σ → σ) :
    WP (modify f : Prog σ ε PUnit) E Q s ↔ Q ⟨⟩ (f s) := Iff.rfl

@[simp] theorem wp_bind {Q : β → σ → Prop} (c : Prog σ ε α) (k : α → Prog σ ε β) :
    WP (c >>= k) E Q s ↔ WP c E (fun a t => WP (k a) E Q t) s := by
  unfold WP
  show (match ExceptT.bindCont k (c s).1 (c s).2 with
    | (.ok a, t) => Q a t
    | (.error e, t) => E e t) ↔ _
  rcases c s with ⟨e | a, t⟩ <;> exact Iff.rfl

theorem wp_ite {p : Prop} [Decidable p] {c d : Prog σ ε α} :
    WP (if p then c else d) E Q s ↔ (p → WP c E Q s) ∧ (¬ p → WP d E Q s) := by
  split_ifs with h <;> simp [h]

/-- The rule of consequence. -/
theorem WP.weaken {c : Prog σ ε α} {E' : ε → σ → Prop} {Q' : α → σ → Prop} (h : WP c E Q s)
    (hE : ∀ e t, E e t → E' e t) (hQ : ∀ a t, Q a t → Q' a t) : WP c E' Q' s := by
  unfold WP at h ⊢
  split at h
  · exact hQ _ _ h
  · exact hE _ _ h

theorem WP.mono {c : Prog σ ε α} {Q' : α → σ → Prop} (h : WP c E Q s)
    (hQ : ∀ a t, Q a t → Q' a t) : WP c E Q' s :=
  h.weaken (fun _ _ he => he) hQ

theorem WP.bind {Q : β → σ → Prop} {R : α → σ → Prop} {c : Prog σ ε α} {k : α → Prog σ ε β}
    (h : WP c E R s) (hk : ∀ a t, R a t → WP (k a) E Q t) : WP (c >>= k) E Q s :=
  (wp_bind c k).2 (h.mono hk)

/-- What the weakest precondition says of a run that returned. -/
theorem WP.returned {c : Prog σ ε α} {a : α} (h : WP c E Q s) (hc : Returns c s a t) : Q a t := by
  unfold WP at h
  rwa [hc] at h

/-- What the weakest precondition says of a run that stopped. -/
theorem WP.stopped {c : Prog σ ε α} {e : ε} (h : WP c E Q s) (hc : Stops c s e t) : E e t := by
  unfold WP at h
  rwa [hc] at h

/-- A program returns or stops for an admitted reason. -/
theorem WP.outcome {c : Prog σ ε α} (h : WP c E Q s) :
    (∃ a t, Returns c s a t ∧ Q a t) ∨ ∃ e t, Stops c s e t ∧ E e t := by
  unfold WP at h
  split at h
  · exact .inl ⟨_, _, ‹_›, h⟩
  · exact .inr ⟨_, _, ‹_›, h⟩

/-- A program that stops for no reason returns. -/
theorem WP.returns {c : Prog σ ε α} (h : WP c (fun _ _ => False) Q s) :
    ∃ a t, Returns c s a t ∧ Q a t := by
  rcases h.outcome with hc | ⟨e, t, -, hc⟩
  · exact hc
  · exact hc.elim

theorem Returns.wp_iff {c : Prog σ ε α} {a : α} (hc : Returns c s a t) : WP c E Q s ↔ Q a t := by
  unfold WP
  rw [hc]

theorem Returns.wp {c : Prog σ ε α} {a : α} (hc : Returns c s a t) (h : Q a t) : WP c E Q s :=
  hc.wp_iff.2 h

theorem Stops.wp {c : Prog σ ε α} {e : ε} (hc : Stops c s e t) (h : E e t) : WP c E Q s := by
  unfold WP
  rwa [hc]

/-- Behind a return the rest runs. -/
theorem Returns.bind_run {c : Prog σ ε α} {k : α → Prog σ ε β} {a : α} (first : Returns c s a t) :
    (c >>= k) s = k a t := by
  show ExceptT.bindCont k (c s).1 (c s).2 = _
  rw [show c s = (.ok a, t) from first]
  rfl

theorem Returns.bind {c : Prog σ ε α} {k : α → Prog σ ε β} {a : α} {b : β} {u : σ}
    (first : Returns c s a t) (rest : Returns (k a) t b u) : Returns (c >>= k) s b u :=
  first.bind_run.trans rest

theorem Stops.bind {c : Prog σ ε α} {k : α → Prog σ ε β} {e : ε} (first : Stops c s e t) :
    Stops (c >>= k) s e t := by
  show ExceptT.bindCont k (c s).1 (c s).2 = _
  rw [show c s = (.error e, t) from first]
  rfl

theorem Returns.bind_stops {c : Prog σ ε α} {k : α → Prog σ ε β} {a : α} {e : ε} {u : σ}
    (first : Returns c s a t) (rest : Stops (k a) t e u) : Stops (c >>= k) s e u :=
  first.bind_run.trans rest

/-- A program returns in one way only. -/
theorem Returns.unique {c : Prog σ ε α} {a b : α} {u : σ} (hc : Returns c s a t)
    (hc' : Returns c s b u) : a = b := by
  have same := congrArg Prod.fst (hc.symm.trans hc')
  exact Except.ok.inj same

theorem Stops.unique {c : Prog σ ε α} {e e' : ε} {u : σ} (hc : Stops c s e t)
    (hc' : Stops c s e' u) : e = e' := by
  have same := congrArg Prod.fst (hc.symm.trans hc')
  exact Except.error.inj same

/-- A program does not both return and stop. -/
theorem Returns.not_stops {c : Prog σ ε α} {a : α} {e : ε} {u : σ} (hc : Returns c s a t) :
    ¬ Stops c s e u := by
  intro stop
  have same := congrArg Prod.fst (hc.symm.trans stop)
  cases same

/-! ## Loops -/

/-- `for i in 0 .. n-1`, with an invariant indexed by the number of finished rounds. -/
theorem WP.forM_range {body : ℕ → Prog σ ε PUnit} (I : ℕ → σ → Prop) (n : ℕ)
    (step : ∀ i t, i < n → I i t → WP (body i) E (fun _ => I (i + 1)) t) (start : I 0 s) :
    WP ((List.range n).forM body) E (fun _ => I n) s := by
  induction n with
  | zero => exact start
  | succ n ih =>
    rw [List.range_succ, List.forM_eq_forM, List.forM_append]
    refine WP.bind (ih fun i t hi => step i t (by omega)) fun _ t ht => ?_
    rw [List.forM_cons]
    exact (step n t (by omega) ht).bind fun _ u hu => hu

/-- `while (cond) body` over a loop variable, stopping with `stuck` when `fuel` rounds were not
enough. -/
def whileM (stuck : ε) (cond : τ → Prog σ ε Bool) (body : τ → Prog σ ε τ) : ℕ → τ → Prog σ ε τ
  | 0, _ => throw stuck
  | fuel + 1, x => do
    if ← cond x then
      whileM stuck cond body fuel (← body x)
    else
      pure x

/-- A loop that keeps `I` and lowers `μ` in every round ends within any fuel above `μ`. -/
theorem WP.whileM {stuck : ε} {cond : τ → Prog σ ε Bool} {body : τ → Prog σ ε τ}
    {Q : τ → σ → Prop} (I : τ → σ → Prop) (μ : τ → σ → ℕ)
    (step : ∀ x t, I x t → WP (cond x) E (fun b u =>
      if b then WP (body x) E (fun y v => I y v ∧ μ y v < μ x t) u else Q x u) t)
    (fuel : ℕ) {x : τ} (start : I x s) (enough : μ x s < fuel) :
    WP (ProgramLogic.whileM stuck cond body fuel x) E Q s := by
  induction fuel generalizing x s with
  | zero => exact absurd enough (Nat.not_lt_zero _)
  | succ fuel ih =>
    unfold ProgramLogic.whileM
    refine WP.bind (step x s start) fun b u hb => ?_
    cases b with
    | false => exact hb
    | true =>
      refine WP.bind hb fun y v both => ?_
      obtain ⟨hI, hμ⟩ := both
      exact ih hI (by omega)

theorem Returns.whileM_stop {stuck : ε} {cond : τ → Prog σ ε Bool} {body : τ → Prog σ ε τ}
    {fuel : ℕ} {x : τ} (stop : Returns (cond x) s false t) :
    Returns (ProgramLogic.whileM stuck cond body (fuel + 1) x) s x t := by
  unfold ProgramLogic.whileM
  exact stop.bind rfl

theorem Returns.whileM_next {stuck : ε} {cond : τ → Prog σ ε Bool} {body : τ → Prog σ ε τ}
    {fuel : ℕ} {x y z : τ} {u v : σ} (more : Returns (cond x) s true t)
    (round : Returns (body x) t y u)
    (rest : Returns (ProgramLogic.whileM stuck cond body fuel y) u z v) :
    Returns (ProgramLogic.whileM stuck cond body (fuel + 1) x) s z v := by
  unfold ProgramLogic.whileM
  exact more.bind (round.bind rest)

theorem Stops.whileM {stuck : ε} {cond : τ → Prog σ ε Bool} {body : τ → Prog σ ε τ} {fuel : ℕ}
    {x : τ} {e : ε} {u : σ} (more : Returns (cond x) s true t) (round : Stops (body x) t e u) :
    Stops (ProgramLogic.whileM stuck cond body (fuel + 1) x) s e u := by
  unfold ProgramLogic.whileM
  exact more.bind_stops round.bind

theorem Returns.whileM_stops {stuck : ε} {cond : τ → Prog σ ε Bool} {body : τ → Prog σ ε τ}
    {fuel : ℕ} {x y : τ} {e : ε} {u v : σ} (more : Returns (cond x) s true t)
    (round : Returns (body x) t y u)
    (rest : Stops (ProgramLogic.whileM stuck cond body fuel y) u e v) :
    Stops (ProgramLogic.whileM stuck cond body (fuel + 1) x) s e v := by
  unfold ProgramLogic.whileM
  exact more.bind_stops (round.bind_stops rest)

/-! ## Invariants of runs that return -/

/-- Whenever `c` returns, `I` holds behind it if it held before it. -/
def Keeps (I : σ → Prop) (c : Prog σ ε α) : Prop := ∀ s, I s → WP c (fun _ _ => True) (fun _ => I) s

namespace Keeps

variable {I : σ → Prop} {c : Prog σ ε α} {k : α → Prog σ ε β}

theorem returned {a : α} (keeps : Keeps I c) (hs : I s) (run : Returns c s a t) : I t :=
  (keeps s hs).returned run

theorem pure (a : α) : Keeps I (pure a : Prog σ ε α) := fun _ hs => hs

theorem throw (e : ε) : Keeps I (throw e : Prog σ ε α) := fun _ _ => trivial

theorem bind (first : Keeps I c) (rest : ∀ a, Keeps I (k a)) : Keeps I (c >>= k) :=
  fun s hs => (first s hs).bind fun a t ht => rest a t ht

/-- The state that `get` gives may be assumed to satisfy `I`. -/
theorem get_bind {k : σ → Prog σ ε β} (rest : ∀ s, I s → Keeps I (k s)) : Keeps I (get >>= k) := by
  intro s hs
  rw [wp_bind, wp_get]
  exact rest s hs s hs

theorem ite {p : Prop} [Decidable p] {d : Prog σ ε α} (yes : Keeps I c) (no : Keeps I d) :
    Keeps I (if p then c else d) := by
  by_cases h : p
  · rwa [if_pos h]
  · rwa [if_neg h]

theorem whileM {stuck : ε} {cond : τ → Prog σ ε Bool} {body : τ → Prog σ ε τ}
    (hcond : ∀ x, Keeps I (cond x)) (hbody : ∀ x, Keeps I (body x)) (fuel : ℕ) (x : τ) :
    Keeps I (ProgramLogic.whileM stuck cond body fuel x) := by
  induction fuel generalizing x with
  | zero => exact throw stuck
  | succ fuel ih =>
    unfold ProgramLogic.whileM
    apply bind (hcond x)
    intro b
    exact ite (bind (hbody x) ih) (pure x)

end Keeps

end Rules

end ProgramLogic
