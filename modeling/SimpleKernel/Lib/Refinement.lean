import SimpleKernel.Lib.Program

/-!
# Refinement of programs

A program refines another one, over other states, if it stops where that one stops and otherwise
returns a value and a state that are related to those of the other.  What is known of the refined
program is then known of the refining one up to the relation.  Refinement is composed as programs
are; besides, the refined program may take a step alone.
The file ends with programs that work on a part of a larger state.
-/

namespace ProgramLogic

variable {σ τ ε ε' α β γ δ χ ψ : Type}

/-- What two specifications say of one program. -/
theorem WP.and {c : Prog σ ε α} {E E' : ε → σ → Prop} {Q Q' : α → σ → Prop} {s : σ}
    (h : WP c E Q s) (h' : WP c E' Q' s) :
    WP c (fun e t => E e t ∧ E' e t) (fun a t => Q a t ∧ Q' a t) s := by
  rcases h.outcome with ⟨a, t, run, hQ⟩ | ⟨e, t, stop, hE⟩
  · exact run.wp ⟨hQ, h'.returned run⟩
  · exact stop.wp ⟨hE, h'.stopped stop⟩

/-! ## Refinement -/

/-- Run from `s`, the program `c` does what `d` does from `t`: it stops for the same reason, or it
returns a value and a state that `R` relates to those of `d`. -/
def Refines (R : α → σ → β → τ → Prop) (c : Prog σ ε α) (d : Prog τ ε β) (s : σ) (t : τ) : Prop :=
  WP c (fun e _ => ∃ t', Stops d t e t') (fun a s' => ∃ b t', Returns d t b t' ∧ R a s' b t') s

namespace Refines

variable {R : α → σ → β → τ → Prop} {R' : γ → σ → δ → τ → Prop} {c : Prog σ ε α} {d : Prog τ ε β}
  {k : α → Prog σ ε γ} {k' : β → Prog τ ε δ} {s : σ} {t : τ}

theorem pure {a : α} {b : β} (related : R a s b t) :
    Refines R (pure a : Prog σ ε α) (pure b : Prog τ ε β) s t :=
  ⟨b, t, rfl, related⟩

theorem throw (e : ε) : Refines R (throw e : Prog σ ε α) (throw e : Prog τ ε β) s t := ⟨t, rfl⟩

theorem bind (first : Refines R c d s t)
    (rest : ∀ a s' b t', R a s' b t' → Refines R' (k a) (k' b) s' t') :
    Refines R' (c >>= k) (d >>= k') s t := by
  refine (wp_bind c k).2 (WP.weaken first ?_ ?_)
  · rintro e _ ⟨t', stop⟩
    exact ⟨t', stop.bind⟩
  · rintro a s' ⟨b, t', run, related⟩
    refine WP.weaken (rest a s' b t' related) ?_ ?_
    · rintro e _ ⟨u, stop⟩
      exact ⟨u, run.bind_stops stop⟩
    · rintro x s'' ⟨y, u, run', related'⟩
      exact ⟨y, u, run.bind run', related'⟩

/-- The rest of two programs as what the first parts have to establish. -/
theorem seq (first : Refines (fun a s' b t' => Refines R' (k a) (k' b) s' t') c d s t) :
    Refines R' (c >>= k) (d >>= k') s t := first.bind fun _ _ _ _ h => h

theorem get {R : σ → σ → τ → τ → Prop} (related : R s s t t) :
    Refines R (get : Prog σ ε σ) (get : Prog τ ε τ) s t := ⟨t, t, rfl, related⟩

theorem modify {R : PUnit → σ → PUnit → τ → Prop} {f : σ → σ} {g : τ → τ}
    (related : R ⟨⟩ (f s) ⟨⟩ (g t)) :
    Refines R (modify f : Prog σ ε PUnit) (modify g : Prog τ ε PUnit) s t := ⟨⟨⟩, g t, rfl, related⟩

/-- What is known of the refined program may be used for what follows. -/
theorem and {Q : β → τ → Prop} (refines : Refines R c d s t) (spec : WP d (fun _ _ => True) Q t) :
    Refines (fun a s' b t' => R a s' b t' ∧ Q b t') c d s t := by
  refine refines.mono ?_
  rintro a s' ⟨b, t', run, related⟩
  exact ⟨b, t', run, related, spec.returned run⟩

/-- A step that only the refined program takes. -/
theorem right {c : Prog σ ε γ} {b : β} {u : τ} (first : Returns d t b u)
    (rest : Refines R' c (k' b) s u) : Refines R' c (d >>= k') s t := by
  refine WP.weaken rest ?_ ?_
  · rintro e _ ⟨v, stop⟩
    exact ⟨v, first.bind_stops stop⟩
  · rintro a s' ⟨y, v, run, related⟩
    exact ⟨y, v, first.bind run, related⟩

theorem ite {p q : Prop} [Decidable p] [Decidable q] {c' : Prog σ ε α} {d' : Prog τ ε β}
    (same : p ↔ q) (yes : p → Refines R c d s t) (no : ¬ p → Refines R c' d' s t) :
    Refines R (if p then c else c') (if q then d else d') s t := by
  by_cases h : p
  · rw [if_pos h, if_pos (same.1 h)]
    exact yes h
  · rw [if_neg h, if_neg (mt same.2 h)]
    exact no h

/-- Two loops run round by round. -/
theorem whileM {stuck : ε} {cond : χ → Prog σ ε Bool} {body : χ → Prog σ ε χ}
    {cond' : ψ → Prog τ ε Bool} {body' : ψ → Prog τ ε ψ} {R : χ → σ → ψ → τ → Prop}
    (I : χ → σ → ψ → τ → Prop)
    (step : ∀ x s y t, I x s y t → Refines (fun b s' b' t' => b = b' ∧
      if b then Refines I (body x) (body' y) s' t' else R x s' y t') (cond x) (cond' y) s t)
    (fuel : ℕ) {x : χ} {y : ψ} (start : I x s y t) :
    Refines R (ProgramLogic.whileM stuck cond body fuel x)
      (ProgramLogic.whileM stuck cond' body' fuel y) s t := by
  induction fuel generalizing x y s t with
  | zero => exact throw stuck
  | succ fuel ih =>
    unfold ProgramLogic.whileM
    refine bind (step x s y t start) ?_
    rintro b s' _ t' ⟨rfl, next⟩
    cases b with
    | false => exact pure next
    | true => exact bind next fun x' s'' y' t'' again => ih again

/-- What is known of the refined program is known of the refining one. -/
theorem wp {E : ε → τ → Prop} {Q : β → τ → Prop} (refines : Refines R c d s t) (spec : WP d E Q t) :
    WP c (fun e _ => ∃ t', E e t') (fun a s' => ∃ b t', Q b t' ∧ R a s' b t') s := by
  refine WP.weaken refines ?_ ?_
  · rintro e _ ⟨t', stop⟩
    exact ⟨t', spec.stopped stop⟩
  · rintro a s' ⟨b, t', run, related⟩
    exact ⟨b, t', spec.returned run, related⟩

end Refines

/-! ## Parts of a state -/

/-- A program over the part `look` of a larger state, which `put` writes back; `stop` names its
reasons to stop among those of the whole. -/
def focus (stop : ε' → ε) (look : σ → τ) (put : σ → τ → σ) (c : Prog τ ε' α) : Prog σ ε α :=
  fun s => ((c (look s)).1.mapError stop, put s (c (look s)).2)

@[simp] theorem wp_focus {stop : ε' → ε} {look : σ → τ} {put : σ → τ → σ} {c : Prog τ ε' α}
    {E : ε → σ → Prop} {Q : α → σ → Prop} {s : σ} : WP (focus stop look put c) E Q s ↔
      WP c (fun e t => E (stop e) (put s t)) (fun a t => Q a (put s t)) (look s) := by
  unfold WP focus
  rcases c (look s) with ⟨e | a, t⟩ <;> exact Iff.rfl

end ProgramLogic
