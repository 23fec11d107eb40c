import Mathlib.Data.List.Rotate

/-!
# Rings

A ring is a list whose last element is followed by its first one.  `Closed` says that links run
through a list in this way, and appending keeps a ring closed when two links are set.
`Walk` goes round a ring that may grow at its end meanwhile.  A walk that is back where it began
has met every element that was there at the beginning once, and no element twice.
-/

namespace Ring

variable {α : Type}

/-- The links `next` run through `l` and from its last element to its first. -/
def Closed (next : α → α) (l : List α) : Prop :=
  ∀ i x, l[i]? = some x → l[(i + 1) % l.length]? = some (next x)

section Closed

variable {next next' : α → α} {l : List α} {head last new : α}

/-- Following the links from the first element runs through the list again and again. -/
theorem Closed.iterate (h : Closed next l) (start : l[0]? = some head) (k : ℕ) :
    l[k % l.length]? = some (next^[k] head) := by
  induction k with
  | zero => rwa [Nat.zero_mod]
  | succ k ih =>
    have step := h _ _ ih
    rwa [Nat.mod_add_mod, ← Function.iterate_succ_apply' next k head] at step

theorem Closed.next_mem (h : Closed next l) {x : α} (hx : x ∈ l) : next x ∈ l := by
  obtain ⟨i, hi⟩ := List.mem_iff_getElem?.1 hx
  exact List.mem_of_getElem? (h i x hi)

/-- The elements before a position, the element there and those behind it. -/
theorem split_at {x : α} {i : ℕ} (h : l[i]? = some x) : l = l.take i ++ x :: l.drop (i + 1) := by
  obtain ⟨lt, rfl⟩ := List.getElem?_eq_some_iff.1 h
  rw [← List.drop_eq_getElem_cons lt, List.take_append_drop]

theorem index_lt {x : α} {i : ℕ} (h : l[i]? = some x) : i < l.length :=
  (List.getElem?_eq_some_iff.1 h).1

/-- An element that is followed by the first one is the last. -/
theorem Closed.last_of_next (h : Closed next l) (nodup : l.Nodup) {x : α} {i : ℕ}
    (hi : l[i]? = some x) (start : l[0]? = some (next x)) : i + 1 = l.length := by
  have lt := index_lt hi
  by_contra ne
  have step := h i x hi
  rw [Nat.mod_eq_of_lt (by omega)] at step
  have := (List.getElem?_inj (index_lt start) nodup).1 (start.trans step.symm)
  omega

/-- Link the last element to a new one and the new one to the first. -/
theorem Closed.append (h : Closed next l) (nodup : l.Nodup) (first : l[0]? = some head)
    (final : l[l.length - 1]? = some last) (hlast : next' last = new) (hnew : next' new = head)
    (rest : ∀ x ∈ l, x ≠ last → next' x = next x) : Closed next' (l ++ [new]) := by
  intro i x hi
  have pos := index_lt first
  have lt := index_lt hi
  rw [List.length_append, List.length_singleton] at lt ⊢
  rcases Nat.lt_succ_iff_lt_or_eq.1 lt with old | rfl
  · rw [List.getElem?_append_left old] at hi
    rw [Nat.mod_eq_of_lt (by omega)]
    by_cases isLast : i + 1 = l.length
    · rw [← isLast, Nat.add_sub_cancel] at final
      obtain rfl := Option.some_inj.1 (hi.symm.trans final)
      rw [isLast, List.getElem?_append_right le_rfl, Nat.sub_self, hlast]
      rfl
    · have ne : x ≠ last := by
        rintro rfl
        have := (List.getElem?_inj old nodup).1 (hi.trans final.symm)
        omega
      have step := h i x hi
      rw [Nat.mod_eq_of_lt (by omega)] at step
      rw [List.getElem?_append_left (by omega), step, rest x (List.mem_of_getElem? hi) ne]
  · rw [List.getElem?_append_right le_rfl, Nat.sub_self] at hi
    obtain rfl : new = x := Option.some_inj.1 hi
    rw [Nat.mod_self, List.getElem?_append_left pos, first, hnew]

end Closed

/-! ## Walks -/

/-- A walk round a ring that begins at position `c` of `l` and reaches the elements `visits`, one
after the other, while elements may arrive at the end.  It ends at position `c'` of `l'`. -/
inductive Walk (l : List α) (c : ℕ) : List α → List α → ℕ → Prop where
  | start : Walk l c [] l c
  | arrive {visits l' : List α} {c' : ℕ} (x : α) :
    Walk l c visits l' c' → Walk l c visits (l' ++ [x]) c'
  | turn {visits l' : List α} {c' : ℕ} {y : α} : Walk l c visits l' c' →
    l'[(c' + 1) % l'.length]? = some y → Walk l c (visits ++ [y]) l' ((c' + 1) % l'.length)

namespace Walk

variable {l l' visits : List α} {c c' : ℕ} {x : α}

theorem exists_arrived (w : Walk l c visits l' c') : ∃ new, l' = l ++ new := by
  induction w with
  | start => exact ⟨[], (List.append_nil l).symm⟩
  | arrive x _ ih =>
    obtain ⟨new, rfl⟩ := ih
    exact ⟨new ++ [x], List.append_assoc ..⟩
  | turn _ _ ih => exact ih

/-- What a walk that has not come back has met: first the elements behind its beginning, up to the
end that the ring had when the walk passed it, then those from the front. -/
theorem visits_of_away (w : Walk l c visits l' c') (hc : l[c]? = some x) (away : x ∉ visits) :
    (c ≤ c' ∧ c' < l'.length ∧ visits = (l'.take (c' + 1)).drop (c + 1)) ∨
      c' < c ∧ ∃ m, l.length ≤ m ∧ m ≤ l'.length ∧
        visits = (l'.take m).drop (c + 1) ++ l'.take (c' + 1) := by
  have lt := index_lt hc
  induction w with
  | start => exact .inl ⟨le_rfl, lt, by simp⟩
  | @arrive visits l' c' y w ih =>
    rcases ih away with ⟨le, lt', e⟩ | ⟨before, m, le, le', e⟩
    · refine .inl ⟨le, by rw [List.length_append]; omega, ?_⟩
      rw [List.take_append_of_le_length (by omega)]
      exact e
    · have : l.length ≤ l'.length := le.trans le'
      refine .inr ⟨before, m, le, by rw [List.length_append]; omega, ?_⟩
      rw [List.take_append_of_le_length le', List.take_append_of_le_length (by omega)]
      exact e
  | @turn visits l' c' y w hy ih =>
    obtain ⟨new, rfl⟩ := w.exists_arrived
    have hc' : (l ++ new)[c]? = some x := by rw [List.getElem?_append_left lt, hc]
    have elsewhere : (c' + 1) % (l ++ new).length ≠ c := by
      intro same
      rw [same, hc'] at hy
      exact away (List.mem_append_right _ (by rw [Option.some_inj.1 hy]; exact List.mem_cons_self ..))
    have size : l.length ≤ (l ++ new).length := by
      rw [List.length_append]
      exact Nat.le_add_right ..
    rcases ih fun h => away (List.mem_append_left _ h) with ⟨le, lt', e⟩ | ⟨before, m, le, le', e⟩
    · by_cases wrap : c' + 1 = (l ++ new).length
      · rw [wrap, Nat.mod_self] at elsewhere hy ⊢
        refine .inr ⟨by omega, (l ++ new).length, size, le_rfl, ?_⟩
        rw [e, wrap, List.take_add_one, List.take_zero, hy]
        rfl
      · rw [Nat.mod_eq_of_lt (by omega)] at hy ⊢
        refine .inl ⟨by omega, by omega, ?_⟩
        rw [e, List.take_add_one (i := c' + 1), hy, List.drop_append_of_le_length]
        · rfl
        · rw [List.length_take]
          omega
    · rw [Nat.mod_eq_of_lt (by omega)] at elsewhere hy ⊢
      refine .inr ⟨by omega, m, le, le', ?_⟩
      rw [e, List.take_add_one (i := c' + 1), hy, List.append_assoc]
      rfl

/-- A walk that is back where it began has met, in some order, the elements that stood before the
place up to which it went. -/
theorem perm_of_return (w : Walk l c (visits ++ [x]) l' c') (hc : l[c]? = some x)
    (nodup : l'.Nodup) (away : x ∉ visits) :
    ∃ m, l.length ≤ m ∧ (visits ++ [x]).Perm (l'.take m) := by
  generalize all : visits ++ [x] = reached at w
  induction w with
  | start => simp at all
  | @arrive reached l' c' y w ih =>
    obtain ⟨new, rfl⟩ := w.exists_arrived
    obtain ⟨m, le, perm⟩ := ih nodup.of_append_left all
    refine ⟨min m (l ++ new).length, by rw [List.length_append]; omega, ?_⟩
    rwa [List.take_append_of_le_length (min_le_right _ _), ← List.take_eq_take_min]
  | @turn before l' c' y w hy ih =>
    obtain ⟨rfl, same⟩ := List.append_inj' all rfl
    obtain rfl := (List.cons.inj same).1
    obtain ⟨new, rfl⟩ := w.exists_arrived
    have lt := index_lt hc
    have hc' : (l ++ new)[c]? = some x := by rw [List.getElem?_append_left lt, hc]
    have back : (c' + 1) % (l ++ new).length = c :=
      (List.getElem?_inj (index_lt hy) nodup).1 (hy.trans hc'.symm)
    have whole : ∃ m, l.length ≤ m ∧ c < m ∧
        visits = ((l ++ new).take m).drop (c + 1) ++ (l ++ new).take c := by
      rcases w.visits_of_away hc away with ⟨le, lt', e⟩ | ⟨gt, m, le, le', e⟩
      · by_cases wrap : c' + 1 = (l ++ new).length
        · rw [wrap, Nat.mod_self] at back
          refine ⟨c' + 1, by rw [wrap, List.length_append]; omega, by omega, ?_⟩
          rw [e, ← back, List.take_zero, List.append_nil]
        · rw [Nat.mod_eq_of_lt (by omega)] at back
          omega
      · rw [Nat.mod_eq_of_lt (by omega)] at back
        exact ⟨m, le, by omega, by rw [e, back]⟩
    obtain ⟨m, le, lt', e⟩ := whole
    have split : (l ++ new).take m =
        (l ++ new).take c ++ x :: ((l ++ new).take m).drop (c + 1) := by
      have here : ((l ++ new).take m)[c]? = some x := by rw [List.getElem?_take_of_lt lt', hc']
      have split := split_at here
      rwa [List.take_take, min_eq_left lt'.le] at split
    refine ⟨m, le, ?_⟩
    calc visits ++ [x]
        = ((l ++ new).take m).drop (c + 1) ++ ((l ++ new).take c ++ [x]) := by
          rw [e, List.append_assoc]
      List.Perm _ (((l ++ new).take c ++ [x]) ++ ((l ++ new).take m).drop (c + 1)) :=
          List.perm_append_comm
      _ = (l ++ new).take m := by rw [List.append_assoc, List.singleton_append, ← split]

theorem count_of_return [DecidableEq α] (w : Walk l c (visits ++ [x]) l' c') (hc : l[c]? = some x)
    (nodup : l'.Nodup) (away : x ∉ visits) :
    (∀ y ∈ l, y ≠ x → visits.count y = 1) ∧ ∀ y, visits.count y ≤ 1 := by
  obtain ⟨new, rfl⟩ := w.exists_arrived
  obtain ⟨m, le, perm⟩ := w.perm_of_return hc nodup away
  have once : (visits ++ [x]).Nodup := perm.nodup_iff.2 (nodup.sublist (List.take_sublist m _))
  refine ⟨fun y hy ne => ?_, List.nodup_iff_count_le_one.1 once.of_append_left⟩
  refine List.count_eq_one_of_mem once.of_append_left ?_
  have met : y ∈ (l ++ new).take m := by
    rw [List.take_append, List.take_of_length_le le]
    exact List.mem_append_left _ hy
  rcases List.mem_append.1 (perm.mem_iff.2 met) with h | h
  · exact h
  · exact absurd (List.mem_singleton.1 h) ne

/-- Without arrivals a walk meets the elements in their order. -/
theorem visits_of_closed (w : Walk l c visits l' c') (same : l' = l) (hc : c < l.length) :
    c' = (c + visits.length) % l.length ∧
      ∀ j < visits.length, visits[j]? = l[(c + 1 + j) % l.length]? := by
  induction w with
  | start => exact ⟨(Nat.mod_eq_of_lt hc).symm, fun j hj => absurd hj (Nat.not_lt_zero j)⟩
  | @arrive visits l' c' y w ih =>
    obtain ⟨new, rfl⟩ := w.exists_arrived
    have := congrArg List.length same
    simp only [List.length_append, List.length_singleton] at this
    omega
  | @turn visits l' c' y w hy ih =>
    subst same
    obtain ⟨here, met⟩ := ih rfl
    have next : (c' + 1) % l'.length = (c + 1 + visits.length) % l'.length := by
      rw [here, Nat.mod_add_mod]
      congr 1
      omega
    rw [List.length_append, List.length_singleton]
    refine ⟨by rw [next]; congr 1; omega, fun j hj => ?_⟩
    rcases Nat.lt_succ_iff_lt_or_eq.1 hj with old | rfl
    · rw [List.getElem?_append_left old, met j old]
    · rw [List.getElem?_append_right le_rfl, Nat.sub_self, ← next, hy]
      rfl

/-- As many turns as there are elements meet every element once and end where they began. -/
theorem visits_of_round (w : Walk l c visits l c') (hc : c < l.length)
    (round : visits.length = l.length) : visits = l.rotate (c + 1) ∧ c' = c := by
  obtain ⟨stop, met⟩ := w.visits_of_closed rfl hc
  constructor
  · apply List.ext_getElem?
    intro j
    rcases Nat.lt_or_ge j visits.length with lt | ge
    · rw [met j lt, List.getElem?_rotate (by omega), Nat.add_comm]
    · rw [List.getElem?_eq_none ge, List.getElem?_eq_none (by rw [List.length_rotate]; omega)]
  · rw [stop, round, Nat.add_mod_right, Nat.mod_eq_of_lt hc]

end Walk

end Ring
