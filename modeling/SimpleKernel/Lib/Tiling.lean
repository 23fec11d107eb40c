import Mathlib.Algebra.BigOperators.Group.List.Basic
import Mathlib.Algebra.GroupWithZero.Nat
import Mathlib.Data.List.Pairwise

/-!
# Tilings

Items of given sizes laid one behind the other from a first address.  `place` pairs every item with
its address.  Items do not overlap, and an address determines where the list splits.
-/

namespace Tiling

variable {α : Type} (size : α → ℕ)

/-- The room that all items take. -/
def total (l : List α) : ℕ := (l.map size).sum

/-- Every item with its address, the first at `a`. -/
def place : ℕ → List α → List (ℕ × α)
  | _, [] => []
  | a, c :: l => (a, c) :: place (a + size c) l

/-- The addresses of the items. -/
def starts (a : ℕ) (l : List α) : List ℕ := (place size a l).map Prod.fst

variable {size}

@[simp] theorem total_nil : total size [] = 0 := rfl

@[simp] theorem total_cons (c : α) (l : List α) : total size (c :: l) = size c + total size l :=
  List.sum_cons

@[simp] theorem total_append (l₁ l₂ : List α) :
    total size (l₁ ++ l₂) = total size l₁ + total size l₂ := by
  rw [total, List.map_append, List.sum_append, total, total]

theorem place_append (a : ℕ) (l₁ l₂ : List α) :
    place size a (l₁ ++ l₂) = place size a l₁ ++ place size (a + total size l₁) l₂ := by
  induction l₁ generalizing a with
  | nil => simp [place]
  | cons c l₁ ih => simp [place, ih, Nat.add_assoc]

/-- An item at an address is a way to split the list. -/
theorem mem_place_iff {a x : ℕ} {c : α} {l : List α} : (x, c) ∈ place size a l ↔
    ∃ pre post, l = pre ++ c :: post ∧ x = a + total size pre := by
  constructor
  · intro h
    induction l generalizing a with
    | nil => simp [place] at h
    | cons d l ih =>
      rw [place, List.mem_cons] at h
      rcases h with h | h
      · obtain ⟨rfl, rfl⟩ := Prod.mk.injEq .. ▸ h
        exact ⟨[], l, rfl, by simp⟩
      · obtain ⟨pre, post, rfl, rfl⟩ := ih h
        exact ⟨d :: pre, post, rfl, by rw [total_cons, Nat.add_assoc]⟩
  · rintro ⟨pre, post, rfl, rfl⟩
    rw [place_append, place]
    exact List.mem_append_right _ (List.mem_cons_self ..)

theorem mem_starts_iff {a x : ℕ} {l : List α} : x ∈ starts size a l ↔
    ∃ pre c post, l = pre ++ c :: post ∧ x = a + total size pre := by
  simp only [starts, List.mem_map, Prod.exists, mem_place_iff]
  constructor
  · rintro ⟨x, c, ⟨pre, post, split, rfl⟩, rfl⟩
    exact ⟨pre, c, post, split, rfl⟩
  · rintro ⟨pre, c, post, split, rfl⟩
    exact ⟨_, c, ⟨pre, post, split, rfl⟩, rfl⟩

theorem starts_append (a : ℕ) (l₁ l₂ : List α) :
    starts size a (l₁ ++ l₂) = starts size a l₁ ++ starts size (a + total size l₁) l₂ := by
  rw [starts, place_append, List.map_append, starts, starts]

@[simp] theorem starts_nil (a : ℕ) : starts size a [] = [] := rfl

@[simp] theorem starts_cons (a : ℕ) (c : α) (l : List α) :
    starts size a (c :: l) = a :: starts size (a + size c) l := rfl

theorem total_eq_zero {l : List α} (pos : ∀ c ∈ l, 0 < size c) (zero : total size l = 0) :
    l = [] := by
  cases l with
  | nil => rfl
  | cons c l =>
    rw [total_cons] at zero
    have := pos c (List.mem_cons_self ..)
    omega

/-- Where no item is empty, the room of the items before a place says where the list splits. -/
theorem split_unique {l₁ l₂ r₁ r₂ : List α} (pos : ∀ c ∈ l₁ ++ r₁, 0 < size c)
    (split : l₁ ++ r₁ = l₂ ++ r₂) (same : total size l₁ = total size l₂) : l₁ = l₂ := by
  have pos' : ∀ c ∈ l₂ ++ r₂, 0 < size c := split ▸ pos
  rcases List.append_eq_append_iff.1 split with ⟨d, rfl, -⟩ | ⟨d, rfl, -⟩
  · rw [total_append] at same
    rw [total_eq_zero (fun c hc => pos' c (by simp [hc])) (by omega : total size d = 0),
      List.append_nil]
  · rw [total_append] at same
    rw [total_eq_zero (fun c hc => pos c (by simp [hc])) (by omega : total size d = 0),
      List.append_nil]

/-- An item lies inside the room of the list. -/
theorem place_bounds {a x : ℕ} {c : α} {l : List α} (h : (x, c) ∈ place size a l) :
    a ≤ x ∧ x + size c ≤ a + total size l := by
  obtain ⟨pre, post, rfl, rfl⟩ := mem_place_iff.1 h
  rw [total_append, total_cons]
  omega

/-- Later items begin behind the end of earlier ones. -/
theorem place_pairwise (a : ℕ) (l : List α) :
    (place size a l).Pairwise fun p q => p.1 + size p.2 ≤ q.1 := by
  induction l generalizing a with
  | nil => exact List.Pairwise.nil
  | cons c l ih => exact List.Pairwise.cons (fun q hq => (place_bounds hq).1) (ih _)

/-- Two items do not overlap. -/
def Apart (size : α → ℕ) (p q : ℕ × α) : Prop := p.1 + size p.2 ≤ q.1 ∨ q.1 + size q.2 ≤ p.1

instance : Std.Symm (Apart size) := ⟨fun _ _ => Or.symm⟩

theorem place_apart {a : ℕ} {l : List α} {p q : ℕ × α} (hp : p ∈ place size a l)
    (hq : q ∈ place size a l) (ne : p ≠ q) : Apart size p q :=
  ((place_pairwise a l).imp .inl).forall hp hq ne

end Tiling
