import Mathlib.Data.List.Lex
import Mathlib.Order.Lattice
import Mathlib.Tactic.SplitIfs

/-!
# Three-way comparison

The comparison of a linear order as a number: negative below, zero at the same place, positive
above.  Lists are compared by their first elements that differ, and below every list that they
begin.
-/

namespace ThreeWay

section LinearOrder

variable {α : Type} [LinearOrder α] {x y z : α}

/-- -1, 0 or 1 as `x` is below `y`, is `y` or is above it. -/
def threeWay (x y : α) : ℤ := if x < y then -1 else if y < x then 1 else 0

theorem threeWay_of_lt (h : x < y) : threeWay x y = -1 := if_pos h

theorem threeWay_of_gt (h : y < x) : threeWay x y = 1 := by
  rw [threeWay, if_neg h.asymm, if_pos h]

theorem threeWay_self (x : α) : threeWay x x = 0 := by
  rw [threeWay, if_neg (lt_irrefl x), if_neg (lt_irrefl x)]

theorem threeWay_eq_zero_iff : threeWay x y = 0 ↔ x = y := by
  rcases lt_trichotomy x y with h | rfl | h
  · rw [threeWay_of_lt h]
    exact iff_of_false (by decide) h.ne
  · exact iff_of_true (threeWay_self x) rfl
  · rw [threeWay_of_gt h]
    exact iff_of_false (by decide) h.ne'

theorem threeWay_neg_iff : threeWay x y < 0 ↔ x < y := by
  rcases lt_trichotomy x y with h | rfl | h
  · rw [threeWay_of_lt h]
    exact iff_of_true (by decide) h
  · rw [threeWay_self]
    exact iff_of_false (by decide) (lt_irrefl x)
  · rw [threeWay_of_gt h]
    exact iff_of_false (by decide) h.asymm

theorem threeWay_nonpos_iff : threeWay x y ≤ 0 ↔ x ≤ y := by
  rw [Int.le_iff_lt_or_eq, le_iff_lt_or_eq, threeWay_neg_iff, threeWay_eq_zero_iff]

theorem threeWay_swap (x y : α) : threeWay x y = -threeWay y x := by
  rcases lt_trichotomy x y with h | rfl | h
  · rw [threeWay_of_lt h, threeWay_of_gt h]
  · rw [threeWay_self, Int.neg_zero]
  · rw [threeWay_of_gt h, threeWay_of_lt h, Int.neg_neg]

end LinearOrder

/-! ## Lists -/

section Lists

variable {α : Type} [LinearOrder α] {a b : α} {l k : List α}

theorem threeWay_nil_cons : threeWay [] (b :: k) = -1 := threeWay_of_lt List.Lex.nil

theorem threeWay_cons_nil : threeWay (a :: l) [] = 1 := threeWay_of_gt List.Lex.nil

theorem threeWay_cons_of_lt (h : a < b) : threeWay (a :: l) (b :: k) = -1 :=
  threeWay_of_lt (List.Lex.rel h)

theorem threeWay_cons_of_gt (h : b < a) : threeWay (a :: l) (b :: k) = 1 :=
  threeWay_of_gt (List.Lex.rel h)

theorem threeWay_cons_self : threeWay (a :: l) (a :: k) = threeWay l k := by
  rcases lt_trichotomy l k with h | rfl | h
  · rw [threeWay_of_lt h]
    exact threeWay_of_lt (List.Lex.cons h)
  · rw [threeWay_self, threeWay_self]
  · rw [threeWay_of_gt h]
    exact threeWay_of_gt (List.Lex.cons h)

/-- A list is below every longer list that it begins. -/
theorem lt_of_prefix (h : l <+: k) (ne : l ≠ k) : l < k := by
  obtain ⟨u, rfl⟩ := h
  induction l with
  | nil =>
    cases u with
    | nil => exact absurd rfl ne
    | cons b u => exact List.Lex.nil
  | cons a l ih => exact List.Lex.cons (ih fun same => ne (congrArg (a :: ·) same))

end Lists

end ThreeWay
