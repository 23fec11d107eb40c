import Mathlib.Data.Nat.Digits.Lemmas

/-!
# Positional numerals

The digits of a number, the most significant one first, and the number that a string of digits
denotes.  A numeral is canonical: it begins with 0 only if it is the numeral of 0, which is `[0]`.
-/

namespace Numeral

/-- The numeral of `n` in base `b`. -/
def numeral (b n : ℕ) : List ℕ := if n = 0 then [0] else (b.digits n).reverse

/-- The number that the digits denote in base `b`, by Horner's rule. -/
def value (b : ℕ) (l : List ℕ) : ℕ := l.foldl (fun acc d => acc * b + d) 0

variable {b n : ℕ}

@[simp] theorem value_nil : value b [] = 0 := rfl

@[simp] theorem value_snoc (l : List ℕ) (d : ℕ) : value b (l ++ [d]) = value b l * b + d := by
  rw [value, List.foldl_append]
  rfl

theorem value_eq_ofDigits (l : List ℕ) : value b l = Nat.ofDigits b l.reverse := by
  induction l using List.reverseRecOn with
  | nil => rfl
  | append_singleton l d ih =>
    rw [value_snoc, List.reverse_append, List.reverse_singleton, List.singleton_append,
      Nat.ofDigits_cons, ih]
    ring

/-- Zeros in front do not change the number. -/
theorem value_zeros_append (k : ℕ) (l : List ℕ) : value b (List.replicate k 0 ++ l) = value b l := by
  rw [value_eq_ofDigits, value_eq_ofDigits, List.reverse_append, List.reverse_replicate,
    Nat.ofDigits_append_replicate_zero]

@[simp] theorem value_numeral (b n : ℕ) : value b (numeral b n) = n := by
  unfold numeral
  split_ifs with h
  · rw [h]
    simp [value]
  · rw [value_eq_ofDigits, List.reverse_reverse, Nat.ofDigits_digits]

theorem numeral_ne_nil (b n : ℕ) : numeral b n ≠ [] := by
  unfold numeral
  split_ifs with h
  · exact List.cons_ne_nil _ _
  · rw [Ne, List.reverse_eq_nil_iff]
    exact Nat.digits_ne_nil_iff_ne_zero.2 h

theorem numeral_lt (hb : 1 < b) {d : ℕ} (hd : d ∈ numeral b n) : d < b := by
  unfold numeral at hd
  split_ifs at hd with h
  · rw [List.mem_singleton] at hd
    omega
  · exact Nat.digits_lt_base hb (List.mem_reverse.1 hd)

/-- A numeral that begins with 0 is that of 0. -/
theorem numeral_canonical {l : List ℕ} (h : numeral b n = 0 :: l) : n = 0 ∧ l = [] := by
  unfold numeral at h
  split_ifs at h with hn
  · exact ⟨hn, (List.cons.inj h).2.symm⟩
  · have nonempty : b.digits n ≠ [] := Nat.digits_ne_nil_iff_ne_zero.2 hn
    have last := Nat.getLast_digit_ne_zero b hn
    have front : (b.digits n).getLast nonempty = 0 := by
      rw [← List.head_reverse (by simpa using nonempty)]
      simp only [h, List.head_cons]
    exact absurd front last

theorem numeral_length_le {k : ℕ} (hb : 1 < b) (hk : 0 < k) (hn : n < b ^ k) :
    (numeral b n).length ≤ k := by
  unfold numeral
  split_ifs with h
  · exact hk
  · rw [List.length_reverse]
    exact (Nat.digits_length_le_iff hb n).2 hn

end Numeral
