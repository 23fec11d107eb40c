import SimpleKernel.Layout
import SimpleKernel.Lib.ThreeWay
import SimpleKernel.Mstring

/-!
# The order of strings

`strcmp` is the three-way comparison of the lexicographic order, with the characters compared as the
signed numbers that `char` holds.  Its value depends on the two strings only, not on where they lie
or on what lies behind them.
-/

namespace SimpleKernel

open ByteStore ProgramLogic ThreeWay

/-- The characters of a string as numbers. -/
def signedChars (s : List Byte) : List ℤ := s.map BitVec.toInt

/-- The reader that stops wherever it is asked for a character behind index `n`. -/
def Chars.upTo (c : Chars) (n : ℕ) : Chars := fun i =>
  if i.toNat ≤ n then c i else throw (.pageFault i)

theorem signedChars_inj {s t : List Byte} : signedChars s = signedChars t ↔ s = t :=
  (List.map_injective_iff.2 fun _ _ h => BitVec.toInt_inj.1 h).eq_iff

variable {E : Stop → Machine → Prop} {m : Machine} {lhs rhs : Chars} {i : Word} {s t : List Byte}

theorem Ahead.gives {c : Chars} (ahead : Ahead c m i s) : Gives E m (c i) (s.headD 0) :=
  fun _ hQ => ahead.head.wp hQ

/-- Nothing is lost by stopping behind the NUL. -/
theorem Ahead.upTo {c : Chars} (ahead : Ahead c m 0 s) : Ahead (c.upTo s.length) m 0 s := by
  have short : s.length < 2 ^ 32 := ahead.short
  refine ahead_of_reads ahead.noNul fun j hj => ?_
  have reads := ahead.reads j hj
  have zero : (0 : Word) + BitVec.ofNat 32 j = BitVec.ofNat 32 j := BitVec.zero_add _
  rw [zero] at reads
  rwa [Chars.upTo, toNat_small (by omega), if_pos hj]

/-- From an index on, `strcmp` compares what is ahead of it. -/
theorem strcmpFrom_ahead {fuel : ℕ} (hl : Ahead lhs m i s) (hr : Ahead rhs m i t)
    (enough : s.length < fuel) {Q : ℤ → Machine → Prop}
    (hQ : Q (threeWay (signedChars s) (signedChars t)) m) :
    WP (strcmpFrom lhs rhs fuel i) E Q m := by
  induction s generalizing t i fuel with
  | nil =>
    obtain ⟨fuel, rfl⟩ := Nat.exists_eq_add_of_lt enough
    refine strcmpFrom_succ hl.gives hr.gives (fun _ more => absurd rfl more)
      (fun _ more => absurd rfl more) (fun _ more _ => ?_) fun _ stop => ?_
    · cases t with
      | nil => exact absurd rfl more
      | cons c t => rwa [signedChars, signedChars, List.map_nil, List.map_cons,
          threeWay_nil_cons] at hQ
    · cases t with
      | nil => rwa [threeWay_self] at hQ
      | cons c t => exact absurd stop hr.ne_zero
  | cons b s ih =>
    obtain ⟨fuel, rfl⟩ := Nat.exists_eq_add_of_lt enough
    cases t with
    | nil =>
      refine strcmpFrom_succ hl.gives hr.gives (fun same more => absurd same more)
        (fun _ _ _ => ?_) (fun _ more _ => absurd rfl more) fun stop _ => absurd stop hl.ne_zero
      rwa [signedChars, signedChars, List.map_nil, List.map_cons, threeWay_cons_nil] at hQ
    | cons c t =>
      rw [signedChars, signedChars, List.map_cons, List.map_cons] at hQ
      refine strcmpFrom_succ hl.gives hr.gives (fun same _ => ?_) (fun _ _ above => ?_)
        (fun differ _ below => ?_) fun stop _ => absurd stop hl.ne_zero
      · obtain rfl : b = c := same
        rw [threeWay_cons_self] at hQ
        exact ih hl.tail hr.tail (by rw [List.length_cons] at enough ⊢; omega) hQ
      · have less : c.toInt < b.toInt :=
          BitVec.slt_iff_toInt_lt.1 (above.resolve_left hr.ne_zero)
        rwa [threeWay_cons_of_gt less] at hQ
      · have notLess : ¬ c.toInt < b.toInt := fun h =>
          below.resolve_left hl.ne_zero (BitVec.slt_iff_toInt_lt.2 h)
        have less : b.toInt < c.toInt :=
          lt_of_le_of_ne (not_lt.1 notLess) fun h => differ (BitVec.toInt_inj.1 h)
        rwa [threeWay_cons_of_lt less] at hQ

/-- `strcmp` returns the comparison of its two strings. -/
theorem strcmp_returns (hl : Ahead lhs m 0 s) (hr : Ahead rhs m 0 t) :
    Returns (strcmp lhs rhs) m (threeWay (signedChars s) (signedChars t)) m := by
  obtain ⟨_, _, run, rfl, rfl⟩ := (strcmpFrom_ahead (E := fun _ _ => False)
    (Q := fun x u => x = threeWay (signedChars s) (signedChars t) ∧ u = m) hl hr hl.short
    ⟨rfl, rfl⟩).returns
  exact run

/-- `strcmp` decides equality and is a total order in which a string is below every longer string
that it begins; it does not look behind the NUL of either string. -/
theorem strcmp_totalOrder {a b c : Chars} {u : List Byte} (ha : Ahead a m 0 s) (hb : Ahead b m 0 t)
    (hc : Ahead c m 0 u) : ∃ ab ba bc ac : ℤ,
    Returns (strcmp a b) m ab m ∧ Returns (strcmp b a) m ba m ∧
    Returns (strcmp b c) m bc m ∧ Returns (strcmp a c) m ac m ∧
    (ab = 0 ↔ s = t) ∧ ab = -ba ∧ (ab ≤ 0 → bc ≤ 0 → ac ≤ 0) ∧ (s <+: t → s ≠ t → ab < 0) ∧
    Returns (strcmp (a.upTo s.length) (b.upTo t.length)) m ab m := by
  refine ⟨_, _, _, _, strcmp_returns ha hb, strcmp_returns hb ha, strcmp_returns hb hc,
    strcmp_returns ha hc, ?_, threeWay_swap _ _, fun hab hbc => ?_, fun begins ne => ?_,
    strcmp_returns ha.upTo hb.upTo⟩
  · rw [threeWay_eq_zero_iff, signedChars_inj]
  · rw [threeWay_nonpos_iff] at hab hbc ⊢
    exact hab.trans hbc
  · rw [threeWay_neg_iff]
    exact lt_of_prefix (begins.map _) fun same => ne (signedChars_inj.1 same)

/-- In zeroed memory lies the empty string, which is below the string of the lowest `char`. -/
theorem strcmp_totalOrder_empty : ∃ x, x < 0 ∧
    Returns (strcmp (charsAt 0x200000) (literal [0x80])) (bootMachine 0) x (bootMachine 0) := by
  have empty : Ahead (charsAt 0x200000) (bootMachine 0) 0 [] :=
    ahead_charsAt (by decide) rfl fun _ _ => Option.some_ne_none _
  have lowest := ahead_literal (s := [0x80]) (by decide) (by decide) (bootMachine 0)
  obtain ⟨x, _, _, _, run, -, -, -, -, -, -, begins, -⟩ := strcmp_totalOrder empty lowest lowest
  exact ⟨x, begins List.nil_prefix (by decide), run⟩

end SimpleKernel
