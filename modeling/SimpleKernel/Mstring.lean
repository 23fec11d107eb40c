import SimpleKernel.Machine

/-!
# C strings

`strcmp` and `strlen` of `mstring.c`.  A string is given by how its characters are read: from memory,
or from a literal of the program.
-/

namespace SimpleKernel

open ByteStore ProgramLogic

abbrev Chars := Word → Kernel Byte

/-- The characters of the string at `p`. -/
def charsAt (p : Word) : Chars := fun i => load8 (p + i)

/-- The characters of a string literal, with the NUL at its end. -/
def literal (s : List Byte) : Chars := fun i => pure (s.getD i.toNat 0)

def notNul (s : Chars) (i : Word) : Kernel Bool := return decide ((← s i) ≠ 0)

/-- The loop of `strcmp` from index `i` on; `char` is signed. -/
def strcmpFrom (lhs rhs : Chars) : ℕ → Word → Kernel ℤ
  | 0, _ => throw .hang
  | fuel + 1, i => do
    if ← notNul lhs i <&&> notNul rhs i then
      if (← lhs i) = (← rhs i) then
        strcmpFrom lhs rhs fuel (i + 1)
      else if (← rhs i).slt (← lhs i) then
        return 1
      else
        return -1
    else if ← notNul lhs i then
      return 1
    else if ← notNul rhs i then
      return -1
    else
      return 0

def strcmp (lhs rhs : Chars) : Kernel ℤ := strcmpFrom lhs rhs roundLimit 0

/-- `strlen`, with its `cnt` as a number: C leaves overflow of an `int` undefined. -/
def strlen (src : Chars) : Kernel ℕ :=
  whileM .hang (fun cnt => notNul src (BitVec.ofNat 32 cnt)) (fun cnt => return cnt + 1) roundLimit 0

/-- The bytes from `p` on are those of `s` and a NUL. -/
def Spells (mem : Store 32) : Word → List Byte → Prop
  | p, [] => mem p = 0
  | p, c :: s => mem p = c ∧ Spells mem (p + 1) s

instance (mem : Store 32) : (p : Word) → (s : List Byte) → Decidable (Spells mem p s)
  | _, [] => inferInstanceAs (Decidable (_ = _))
  | p, _ :: s =>
    have := instDecidableSpells mem (p + 1) s
    inferInstanceAs (Decidable (_ ∧ _))

theorem next_offset (p : Word) (j : ℕ) :
    p + 1 + BitVec.ofNat 32 j = p + BitVec.ofNat 32 (j + 1) := by
  rw [BitVec.add_assoc, Nat.add_comm, BitVec.ofNat_add]
  rfl

/-- Strings without a NUL are read off in one way only. -/
theorem Spells.unique {mem : Store 32} {p : Word} {s s' : List Byte} (h : Spells mem p s)
    (h' : Spells mem p s') (hs : 0 ∉ s) (hs' : 0 ∉ s') : s = s' := by
  induction s generalizing p s' with
  | nil =>
    cases s' with
    | nil => rfl
    | cons c s' => exact absurd (List.mem_cons.2 (.inl (h.symm.trans h'.1))) hs'
  | cons c s ih =>
    cases s' with
    | nil => exact absurd (List.mem_cons.2 (.inl (h'.symm.trans h.1))) hs
    | cons c' s' =>
      rw [List.mem_cons, not_or] at hs hs'
      rw [ih h.2 h'.2 hs.2 hs'.2, ← h.1, h'.1]

theorem Spells.getD {mem : Store 32} {p : Word} {s : List Byte} (spells : Spells mem p s) {j : ℕ}
    (hj : j ≤ s.length) : mem (p + BitVec.ofNat 32 j) = s.getD j 0 := by
  induction s generalizing p j with
  | nil =>
    obtain rfl : j = 0 := Nat.le_zero.1 hj
    rw [BitVec.add_zero]
    exact spells
  | cons c s ih =>
    cases j with
    | zero =>
      rw [BitVec.add_zero]
      exact spells.1
    | succ j =>
      rw [← next_offset, List.getD_cons_succ]
      exact ih spells.2 (by simpa using hj)

section Strcmp

variable {E : Stop → Machine → Prop} {m : Machine} {p : Word} {s : List Byte}

/-- From `m` the program gives the byte `b` and changes nothing. -/
def Gives (E : Stop → Machine → Prop) (m : Machine) (c : Kernel Byte) (b : Byte) : Prop :=
  ∀ Q : Byte → Machine → Prop, Q b m → WP c E Q m

theorem gives_charsAt {i : Word}
    (fault : translate m (p + i) = none → E (.pageFault (p + i)) m) :
    Gives E m (charsAt p i) (view m (p + i)) := fun _ hQ => load8_view fault hQ

theorem gives_literal (i : Word) : Gives E m (literal s i) (s.getD i.toNat 0) := fun _ hQ => hQ

theorem Gives.notNul {c : Chars} {i : Word} {b : Byte} (h : Gives E m (c i) b)
    {Q : Bool → Machine → Prop} (hQ : Q (decide (b ≠ 0)) m) : WP (notNul c i) E Q m := by
  simp only [SimpleKernel.notNul, wp_bind, wp_pure]
  exact h _ hQ

/-- One round of `strcmp` that sees the characters `l` and `r`. -/
theorem strcmpFrom_succ {lhs rhs : Chars} {l r : Byte} {fuel : ℕ} {i : Word}
    {Q : ℤ → Machine → Prop} (hl : Gives E m (lhs i) l) (hr : Gives E m (rhs i) r)
    (same : l = r → l ≠ 0 → WP (strcmpFrom lhs rhs fuel (i + 1)) E Q m)
    (greater : l ≠ r → l ≠ 0 → r = 0 ∨ r.slt l → Q 1 m)
    (less : l ≠ r → r ≠ 0 → l = 0 ∨ ¬ r.slt l → Q (-1) m) (ended : l = 0 → r = 0 → Q 0 m) :
    WP (strcmpFrom lhs rhs (fuel + 1) i) E Q m := by
  simp only [strcmpFrom, andM, wp_bind]
  apply hl.notNul
  by_cases l0 : l = 0
  · simp only [l0, ne_eq, not_true_eq_false, decide_false, toBool, wp_pure, Bool.false_eq_true,
      if_false, wp_bind]
    apply hl.notNul
    simp only [l0, ne_eq, not_true_eq_false, decide_false, Bool.false_eq_true, if_false, wp_bind]
    apply hr.notNul
    by_cases r0 : r = 0
    · simpa [r0] using ended l0 r0
    · rw [if_pos (decide_eq_true r0)]
      exact less (fun h => r0 (h.symm.trans l0)) r0 (.inl l0)
  · simp only [l0, ne_eq, not_false_eq_true, decide_true, toBool]
    apply hr.notNul
    by_cases r0 : r = 0
    · simp only [r0, ne_eq, not_true_eq_false, decide_false, Bool.false_eq_true, if_false, wp_bind]
      apply hl.notNul
      rw [if_pos (decide_eq_true l0)]
      exact greater (fun h => l0 (h.trans r0)) l0 (.inl r0)
    · simp only [r0, ne_eq, not_false_eq_true, decide_true, if_true, wp_bind]
      refine hl _ (hr _ ?_)
      by_cases equal : l = r
      · rw [if_pos equal]
        exact same equal l0
      · rw [if_neg equal, wp_bind]
        refine hr _ ?_
        rw [wp_bind]
        refine hl _ ?_
        split_ifs with below
        · exact greater equal l0 (.inr below)
        · exact less equal r0 (.inr below)

/-- Comparing with a literal from its `i`-th character on looks at no character behind its NUL. -/
theorem strcmpFrom_spec {i fuel : ℕ} (short : s.length < 2 ^ 32) (hs : 0 ∉ s) (hi : i ≤ s.length)
    (enough : s.length - i < fuel)
    (fault : ∀ j ≤ s.length, translate m (p + BitVec.ofNat 32 j) = none →
      E (.pageFault (p + BitVec.ofNat 32 j)) m) {Q : ℤ → Machine → Prop}
    (hQ : ∀ r, (r = 0 ↔ Spells (view m) (p + BitVec.ofNat 32 i) (s.drop i)) → Q r m) :
    WP (strcmpFrom (charsAt p) (literal s) fuel (BitVec.ofNat 32 i)) E Q m := by
  induction fuel generalizing i with
  | zero => omega
  | succ fuel ih =>
    have index : (BitVec.ofNat 32 i).toNat = i := toNat_small (by omega)
    have rhs := gives_literal (E := E) (m := m) (s := s) (BitVec.ofNat 32 i)
    rw [index] at rhs
    have differ : view m (p + BitVec.ofNat 32 i) ≠ s.getD i 0 → ∀ x ≠ 0, Q x m := by
      refine fun differ x hx => hQ x ⟨fun h => absurd h hx, fun spells => absurd ?_ differ⟩
      rcases Nat.lt_or_ge i s.length with inside | out
      · rw [List.drop_eq_getElem_cons inside] at spells
        rw [List.getD_eq_getElem _ _ inside]
        exact spells.1
      · rw [List.drop_eq_nil_of_le out] at spells
        rw [List.getD_eq_default _ _ out]
        exact spells
    refine strcmpFrom_succ (gives_charsAt (fault i hi)) rhs (fun same more => ?_)
      (fun h _ _ => differ h 1 (by decide)) (fun h _ _ => differ h (-1) (by decide))
      fun stop stop' => hQ 0 ?_
    · have inside : i < s.length := by
        by_contra out
        exact more (same.trans (List.getD_eq_default _ _ (by omega)))
      rw [ofNat_succ]
      refine ih inside (by omega) fun r hr => hQ r (hr.trans ?_)
      rw [List.drop_eq_getElem_cons inside, Spells, offset_succ]
      rw [List.getD_eq_getElem _ _ inside] at same
      exact (and_iff_right same).symm
    · have out : s.length ≤ i := by
        by_contra inside
        rw [List.getD_eq_getElem _ _ (by omega)] at stop'
        exact hs (stop' ▸ List.getElem_mem _)
      rw [List.drop_eq_nil_of_le out]
      exact iff_of_true rfl stop

/-- Comparing with a literal gives 0 exactly if the bytes spell the literal. -/
theorem strcmp_spec (short : s.length < roundLimit) (hs : 0 ∉ s)
    (fault : ∀ j ≤ s.length, translate m (p + BitVec.ofNat 32 j) = none →
      E (.pageFault (p + BitVec.ofNat 32 j)) m) {Q : ℤ → Machine → Prop}
    (hQ : ∀ r, (r = 0 ↔ Spells (view m) p s) → Q r m) :
    WP (strcmp (charsAt p) (literal s)) E Q m := by
  refine strcmpFrom_spec (i := 0) short hs (Nat.zero_le _) short fault fun r hr => hQ r ?_
  rwa [BitVec.add_zero] at hr

end Strcmp

/-! ## Strings read ahead -/

/-- From index `i` on, the reader gives the characters of `s` and a NUL.  It may do anything behind
the NUL, so a program that returns whenever this holds does not look there. -/
structure Ahead (c : Chars) (m : Machine) (i : Word) (s : List Byte) : Prop where
  noNul : 0 ∉ s
  reads : ∀ j ≤ s.length, Returns (c (i + BitVec.ofNat 32 j)) m (s.getD j 0) m

namespace Ahead

variable {c : Chars} {m : Machine} {i : Word} {b : Byte} {s : List Byte}

theorem head (ahead : Ahead c m i s) : Returns (c i) m (s.headD 0) m := by
  have first := ahead.reads 0 (Nat.zero_le _)
  rw [BitVec.add_zero] at first
  cases s <;> exact first

theorem ne_zero (ahead : Ahead c m i (b :: s)) : b ≠ 0 := fun h =>
  ahead.noNul (h ▸ List.mem_cons_self ..)

theorem tail (ahead : Ahead c m i (b :: s)) : Ahead c m (i + 1) s := by
  refine ⟨fun h => ahead.noNul (List.mem_cons_of_mem _ h), fun j hj => ?_⟩
  rw [next_offset]
  exact ahead.reads (j + 1) (by simpa using hj)

theorem more (ahead : Ahead c m i (b :: s)) : Returns (notNul c i) m true m := by
  refine ahead.head.bind ?_
  rw [List.headD_cons, decide_eq_true ahead.ne_zero]
  rfl

/-- A string fits into the address space with its NUL. -/
theorem short (ahead : Ahead c m i s) : s.length < roundLimit := by
  by_contra long
  rw [roundLimit, Nat.not_lt] at long
  have stop := ahead.reads s.length le_rfl
  have wrapped := ahead.reads (s.length - 2 ^ 32) (by omega)
  have same : BitVec.ofNat 32 (s.length - 2 ^ 32) = BitVec.ofNat 32 s.length := by
    apply BitVec.eq_of_toNat_eq
    rw [BitVec.toNat_ofNat, BitVec.toNat_ofNat]
    omega
  rw [same] at wrapped
  have equal := congrArg Prod.fst (stop.symm.trans wrapped)
  rw [List.getD_eq_default _ _ le_rfl, List.getD_eq_getElem _ _ (by omega)] at equal
  exact ahead.noNul (Except.ok.inj equal ▸ List.getElem_mem _)

end Ahead

/-- The string `s` with nothing behind its NUL. -/
def onlyChars (s : List Byte) : Chars := fun i =>
  if i.toNat ≤ s.length then pure (s.getD i.toNat 0) else throw (.pageFault i)

theorem ahead_of_reads {c : Chars} {m : Machine} {s : List Byte} (noNul : 0 ∉ s)
    (reads : ∀ j ≤ s.length, Returns (c (BitVec.ofNat 32 j)) m (s.getD j 0) m) :
    Ahead c m 0 s := by
  refine ⟨noNul, fun j hj => ?_⟩
  have zero : (0 : Word) + BitVec.ofNat 32 j = BitVec.ofNat 32 j := BitVec.zero_add _
  rw [zero]
  exact reads j hj

theorem ahead_onlyChars {s : List Byte} (noNul : 0 ∉ s) (short : s.length < 2 ^ 32) (m : Machine) :
    Ahead (onlyChars s) m 0 s := by
  refine ahead_of_reads noNul fun j hj => ?_
  rw [onlyChars, toNat_small (by omega), if_pos hj]
  rfl

theorem ahead_literal {s : List Byte} (noNul : 0 ∉ s) (short : s.length < 2 ^ 32) (m : Machine) :
    Ahead (literal s) m 0 s := by
  refine ahead_of_reads noNul fun j hj => ?_
  rw [literal, toNat_small (by omega)]
  rfl

/-- Bytes in view are a string. -/
theorem ahead_charsAt {m : Machine} {p : Word} {s : List Byte} (noNul : 0 ∉ s)
    (spells : Spells (view m) p s)
    (mapped : ∀ j ≤ s.length, translate m (p + BitVec.ofNat 32 j) ≠ none) :
    Ahead (charsAt p) m 0 s := by
  refine ahead_of_reads noNul fun j hj => ?_
  rw [charsAt, ← spells.getD hj]
  exact load8_returns (mapped j hj)

theorem strlen_returns {c : Chars} {m : Machine} {s : List Byte} (ahead : Ahead c m 0 s) :
    Returns (strlen c) m s.length m := by
  have zero (i : Word) : 0 + i = i := BitVec.zero_add i
  suffices upTo : ∀ fuel k, k ≤ s.length → s.length - k < fuel →
      Returns (whileM .hang (fun cnt => notNul c (BitVec.ofNat 32 cnt))
        (fun cnt => (return cnt + 1 : Kernel ℕ)) fuel k) m s.length m from
    upTo _ 0 (Nat.zero_le _) ahead.short
  intro fuel
  induction fuel with
  | zero => omega
  | succ fuel ih =>
    intro k hk enough
    have char := ahead.reads k hk
    rw [zero] at char
    rcases Nat.lt_or_ge k s.length with inside | out
    · refine Returns.whileM_next (char.bind ?_) rfl (ih (k + 1) inside (by omega))
      rw [List.getD_eq_getElem _ _ inside]
      have more : s[k] ≠ 0 := fun h => ahead.noNul (h ▸ List.getElem_mem _)
      rw [decide_eq_true more]
      rfl
    · obtain rfl : k = s.length := by omega
      refine Returns.whileM_stop (char.bind ?_)
      rw [List.getD_eq_default _ _ le_rfl]
      rfl

end SimpleKernel
