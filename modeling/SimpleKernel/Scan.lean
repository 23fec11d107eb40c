import SimpleKernel.Format
import SimpleKernel.Layout

/-!
# The scan of a format

`vsprintf` passes over the pieces of its format one after the other.  Each stage of a directive
leaves the cursor where the grammar says, and no stage looks behind the NUL.
-/

namespace SimpleKernel

open Numeral ProgramLogic

section Stages

variable {format : Chars} (va : ℕ → Word) {m : Machine} {i : Word} {f : List Byte}

theorem setFlag_isSome (c : Byte) (flags : Flags) : (setFlag c flags).isSome = isFlag c := by
  unfold isFlag setFlag
  split_ifs <;> rfl

theorem readFlags_returns {fuel : ℕ} (flags : Flags) (ahead : Ahead format m (i + 1) f)
    (enough : f.length < fuel) : ∃ j,
      Returns (readFlags format fuel i flags) m (j, setFlags (f.takeWhile isFlag) flags) m ∧
        Ahead format m j (f.dropWhile isFlag) := by
  induction f generalizing i fuel flags with
  | nil =>
    obtain ⟨fuel, rfl⟩ := Nat.exists_eq_add_one_of_ne_zero (Nat.ne_zero_of_lt enough)
    exact ⟨i + 1, ahead.head.bind rfl, ahead⟩
  | cons c f ih =>
    obtain ⟨fuel, rfl⟩ := Nat.exists_eq_add_one_of_ne_zero (Nat.ne_zero_of_lt enough)
    have same := setFlag_isSome c flags
    cases set : setFlag c flags with
    | none =>
      rw [set] at same
      refine ⟨i + 1, ahead.head.bind ?_, ?_⟩
      · rw [List.headD_cons, set, List.takeWhile_cons_of_neg (by simp [← same])]
        rfl
      · rw [List.dropWhile_cons_of_neg (by simp [← same])]
        exact ahead
    | some flags' =>
      rw [set] at same
      obtain ⟨j, run, rest⟩ := ih flags' ahead.tail (by simpa using enough)
      refine ⟨j, ahead.head.bind ?_, ?_⟩
      · rw [List.headD_cons, set, List.takeWhile_cons_of_pos same.symm, setFlags, List.foldl_cons,
          set]
        exact run
      · rw [List.dropWhile_cons_of_pos same.symm]
        exact rest

theorem isDigit_iff {c : Byte} : isDigit c = true ↔ 48 ≤ c.toInt ∧ c.toInt ≤ 57 := by
  rw [isDigit, Bool.and_eq_true, decide_eq_true_iff, decide_eq_true_iff]

/-- The loop of `skip_atoi` once it has read the number `n`. -/
theorem skipAtoi_loop {fuel : ℕ} (n : ℕ) (ahead : Ahead format m i f) (enough : f.length < fuel) :
    ∃ j, Returns (whileM .hang (fun x => return isDigit (← format x.2))
        (fun x => (return (x.1 * 10 + (← format x.2).toInt - 48, x.2 + 1) : Kernel (ℤ × Word)))
        fuel ((n : ℤ), i)) m
        ((((f.takeWhile isDigit).map fun c => (c.toInt - 48).toNat).foldl
          (fun acc d => acc * 10 + d) n : ℕ), j) m ∧ Ahead format m j (f.dropWhile isDigit) := by
  induction f generalizing n i fuel with
  | nil =>
    obtain ⟨fuel, rfl⟩ := Nat.exists_eq_add_one_of_ne_zero (Nat.ne_zero_of_lt enough)
    have stop : Returns (format i >>= fun c => (return isDigit c : Kernel Bool)) m false m :=
      ahead.head.bind rfl
    exact ⟨i, Returns.whileM_stop stop, ahead⟩
  | cons c f ih =>
    obtain ⟨fuel, rfl⟩ := Nat.exists_eq_add_one_of_ne_zero (Nat.ne_zero_of_lt enough)
    have test : Returns (format i >>= fun c => (return isDigit c : Kernel Bool)) m (isDigit c) m :=
      ahead.head.bind rfl
    cases digit : isDigit c with
    | false =>
      rw [digit] at test
      rw [List.takeWhile_cons_of_neg (by simp [digit]), List.dropWhile_cons_of_neg (by simp [digit])]
      exact ⟨i, Returns.whileM_stop test, ahead⟩
    | true =>
      rw [digit] at test
      have value : ((n * 10 + (c.toInt - 48).toNat : ℕ) : ℤ) = n * 10 + c.toInt - 48 := by
        have := isDigit_iff.1 digit
        push_cast
        omega
      have round : Returns (format i >>= fun c =>
          (return ((n : ℤ) * 10 + c.toInt - 48, i + 1) : Kernel (ℤ × Word))) m
          (((n * 10 + (c.toInt - 48).toNat : ℕ) : ℤ), i + 1) m := by
        rw [value]
        exact ahead.head.bind rfl
      obtain ⟨j, run, rest⟩ := ih (n * 10 + (c.toInt - 48).toNat) ahead.tail
        (by simpa using enough)
      rw [List.takeWhile_cons_of_pos digit, List.dropWhile_cons_of_pos digit]
      exact ⟨j, Returns.whileM_next test round run, rest⟩

theorem skipAtoi_returns (ahead : Ahead format m i f) : ∃ j,
    Returns (skipAtoi format i) m ((decimal (f.takeWhile isDigit) : ℤ), j) m ∧
      Ahead format m j (f.dropWhile isDigit) :=
  skipAtoi_loop 0 ahead ahead.short

/-- The first character of a run of digits is a digit. -/
theorem isDigit_headD : isDigit (f.headD 0) = decide (f.takeWhile isDigit ≠ []) := by
  cases f with
  | nil => rfl
  | cons c f => cases digit : isDigit c <;> simp [digit]

theorem headD_eq_iff (f : List Byte) {c : Byte} (hc : c ≠ 0) :
    f.headD 0 = c ↔ f.head? = some c := by
  cases f with
  | nil => exact iff_of_false (fun h => hc h.symm) (by simp)
  | cons b f => simp

/-- How the code sees which kind of amount comes next. -/
theorem takeAmount_cases (f : List Byte) :
    isDigit (f.headD 0) = true ∧
        takeAmount f = (.literal (f.takeWhile isDigit), f.dropWhile isDigit) ∨
      isDigit (f.headD 0) = false ∧ f.headD 0 = ascii '*' ∧ takeAmount f = (.star, f) ∨
      isDigit (f.headD 0) = false ∧ f.headD 0 ≠ ascii '*' ∧ takeAmount f = (.absent, f) := by
  unfold takeAmount
  rw [isDigit_headD, headD_eq_iff f (by decide)]
  by_cases digits : f.takeWhile isDigit ≠ []
  · exact .inl ⟨decide_eq_true digits, if_pos digits⟩
  · rw [if_neg digits]
    by_cases star : f.head? = some (ascii '*')
    · exact .inr (.inl ⟨decide_eq_false digits, star, if_pos star⟩)
    · exact .inr (.inr ⟨decide_eq_false digits, mt (headD_eq_iff f (by decide)).1 star, if_neg star⟩)

theorem readFieldWidth_returns (args : ℕ) (flags : Flags) (ahead : Ahead format m i f) : ∃ j,
    Returns (readFieldWidth format va i args flags) m
      (j, args + (takeAmount f).1.arity, (takeAmount f).1.setLeft va args flags,
        (takeAmount f).1.width va args) m ∧ Ahead format m j (takeAmount f).2 := by
  unfold readFieldWidth
  rcases takeAmount_cases f with ⟨digit, taken⟩ | ⟨digit, star, taken⟩ | ⟨digit, star, taken⟩
  · obtain ⟨j, run, rest⟩ := skipAtoi_returns ahead
    rw [taken]
    refine ⟨j, ahead.head.bind ?_, rest⟩
    rw [if_pos digit]
    exact run.bind rfl
  · rw [taken]
    refine ⟨i, ahead.head.bind ?_, ahead⟩
    rw [if_neg (Bool.eq_false_iff.1 digit)]
    refine ahead.head.bind ?_
    rw [if_pos star]
    by_cases negative : (va args).toInt < 0
    · have left : Amount.setLeft va args .star flags = { flags with left := true } :=
        if_pos ⟨rfl, negative⟩
      rw [if_pos negative, left, Amount.width, abs_of_neg negative]
      rfl
    · have same : Amount.setLeft va args .star flags = flags := if_neg fun h => negative h.2
      rw [if_neg negative, same, Amount.width, abs_of_nonneg (by omega)]
      rfl
  · rw [taken]
    refine ⟨i, ahead.head.bind ?_, ahead⟩
    rw [if_neg (Bool.eq_false_iff.1 digit)]
    refine ahead.head.bind ?_
    rw [if_neg star]
    rfl

/-- Behind a point the code corrects a negative precision. -/
theorem readAfterPoint_returns (args : ℕ) (ahead : Ahead format m i f) : ∃ j q,
    Returns (readAfterPoint format va i args) m (j, args + (takeAmount f).1.arity, q) m ∧
      (if q < 0 then 0 else q) = (takeAmount f).1.precision va args ∧
      Ahead format m j (takeAmount f).2 := by
  unfold readAfterPoint
  rcases takeAmount_cases f with ⟨digit, taken⟩ | ⟨digit, star, taken⟩ | ⟨digit, star, taken⟩
  · obtain ⟨j, run, rest⟩ := skipAtoi_returns ahead
    rw [taken]
    refine ⟨j, decimal (f.takeWhile isDigit), ahead.head.bind ?_, ?_, rest⟩
    · rw [if_pos digit]
      exact run.bind rfl
    · exact if_neg (by omega)
  · rw [taken]
    refine ⟨i, (va args).toInt, ahead.head.bind ?_, ?_, ahead⟩
    · rw [if_neg (Bool.eq_false_iff.1 digit)]
      refine ahead.head.bind ?_
      rw [if_pos star]
      rfl
    · rw [Amount.precision]
      split_ifs <;> omega
  · rw [taken]
    refine ⟨i, -1, ahead.head.bind ?_, ?_, ahead⟩
    · rw [if_neg (Bool.eq_false_iff.1 digit)]
      refine ahead.head.bind ?_
      rw [if_neg star]
      rfl
    · rfl

theorem readPrecision_returns (args : ℕ) (ahead : Ahead format m i f) : ∃ j,
    Returns (readPrecision format va i args) m
      (j, args + (takePrecision f).1.elim 0 Amount.arity,
        (takePrecision f).1.elim (-1) (Amount.precision va args)) m ∧
      Ahead format m j (takePrecision f).2 := by
  unfold readPrecision takePrecision
  by_cases point : f.head? = some (ascii '.')
  · obtain ⟨rest, rfl⟩ := List.head?_eq_some_iff.1 point
    obtain ⟨j, q, run, value, rest⟩ := readAfterPoint_returns va args ahead.tail
    rw [if_pos point]
    refine ⟨j, ahead.head.bind ?_, rest⟩
    rw [List.headD_cons, if_pos rfl]
    refine run.bind ?_
    show Returns (pure (j, _, if q < 0 then 0 else q)) m _ m
    rw [value]
    rfl
  · rw [if_neg point]
    refine ⟨i, ahead.head.bind ?_, ahead⟩
    rw [if_neg (mt (headD_eq_iff f (by decide)).1 point)]
    rfl

theorem skipQualifier_returns (ahead : Ahead format m i f) : ∃ j,
    Returns (skipQualifier format i) m j m ∧ Ahead format m j (takeQualifier f).2 := by
  unfold skipQualifier takeQualifier
  cases f with
  | nil => exact ⟨i, ahead.head.bind rfl, ahead⟩
  | cons c f =>
    cases qualifier : isQualifier c with
    | true =>
      refine ⟨i + 1, ahead.head.bind ?_, ?_⟩
      · rw [List.headD_cons, if_pos qualifier]
        rfl
      · simpa [qualifier] using ahead.tail
    | false =>
      refine ⟨i, ahead.head.bind ?_, ?_⟩
      · rw [List.headD_cons, if_neg (Bool.eq_false_iff.1 qualifier)]
        rfl
      · simpa [qualifier] using ahead

end Stages

/-! ## The conversions -/

section Conversions

variable {m : Machine}

theorem fillPre_eq (c : Byte) (n : ℤ) (str : List Byte) :
    fillPre c n str = (str ++ List.replicate (n - 1).toNat c, min n 1 - 1) := by
  induction n, str using fillPre.induct c with
  | case1 n str more ih =>
    have count : (n - 1).toNat = (n - 1 - 1).toNat + 1 := by omega
    rw [fillPre, if_pos more, ih, count, List.replicate_succ, List.append_assoc,
      List.singleton_append]
    congr 1
    omega
  | case2 n str done =>
    have count : (n - 1).toNat = 0 := by omega
    rw [fillPre, if_neg done, count, List.replicate_zero, List.append_nil]
    congr 1
    omega

theorem putChar_eq (str : List Byte) (c : Byte) (f : Field) :
    putChar str c f = str ++ padded f.flags.left f.fieldWidth [c] := by
  have spent : (min f.fieldWidth 1 - 1 - 1).toNat = 0 := by omega
  simp only [putChar, fillPre_eq, padded, List.length_singleton, Nat.cast_one]
  cases left : f.flags.left <;> simp [spent]

theorem copyChars_returns {c : Chars} {i : Word} {s : List Byte} (ahead : Ahead c m i s) {n : ℕ}
    (hn : n ≤ s.length) (str : List Byte) :
    Returns (copyChars c n i str) m (str ++ s.take n) m := by
  induction n generalizing i s str with
  | zero =>
    rw [List.take_zero, List.append_nil]
    rfl
  | succ n ih =>
    cases s with
    | nil => exact absurd hn (by simp)
    | cons b s =>
      have rest := ih ahead.tail (by simpa using hn) (str ++ [b])
      rw [List.append_assoc, List.singleton_append] at rest
      exact ahead.head.bind rest

/-- The case `s` reads the string up to its NUL and prints what the precision leaves of it. -/
theorem putString_returns {c : Chars} {s : List Byte} (ahead : Ahead c m 0 s) (str : List Byte)
    (f : Field) : Returns (putString str c f) m
      (str ++ padded f.flags.left f.fieldWidth (clipped f.precision s)) m := by
  obtain ⟨n, hn, length, clip⟩ : ∃ n ≤ s.length,
      (if f.precision < 0 then (s.length : ℤ) else if (s.length : ℤ) > f.precision then f.precision
        else s.length) = n ∧ clipped f.precision s = s.take n := by
    unfold clipped
    by_cases whole : f.precision < 0
    · rw [if_pos whole, if_pos whole]
      exact ⟨s.length, le_rfl, rfl, (List.take_length).symm⟩
    · rw [if_neg whole, if_neg whole]
      by_cases longer : (s.length : ℤ) > f.precision
      · rw [if_pos longer]
        exact ⟨f.precision.toNat, by omega, by omega, rfl⟩
      · rw [if_neg longer, List.take_of_length_le (by omega)]
        exact ⟨s.length, le_rfl, rfl, (List.take_length).symm⟩
  have count : (clipped f.precision s).length = n := by
    rw [clip, List.length_take, min_eq_left hn]
  have spent : (min f.fieldWidth n - 1 - (n : ℤ)).toNat = 0 := by omega
  have ends {out text : List Byte} (h : out = text) : Returns (pure out : Kernel _) m text m := by
    rw [h]
    rfl
  rw [padded, count, clip]
  refine (strlen_returns ahead).bind ?_
  simp only [length, Int.toNat_natCast, fill_eq]
  cases left : f.flags.left
  · simp only [Bool.not_false, if_true]
    exact (copyChars_returns ahead hn _).bind (ends (by simp [spent]))
  · simp only [Bool.not_true, Bool.false_eq_true, if_false]
    exact (copyChars_returns ahead hn _).bind (ends (by simp))

theorem putNumber_returns (str : List Byte) (num : Word) {base : ℤ} (f : Field)
    (hb : 2 ≤ base ∧ base ≤ 36) : Returns (putNumber str num base f) m
      (str ++ numberText num base f.fieldWidth f.precision f.flags) m := by
  unfold putNumber
  rw [number_eq str hb]
  rfl

variable {format : Chars} (chars : Word → Chars) (va : ℕ → Word) (strings : Word → List Byte)
  {f : List Byte}

/-- What the switch does at the character `c`. -/
theorem convert_cons {x : Printing} {fd : Field} {c : Byte} (char : Returns (format x.format) m c m)
    (nonzero : c ≠ 0)
    (valid : conversionOf c = .string → Ahead (chars (va x.args)) m 0 (strings (va x.args))) :
    Returns (convert format chars va x fd) m
      { x with
        str := x.str ++ printField strings (some c) fd (va x.args)
        args := x.args + caseArity (some c)
        stored := x.stored ++
          if conversionOf c = .count then [(va x.args, x.str.length)] else [] } m := by
  have known (h : conversionOf c ≠ .other) : caseArity (some c) = 1 := if_neg h
  have number {base : ℤ} {g : Field} (hb : 2 ≤ base ∧ base ≤ 36) :=
    putNumber_returns (m := m) x.str (va x.args) g hb
  refine char.bind ?_
  simp only [printField, caseOf, Option.elim_some]
  cases case : conversionOf c with
  | char =>
    simp only [known (by simp [case]), putChar_eq, reduceCtorEq, if_false, List.append_nil]
    rfl
  | string =>
    simp only [known (by simp [case]), reduceCtorEq, if_false, List.append_nil]
    exact (putString_returns (valid case) x.str fd).bind rfl
  | pointer =>
    simp only [known (by simp [case]), reduceCtorEq, if_false, List.append_nil]
    by_cases noWidth : fd.fieldWidth = -1
    · simp only [if_pos noWidth]
      exact (number (by decide)).bind rfl
    · simp only [if_neg noWidth]
      exact (number (by decide)).bind rfl
  | octal | hexLower | hexUpper | int | unsigned | binary =>
    simp only [known (by simp [case]), reduceCtorEq, if_false, List.append_nil]
    exact (number (by decide)).bind rfl
  | count =>
    rw [known (by simp [case]), List.append_nil]
    rfl
  | other =>
    have none : caseArity (some c) = 0 := if_pos case
    simp only [none, if_pos nonzero, reduceCtorEq, if_false, List.append_nil, Option.some.injEq]
    by_cases percent : c = ascii '%'
    · simp only [percent, ne_eq, not_true_eq_false, if_false, if_true]
      rfl
    · simp only [percent, ne_eq, not_false_eq_true, if_true, if_false, List.append_assoc]
      rfl

/-- At the end of the format the switch puts the cursor back. -/
theorem convert_nul {x : Printing} (fd : Field) (nul : Returns (format x.format) m 0 m) :
    Returns (convert format chars va x fd) m
      { x with
        format := x.format - 1
        str := x.str ++ printField strings none fd (va x.args) } m :=
  nul.bind rfl

theorem convert_returns {x : Printing} (fd : Field) (ahead : Ahead format m x.format f)
    (valid : caseOf f.head? = .string → Ahead (chars (va x.args)) m 0 (strings (va x.args))) :
    ∃ j, Returns (convert format chars va x fd) m
        ⟨j, x.str ++ printField strings f.head? fd (va x.args), x.args + caseArity f.head?,
          x.stored ++ if caseOf f.head? = .count then [(va x.args, x.str.length)] else []⟩ m ∧
      Ahead format m (j + 1) f.tail := by
  cases f with
  | nil =>
    refine ⟨x.format - 1, ?_, ?_⟩
    · have nul := convert_nul chars va strings fd ahead.head
      rw [List.head?_nil, if_neg (by decide), List.append_nil]
      exact nul
    · rw [BitVec.sub_add_cancel]
      exact ahead
  | cons c f =>
    exact ⟨x.format, convert_cons chars va strings ahead.head ahead.ne_zero valid, ahead.tail⟩

end Conversions

/-! ## Whole formats -/

section Whole

variable {format : Chars} (chars : Word → Chars) (va : ℕ → Word) {m : Machine}
  (strings : Word → List Byte) {f : List Byte}

/-- One round of the loop that sees a directive gets to its conversion character with the variables
that the directive says. -/
theorem vsprintfRound_run {x : Printing} (ahead : Ahead format m x.format (ascii '%' :: f)) :
    ∃ j rest, Ahead format m j rest ∧ rest.head? = (takeDirective f).1.conversion ∧
      rest.tail = (takeDirective f).2 ∧
      vsprintfRound format chars va x m = (do
        let y ← convert format chars va
          { x with format := j, args := x.args + (takeDirective f).1.amounts }
          ((takeDirective f).1.field va x.args)
        return { y with format := y.format + 1 } : Kernel Printing) m := by
  obtain ⟨atWidth, flags, behind⟩ := readFlags_returns noFlags ahead.tail ahead.tail.short
  obtain ⟨atPoint, width, behind⟩ := readFieldWidth_returns va x.args
    (setFlags (f.takeWhile isFlag) noFlags) behind
  obtain ⟨atQualifier, precision, behind⟩ := readPrecision_returns va
    (x.args + (takeAmount (f.dropWhile isFlag)).1.arity) behind
  obtain ⟨atConversion, qualifier, behind⟩ := skipQualifier_returns behind
  have place : x.args + (takeAmount (f.dropWhile isFlag)).1.arity +
      (takePrecision (takeAmount (f.dropWhile isFlag)).2).1.elim 0 Amount.arity =
        x.args + (takeDirective f).1.amounts := Nat.add_assoc ..
  rw [place] at precision
  refine ⟨atConversion, _, behind, rfl, rfl, ahead.head.bind_run.trans ?_⟩
  rw [List.headD_cons, if_neg (not_not_intro rfl)]
  exact flags.bind_run.trans (width.bind_run.trans (precision.bind_run.trans qualifier.bind_run))

/-- One round of the loop that sees a directive prints it. -/
theorem vsprintfRound_directive {x : Printing} (ahead : Ahead format m x.format (ascii '%' :: f))
    (valid : ∀ s ∈ (Piece.directive (takeDirective f).1).stringArg va x.args,
      Ahead (chars s) m 0 (strings s)) :
    ∃ j, Returns (vsprintfRound format chars va x) m
        ⟨j, x.str ++ (takeDirective f).1.print strings va x.args, x.args + (takeDirective f).1.arity,
          x.stored ++ (((Piece.directive (takeDirective f).1).countArg va x.args).map
            fun ip => (ip, x.str.length)).toList⟩ m ∧
      Ahead format m j (takeDirective f).2 := by
  obtain ⟨j, rest, behind, conversion, tail, run⟩ := vsprintfRound_run chars va ahead
  obtain ⟨k, converted, behind⟩ := convert_returns chars va strings
    (x := { x with format := j, args := x.args + (takeDirective f).1.amounts })
    ((takeDirective f).1.field va x.args) behind fun string => valid _ (by
      rw [conversion] at string
      rw [Piece.stringArg, if_pos string]
      rfl)
  rw [conversion] at converted
  rw [tail] at behind
  refine ⟨k + 1, run.trans (converted.bind ?_), behind⟩
  have stored : (((Piece.directive (takeDirective f).1).countArg va x.args).map
      fun ip => (ip, x.str.length)).toList =
        if caseOf (takeDirective f).1.conversion = .count then
          [(va (x.args + (takeDirective f).1.amounts), x.str.length)] else [] := by
    rw [Piece.countArg]
    split_ifs <;> rfl
  rw [stored, Directive.arity, ← Nat.add_assoc]
  rfl

theorem vsprintfRound_text {x : Printing} {c : Byte} (ahead : Ahead format m x.format (c :: f))
    (other : c ≠ ascii '%') : ∃ j, Returns (vsprintfRound format chars va x) m
      { x with format := j, str := x.str ++ [c] } m ∧ Ahead format m j f := by
  refine ⟨x.format + 1, ahead.head.bind ?_, ahead.tail⟩
  rw [List.headD_cons, if_pos other]
  rfl

/-- The loop prints the pieces one behind the other. -/
theorem vsprintf_loop {fuel : ℕ} {x : Printing} (ahead : Ahead format m x.format f)
    (enough : f.length < fuel)
    (valid : ∀ s ∈ stringArgs va x.args (parse f), Ahead (chars s) m 0 (strings s)) :
    ∃ j, Returns (whileM .hang (fun x : Printing => notNul format x.format)
        (vsprintfRound format chars va) fuel x) m
      ⟨j, x.str ++ (render strings va x.args (parse f)).flatten,
        x.args + ((parse f).map Piece.arity).sum,
        x.stored ++ stores strings va x.args x.str.length (parse f)⟩ m := by
  induction f using parse.induct generalizing fuel x with
  | case1 =>
    obtain ⟨fuel, rfl⟩ := Nat.exists_eq_add_one_of_ne_zero (Nat.ne_zero_of_lt enough)
    have stop : Returns (notNul format x.format) m false m := ahead.head.bind rfl
    refine ⟨x.format, ?_⟩
    simp only [parse_nil, render, stores, List.flatten_nil, List.map_nil, List.sum_nil,
      List.append_nil, Nat.add_zero]
    exact Returns.whileM_stop stop
  | case2 f ih =>
    obtain ⟨fuel, rfl⟩ := Nat.exists_eq_add_one_of_ne_zero (Nat.ne_zero_of_lt enough)
    have shorter : (takeDirective f).2.length < fuel := by
      have := takeDirective_length f
      rw [List.length_cons] at enough
      omega
    rw [parse_percent] at valid ⊢
    simp only [stringArgs, List.mem_append, Option.mem_toList] at valid
    obtain ⟨j, round, behind⟩ := vsprintfRound_directive chars va strings ahead fun s hs =>
      valid s (.inl hs)
    obtain ⟨k, rest⟩ := ih (x := ⟨j, x.str ++ (takeDirective f).1.print strings va x.args,
      x.args + (takeDirective f).1.arity, _⟩) behind shorter fun s hs => valid s (.inr hs)
    refine ⟨k, Returns.whileM_next ahead.more round ?_⟩
    simp only [render, stores, Piece.print, Piece.arity, List.flatten_cons, List.map_cons,
      List.sum_cons, ← List.append_assoc, ← Nat.add_assoc]
    rw [List.length_append] at rest
    exact rest
  | case3 c f other ih =>
    obtain ⟨fuel, rfl⟩ := Nat.exists_eq_add_one_of_ne_zero (Nat.ne_zero_of_lt enough)
    rw [parse_text other] at valid ⊢
    obtain ⟨j, round, behind⟩ := vsprintfRound_text chars va ahead other
    obtain ⟨k, rest⟩ := ih (x := { x with format := j, str := x.str ++ [c] }) behind
      (by simpa using enough) fun s hs => valid s (List.mem_append_right _ hs)
    refine ⟨k, Returns.whileM_next ahead.more round ?_⟩
    simp only [render, stores, Piece.print, Piece.arity, Piece.countArg, Option.map_none,
      Option.toList_none, List.nil_append, List.flatten_cons, List.map_cons, List.sum_cons,
      ← List.append_assoc, Nat.zero_add]
    rw [List.length_append] at rest
    exact rest

/-- `vsprintf` leaves the texts of the pieces in its buffer and a NUL behind them. -/
theorem vsprintf_returns (ahead : Ahead format m 0 f)
    (valid : ∀ s ∈ stringArgs va 0 (parse f), Ahead (chars s) m 0 (strings s)) :
    Returns (vsprintf format chars va) m
      ⟨(render strings va 0 (parse f)).flatten ++ [0],
        (render strings va 0 (parse f)).flatten.length, ((parse f).map Piece.arity).sum,
        stores strings va 0 0 (parse f)⟩ m := by
  obtain ⟨j, run⟩ := vsprintf_loop chars va strings (x := ⟨0, [], 0, []⟩) ahead ahead.short valid
  refine run.bind ?_
  rw [List.nil_append, Nat.zero_add, List.nil_append]
  rfl

variable {chars va strings}

end Whole

/-! ## Only the buffer changes -/

section Keeps

variable {format : Chars} {chars : Word → Chars} (va : ℕ → Word) {I : Machine → Prop}
  (hformat : ∀ i, Keeps I (format i)) (hchars : ∀ p i, Keeps I (chars p i))

theorem strlen_keeps {c : Chars} (hc : ∀ i, Keeps I (c i)) : Keeps I (strlen c) :=
  Keeps.whileM (fun _ => Keeps.bind (hc _) fun _ => Keeps.pure _) (fun _ => Keeps.pure _) _ _

theorem copyChars_keeps {c : Chars} (hc : ∀ i, Keeps I (c i)) (n : ℕ) (i : Word)
    (str : List Byte) : Keeps I (copyChars c n i str) := by
  induction n generalizing i str with
  | zero => exact Keeps.pure _
  | succ n ih => exact Keeps.bind (hc i) fun _ => ih _ _

theorem putString_keeps {c : Chars} (hc : ∀ i, Keeps I (c i)) (str : List Byte) (f : Field) :
    Keeps I (putString str c f) :=
  Keeps.bind (strlen_keeps hc) fun _ => Keeps.bind (copyChars_keeps hc _ _ _) fun _ => Keeps.pure _

theorem putNumber_keeps (str : List Byte) (num : Word) (base : ℤ) (f : Field) :
    Keeps I (putNumber str num base f) := by
  unfold putNumber
  cases number str num base f.fieldWidth f.precision f.flags with
  | some str => exact Keeps.pure _
  | none => exact Keeps.throw _

include hformat

theorem skipAtoi_keeps (s : Word) : Keeps I (skipAtoi format s) :=
  Keeps.whileM (fun _ => Keeps.bind (hformat _) fun _ => Keeps.pure _)
    (fun _ => Keeps.bind (hformat _) fun _ => Keeps.pure _) _ _

theorem readFlags_keeps (fuel : ℕ) (cursor : Word) (flags : Flags) :
    Keeps I (readFlags format fuel cursor flags) := by
  induction fuel generalizing cursor flags with
  | zero => exact Keeps.throw _
  | succ fuel ih =>
    refine Keeps.bind (hformat _) fun c => ?_
    cases setFlag c flags with
    | some flags => exact ih _ _
    | none => exact Keeps.pure _

theorem readFieldWidth_keeps (cursor : Word) (args : ℕ) (flags : Flags) :
    Keeps I (readFieldWidth format va cursor args flags) :=
  Keeps.bind (hformat _) fun _ => Keeps.ite (Keeps.bind (skipAtoi_keeps hformat _) fun _ =>
    Keeps.pure _) (Keeps.bind (hformat _) fun _ =>
      Keeps.ite (Keeps.ite (Keeps.pure _) (Keeps.pure _)) (Keeps.pure _))

theorem readPrecision_keeps (cursor : Word) (args : ℕ) :
    Keeps I (readPrecision format va cursor args) := by
  have behind (cursor : Word) : Keeps I (readAfterPoint format va cursor args) :=
    Keeps.bind (hformat _) fun _ => Keeps.ite (Keeps.bind (skipAtoi_keeps hformat _) fun _ =>
      Keeps.pure _) (Keeps.bind (hformat _) fun _ => Keeps.ite (Keeps.pure _) (Keeps.pure _))
  exact Keeps.bind (hformat _) fun _ => Keeps.ite (Keeps.bind (behind _) fun _ => Keeps.pure _)
    (Keeps.pure _)

include hchars

theorem convert_keeps (x : Printing) (f : Field) : Keeps I (convert format chars va x f) := by
  refine Keeps.bind (hformat _) fun c => ?_
  dsimp only
  cases conversionOf c with
  | char | count => exact Keeps.pure _
  | string => exact Keeps.bind (putString_keeps (hchars _) _ _) fun _ => Keeps.pure _
  | octal | pointer | hexLower | hexUpper | int | unsigned | binary =>
    exact Keeps.bind (putNumber_keeps _ _ _ _) fun _ => Keeps.pure _
  | other => exact Keeps.ite (Keeps.pure _) (Keeps.pure _)

theorem vsprintfRound_keeps (x : Printing) : Keeps I (vsprintfRound format chars va x) := by
  refine Keeps.bind (hformat _) fun c => Keeps.ite (Keeps.pure _) ?_
  refine Keeps.bind (readFlags_keeps hformat _ _ _) fun _ => ?_
  refine Keeps.bind (readFieldWidth_keeps va hformat _ _ _) fun _ => ?_
  refine Keeps.bind (readPrecision_keeps va hformat _ _) fun _ => ?_
  refine Keeps.bind (Keeps.bind (hformat _) fun _ =>
    Keeps.ite (Keeps.pure _) (Keeps.pure _)) fun _ => ?_
  exact Keeps.bind (convert_keeps va hformat hchars _ _) fun _ => Keeps.pure _

/-- Whatever the format and the arguments are, `vsprintf` changes nothing but its buffer. -/
theorem vsprintf_keeps : Keeps I (vsprintf format chars va) :=
  Keeps.bind (Keeps.whileM (fun _ => Keeps.bind (hformat _) fun _ => Keeps.pure _)
    (fun _ => vsprintfRound_keeps va hformat hchars _) _ _) fun _ => Keeps.pure _

end Keeps

/-! ## Strings that cannot be read -/

section Stops

variable {format : Chars} {chars : Word → Chars} {va : ℕ → Word} {m : Machine} {e : Stop}
  {f : List Byte}

theorem strlen_stops {c : Chars} (first : Stops (c 0) m e m) : Stops (strlen c) m e m := by
  obtain ⟨n, hn⟩ : ∃ n, roundLimit = n + 1 := ⟨roundLimit - 1, rfl⟩
  rw [strlen, hn]
  unfold whileM
  exact first.bind.bind

/-- A `%s` whose string cannot be read stops the round. -/
theorem vsprintfRound_stops {x : Printing} (ahead : Ahead format m x.format (ascii '%' :: f))
    (unreadable : ∀ s ∈ (Piece.directive (takeDirective f).1).stringArg va x.args,
      Stops (chars s 0) m e m)
    (string : caseOf (takeDirective f).1.conversion = .string) :
    Stops (vsprintfRound format chars va x) m e m := by
  obtain ⟨j, rest, behind, conversion, -, run⟩ := vsprintfRound_run chars va ahead
  have first := strlen_stops (unreadable _ (by rw [Piece.stringArg, if_pos string]; rfl))
  rw [← conversion] at string
  cases rest with
  | nil => cases string
  | cons c rest =>
    refine run.trans (Stops.bind (behind.head.bind_stops ?_))
    rw [List.headD_cons, show conversionOf c = .string from string]
    exact Stops.bind first.bind

/-- The loop stops at the first string, if that cannot be read. -/
theorem vsprintf_loop_stops {fuel : ℕ} {x : Printing} (ahead : Ahead format m x.format f)
    (enough : f.length < fuel) {p : Word} (first : (stringArgs va x.args (parse f)).head? = some p)
    (unreadable : Stops (chars p 0) m e m) :
    Stops (whileM .hang (fun x : Printing => notNul format x.format)
      (vsprintfRound format chars va) fuel x) m e m := by
  induction f using parse.induct generalizing fuel x with
  | case1 =>
    rw [parse_nil] at first
    cases first
  | case2 f ih =>
    obtain ⟨fuel, rfl⟩ := Nat.exists_eq_add_one_of_ne_zero (Nat.ne_zero_of_lt enough)
    have shorter : (takeDirective f).2.length < fuel := by
      have := takeDirective_length f
      rw [List.length_cons] at enough
      omega
    rw [parse_percent, stringArgs] at first
    by_cases string : caseOf (takeDirective f).1.conversion = .string
    · refine Stops.whileM ahead.more (vsprintfRound_stops ahead (fun s hs => ?_) string)
      rw [hs] at first
      obtain rfl : s = p := Option.some.inj first
      exact unreadable
    · have none : (Piece.directive (takeDirective f).1).stringArg va x.args = none := if_neg string
      have vacuous : ∀ s ∈ (Piece.directive (takeDirective f).1).stringArg va x.args,
          Ahead (chars s) m 0 [] := by
        rw [none]
        intro s hs
        cases hs
      obtain ⟨j, round, behind⟩ := vsprintfRound_directive chars va (fun _ => []) ahead vacuous
      rw [none] at first
      exact Returns.whileM_stops ahead.more round (ih behind shorter first)
  | case3 c f other ih =>
    obtain ⟨fuel, rfl⟩ := Nat.exists_eq_add_one_of_ne_zero (Nat.ne_zero_of_lt enough)
    rw [parse_text other] at first
    obtain ⟨j, round, behind⟩ := vsprintfRound_text chars va ahead other
    exact Returns.whileM_stops ahead.more round (ih behind (by simpa using enough) first)

/-- If the first string that a format prints cannot be read, `vsprintf` stops there. -/
theorem vsprintf_stops (ahead : Ahead format m 0 f) {p : Word}
    (first : (stringArgs va 0 (parse f)).head? = some p) (unreadable : Stops (chars p 0) m e m) :
    Stops (vsprintf format chars va) m e m :=
  (vsprintf_loop_stops (x := ⟨0, [], 0, []⟩) ahead ahead.short first unreadable).bind

end Stops

end SimpleKernel
