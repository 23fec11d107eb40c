import SimpleKernel.Scan

/-!
# Directives as they are spelled

A directive without `*` is read as it is spelled, so the text of `%s` and `%c` can be given from the
flags, the width and the precision in the format.  A `*` is different: it takes an argument, but as
the cursor stays on it, it becomes the conversion character, and the directive is printed as it
stands.
-/

namespace SimpleKernel

open Numeral ProgramLogic

/-! ## Literal directives -/

/-- The characters that the switch on the conversion knows. -/
def letters : List Byte := ['c', 's', 'o', 'p', 'x', 'X', 'd', 'i', 'u', 'b', 'n'].map ascii

/-- A number of one or more digits. -/
def IsNumber (digits : List Byte) : Prop := digits ≠ [] ∧ ∀ c ∈ digits, isDigit c = true

/-- A directive that has no `*` and no qualifier.  Its width does not begin with a 0, which would be
a flag. -/
structure Directive.Literal (d : Directive) : Prop where
  flags : ∀ c ∈ d.flags, isFlag c = true
  width : d.width = .absent ∨ ∃ digits, d.width = .literal digits ∧ IsNumber digits ∧
    digits.head? ≠ some (ascii '0')
  precision : d.precision = none ∨ ∃ digits, d.precision = some (.literal digits) ∧ IsNumber digits
  qualifier : d.qualifier = none
  conversion : ∃ c ∈ letters, d.conversion = some c

theorem takeWhile_append_stop {p : Byte → Bool} {l rest : List Byte} (all : ∀ c ∈ l, p c = true)
    (stop : ∀ c ∈ rest.head?, p c = false) : (l ++ rest).takeWhile p = l := by
  rw [List.takeWhile_append_of_pos all]
  cases rest with
  | nil => simp
  | cons c rest => simp [stop c rfl]

theorem dropWhile_append_stop {p : Byte → Bool} {l rest : List Byte} (all : ∀ c ∈ l, p c = true)
    (stop : ∀ c ∈ rest.head?, p c = false) : (l ++ rest).dropWhile p = rest := by
  rw [List.dropWhile_append_of_pos all]
  cases rest with
  | nil => rfl
  | cons c rest => simp [stop c rfl]

theorem takeAmount_literal {digits rest : List Byte} (number : IsNumber digits)
    (stop : ∀ c ∈ rest.head?, isDigit c = false) :
    takeAmount (digits ++ rest) = (.literal digits, rest) := by
  rw [takeAmount, takeWhile_append_stop number.2 stop, dropWhile_append_stop number.2 stop,
    if_pos number.1]

theorem takeAmount_absent {f : List Byte} (digit : ∀ c ∈ f.head?, isDigit c = false)
    (star : f.head? ≠ some (ascii '*')) : takeAmount f = (.absent, f) := by
  have none : f.takeWhile isDigit = [] := takeWhile_append_stop (l := []) (by simp) digit
  rw [takeAmount, none, if_neg (by simp), if_neg star]

theorem takePrecision_point (f : List Byte) : takePrecision (ascii '.' :: f) =
    (some (takeAmount f).1, (takeAmount f).2) := rfl

theorem takePrecision_none {f : List Byte} (point : f.head? ≠ some (ascii '.')) :
    takePrecision f = (none, f) := if_neg point

theorem takeQualifier_none {c : Byte} {f : List Byte} (plain : isQualifier c = false) :
    takeQualifier (c :: f) = (none, c :: f) := by
  rw [takeQualifier, if_neg (by simp [plain])]

/-- A letter of the switch is nothing else in a directive. -/
theorem letter_plain {c : Byte} (hc : c ∈ letters) : isFlag c = false ∧ isDigit c = false ∧
    c ≠ ascii '.' ∧ c ≠ ascii '*' ∧ isQualifier c = false ∧ c ≠ 0 ∧ caseOf (some c) ≠ .other := by
  have all : ∀ c ∈ letters, isFlag c = false ∧ isDigit c = false ∧ c ≠ ascii '.' ∧
      c ≠ ascii '*' ∧ isQualifier c = false ∧ c ≠ 0 ∧ caseOf (some c) ≠ .other := by decide
  exact all c hc

/-- A digit that is a flag is a 0. -/
theorem isFlag_eq_false {c : Byte} (digit : isDigit c = true) (zero : c ≠ ascii '0') :
    isFlag c = false := by
  have all : ∀ c : Byte, isDigit c = true → c ≠ ascii '0' → isFlag c = false := by decide +kernel
  exact all c digit zero

section Spelling

variable {d : Directive} (literal : d.Literal) (rest : List Byte)
include literal

/-- What follows a width begins with a point or a letter. -/
theorem Directive.Literal.behind_width (c : Byte)
    (hc : c ∈ ((d.precision.elim [] fun q => ascii '.' :: q.source) ++
      (d.conversion.toList ++ rest)).head?) :
    isFlag c = false ∧ isDigit c = false ∧ c ≠ ascii '*' := by
  obtain ⟨letter, known, conversion⟩ := literal.conversion
  rcases literal.precision with none | ⟨digits, some, -⟩
  · rw [none, conversion] at hc
    obtain rfl : letter = c := by simpa using hc
    exact ⟨(letter_plain known).1, (letter_plain known).2.1, (letter_plain known).2.2.2.1⟩
  · rw [some] at hc
    obtain rfl : ascii '.' = c := by simpa using hc
    decide

theorem Directive.Literal.takePrecision :
    takePrecision ((d.precision.elim [] fun q => ascii '.' :: q.source) ++
      (d.conversion.toList ++ rest)) = (d.precision, d.conversion.toList ++ rest) := by
  obtain ⟨letter, known, conversion⟩ := literal.conversion
  have plain := letter_plain known
  rw [conversion]
  rcases literal.precision with none | ⟨digits, some, number⟩
  · rw [none]
    exact takePrecision_none fun h => plain.2.2.1 (by simpa using h)
  · have read := @takeAmount_literal digits (letter :: rest) number fun c hc => by
      obtain rfl : letter = c := by simpa using hc
      exact plain.2.1
    rw [some]
    show SimpleKernel.takePrecision (ascii '.' :: (digits ++ letter :: rest)) = _
    rw [takePrecision_point, read]
    rfl

theorem Directive.Literal.takeAmount :
    takeAmount (d.width.source ++ ((d.precision.elim [] fun q => ascii '.' :: q.source) ++
      (d.conversion.toList ++ rest))) =
        (d.width, (d.precision.elim [] fun q => ascii '.' :: q.source) ++
          (d.conversion.toList ++ rest)) := by
  have behind := literal.behind_width rest
  rcases literal.width with absent | ⟨digits, number, isNumber, -⟩
  · rw [absent]
    exact takeAmount_absent (fun c hc => (behind c hc).2.1) fun h => (behind _ h).2.2 rfl
  · rw [number]
    exact takeAmount_literal isNumber fun c hc => (behind c hc).2.1

/-- A literal directive is read as it is spelled. -/
theorem Directive.Literal.takeDirective :
    takeDirective (d.source ++ rest) = (d, rest) := by
  obtain ⟨letter, known, conversion⟩ := literal.conversion
  have stop : ∀ c ∈ (d.width.source ++ ((d.precision.elim [] fun q => ascii '.' :: q.source) ++
      (d.conversion.toList ++ rest))).head?, isFlag c = false := by
    rcases literal.width with absent | ⟨digits, number, isNumber, zero⟩
    · rw [absent]
      exact fun c hc => (literal.behind_width rest c hc).1
    · obtain ⟨c, digits, rfl⟩ := List.exists_cons_of_ne_nil isNumber.1
      rw [number]
      intro b hb
      obtain rfl : c = b := by simpa [Amount.source] using hb
      exact isFlag_eq_false (isNumber.2 c (by simp)) fun h => zero (by rw [h]; rfl)
  have spelled : d.source ++ rest = d.flags ++ (d.width.source ++
      ((d.precision.elim [] fun q => ascii '.' :: q.source) ++
        (d.conversion.toList ++ rest))) := by
    simp only [Directive.source, literal.qualifier, Option.toList_none, List.append_nil,
      List.append_assoc]
  rw [spelled, SimpleKernel.takeDirective, takeWhile_append_stop literal.flags stop,
    dropWhile_append_stop literal.flags stop, literal.takeAmount, literal.takePrecision]
  have last : takeQualifier (d.conversion.toList ++ rest) = (none, letter :: rest) := by
    rw [conversion]
    exact takeQualifier_none (letter_plain known).2.2.2.2.1
  simp only [last, List.head?_cons, List.tail_cons]
  rw [← conversion, ← literal.qualifier]

end Spelling

/-! ## `%s` and `%c` -/

section Text

variable {format : Chars} (chars : Word → Chars) (va : ℕ → Word) {m : Machine} {x : Printing}
  {d : Directive} {rest : List Byte}

/-- The number that a literal amount spells, 0 if there is none. -/
def Amount.number : Amount → ℕ
  | literal digits => decimal digits
  | _ => 0

/-- The text in a field of `w` characters, at its left end or at its right end. -/
def justified (left : Prop) [Decidable left] (w : ℕ) (text : List Byte) : List Byte :=
  if left then
    text ++ List.replicate (w - text.length) (ascii ' ')
  else
    List.replicate (w - text.length) (ascii ' ') ++ text

theorem justified_length (left : Prop) [Decidable left] (w : ℕ) (text : List Byte) :
    (justified left w text).length = max w text.length := by
  unfold justified
  split_ifs <;> rw [List.length_append, List.length_replicate] <;> omega

theorem setFlags_left (cs : List Byte) (flags : Flags) :
    (setFlags cs flags).left = true ↔ flags.left = true ∨ ascii '-' ∈ cs := by
  have one (c : Byte) (flags : Flags) : ((setFlag c flags).getD flags).left = true ↔
      flags.left = true ∨ ascii '-' = c := by
    unfold setFlag
    split_ifs with minus
    · simp [minus]
    all_goals simp [Ne.symm minus]
  induction cs generalizing flags with
  | nil => simp [setFlags]
  | cons c cs ih =>
    rw [setFlags, List.foldl_cons]
    exact (ih _).trans (by rw [one, List.mem_cons, or_assoc])

theorem Directive.Literal.amounts (literal : d.Literal) : d.amounts = 0 := by
  unfold Directive.amounts
  rcases literal.width with width | ⟨digits, width, -⟩ <;>
    rcases literal.precision with precision | ⟨digits', precision, -⟩ <;>
      rw [width, precision] <;> rfl

theorem Directive.Literal.left_iff (literal : d.Literal) (a : ℕ) :
    (d.field va a).flags.left = true ↔ ascii '-' ∈ d.flags := by
  have same : (d.field va a).flags = setFlags d.flags noFlags := by
    refine if_neg fun h => ?_
    rcases literal.width with width | ⟨digits, width, -⟩ <;> rw [width] at h <;> cases h.1
  rw [same, setFlags_left]
  exact or_iff_right (by decide)

theorem Directive.Literal.padded_eq (literal : d.Literal) (a : ℕ) (text : List Byte) :
    padded (d.field va a).flags.left (d.field va a).fieldWidth text =
      justified (ascii '-' ∈ d.flags) d.width.number text := by
  have room : ((d.field va a).fieldWidth - text.length).toNat = d.width.number - text.length := by
    rcases literal.width with width | ⟨digits, width, -⟩
    · rw [Directive.field, width]
      show (-1 - (text.length : ℤ)).toNat = 0 - text.length
      omega
    · rw [Directive.field, width]
      show (decimal digits - (text.length : ℤ)).toNat = decimal digits - text.length
      omega
  unfold padded justified
  rw [room]
  by_cases minus : ascii '-' ∈ d.flags
  · rw [if_pos minus, (literal.left_iff va a).2 minus]
    simp
  · rw [if_neg minus, Bool.eq_false_iff.2 (mt (literal.left_iff va a).1 minus)]
    simp

theorem Directive.Literal.clipped_eq (literal : d.Literal) (a : ℕ) (s : List Byte) :
    clipped (d.field va a).precision s =
      s.take (d.precision.elim s.length fun q => min s.length q.number) := by
  rcases literal.precision with precision | ⟨digits, precision, -⟩
  · rw [Directive.field, precision]
    exact (List.take_length).symm
  · rw [Directive.field, precision]
    show (if (decimal digits : ℤ) < 0 then s else s.take (decimal digits : ℤ).toNat) =
      s.take (min s.length (decimal digits))
    rw [if_neg (by omega), Int.toNat_natCast, min_comm, ← List.take_take, List.take_length]

/-- The round of a literal directive other than `%n`. -/
theorem Directive.Literal.round (literal : d.Literal)
    (ahead : Ahead format m x.format (ascii '%' :: (d.source ++ rest)))
    (noCount : caseOf d.conversion ≠ .count) (strings : Word → List Byte)
    (valid : caseOf d.conversion = .string →
      Ahead (chars (va x.args)) m 0 (strings (va x.args))) :
    ∃ j, Returns (vsprintfRound format chars va x) m
        ⟨j, x.str ++ d.print strings va x.args, x.args + 1, x.stored⟩ m ∧
      Ahead format m j rest := by
  obtain ⟨letter, known, conversion⟩ := literal.conversion
  have one : d.arity = 1 := by
    rw [Directive.arity, literal.amounts, caseArity, conversion,
      if_neg (letter_plain known).2.2.2.2.2.2]
  have round := vsprintfRound_directive chars va strings ahead
  rw [literal.takeDirective] at round
  obtain ⟨j, run, behind⟩ := round fun p hp => by
    rw [Piece.stringArg, literal.amounts] at hp
    split_ifs at hp with string
    · obtain rfl : va x.args = p := by simpa using hp
      exact valid string
    · cases hp
  rw [one, Piece.countArg, if_neg noCount] at run
  exact ⟨j, by simpa using run, behind⟩

variable {chars va}

/-- A literal `%s` appends the first characters of its string, as many as the precision allows, and
a literal `%c` its character, in a field of spaces.  Only `-` moves the text in the field, and the
string is read up to its NUL only. -/
theorem string_and_char_fields (literal : d.Literal)
    (ahead : Ahead format m x.format (ascii '%' :: (d.source ++ rest))) :
    (d.conversion = some (ascii 's') → ∀ s, Ahead (chars (va x.args)) m 0 s →
      ∃ j text, Returns (vsprintfRound format chars va x) m
          ⟨j, x.str ++ text, x.args + 1, x.stored⟩ m ∧ Ahead format m j rest ∧
        text = justified (ascii '-' ∈ d.flags) d.width.number
          (s.take (d.precision.elim s.length fun q => min s.length q.number)) ∧
        text.length = max d.width.number
          (d.precision.elim s.length fun q => min s.length q.number)) ∧
    (d.conversion = some (ascii 'c') →
      ∃ j text, Returns (vsprintfRound format chars va x) m
          ⟨j, x.str ++ text, x.args + 1, x.stored⟩ m ∧ Ahead format m j rest ∧
        text = justified (ascii '-' ∈ d.flags) d.width.number [(va x.args).setWidth 8] ∧
        text.length = max d.width.number 1) := by
  constructor
  · intro conversion s string
    have case : caseOf d.conversion = .string := by
      rw [conversion]
      decide
    obtain ⟨j, run, behind⟩ := literal.round chars va ahead (by rw [case]; decide)
      (fun _ => s) fun _ => string
    have print : d.print (fun _ => s) va x.args = justified (ascii '-' ∈ d.flags) d.width.number
        (s.take (d.precision.elim s.length fun q => min s.length q.number)) := by
      rw [Directive.print, printField, case, ← literal.clipped_eq va x.args]
      exact literal.padded_eq va x.args _
    have few : (d.precision.elim s.length fun q => min s.length q.number) ≤ s.length := by
      cases d.precision with
      | none => exact le_rfl
      | some q => exact min_le_left _ _
    rw [print] at run
    refine ⟨j, _, run, behind, rfl, ?_⟩
    rw [justified_length, List.length_take, min_eq_left few]
  · intro conversion
    have case : caseOf d.conversion = .char := by
      rw [conversion]
      decide
    obtain ⟨j, run, behind⟩ := literal.round chars va ahead (by rw [case]; decide)
      (fun _ => []) fun string => by
        rw [case] at string
        cases string
    have print : d.print (fun _ => []) va x.args =
        justified (ascii '-' ∈ d.flags) d.width.number [(va x.args).setWidth 8] := by
      rw [Directive.print, printField, case, literal.amounts]
      exact literal.padded_eq va x.args _
    rw [print] at run
    exact ⟨j, _, run, behind, rfl, justified_length _ _ _⟩

/-- The field is 5 wide, and its zero flag and the rest of the string are without effect. -/
theorem string_and_char_fields_hel : ∃ j,
    Returns (vsprintfRound (onlyChars (['%', '-', '0', '5', '.', '3', 's'].map ascii))
        (fun _ => onlyChars (['h', 'e', 'l', 'l', 'o'].map ascii)) (fun _ => 0) ⟨0, [], 0, []⟩)
      (bootMachine 0) ⟨j, ['h', 'e', 'l', ' ', ' '].map ascii, 1, []⟩ (bootMachine 0) := by
  have literal : Directive.Literal ⟨['-', '0'].map ascii, .literal (['5'].map ascii),
      some (.literal (['3'].map ascii)), none, some (ascii 's')⟩ :=
    ⟨by decide, .inr ⟨_, rfl, ⟨by decide, by decide⟩, by decide⟩,
      .inr ⟨_, rfl, by decide, by decide⟩, rfl, _, by decide, rfl⟩
  obtain ⟨j, text, run, -, printed, -⟩ := (@string_and_char_fields _
    (fun _ => onlyChars (['h', 'e', 'l', 'l', 'o'].map ascii)) (fun _ => 0) _ ⟨0, [], 0, []⟩ _ []
    literal (ahead_onlyChars (by decide) (by decide) (bootMachine 0))).1 rfl _
    (ahead_onlyChars (by decide) (by decide) (bootMachine 0))
  rw [printed] at run
  exact ⟨j, run⟩

end Text

/-! ## Formats with one directive -/

section Single

variable {format : Chars} (chars : Word → Chars) (va : ℕ → Word) {m : Machine}
  (strings : Word → List Byte) {before f rest : List Byte} {d : Directive}

theorem parse_plain_append (plain : ascii '%' ∉ before) :
    parse (before ++ f) = before.map Piece.text ++ parse f := by
  induction before with
  | nil => rfl
  | cons c before ih =>
    rw [List.mem_cons, not_or] at plain
    rw [List.cons_append, parse_text (Ne.symm plain.1), ih plain.2, List.map_cons, List.cons_append]

theorem parse_plain (plain : ascii '%' ∉ before) : parse before = before.map Piece.text := by
  have whole := parse_plain_append (f := []) plain
  rwa [List.append_nil, parse_nil, List.append_nil] at whole

theorem render_plain_append (a : ℕ) (cs : List Byte) (ps : List Piece) :
    (render strings va a (cs.map Piece.text ++ ps)).flatten =
      cs ++ (render strings va a ps).flatten := by
  induction cs with
  | nil => rfl
  | cons c cs ih => exact congrArg (c :: ·) ih

theorem stringArgs_plain_append (a : ℕ) (cs : List Byte) (ps : List Piece) :
    stringArgs va a (cs.map Piece.text ++ ps) = stringArgs va a ps := by
  induction cs with
  | nil => rfl
  | cons c cs ih => exact ih

theorem stringArgs_plain (a : ℕ) (cs : List Byte) :
    stringArgs va a (cs.map Piece.text) = [] := by
  have whole := stringArgs_plain_append va a cs []
  rwa [List.append_nil] at whole

theorem render_plain (a : ℕ) (cs : List Byte) :
    (render strings va a (cs.map Piece.text)).flatten = cs := by
  have whole := render_plain_append va strings a cs []
  rwa [List.append_nil, render, List.flatten_nil, List.append_nil] at whole

theorem arity_plain (cs : List Byte) : ((cs.map Piece.text).map Piece.arity).sum = 0 := by
  induction cs with
  | nil => rfl
  | cons c cs ih => simpa [Piece.arity] using ih

/-- A directive between plain texts. -/
theorem vsprintf_single (ahead : Ahead format m 0 (before ++ ascii '%' :: f))
    (plain : ascii '%' ∉ before) (plain' : ascii '%' ∉ rest) (read : takeDirective f = (d, rest))
    (valid : caseOf d.conversion = .string →
      Ahead (chars (va d.amounts)) m 0 (strings (va d.amounts))) :
    ∃ out, Returns (vsprintf format chars va) m out m ∧
      out.buff = before ++ d.print strings va 0 ++ rest ++ [0] ∧ out.args = d.arity := by
  have pieces : parse (before ++ ascii '%' :: f) =
      before.map Piece.text ++ .directive d :: rest.map Piece.text := by
    rw [parse_plain_append plain, parse_percent, read, parse_plain plain']
  have run := vsprintf_returns chars va strings ahead (by
    rw [pieces, stringArgs_plain_append, stringArgs, Piece.arity, Nat.zero_add,
      stringArgs_plain, List.append_nil, Piece.stringArg, Nat.zero_add]
    intro p hp
    split_ifs at hp with string
    · obtain rfl : p = va d.amounts := by simpa using hp
      exact valid string
    · cases hp)
  refine ⟨_, run, ?_, ?_⟩
  · rw [pieces, render_plain_append, render, List.flatten_cons, Piece.print, Piece.arity,
      Nat.zero_add, render_plain]
    simp only [List.append_assoc]
  · rw [pieces, List.map_append, List.sum_append, arity_plain, List.map_cons, List.sum_cons,
      arity_plain, Piece.arity]
    exact Nat.zero_add _

end Single

/-! ## Amounts from the arguments -/

section Star

variable {format format' : Chars} (chars : Word → Chars) (va : ℕ → Word) {m : Machine}
  {before after flags : List Byte} {c : Byte}

/-- Two calls leave the same in the buffer, and behind one of them `more` arguments more are
taken. -/
def SameText (m : Machine) (call call' : Kernel Printed) (more : ℕ) : Prop :=
  ∃ out out', Returns call m out m ∧ Returns call' m out' m ∧ out.buff = out'.buff ∧
    out.args = out'.args + more

/-- The arguments with `w` in front. -/
def consArg (w : Word) (va : ℕ → Word) : ℕ → Word
  | 0 => w
  | n + 1 => va n

/-- The decimal numeral of `n`. -/
def numeralText (n : ℕ) : List Byte := (numeral 10 n).map (digitChar false)

/-- The flags in front of the numeral that replaces the width `w`. -/
def flagsFor (flags : List Byte) (w : Word) : List Byte :=
  if w.toInt < 0 then flags ++ [ascii '-'] else flags

theorem takeDirective_starWidth (known : ∀ b ∈ flags, isFlag b = true) (f : List Byte) :
    takeDirective (flags ++ ascii '*' :: f) =
      (⟨flags, .star, none, none, some (ascii '*')⟩, f) := by
  have stop : ∀ b ∈ (ascii '*' :: f).head?, isFlag b = false := by
    intro b hb
    obtain rfl : ascii '*' = b := by simpa using hb
    decide
  rw [takeDirective, takeWhile_append_stop known stop, dropWhile_append_stop known stop]
  rfl

theorem takeDirective_starPrecision (known : ∀ b ∈ flags, isFlag b = true) (f : List Byte) :
    takeDirective (flags ++ ascii '.' :: ascii '*' :: f) =
      (⟨flags, .absent, some .star, none, some (ascii '*')⟩, f) := by
  have stop : ∀ b ∈ (ascii '.' :: ascii '*' :: f).head?, isFlag b = false := by
    intro b hb
    obtain rfl : ascii '.' = b := by simpa using hb
    decide
  rw [takeDirective, takeWhile_append_stop known stop, dropWhile_append_stop known stop]
  rfl

theorem numeralText_isNumber (n : ℕ) : IsNumber (numeralText n) := by
  constructor
  · rw [numeralText, Ne, List.map_eq_nil_iff]
    exact numeral_ne_nil 10 n
  · intro b hb
    obtain ⟨d, hd, rfl⟩ := List.mem_map.1 hb
    have all : ∀ d < 10, isDigit (digitChar false d) = true := by decide
    exact all d (numeral_lt (by decide) hd)

theorem numeralText_head {n : ℕ} (pos : n ≠ 0) : (numeralText n).head? ≠ some (ascii '0') := by
  intro h
  obtain ⟨d, l, e⟩ := List.exists_cons_of_ne_nil (numeral_ne_nil 10 n)
  have hd : d < 10 := numeral_lt (by decide) (by rw [e]; exact List.mem_cons_self ..)
  have all : ∀ d < 10, digitChar false d = ascii '0' → d = 0 := by decide
  rw [numeralText, e, List.map_cons, List.head?_cons, Option.some.injEq] at h
  rw [all d hd h] at e
  exact pos (numeral_canonical e).1

theorem flagsFor_isFlag (known : ∀ b ∈ flags, isFlag b = true) (w : Word) :
    ∀ b ∈ flagsFor flags w, isFlag b = true := by
  unfold flagsFor
  split_ifs
  · intro b hb
    rcases List.mem_append.1 hb with hb | hb
    · exact known b hb
    · rw [List.mem_singleton.1 hb]
      decide
  · exact known

/-- A literal directive between plain texts takes one argument. -/
theorem literal_args {d : Directive} (literal : d.Literal) (noPercent : ascii '%' ∉ before)
    (noPercent' : ascii '%' ∉ after) (ahead : Ahead format m 0
      (before ++ ascii '%' :: (d.source ++ after)))
    (string : d.conversion = some (ascii 's') → ∃ s, Ahead (chars (va 0)) m 0 s) :
    ∃ out, Returns (vsprintf format chars va) m out m ∧ out.args = 1 := by
  obtain ⟨letter, known, conversion⟩ := literal.conversion
  have one : d.arity = 1 := by
    rw [Directive.arity, literal.amounts, caseArity, conversion,
      if_neg (letter_plain known).2.2.2.2.2.2]
  have isString : caseOf d.conversion = .string → d.conversion = some (ascii 's') := by
    have all : ∀ b ∈ letters, caseOf (some b) = .string → b = ascii 's' := by decide
    rw [conversion]
    exact fun h => congrArg some (all letter known h)
  obtain ⟨s, valid⟩ : ∃ s, caseOf d.conversion = .string → Ahead (chars (va d.amounts)) m 0 s := by
    rw [literal.amounts]
    by_cases h : caseOf d.conversion = .string
    · obtain ⟨s, hs⟩ := string (isString h)
      exact ⟨s, fun _ => hs⟩
    · exact ⟨[], fun h' => absurd h' h⟩
  obtain ⟨out, run, -, args⟩ := vsprintf_single chars va (fun _ => s) ahead noPercent
    noPercent' (literal.takeDirective after) valid
  exact ⟨out, run, args.trans one⟩

/-- A directive that ends in its `*` takes one argument as well. -/
theorem star_args {d : Directive} {f : List Byte} (one : d.amounts = 1)
    (star : d.conversion = some (ascii '*')) (noPercent : ascii '%' ∉ before)
    (noPercent' : ascii '%' ∉ c :: after) (read : takeDirective f = (d, c :: after))
    (ahead : Ahead format m 0 (before ++ ascii '%' :: f)) :
    ∃ out, Returns (vsprintf format chars va) m out m ∧
      out.buff = before ++ ['%', '*'].map ascii ++ c :: after ++ [0] ∧ out.args = 1 := by
  have other : caseOf d.conversion = .other := by
    rw [star]
    decide
  obtain ⟨out, run, buff, args⟩ := vsprintf_single chars va (fun _ => []) ahead noPercent
    noPercent' read fun string => by
      rw [other] at string
      cases string
  refine ⟨out, run, ?_, ?_⟩
  · rw [buff, Directive.print, printField, other, star]
    rfl
  · rw [args, Directive.arity, one, caseArity, if_pos other]

variable {chars va}

/-- A width or a precision from the arguments never has the effect of the literal one: the argument
that should be converted is left for the directives behind. -/
theorem star_not_literal (known : ∀ b ∈ flags, isFlag b = true) (noPercent : ascii '%' ∉ before)
    (noPercent' : ascii '%' ∉ after) (letter : c ∈ letters)
    (string : c = ascii 's' → ∃ s, Ahead (chars (va 0)) m 0 s) :
    (∀ w format format', w ≠ 0 →
      Ahead format m 0 (before ++ ascii '%' :: (flags ++ ascii '*' :: c :: after)) →
      Ahead format' m 0 (before ++ ascii '%' ::
        (flagsFor flags w ++ numeralText w.toInt.natAbs ++ c :: after)) →
      ¬ SameText m (vsprintf format chars (consArg w va)) (vsprintf format' chars va) 1) ∧
    (∀ q format format', 0 ≤ q.toInt →
      Ahead format m 0 (before ++ ascii '%' :: (flags ++ ascii '.' :: ascii '*' :: c :: after)) →
      Ahead format' m 0 (before ++ ascii '%' ::
        (flags ++ ascii '.' :: numeralText q.toInt.toNat ++ c :: after)) →
      ¬ SameText m (vsprintf format chars (consArg q va)) (vsprintf format' chars va) 1) := by
  have noPercent'' : ascii '%' ∉ c :: after := by
    have all : ∀ b ∈ letters, ascii '%' ≠ b := by decide
    rw [List.mem_cons, not_or]
    exact ⟨all c letter, noPercent'⟩
  have differ {star literal : Kernel Printed} {out out' : Printed} (run : Returns star m out m)
      (run' : Returns literal m out' m) (one : out.args = 1) (one' : out'.args = 1) :
      ¬ SameText m star literal 1 := by
    rintro ⟨_, _, again, again', -, args⟩
    rw [again.unique run, again'.unique run', one, one'] at args
    omega
  constructor
  · intro w format format' nonzero star numeral
    have literal : Directive.Literal ⟨flagsFor flags w, .literal (numeralText w.toInt.natAbs), none,
        none, some c⟩ := by
      refine ⟨flagsFor_isFlag known w, .inr ⟨_, rfl, numeralText_isNumber _, numeralText_head ?_⟩,
        .inl rfl, rfl, c, letter, rfl⟩
      exact fun h => nonzero (BitVec.eq_of_toInt_eq (Int.natAbs_eq_zero.1 h))
    obtain ⟨out, run, -, one⟩ := star_args chars (consArg w va) rfl rfl noPercent
      noPercent'' (takeDirective_starWidth known _) star
    obtain ⟨out', run', one'⟩ := literal_args chars va literal noPercent noPercent'
      (by simpa [Directive.source, Amount.source] using numeral) fun h => string (Option.some.inj h)
    exact differ run run' one one'
  · intro q format format' nonneg star numeral
    have literal : Directive.Literal ⟨flags, .absent, some (.literal (numeralText q.toInt.toNat)),
        none, some c⟩ :=
      ⟨known, .inl rfl, .inr ⟨_, rfl, numeralText_isNumber _⟩, rfl, c, letter, rfl⟩
    obtain ⟨out, run, -, one⟩ := star_args chars (consArg q va) rfl rfl noPercent
      noPercent'' (takeDirective_starPrecision known _) star
    obtain ⟨out', run', one'⟩ := literal_args chars va literal noPercent noPercent'
      (by simpa [Directive.source, Amount.source] using numeral) fun h => string (Option.some.inj h)
    exact differ run run' one one'

theorem star_not_literal_42 :
    ¬ SameText (bootMachine 0)
        (vsprintf (onlyChars (['%', '*', 'd'].map ascii)) (fun _ => literal [])
          (consArg 5 fun _ => 42))
        (vsprintf (onlyChars (['%', '5', 'd'].map ascii)) (fun _ => literal []) fun _ => 42) 1 ∧
      ¬ SameText (bootMachine 0)
        (vsprintf (onlyChars (['%', '.', '*', 'd'].map ascii)) (fun _ => literal [])
          (consArg 5 fun _ => 42))
        (vsprintf (onlyChars (['%', '.', '5', 'd'].map ascii)) (fun _ => literal []) fun _ => 42)
        1 := by
  have five : numeralText 5 = ['5'].map ascii := by decide +kernel
  obtain ⟨width, precision⟩ := @star_not_literal (fun _ => literal []) (fun _ => 42) (bootMachine 0)
    [] [] [] (ascii 'd') (by simp) (by simp) (by simp) (by decide)
    (fun h => absurd h (by decide))
  constructor
  · refine width 5 _ _ (by decide) (ahead_onlyChars (by decide) (by decide) _) ?_
    show Ahead _ _ 0 (ascii '%' :: (numeralText 5 ++ [ascii 'd']))
    rw [five]
    exact ahead_onlyChars (by decide) (by decide) _
  · refine precision 5 _ _ (by decide) (ahead_onlyChars (by decide) (by decide) _) ?_
    show Ahead _ _ 0 (ascii '%' :: ascii '.' :: (numeralText 5 ++ [ascii 'd']))
    rw [five]
    exact ahead_onlyChars (by decide) (by decide) _

/-- `%*d` with a width of 5 and 42 is printed as it stands, `%5d` with 42 is not. -/
theorem starWidth_printed : ∃ out out',
    Returns (vsprintf (onlyChars (['%', '*', 'd'].map ascii)) (fun _ => literal [])
      (consArg 5 fun _ => 42)) (bootMachine 0) out (bootMachine 0) ∧
    Returns (vsprintf (onlyChars (['%', '5', 'd'].map ascii)) (fun _ => literal []) fun _ => 42)
      (bootMachine 0) out' (bootMachine 0) ∧
    out.buff = ['%', '*', 'd'].map ascii ++ [0] ∧
    out'.buff = [' ', ' ', ' ', '4', '2'].map ascii ++ [0] ∧
    ¬ SameText (bootMachine 0)
      (vsprintf (onlyChars (['%', '*', 'd'].map ascii)) (fun _ => literal [])
        (consArg 5 fun _ => 42))
      (vsprintf (onlyChars (['%', '5', 'd'].map ascii)) (fun _ => literal []) fun _ => 42) 1 := by
  obtain ⟨out, run, buff, -⟩ := @star_args _ (fun _ => literal []) (consArg 5 fun _ => 42) _ []
    [] _ _ _ rfl rfl (by simp) (by decide)
    (@takeDirective_starWidth [] (by simp) [ascii 'd'])
    (ahead_onlyChars (by decide) (by decide) (bootMachine 0))
  have read : takeDirective (['5', 'd'].map ascii) =
      (⟨[], .literal (['5'].map ascii), none, none, some (ascii 'd')⟩, []) := by decide
  have text : Directive.print ⟨[], .literal (['5'].map ascii), none, none, some (ascii 'd')⟩
      (fun _ => []) (fun _ => 42) 0 = [' ', ' ', ' ', '4', '2'].map ascii := by decide +kernel
  obtain ⟨out', run', buff', -⟩ := @vsprintf_single _ (fun _ => literal []) (fun _ => 42) _
    (fun _ => []) [] (['5', 'd'].map ascii) [] _
    (ahead_onlyChars (by decide) (by decide) (bootMachine 0)) (by simp) (by simp) read
    (fun h => absurd h (by decide))
  rw [text] at buff'
  refine ⟨out, out', run, run', buff, buff', ?_⟩
  rintro ⟨_, _, again, again', same, -⟩
  rw [again.unique run, again'.unique run', buff, buff'] at same
  exact absurd same (by decide)

end Star

end SimpleKernel
