import SimpleKernel.BufferSize
import SimpleKernel.Terminal
import SimpleKernel.Lib.Refinement
import Mathlib.Data.List.TakeWhile

/-!
# Printing on the screen

`printk` and `printk_color` with the console behind them.  The formats of the kernel are templates:
plain texts with literal directives between them.  What such a call puts on the screen is the
template with the texts of the arguments filled in.
-/

namespace SimpleKernel

open Numeral ProgramLogic

/-- The machine with its screen. -/
structure Display where
  machine : Machine
  console : Console

/-- Why code that prints stops. -/
inductive DisplayStop where
  | kernel (e : Stop)
  | offScreen (e : OffScreen)
  /-- An element behind the end of `interrupt_handlers`. -/
  | outside
  deriving DecidableEq, Repr

namespace Display

@[simps -fullyApplied]
def setMachine (d : Display) (machine : Machine) : Display := { d with machine := machine }

@[simps -fullyApplied]
def setConsole (d : Display) (console : Console) : Display := { d with console := console }

@[simp] theorem setMachine_self (d : Display) : d.setMachine d.machine = d := rfl

abbrev Screen (α : Type) := Prog Display DisplayStop α

def onMachine {α : Type} (c : Kernel α) : Screen α := focus .kernel machine setMachine c

def onConsole {α : Type} (c : Video α) : Screen α := focus .offScreen console setConsole c

/-! ## `printk.c` -/

/-- The words that a caller pushes behind the format. -/
def argsOf (args : List Word) : ℕ → Word := fun n => args.getD n 0

def printk (format : List Byte) (args : List Word) : Screen Unit := do
  let out ← onMachine (inBuffer (SimpleKernel.printk (literal format) (argsOf args)))
  onConsole (consoleWrite out.buff)

def printkColor (back fore : RealColor) (format : List Byte) (args : List Word) : Screen Unit := do
  let out ← onMachine (inBuffer (SimpleKernel.printkColor (literal format) (argsOf args)))
  onConsole (consoleWriteColor out.buff back fore)

end Display

/-! ## Numbers as texts -/

section NumberTexts

variable {num : Word} {base size : ℤ} {type : Flags}

/-- A number with a width that it fills is printed as sign, prefix and digits. -/
theorem numberText_filled (filled : size ≤ unpaddedLength num base (-1) type) :
    numberText num base size (-1) type =
      signText num type ++ specialText base type ++ digitText num base type := by
  have none : padding num base size (-1) type = 0 := by
    rw [padding]
    omega
  have leading : zeros num base size (-1) type = 0 := by
    rw [zeros, none, ite_self]
    omega
  simp [numberText, leftSpaces, rightSpaces, none, leading]

/-- The hexadecimal numeral of a word. -/
def hexText (small : Bool) (w : Word) : List Byte := (numeral 16 w.toNat).map (digitChar small)

/-- The decimal numeral of a signed word. -/
def signedText (w : Word) : List Byte :=
  if w.toInt < 0 then ascii '-' :: numeralText w.toInt.natAbs else numeralText w.toNat

theorem hexText_length (small : Bool) (w : Word) : (hexText small w).length ≤ 8 := by
  rw [hexText, List.length_map]
  exact numeral_length_le (by decide) (by decide) w.isLt

theorem numeralText_length (w : Word) : (numeralText w.toNat).length ≤ 10 := by
  have small := w.isLt
  rw [numeralText, List.length_map]
  exact numeral_length_le (by decide) (by decide) (by omega)

theorem signedText_length (w : Word) : (signedText w).length ≤ 11 := by
  have small := w.isLt
  have size := BitVec.toInt_eq_toNat_cond w
  unfold signedText
  split
  next negative =>
    have digits : (numeralText w.toInt.natAbs).length ≤ 10 := by
      rw [numeralText, List.length_map]
      refine numeral_length_le (by decide) (by decide) ?_
      split at size <;> omega
    simp only [List.length_cons]
    omega
  next => exact (numeralText_length w).trans (by decide)

theorem digitText_hex (unsigned : type.sign = false) :
    digitText num 16 type = hexText type.small num := by
  have plain : ¬ Negative num type := fun h => Bool.false_ne_true (unsigned.symm.trans h.1)
  rw [digitText, magnitude, if_neg plain]
  rfl

/-- Without a width and other flags, the numeral is all that is printed. -/
theorem numberText_bareHex (small : Bool) :
    numberText num 16 (-1) (-1) { noFlags with small := small } = hexText small num := by
  have plain : ¬ Negative num { noFlags with small := small } := fun h => Bool.false_ne_true h.1
  rw [numberText_filled (by rw [unpaddedLength]; omega), digitText_hex rfl, signText, if_neg plain]
  rfl

/-- The numeral says the word. -/
theorem value_hexText (small : Bool) (w : Word) :
    value 16 ((hexText small w).map fun c => (digitOf 16 c).getD 0) = w.toNat := by
  have digits : (hexText small w).map (fun c => (digitOf 16 c).getD 0) = numeral 16 w.toNat := by
    rw [hexText, List.map_map]
    refine (List.map_congr_left fun d hd => ?_).trans (List.map_id _)
    simp [digitOf_digitChar small (le_refl 16) (numeral_lt (by decide) hd)]
  rw [digits, value_numeral]

theorem hexText_inj (small : Bool) {w w' : Word} (same : hexText small w = hexText small w') :
    w = w' := by
  apply BitVec.eq_of_toNat_eq
  rw [← value_hexText small w, ← value_hexText small w', same]

/-- The character is no hexadecimal digit. -/
def EndsHex (c : Byte) : Prop := (digitOf 16 c).isSome = false

theorem hexText_digits (small : Bool) (w : Word) :
    ∀ c ∈ hexText small w, (digitOf 16 c).isSome = true := by
  intro c hc
  obtain ⟨d, hd, rfl⟩ := List.mem_map.1 hc
  rw [digitOf_digitChar small (le_refl 16) (numeral_lt (by decide) hd)]
  rfl

/-- Where a text goes on with something else than a digit, what was printed can be told. -/
theorem digits_append_inj {l l' rest rest' : List Byte} {c c' : Byte}
    (digits : ∀ b ∈ l, (digitOf 16 b).isSome = true) (digits' : ∀ b ∈ l', (digitOf 16 b).isSome = true)
    (ends : EndsHex c) (ends' : EndsHex c') (same : l ++ c :: rest = l' ++ c' :: rest') :
    l = l' ∧ c :: rest = c' :: rest' := by
  have stop {c : Byte} {rest : List Byte} (ends : EndsHex c) :
      ∀ b ∈ (c :: rest).head?, (digitOf 16 b).isSome = false := by
    simpa [EndsHex] using ends
  have first := congrArg (List.takeWhile fun b => (digitOf 16 b).isSome) same
  have second := congrArg (List.dropWhile fun b => (digitOf 16 b).isSome) same
  rw [takeWhile_append_stop digits (stop ends), takeWhile_append_stop digits' (stop ends')] at first
  rw [dropWhile_append_stop digits (stop ends), dropWhile_append_stop digits' (stop ends')] at second
  exact ⟨first, second⟩

theorem hexText_append_inj {small : Bool} {w w' : Word} {c c' : Byte} {rest rest' : List Byte}
    (ends : EndsHex c) (ends' : EndsHex c')
    (same : hexText small w ++ c :: rest = hexText small w' ++ c' :: rest') :
    w = w' ∧ c :: rest = c' :: rest' := by
  obtain ⟨word, behind⟩ := digits_append_inj (hexText_digits small w) (hexText_digits small w')
    ends ends' same
  exact ⟨hexText_inj small word, behind⟩

/-- The hexadecimal numeral of a word, with zeros to 8 digits. -/
def hex8Text (w : Word) : List Byte :=
  List.replicate (8 - (hexText false w).length) (ascii '0') ++ hexText false w

theorem hex8Text_length (w : Word) : (hex8Text w).length = 8 := by
  have few := hexText_length false w
  simp only [hex8Text, List.length_append, List.length_replicate]
  omega

theorem hex8Text_digits (w : Word) : ∀ c ∈ hex8Text w, (digitOf 16 c).isSome = true := by
  intro c hc
  rcases List.mem_append.1 hc with zero | digit
  · rw [(List.mem_replicate.1 zero).2]
    decide
  · exact hexText_digits false w c digit

theorem hex8Text_inj {w w' : Word} (same : hex8Text w = hex8Text w') : w = w' := by
  have reads (w : Word) : value 16 ((hex8Text w).map fun c => (digitOf 16 c).getD 0) = w.toNat := by
    rw [hex8Text, List.map_append, List.map_replicate]
    exact (value_zeros_append _ _).trans (value_hexText false w)
  apply BitVec.eq_of_toNat_eq
  rw [← reads w, ← reads w', same]

/-- A numeral with another one of 8 digits behind it. -/
theorem hexText_hex8Text_inj {w w' v v' : Word} {c c' : Byte} {rest rest' : List Byte}
    (ends : EndsHex c) (ends' : EndsHex c')
    (same : hexText false w ++ (hex8Text v ++ c :: rest) =
      hexText false w' ++ (hex8Text v' ++ c' :: rest')) :
    w = w' ∧ v = v' ∧ c :: rest = c' :: rest' := by
  have digits (w v : Word) : ∀ b ∈ hexText false w ++ hex8Text v, (digitOf 16 b).isSome = true := by
    intro b hb
    exact (List.mem_append.1 hb).elim (hexText_digits false w b) (hex8Text_digits v b)
  rw [← List.append_assoc, ← List.append_assoc] at same
  obtain ⟨words, behind⟩ := digits_append_inj (digits w v) (digits w' v') ends ends' same
  obtain ⟨high, low⟩ := List.append_inj' words (by rw [hex8Text_length, hex8Text_length])
  exact ⟨hexText_inj false high, hex8Text_inj low, behind⟩

end NumberTexts

/-! ## Templates -/

/-- A format: texts with a directive behind each of them, and a last text. -/
structure Template where
  fields : List (List Byte × Directive)
  last : List Byte
  plain : ∀ f ∈ fields, ascii '%' ∉ f.1
  literal : ∀ f ∈ fields, f.2.Literal
  plainLast : ascii '%' ∉ last

namespace Template

/-- The format, spelled. -/
def spell (last : List Byte) : List (List Byte × Directive) → List Byte
  | [] => last
  | f :: fs => f.1 ++ ascii '%' :: (f.2.source ++ spell last fs)

def format (T : Template) : List Byte := spell T.last T.fields

/-- The pieces that `parse` finds. -/
def pieces (last : List Byte) : List (List Byte × Directive) → List Piece
  | [] => last.map .text
  | f :: fs => f.1.map .text ++ .directive f.2 :: pieces last fs

/-- The template with its arguments from the `a`-th on filled in. -/
def fill (strings : Word → List Byte) (va : ℕ → Word) (last : List Byte) :
    ℕ → List (List Byte × Directive) → List Byte
  | _, [] => last
  | a, f :: fs => f.1 ++ (f.2.print strings va a ++ fill strings va last (a + 1) fs)

/-- The arguments from the `a`-th on that are strings. -/
def pointers (va : ℕ → Word) : ℕ → List (List Byte × Directive) → List Word
  | _, [] => []
  | a, f :: fs => (if caseOf f.2.conversion = .string then [va a] else []) ++ pointers va (a + 1) fs

/-- What the template prints. -/
def text (T : Template) (strings : Word → List Byte) (args : List Word) : List Byte :=
  fill strings (Display.argsOf args) T.last 0 T.fields

variable {last : List Byte} {fields : List (List Byte × Directive)} (strings : Word → List Byte)
  (va : ℕ → Word)

theorem parse_spell (plain : ∀ f ∈ fields, ascii '%' ∉ f.1) (literal : ∀ f ∈ fields, f.2.Literal)
    (plainLast : ascii '%' ∉ last) : parse (spell last fields) = pieces last fields := by
  induction fields with
  | nil => exact parse_plain plainLast
  | cons f fs ih =>
    simp only [List.forall_mem_cons] at plain literal
    rw [spell, parse_plain_append plain.1, parse_percent, literal.1.takeDirective, pieces,
      ih plain.2 literal.2]

theorem literal_arity {d : Directive} (literal : d.Literal) : d.arity = 1 := by
  obtain ⟨c, known, conversion⟩ := literal.conversion
  rw [Directive.arity, literal.amounts, conversion, caseArity,
    if_neg (letter_plain known).2.2.2.2.2.2]

theorem render_pieces (literal : ∀ f ∈ fields, f.2.Literal) (a : ℕ) :
    (render strings va a (pieces last fields)).flatten = fill strings va last a fields := by
  induction fields generalizing a with
  | nil => exact render_plain va strings a last
  | cons f fs ih =>
    simp only [List.forall_mem_cons] at literal
    rw [pieces, render_plain_append, render, List.flatten_cons, Piece.arity,
      literal_arity literal.1, ih literal.2, fill, Piece.print]

theorem stringArgs_pieces (literal : ∀ f ∈ fields, f.2.Literal) (a : ℕ) :
    stringArgs va a (pieces last fields) = pointers va a fields := by
  induction fields generalizing a with
  | nil => exact stringArgs_plain va a last
  | cons f fs ih =>
    simp only [List.forall_mem_cons] at literal
    rw [pieces, stringArgs_plain_append, stringArgs, Piece.arity, literal_arity literal.1,
      ih literal.2, Piece.stringArg, literal.1.amounts, pointers]
    split <;> rfl

end Template

/-! ## The directives of the kernel -/

section Directives

variable (strings : Word → List Byte) (va : ℕ → Word) (a : ℕ)

/-- A directive that is only a letter. -/
def bare (c : Char) : Directive := ⟨[], .absent, none, none, some (ascii c)⟩

/-- `%08X`. -/
def hex8 : Directive := ⟨[ascii '0'], .literal [ascii '8'], none, none, some (ascii 'X')⟩

theorem bare_literal {c : Char} (letter : ascii c ∈ letters) : (bare c).Literal where
  flags := by simp [bare]
  width := .inl rfl
  precision := .inl rfl
  qualifier := rfl
  conversion := ⟨ascii c, letter, rfl⟩

theorem hex8_literal : hex8.Literal where
  flags := by decide
  width := .inr ⟨[ascii '8'], rfl, by unfold IsNumber; decide, by decide⟩
  precision := .inl rfl
  qualifier := rfl
  conversion := ⟨ascii 'X', by decide, rfl⟩

theorem print_hex : (bare 'x').print strings va a = hexText true (va a) := numberText_bareHex true

theorem print_upper : (bare 'X').print strings va a = hexText false (va a) :=
  numberText_bareHex false

theorem print_unsigned : (bare 'u').print strings va a = numeralText (va a).toNat := by
  have unsigned : ¬ Negative (va a) noFlags := fun h => Bool.false_ne_true h.1
  show numberText (va a) 10 (-1) (-1) noFlags = _
  rw [numberText_filled (by rw [unpaddedLength]; omega), signText, if_neg unsigned, digitText,
    magnitude, if_neg unsigned]
  rfl

theorem print_signed : (bare 'd').print strings va a = signedText (va a) := by
  show numberText (va a) 10 (-1) (-1) { noFlags with sign := true } = _
  rw [numberText_filled (by rw [unpaddedLength]; omega), signText, digitText, magnitude, signedText]
  by_cases negative : (va a).toInt < 0
  · have minus : Negative (va a) { noFlags with sign := true } := ⟨rfl, negative⟩
    rw [if_pos minus, if_pos minus, if_pos negative]
    rfl
  · have none : ¬ Negative (va a) { noFlags with sign := true } := fun h => negative h.2
    rw [if_neg none, if_neg none, if_neg negative]
    rfl

theorem print_string : (bare 's').print strings va a = strings (va a) := by
  show padded false (-1) (strings (va a)) = strings (va a)
  have none : (-1 - ((strings (va a)).length : ℤ)).toNat = 0 := by omega
  simp [padded, none]

theorem print_hex8 : hex8.print strings va a = hex8Text (va a) := by
  have width : hex8.print strings va a = numberText (va a) 16 8 (-1) { noFlags with zeropad := true } :=
    rfl
  have plain : ¬ Negative (va a) { noFlags with zeropad := true } := fun h => Bool.false_ne_true h.1
  have digits : digitText (va a) 16 { noFlags with zeropad := true } = hexText false (va a) :=
    digitText_hex rfl
  have sign : signText (va a) { noFlags with zeropad := true } = [] := if_neg plain
  have special : specialText 16 { noFlags with zeropad := true } = [] := rfl
  have few := hexText_length false (va a)
  have missing : padding (va a) 16 8 (-1) { noFlags with zeropad := true } =
      8 - (hexText false (va a)).length := by
    simp only [padding, unpaddedLength, sign, special, digits, List.length_nil]
    omega
  rw [width, numberText, leftSpaces, rightSpaces, zeros, sign, special, digits, missing]
  simp [hex8Text, noFlags]

/-- The directives for numbers. -/
def numerics : List Directive := [bare 'x', bare 'X', bare 'd', bare 'u', hex8]

theorem numeric_literal {d : Directive} (numeric : d ∈ numerics) : d.Literal := by
  simp only [numerics, List.mem_cons, List.not_mem_nil, or_false] at numeric
  rcases numeric with rfl | rfl | rfl | rfl | rfl
  · exact bare_literal (by decide)
  · exact bare_literal (by decide)
  · exact bare_literal (by decide)
  · exact bare_literal (by decide)
  · exact hex8_literal

theorem numeric_length {d : Directive} (numeric : d ∈ numerics) :
    (d.print strings va a).length ≤ 11 := by
  simp only [numerics, List.mem_cons, List.not_mem_nil, or_false] at numeric
  rcases numeric with rfl | rfl | rfl | rfl | rfl
  · rw [print_hex]
    exact (hexText_length ..).trans (by decide)
  · rw [print_upper]
    exact (hexText_length ..).trans (by decide)
  · rw [print_signed]
    exact signedText_length _
  · rw [print_unsigned]
    exact (numeralText_length _).trans (by decide)
  · rw [print_hex8, hex8Text_length]
    decide

end Directives

/-- A template for numbers whose text fits into the buffers. -/
structure Message where
  fields : List (List Byte × Directive)
  last : List Byte
  plain : ∀ f ∈ fields, ascii '%' ∉ f.1
  plainLast : ascii '%' ∉ last
  numeric : ∀ f ∈ fields, f.2 ∈ numerics
  noNul : 0 ∉ Template.spell last fields
  short : (fields.map fun f => f.1.length + 11).sum + last.length < 1024

namespace Message

def template (M : Message) : Template where
  fields := M.fields
  last := M.last
  plain := M.plain
  literal := fun f hf => numeric_literal (M.numeric f hf)
  plainLast := M.plainLast

/-- A message without numbers. -/
def ofText (s : List Byte) (plain : ascii '%' ∉ s) (noNul : 0 ∉ s) (short : s.length < 1024) :
    Message where
  fields := []
  last := s
  plain := by simp
  plainLast := plain
  numeric := by simp
  noNul := noNul
  short := by simpa using short

def format (M : Message) : List Byte := M.template.format

def text (M : Message) (args : List Word) : List Byte := M.template.text (fun _ => []) args

section Bounds

variable {fields : List (List Byte × Directive)} (numeric : ∀ f ∈ fields, f.2 ∈ numerics)
  (last : List Byte) (va : ℕ → Word) (a : ℕ)
include numeric

theorem spell_length_le : (Template.spell last fields).length ≤
    (fields.map fun f => f.1.length + 11).sum + last.length := by
  induction fields with
  | nil => simp [Template.spell]
  | cons f fs ih =>
    simp only [List.forall_mem_cons] at numeric
    have source : f.2.source.length ≤ 10 := by
      have all : ∀ d ∈ numerics, d.source.length ≤ 10 := by decide
      exact all _ numeric.1
    have rest := ih numeric.2
    simp only [Template.spell, List.length_append, List.length_cons, List.map_cons, List.sum_cons]
    omega

theorem fill_length_le : (Template.fill (fun _ => []) va last a fields).length ≤
    (fields.map fun f => f.1.length + 11).sum + last.length := by
  induction fields generalizing a with
  | nil => simp [Template.fill]
  | cons f fs ih =>
    simp only [List.forall_mem_cons] at numeric
    have printed := numeric_length (fun _ => []) va a numeric.1
    have rest := ih numeric.2 (a + 1)
    simp only [Template.fill, List.length_append, List.map_cons, List.sum_cons]
    omega

theorem pointers_eq_nil : Template.pointers va a fields = [] := by
  induction fields generalizing a with
  | nil => rfl
  | cons f fs ih =>
    simp only [List.forall_mem_cons] at numeric
    have number : caseOf f.2.conversion ≠ .string := by
      have all : ∀ d ∈ numerics, caseOf d.conversion ≠ .string := by decide
      exact all _ numeric.1
    rw [Template.pointers, if_neg number, ih numeric.2]
    rfl

end Bounds

variable (M : Message) (args : List Word)

theorem format_length : M.format.length < 2 ^ 32 :=
  (spell_length_le M.numeric M.last).trans_lt (M.short.trans (by decide))

theorem text_length : (M.text args).length < 1024 :=
  (fill_length_le M.numeric M.last _ 0).trans_lt M.short

/-- A message needs no strings. -/
theorem valid (m : Machine) : ∀ p ∈ Template.pointers (Display.argsOf args) 0 M.template.fields,
    Ahead (charsAt p) m 0 [] := by
  have none : Template.pointers (Display.argsOf args) 0 M.template.fields = [] :=
    pointers_eq_nil M.numeric _ _
  simp [none]

end Message

/-! ## What is shown -/

namespace Terminal

variable (t : Terminal) (back fore : RealColor)

/-- A string ends at its first zero. -/
theorem puts_terminated (s : List Byte) : t.puts (s ++ [0]) back fore = t.puts s back fore := by
  have same : (s ++ [0]).takeWhile (· ≠ 0) = s.takeWhile (· ≠ 0) := by
    induction s with
    | nil => rfl
    | cons c s ih => rw [List.cons_append, List.takeWhile_cons, List.takeWhile_cons, ih]
  rw [puts, same, puts]

/-- Nothing of a text without a zero is left out. -/
theorem puts_eq_foldl {s : List Byte} (noNul : 0 ∉ s) :
    t.puts s back fore = s.foldl (fun t c => t.put c back fore) t := by
  have all : s.takeWhile (· ≠ 0) = s := by
    rw [List.takeWhile_eq_self_iff]
    intro c hc
    simpa using fun zero : c = 0 => noNul (zero ▸ hc)
  rw [puts, all]

theorem puts_append {s : List Byte} (noNul : 0 ∉ s) (s' : List Byte) :
    t.puts (s ++ s') back fore = (t.puts s back fore).puts s' back fore := by
  have all : ∀ c ∈ s, decide (c ≠ 0) = true := by
    intro c hc
    simpa using fun zero : c = 0 => noNul (zero ▸ hc)
  rw [puts, List.takeWhile_append_of_pos all, List.foldl_append, puts, puts_eq_foldl t back fore noNul]

/-- Characters that move the cursor by one. -/
def Printable (s : List Byte) : Prop := ∀ c ∈ s, 0x20 ≤ c.toNat ∧ c.toNat ≤ 0x7F

theorem Printable.noNul {s : List Byte} (printable : Printable s) : 0 ∉ s :=
  fun zero => absurd (printable 0 zero).1 (by decide)

theorem Printable.append {s s' : List Byte} (printable : Printable s) (printable' : Printable s') :
    Printable (s ++ s') := fun c hc => (List.mem_append.1 hc).elim (printable c) (printable' c)

theorem hexText_printable (small : Bool) (w : Word) : Printable (hexText small w) := by
  intro c hc
  obtain ⟨d, hd, rfl⟩ := List.mem_map.1 hc
  have all : ∀ small, ∀ d < 16, 0x20 ≤ (digitChar small d).toNat ∧ (digitChar small d).toNat ≤ 0x7F := by
    decide
  exact all small d (numeral_lt (by decide) hd)

theorem hex8Text_printable (w : Word) : Printable (hex8Text w) := by
  refine Printable.append (fun c hc => ?_) (hexText_printable false w)
  rw [(List.mem_replicate.1 hc).2]
  decide

/-- From the column `col` on, the row `row` has this text. -/
def HasText (row col : ℕ) (s : List Byte) : Prop :=
  ∀ j < s.length, t.cell row (col + j) = ink (s.getD j 0) back fore

/-- A cell is written and the cursor moves on. -/
def advance (v : Cell) : Terminal := ⟨(t.write v).cell, t.row, t.col + 1⟩

variable {t back fore}

theorem advance_cell (v : Cell) (i j : ℕ) :
    (t.advance v).cell i j = if i = t.row ∧ j = t.col then v else t.cell i j := by
  by_cases row : i = t.row <;> by_cases col : j = t.col <;> simp [advance, write, row, col]

theorem put_printable {c : Byte} (printable : 0x20 ≤ c.toNat ∧ c.toNat ≤ 0x7F)
    (room : t.col + 1 < 80) : t.put c back fore = t.advance (ink c back fore) := by
  have typed : t.type c (ink c back fore) = t.advance (ink c back fore) := by
    unfold type
    rw [if_neg (by omega), if_neg (by omega), if_neg (by omega), if_neg (by omega), if_pos printable]
    rfl
  rw [put, typed, wrap]
  exact if_neg (Nat.not_le.2 room)

/-- A text that does not reach the end of its row stands where it is put, and nothing else
changes. -/
theorem puts_printable {s : List Byte} (printable : Printable s) (room : t.col + s.length < 80) :
    (t.puts s back fore).row = t.row ∧ (t.puts s back fore).col = t.col + s.length ∧
      (t.puts s back fore).HasText back fore t.row t.col s ∧
      ∀ i j, i ≠ t.row ∨ j < t.col → (t.puts s back fore).cell i j = t.cell i j := by
  rw [puts_eq_foldl t back fore printable.noNul]
  induction s generalizing t with
  | nil => exact ⟨rfl, rfl, fun j hj => absurd hj (Nat.not_lt_zero j), fun _ _ _ => rfl⟩
  | cons c s ih =>
    have first := printable c List.mem_cons_self
    have rest : Printable s := fun b hb => printable b (List.mem_cons_of_mem c hb)
    rw [List.length_cons] at room
    rw [List.foldl_cons, put_printable first (by omega)]
    obtain ⟨row, col, text, other⟩ := @ih (t.advance (ink c back fore)) rest
      (by show t.col + 1 + s.length < 80; omega)
    refine ⟨row, col.trans ?_, fun j hj => ?_, fun i j out => ?_⟩
    · show t.col + 1 + s.length = t.col + (s.length + 1)
      omega
    · cases j with
      | zero =>
        rw [Nat.add_zero, other _ _ (.inr (Nat.lt_succ_self t.col)), advance_cell, if_pos ⟨rfl, rfl⟩]
        rfl
      | succ j =>
        rw [show t.col + (j + 1) = t.col + 1 + j by omega]
        exact text j (by simpa using hj)
    · rw [other i j (out.imp id Nat.lt_succ_of_lt), advance_cell]
      exact if_neg fun here => out.elim (fun h => h here.1) (fun h => by omega)

/-- A line that is shorter than a row takes one row. -/
theorem puts_line {s : List Byte} (printable : Printable s) (start : t.col = 0)
    (room : s.length < 80) :
    (t.puts (s ++ [0x0A]) back fore).row = t.row + 1 ∧ (t.puts (s ++ [0x0A]) back fore).col = 0 ∧
      (t.puts (s ++ [0x0A]) back fore).HasText back fore t.row 0 s ∧
      ∀ i j, i ≠ t.row → (t.puts (s ++ [0x0A]) back fore).cell i j = t.cell i j := by
  have fits : t.col + s.length < 80 := by rwa [start, Nat.zero_add]
  obtain ⟨row, -, text, other⟩ := @puts_printable t back fore s printable fits
  have newline (u : Terminal) : u.puts [0x0A] back fore = { u with row := u.row + 1, col := 0 } := rfl
  rw [puts_append t back fore printable.noNul, newline]
  rw [start] at text
  exact ⟨congrArg (· + 1) row, rfl, text, fun i j away => other i j (.inl away)⟩

/-- One line behind the other, each of them in a row of its own. -/
theorem puts_lines {lines : List (List Byte)} (printable : ∀ s ∈ lines, Printable s)
    (room : ∀ s ∈ lines, s.length < 80) (start : t.col = 0) :
    let t' := lines.foldl (fun t s => t.puts (s ++ [0x0A]) back fore) t
    t'.row = t.row + lines.length ∧ t'.col = 0 ∧
      (∀ k < lines.length, t'.HasText back fore (t.row + k) 0 (lines.getD k [])) ∧
      ∀ i < t.row, ∀ j, t'.cell i j = t.cell i j := by
  induction lines generalizing t with
  | nil => exact ⟨rfl, start, fun k hk => absurd hk (Nat.not_lt_zero k), fun _ _ _ => rfl⟩
  | cons s lines ih =>
    simp only [List.forall_mem_cons] at printable room
    obtain ⟨row, col, text, other⟩ :=
      @puts_line t back fore s printable.1 start room.1
    obtain ⟨row', col', text', other'⟩ := ih printable.2 room.2 col
    refine ⟨row'.trans ?_, col', fun k hk => ?_, fun i above j => ?_⟩
    · rw [row, List.length_cons]
      omega
    · cases k with
      | zero =>
        intro j hj
        rw [Nat.add_zero]
        exact (other' t.row (by rw [row]; exact Nat.lt_succ_self _) _).trans (text j hj)
      | succ k =>
        have := text' k (by simpa using hk)
        rw [row] at this
        rwa [show t.row + (k + 1) = t.row + 1 + k by omega]
    · exact (other' i (by rw [row]; omega) j).trans (other i j (Nat.ne_of_lt above))

end Terminal

namespace Display

section Specs

variable {E : DisplayStop → Display → Prop} {d : Display} {t : Terminal}
  {strings : Word → List Byte} {args : List Word}

/-- A template whose text fits into the buffers of `printk` and `printk_color` fills them with it. -/
theorem template_printed {T : Template} {m : Machine} (noNul : 0 ∉ T.format)
    (short : T.format.length < 2 ^ 32)
    (valid : ∀ p ∈ Template.pointers (argsOf args) 0 T.fields, Ahead (charsAt p) m 0 (strings p))
    (fits : (T.text strings args).length < 1024) : ∃ out,
      Returns (inBuffer (SimpleKernel.printk (literal T.format) (argsOf args))) m out m ∧
      Returns (inBuffer (SimpleKernel.printkColor (literal T.format) (argsOf args))) m out m ∧
      out.buff = T.text strings args ++ [0] := by
  have parsed : parse T.format = Template.pieces T.last T.fields :=
    Template.parse_spell T.plain T.literal T.plainLast
  have pointers : stringArgs (argsOf args) 0 (parse T.format) =
      Template.pointers (argsOf args) 0 T.fields := by
    rw [parsed, Template.stringArgs_pieces _ T.literal]
  rw [← pointers] at valid
  obtain ⟨out, run, run', buff⟩ := printk_returns (ahead_literal noNul short m) valid
  rw [parsed, Template.render_pieces _ _ T.literal] at buff
  have small : out.buff.length ≤ buffSize := by
    rw [buff, List.length_append]
    exact fits
  exact ⟨out, inBuffer_returns run small, inBuffer_returns run' small, buff⟩

theorem write_spec {s : List Byte} (sim : Simulates d.console t) (back fore : RealColor)
    {Q : Unit → Display → Prop}
    (hQ : ∀ con, Simulates con (t.puts s back fore) → Q () (d.setConsole con)) :
    WP (onConsole (consoleWriteColor (s ++ [0]) back fore)) E Q d := by
  have written := sim.puts (E := fun e con => E (.offScreen e) (d.setConsole con)) (s ++ [0]) back fore
  rw [onConsole, wp_focus]
  refine written.mono fun _ con shown => hQ con ?_
  rwa [Terminal.puts_terminated] at shown

variable {T : Template} (noNul : 0 ∉ T.format) (short : T.format.length < 2 ^ 32)
  (valid : ∀ p ∈ Template.pointers (argsOf args) 0 T.fields,
    Ahead (charsAt p) d.machine 0 (strings p))
  (fits : (T.text strings args).length < 1024) (sim : Simulates d.console t)
  {Q : Unit → Display → Prop}
include noNul short valid fits sim

/-- `printk` shows what the template prints. -/
theorem printk_spec (hQ : ∀ con, Simulates con (t.puts (T.text strings args) .black .white) →
    Q () (d.setConsole con)) : WP (printk T.format args) E Q d := by
  obtain ⟨out, run, -, buff⟩ := template_printed noNul short valid fits
  simp only [printk, wp_bind, onMachine, wp_focus]
  refine run.wp ?_
  rw [setMachine_self, buff]
  exact write_spec sim .black .white hQ

theorem printkColor_spec (back fore : RealColor)
    (hQ : ∀ con, Simulates con (t.puts (T.text strings args) back fore) →
      Q () (d.setConsole con)) : WP (printkColor back fore T.format args) E Q d := by
  obtain ⟨out, -, run, buff⟩ := template_printed noNul short valid fits
  simp only [printkColor, wp_bind, onMachine, wp_focus]
  refine run.wp ?_
  rw [setMachine_self, buff]
  exact write_spec sim back fore hQ

end Specs

/-! ## Programs that print -/

/-- On any screen, with the machine `m`, the code shows these outputs and leaves the machine as it
is. -/
def Prints (m : Machine) (c : Screen Unit) (outputs : List Output) : Prop :=
  ∀ E d t, d.machine = m → Simulates d.console t → WP c E (fun _ d' => d'.machine = m ∧
    Simulates d'.console (outputs.foldl Output.onTerminal t)) d

/-- The same, but the code does not return: it stops for the reason `e`. -/
def PrintsAndStops (m : Machine) (c : Screen Unit) (outputs : List Output) (e : DisplayStop) :
    Prop :=
  ∀ d t, d.machine = m → Simulates d.console t → WP c (fun e' d' => e' = e ∧ d'.machine = m ∧
    Simulates d'.console (outputs.foldl Output.onTerminal t)) (fun _ _ => False) d

section Prints

variable {m : Machine} {c : Screen Unit} {k : Unit → Screen Unit} {o o' : List Output}
  {e : DisplayStop}

theorem Prints.bind (first : Prints m c o) (rest : Prints m (k ()) o') :
    Prints m (c >>= k) (o ++ o') := by
  intro E d t machine sim
  refine WP.bind (first E d t machine sim) fun _ d' shown => ?_
  rw [List.foldl_append]
  exact rest E d' _ shown.1 shown.2

theorem Prints.bind_stops (first : Prints m c o) (rest : PrintsAndStops m (k ()) o' e) :
    PrintsAndStops m (c >>= k) (o ++ o') e := by
  intro d t machine sim
  refine WP.bind (first _ d t machine sim) fun _ d' shown => ?_
  rw [List.foldl_append]
  exact rest d' _ shown.1 shown.2

theorem PrintsAndStops.throw (e : DisplayStop) : PrintsAndStops m (throw e) [] e :=
  fun _ _ machine sim => ⟨rfl, machine, sim⟩

/-- One text or the other one, and the rest. -/
theorem PrintsAndStops.either {p : Prop} [Decidable p] {b : Bool} {c' : Screen Unit} {r : List Output}
    (test : p ↔ b = true) (yes : Prints m c o) (no : Prints m c' o')
    (rest : PrintsAndStops m (k ()) r e) :
    PrintsAndStops m (if p then c >>= k else c' >>= k) ((if b then o else o') ++ r) e := by
  cases b with
  | true => simpa [test] using yes.bind_stops rest
  | false => simpa [test] using no.bind_stops rest

/-- A text that may be left out, and the rest. -/
theorem PrintsAndStops.optional {p : Prop} [Decidable p] {b : Bool} {r : List Output}
    (test : p ↔ b = true) (yes : Prints m c o) (rest : PrintsAndStops m (k ()) r e) :
    PrintsAndStops m (if p then c >>= k else k ()) ((if b then o else []) ++ r) e := by
  cases b with
  | true => simpa [test] using yes.bind_stops rest
  | false => simpa [test] using rest

/-- A value that is read from the machine. -/
theorem Prints.read {α : Type} {r : Kernel α} {a : α} {k : α → Screen Unit}
    (run : Returns r m a m) (rest : Prints m (k a) o) : Prints m (onMachine r >>= k) o := by
  intro E d t machine sim
  simp only [onMachine, wp_bind, wp_focus, machine]
  refine run.wp ?_
  rw [← machine, setMachine_self]
  exact machine ▸ rest E d t machine sim

theorem PrintsAndStops.read {α : Type} {r : Kernel α} {a : α} {k : α → Screen Unit}
    (run : Returns r m a m) (rest : PrintsAndStops m (k a) o e) :
    PrintsAndStops m (onMachine r >>= k) o e := by
  intro d t machine sim
  simp only [onMachine, wp_bind, wp_focus, machine]
  refine run.wp ?_
  rw [← machine, setMachine_self]
  exact machine ▸ rest d t machine sim

theorem template_prints {T : Template} {strings : Word → List Byte} {args : List Word}
    (noNul : 0 ∉ T.format) (short : T.format.length < 2 ^ 32)
    (valid : ∀ p ∈ Template.pointers (argsOf args) 0 T.fields, Ahead (charsAt p) m 0 (strings p))
    (fits : (T.text strings args).length < 1024) :
    Prints m (printk T.format args) [.write (T.text strings args)] := by
  rintro E d t rfl sim
  apply printk_spec noNul short valid fits sim
  exact fun con shown => ⟨rfl, shown⟩

variable (M : Message) (args : List Word)

theorem message_prints : Prints m (printk M.format args) [.write (M.text args)] :=
  template_prints (T := M.template) M.noNul M.format_length (M.valid args m) (M.text_length args)

theorem message_printsColor (back fore : RealColor) :
    Prints m (printkColor back fore M.format args) [.writeColor (M.text args) back fore] := by
  intro E d t machine sim
  apply printkColor_spec (T := M.template) M.noNul M.format_length (M.valid args d.machine)
    (M.text_length args) sim
  exact fun con shown => ⟨machine, shown⟩

end Prints

end Display

theorem exists_cleared : ∃ con, Simulates con Terminal.cleared := by
  have cleared := consoleClear_simulates (E := fun _ _ => False) ⟨fun _ => 0, 0, 0, 0, fun _ => 0⟩
  obtain ⟨_, con, -, sim⟩ := cleared.returns
  exact ⟨con, sim⟩

end SimpleKernel
