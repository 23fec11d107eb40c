import SimpleKernel.Mstring
import SimpleKernel.Number

/-!
# Formatted printing

`vsprintf`, `printk` and `printk_color` of `printk.c`.  The format and the strings are read through
readers, the words that the caller pushed behind the format are `va`, and the buffer is the list of
the bytes written to it, which nothing else points into.
-/

namespace SimpleKernel

open ProgramLogic

/-! ## Characters -/

/-- `is_digit`; `char` is signed. -/
def isDigit (c : Byte) : Bool := decide (48 ≤ c.toInt) && decide (c.toInt ≤ 57)

/-- The flag that a character sets. -/
def setFlag (c : Byte) (flags : Flags) : Option Flags :=
  if c = ascii '-' then
    some { flags with left := true }
  else if c = ascii '+' then
    some { flags with plus := true }
  else if c = ascii ' ' then
    some { flags with space := true }
  else if c = ascii '#' then
    some { flags with special := true }
  else if c = ascii '0' then
    some { flags with zeropad := true }
  else
    none

def isQualifier (c : Byte) : Bool := c = ascii 'h' || c = ascii 'l' || c = ascii 'L'

/-- The cases of the switch on the conversion character. -/
inductive Conversion where
  | char | string | octal | pointer | hexLower | hexUpper | int | unsigned | binary | count | other
  deriving DecidableEq, Repr

def conversionOf (c : Byte) : Conversion :=
  if c = ascii 'c' then .char
  else if c = ascii 's' then .string
  else if c = ascii 'o' then .octal
  else if c = ascii 'p' then .pointer
  else if c = ascii 'x' then .hexLower
  else if c = ascii 'X' then .hexUpper
  else if c = ascii 'd' ∨ c = ascii 'i' then .int
  else if c = ascii 'u' then .unsigned
  else if c = ascii 'b' then .binary
  else if c = ascii 'n' then .count
  else .other

/-! ## `vsprintf` -/

/-- The variables of a directive. -/
structure Field where
  flags : Flags
  fieldWidth : ℤ
  precision : ℤ
  deriving DecidableEq

/-- What `vsprintf` changes from one round to the next: the place in the format, what is in the
buffer, how many arguments are taken, and what `%n` stored where. -/
structure Printing where
  format : Word
  str : List Byte
  args : ℕ
  stored : List (Word × ℕ)

/-- `while (--n > 0) *str++ = c;`, with `str` and `n` behind the loop. -/
def fillPre (c : Byte) (n : ℤ) (str : List Byte) : List Byte × ℤ :=
  if 0 < n - 1 then fillPre c (n - 1) (str ++ [c]) else (str, n - 1)
termination_by n.toNat

/-- The case `c`. -/
def putChar (str : List Byte) (c : Byte) (f : Field) : List Byte :=
  let (str, width) :=
    if !f.flags.left then fillPre (ascii ' ') f.fieldWidth str else (str, f.fieldWidth)
  let str := str ++ [c]
  (fillPre (ascii ' ') width str).1

/-- `for (i = 0; i < len; ++i) *str++ = *s++;` from index `i` on. -/
def copyChars (s : Chars) : ℕ → Word → List Byte → Kernel (List Byte)
  | 0, _, str => return str
  | len + 1, i, str => do copyChars s len (i + 1) (str ++ [← s i])

/-- The case `s`. -/
def putString (str : List Byte) (s : Chars) (f : Field) : Kernel (List Byte) := do
  let len : ℤ := ← strlen s
  let len := if f.precision < 0 then len else if len > f.precision then f.precision else len
  let (str, width) :=
    if !f.flags.left then fill (ascii ' ') len f.fieldWidth str else (str, f.fieldWidth)
  let str ← copyChars s len.toNat 0 str
  return (fill (ascii ' ') len width str).1

/-- The cases that call `number`.  For a base that it does not know it gives 0, and so would the
next store fault. -/
def putNumber (str : List Byte) (num : Word) (base : ℤ) (f : Field) : Kernel (List Byte) :=
  match number str num base f.fieldWidth f.precision f.flags with
  | some str => return str
  | none => throw (.pageFault 0)

section Format

variable (format : Chars) (chars : Word → Chars) (va : ℕ → Word)

def skipAtoi (s : Word) : Kernel (ℤ × Word) :=
  whileM .hang (fun x => return isDigit (← format x.2))
    (fun x => return (x.1 * 10 + (← format x.2).toInt - 48, x.2 + 1)) roundLimit (0, s)

/-- From the label `repeat` on. -/
def readFlags : ℕ → Word → Flags → Kernel (Word × Flags)
  | 0, _, _ => throw .hang
  | fuel + 1, cursor, flags => do
    let cursor := cursor + 1
    match setFlag (← format cursor) flags with
    | some flags => readFlags fuel cursor flags
    | none => return (cursor, flags)

/-- The field width, with the cursor and the number of taken arguments.  The cursor stays on a
`*`. -/
def readFieldWidth (cursor : Word) (args : ℕ) (flags : Flags) :
    Kernel (Word × ℕ × Flags × ℤ) := do
  if isDigit (← format cursor) then
    let (fieldWidth, cursor) ← skipAtoi format cursor
    return (cursor, args, flags, fieldWidth)
  else if (← format cursor) = ascii '*' then
    let fieldWidth := (va args).toInt
    if fieldWidth < 0 then
      return (cursor, args + 1, { flags with left := true }, -fieldWidth)
    else
      return (cursor, args + 1, flags, fieldWidth)
  else
    return (cursor, args, flags, -1)

/-- What follows a `.`. -/
def readAfterPoint (cursor : Word) (args : ℕ) : Kernel (Word × ℕ × ℤ) := do
  if isDigit (← format cursor) then
    let (precision, cursor) ← skipAtoi format cursor
    return (cursor, args, precision)
  else if (← format cursor) = ascii '*' then
    return (cursor, args + 1, (va args).toInt)
  else
    return (cursor, args, -1)

def readPrecision (cursor : Word) (args : ℕ) : Kernel (Word × ℕ × ℤ) := do
  if (← format cursor) = ascii '.' then
    let (cursor, args, precision) ← readAfterPoint format va (cursor + 1) args
    return (cursor, args, if precision < 0 then 0 else precision)
  else
    return (cursor, args, -1)

def skipQualifier (cursor : Word) : Kernel Word := do
  if isQualifier (← format cursor) then return cursor + 1 else return cursor

/-- The switch on the conversion character, at which the cursor is. -/
def convert (x : Printing) (f : Field) : Kernel Printing := do
  let c ← format x.format
  let next := { x with args := x.args + 1 }
  match conversionOf c with
  | .char => return { next with str := putChar x.str ((va x.args).setWidth 8) f }
  | .string => return { next with str := ← putString x.str (chars (va x.args)) f }
  | .octal => return { next with str := ← putNumber x.str (va x.args) 8 f }
  | .pointer =>
    let f :=
      if f.fieldWidth = -1 then
        { f with fieldWidth := 8, flags := { f.flags with zeropad := true } }
      else
        f
    return { next with str := ← putNumber x.str (va x.args) 16 f }
  | .hexLower =>
    let f := { f with flags := { f.flags with small := true } }
    return { next with str := ← putNumber x.str (va x.args) 16 f }
  | .hexUpper => return { next with str := ← putNumber x.str (va x.args) 16 f }
  | .int =>
    let f := { f with flags := { f.flags with sign := true } }
    return { next with str := ← putNumber x.str (va x.args) 10 f }
  | .unsigned => return { next with str := ← putNumber x.str (va x.args) 10 f }
  | .binary => return { next with str := ← putNumber x.str (va x.args) 2 f }
  | .count => return { next with stored := x.stored ++ [(va x.args, x.str.length)] }
  | .other =>
    let str := if c ≠ ascii '%' then x.str ++ [ascii '%'] else x.str
    if c ≠ 0 then
      return { x with str := str ++ [c] }
    else
      return { x with str := str, format := x.format - 1 }

/-- One round of the loop, with the `++format` behind it. -/
def vsprintfRound (x : Printing) : Kernel Printing := do
  let c ← format x.format
  if c ≠ ascii '%' then
    return { x with str := x.str ++ [c], format := x.format + 1 }
  else
    let (cursor, flags) ← readFlags format roundLimit x.format noFlags
    let (cursor, args, flags, fieldWidth) ← readFieldWidth format va cursor x.args flags
    let (cursor, args, precision) ← readPrecision format va cursor args
    let cursor ← skipQualifier format cursor
    let x ← convert format chars va { x with format := cursor, args := args }
      ⟨flags, fieldWidth, precision⟩
    return { x with format := x.format + 1 }

/-- What a call leaves behind: the buffer, the return value, how many arguments were taken, and the
stores of `%n`. -/
structure Printed where
  buff : List Byte
  length : ℕ
  args : ℕ
  stored : List (Word × ℕ)

def vsprintf : Kernel Printed := do
  let x ← whileM .hang (fun x : Printing => notNul format x.format) (vsprintfRound format chars va)
    roundLimit ⟨0, [], 0, []⟩
  return ⟨x.str ++ [0], x.str.length, x.args, x.stored⟩

end Format

/-! ## `printk` -/

/-- The size of the buffers of `printk` and `printk_color`. -/
def buffSize : ℕ := 1024

/-- `printk` up to the call of `console_write`. -/
def printk (format : Chars) (va : ℕ → Word) : Kernel Printed := do
  let out ← vsprintf format charsAt va
  return { out with buff := out.buff.set out.length 0 }

/-- `printk_color` up to the call of `console_write_color`, which alone looks at the colours. -/
def printkColor (format : Chars) (va : ℕ → Word) : Kernel Printed := do
  let out ← vsprintf format charsAt va
  return { out with buff := out.buff.set out.length 0 }

end SimpleKernel
