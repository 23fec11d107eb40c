import Mathlib.Data.List.ReduceOption
import SimpleKernel.Lib.Numeral
import SimpleKernel.Machine

/-!
# Printing integers

`number` of `printk.c`.  An `int` is an integer here, since C leaves overflow of it undefined; only
`num`, which is read both signed and unsigned, is a word.  The string that is written to is the list
of its characters so far, so `str` stands for its last address.
-/

namespace SimpleKernel

def ascii (c : Char) : Byte := BitVec.ofNat 8 c.toNat

/-- The bits of `flags`. -/
structure Flags where
  zeropad : Bool
  sign : Bool
  plus : Bool
  space : Bool
  left : Bool
  special : Bool
  small : Bool
  deriving DecidableEq, Repr

/-- `flags = 0`. -/
def noFlags : Flags := ⟨false, false, false, false, false, false, false⟩

/-! ## `printk.c` -/

/-- The digits 10 to 35. -/
def upperDigits : List Char :=
  ['A', 'B', 'C', 'D', 'E', 'F', 'G', 'H', 'I', 'J', 'K', 'L', 'M', 'N', 'O', 'P', 'Q', 'R', 'S',
    'T', 'U', 'V', 'W', 'X', 'Y', 'Z']

def lowerDigits : List Char :=
  ['a', 'b', 'c', 'd', 'e', 'f', 'g', 'h', 'i', 'j', 'k', 'l', 'm', 'n', 'o', 'p', 'q', 'r', 's',
    't', 'u', 'v', 'w', 'x', 'y', 'z']

/-- The string `digits`. -/
def digitTable (small : Bool) : List Byte :=
  (['0', '1', '2', '3', '4', '5', '6', '7', '8', '9'] ++
    if small then lowerDigits else upperDigits).map ascii

/-- `do_div`: what it leaves in `n`, and the remainder that it gives. -/
def doDiv (n base : Word) : Word × Word := (n / base, n % base)

/-- `while (low < n--) *str++ = c;`, with `str` and `n` behind the loop. -/
def fill (c : Byte) (low n : ℤ) (str : List Byte) : List Byte × ℤ :=
  if low < n then fill c low (n - 1) (str ++ [c]) else (str, n - 1)
termination_by (n - low).toNat

/-- `while (num != 0) tmp[i++] = digits[do_div(num, base)];`, with `tmp` behind the loop. -/
def digitLoop (digits : List Byte) (base : Word) (hb : 2 ≤ base.toNat) (num : Word)
    (tmp : List Byte) : List Byte :=
  if num = 0 then
    tmp
  else
    digitLoop digits base hb (doDiv num base).1 (tmp ++ [digits.getD (doDiv num base).2.toNat 0])
termination_by num.toNat
decreasing_by
  rename_i h
  have pos : 0 < num.toNat := Nat.pos_of_ne_zero fun h' => h (BitVec.eq_of_toNat_eq h')
  rw [doDiv, BitVec.toNat_udiv]
  exact Nat.div_lt_self pos (by omega)

/-- `while (i-- > 0) *str++ = tmp[i];` -/
def copyDown (tmp : List Byte) : ℕ → List Byte → List Byte
  | 0, str => str
  | i + 1, str => copyDown tmp i (str ++ [tmp.getD i 0])

/-- The sign, 0 for none, and what is left to print. -/
def takeSign (num : Word) (type : Flags) : Byte × Word :=
  if type.sign && num.slt 0 then
    (ascii '-', -num)
  else
    (if type.plus then ascii '+' else if type.space then ascii ' ' else 0, num)

/-- The width behind the sign and the prefix. -/
def sizeLeft (sign : Byte) (base size : ℤ) (type : Flags) : ℤ :=
  let size := if sign ≠ 0 then size - 1 else size
  if type.special then
    if base = 16 then size - 2 else if base = 8 then size - 1 else size
  else
    size

/-- The digits in `tmp`. -/
def tmpDigits (digits : List Byte) (base : ℤ) (hb : 2 ≤ base ∧ base ≤ 36) (num : Word) :
    List Byte :=
  if num = 0 then
    [ascii '0']
  else
    digitLoop digits (BitVec.ofInt 32 base) (by
      rw [BitVec.toNat_ofInt, Int.emod_eq_of_lt (by omega) (by omega)]
      omega) num []

/-- The last part of `number`, which writes. -/
def layOut (str digits tmp : List Byte) (sign : Byte) (base size precision : ℤ) (type : Flags) :
    List Byte :=
  let c := if type.zeropad then ascii '0' else ascii ' '
  let (str, size) :=
    if !type.zeropad && !type.left then fill (ascii ' ') 0 size str else (str, size)
  let str := if sign ≠ 0 then str ++ [sign] else str
  let str :=
    if type.special then
      if base = 8 then
        str ++ [ascii '0']
      else if base = 16 then
        str ++ [ascii '0'] ++ [digits.getD 33 0]
      else
        str
    else
      str
  let (str, size) := if !type.left then fill c 0 size str else (str, size)
  let str := (fill (ascii '0') tmp.length precision str).1
  let str := copyDown tmp tmp.length str
  (fill (ascii ' ') 0 size str).1

/-- `number`, with `none` for the return of 0. -/
def number (str : List Byte) (num : Word) (base size precision : ℤ) (type : Flags) :
    Option (List Byte) :=
  let digits := digitTable type.small
  let type := if type.left then { type with zeropad := false } else type
  if h : base < 2 ∨ base > 36 then
    none
  else
    let (sign, num) := takeSign num type
    let size := sizeLeft sign base size type
    let tmp := tmpDigits digits base (by omega) num
    let precision := if tmp.length > precision then (tmp.length : ℤ) else precision
    let size := size - precision
    some (layOut str digits tmp sign base size precision type)

/-! ## The loops -/

theorem fill_eq (c : Byte) (low n : ℤ) (str : List Byte) :
    fill c low n str = (str ++ List.replicate (n - low).toNat c, min n low - 1) := by
  induction n, str using fill.induct c low with
  | case1 n str more ih =>
    have count : (n - low).toNat = (n - 1 - low).toNat + 1 := by omega
    rw [fill, if_pos more, ih, count, List.replicate_succ, List.append_assoc,
      List.singleton_append]
    congr 1
    omega
  | case2 n str done =>
    have count : (n - low).toNat = 0 := by omega
    rw [fill, if_neg done, count, List.replicate_zero, List.append_nil]
    congr 1
    omega

theorem digitLoop_eq (digits : List Byte) {base : Word} (hb : 2 ≤ base.toNat) (num : Word)
    (tmp : List Byte) : digitLoop digits base hb num tmp =
      tmp ++ (base.toNat.digits num.toNat).map fun d => digits.getD d 0 := by
  induction num, tmp using digitLoop.induct digits base hb with
  | case1 tmp => simp [digitLoop]
  | case2 num tmp more ih =>
    have nonzero : num.toNat ≠ 0 := fun h => more (BitVec.eq_of_toNat_eq h)
    have quotient : (doDiv num base).1.toNat = num.toNat / base.toNat := BitVec.toNat_udiv
    have remainder : (doDiv num base).2.toNat = num.toNat % base.toNat := BitVec.toNat_umod
    rw [digitLoop, if_neg more, ih, quotient, remainder,
      Nat.digits_def' (by omega) (Nat.pos_of_ne_zero nonzero), List.map_cons, List.append_assoc,
      List.singleton_append]

theorem copyDown_eq (tmp str : List Byte) :
    copyDown tmp tmp.length str = str ++ tmp.reverse := by
  suffices upTo : ∀ i ≤ tmp.length, ∀ str, copyDown tmp i str = str ++ (tmp.take i).reverse by
    rw [upTo _ le_rfl, List.take_length]
  intro i
  induction i with
  | zero => simp [copyDown]
  | succ i ih =>
    intro hi str
    rw [copyDown, ih (by omega), List.append_assoc, List.getD_eq_getElem _ _ (by omega),
      List.take_succ_eq_append_getElem (by omega), List.reverse_append, List.reverse_singleton]

/-! ## What is printed -/

section Field

open Numeral

/-- The number is printed with a minus. -/
def Negative (num : Word) (type : Flags) : Prop := type.sign = true ∧ num.toInt < 0

instance (num : Word) (type : Flags) : Decidable (Negative num type) :=
  inferInstanceAs (Decidable (_ ∧ _))

/-- The unsigned value, or the absolute one behind a minus. -/
def magnitude (num : Word) (type : Flags) : ℕ :=
  if Negative num type then num.toInt.natAbs else num.toNat

def signText (num : Word) (type : Flags) : List Byte :=
  if Negative num type then
    [ascii '-']
  else if type.plus then
    [ascii '+']
  else if type.space then
    [ascii ' ']
  else
    []

def specialText (base : ℤ) (type : Flags) : List Byte :=
  if type.special then
    if base = 8 then
      [ascii '0']
    else if base = 16 then
      [ascii '0', if type.small then ascii 'x' else ascii 'X']
    else
      []
  else
    []

def digitText (num : Word) (base : ℤ) (type : Flags) : List Byte :=
  (numeral base.toNat (magnitude num type)).map fun d => (digitTable type.small).getD d 0

/-- The length of the number without padding. -/
def unpaddedLength (num : Word) (base precision : ℤ) (type : Flags) : ℤ :=
  (signText num type).length + (specialText base type).length +
    max precision (digitText num base type).length

def padding (num : Word) (base size precision : ℤ) (type : Flags) : ℕ :=
  (size - unpaddedLength num base precision type).toNat

def leftSpaces (num : Word) (base size precision : ℤ) (type : Flags) : ℕ :=
  if type.left ∨ type.zeropad then 0 else padding num base size precision type

def zeros (num : Word) (base size precision : ℤ) (type : Flags) : ℕ :=
  (if type.zeropad ∧ ¬ type.left then padding num base size precision type else 0) +
    (precision - (digitText num base type).length).toNat

def rightSpaces (num : Word) (base size precision : ℤ) (type : Flags) : ℕ :=
  if type.left then padding num base size precision type else 0

/-- The characters that `number` appends. -/
def numberText (num : Word) (base size precision : ℤ) (type : Flags) : List Byte :=
  List.replicate (leftSpaces num base size precision type) (ascii ' ') ++ signText num type ++
    specialText base type ++
    List.replicate (zeros num base size precision type) (ascii '0') ++ digitText num base type ++
    List.replicate (rightSpaces num base size precision type) (ascii ' ')

variable {num : Word} {base size precision : ℤ} {type : Flags}

theorem minus_iff : (type.sign && num.slt 0) = true ↔ Negative num type := by
  rw [Bool.and_eq_true, BitVec.slt_iff_toInt_lt]
  rfl

theorem takeSign_fst : signText num type =
    if (takeSign num type).1 ≠ 0 then [(takeSign num type).1] else [] := by
  unfold signText takeSign
  by_cases minus : Negative num type
  · rw [if_pos minus, if_pos (minus_iff.2 minus)]
    rfl
  · rw [if_neg minus, if_neg (mt minus_iff.1 minus)]
    cases type.plus <;> cases type.space <;> rfl

theorem takeSign_snd : (takeSign num type).2.toNat = magnitude num type := by
  unfold takeSign magnitude
  by_cases minus : Negative num type
  · rw [if_pos minus, if_pos (minus_iff.2 minus)]
    have below : num.toInt < 0 := minus.2
    have high := BitVec.toInt_neg_iff.1 below
    have word := BitVec.toInt_eq_toNat_cond num
    rw [if_neg (by omega)] at word
    show (-num).toNat = _
    rw [BitVec.toNat_neg]
    omega
  · rw [if_neg minus, if_neg (mt minus_iff.1 minus)]

theorem sizeLeft_eq : sizeLeft (takeSign num type).1 base size type =
    size - (signText num type).length - (specialText base type).length := by
  have sign : (if (takeSign num type).1 ≠ 0 then size - 1 else size) =
      size - (signText num type).length := by
    rw [takeSign_fst]
    split_ifs
    · rfl
    · exact (sub_zero size).symm
  have length : ((specialText base type).length : ℤ) =
      if type.special then if base = 16 then 2 else if base = 8 then 1 else 0 else 0 := by
    unfold specialText
    split_ifs <;> first | rfl | omega
  rw [sizeLeft, sign, length]
  show (if type.special then _ else _) = _
  split_ifs <;> omega

theorem tmpDigits_eq (hb : 2 ≤ base ∧ base ≤ 36) :
    tmpDigits (digitTable type.small) base hb (takeSign num type).2 =
      (digitText num base type).reverse := by
  have word : (BitVec.ofInt 32 base).toNat = base.toNat := by
    rw [BitVec.toNat_ofInt, Int.emod_eq_of_lt (by omega) (by omega)]
  unfold tmpDigits digitText numeral
  by_cases zero : (takeSign num type).2 = 0
  · have none : magnitude num type = 0 := by rw [← takeSign_snd, zero]; rfl
    rw [if_pos zero, if_pos none]
    cases type.small <;> rfl
  · have some : magnitude num type ≠ 0 := fun h =>
      zero (BitVec.eq_of_toNat_eq (by rw [takeSign_snd, h]; rfl))
    rw [if_neg zero, if_neg some, digitLoop_eq, word, takeSign_snd, List.map_reverse,
      List.reverse_reverse, List.nil_append]

theorem layOut_eq (str digits tmp : List Byte) (sign : Byte) (base size precision : ℤ)
    (type : Flags) (excl : type.left → type.zeropad = false) :
    layOut str digits tmp sign base size precision type =
      str ++ List.replicate (if type.left ∨ type.zeropad then 0 else size.toNat) (ascii ' ') ++
        (if sign ≠ 0 then [sign] else []) ++
        (if type.special then
          if base = 8 then [ascii '0'] else if base = 16 then [ascii '0', digits.getD 33 0] else []
        else []) ++
        List.replicate ((if type.zeropad then size.toNat else 0) + (precision - tmp.length).toNat)
          (ascii '0') ++ tmp.reverse ++
        List.replicate (if type.left then size.toNat else 0) (ascii ' ') := by
  have special (s : List Byte) : (if type.special then
        if base = 8 then
          s ++ [ascii '0']
        else if base = 16 then
          s ++ [ascii '0'] ++ [digits.getD 33 0]
        else
          s
      else
        s) = s ++ (if type.special then
          if base = 8 then [ascii '0'] else if base = 16 then [ascii '0', digits.getD 33 0] else []
        else []) := by
    split_ifs <;> simp
  have signed (s : List Byte) :
      (if sign ≠ 0 then s ++ [sign] else s) = s ++ (if sign ≠ 0 then [sign] else []) := by
    split_ifs <;> simp
  have spent : (min size 0 - 1).toNat = 0 := by omega
  simp only [layOut, special, signed, fill_eq, copyDown_eq, sub_zero]
  cases left : type.left
  · cases zeropad : type.zeropad
    · simp [spent]
    · simp [spent]
  · simp [excl left]

/-- What is written if `LEFT` has cleared `ZEROPAD`. -/
theorem layOut_takeSign (str : List Byte) (hb : 2 ≤ base ∧ base ≤ 36)
    (excl : type.left → type.zeropad = false) :
    layOut str (digitTable type.small)
        (tmpDigits (digitTable type.small) base hb (takeSign num type).2) (takeSign num type).1 base
        (sizeLeft (takeSign num type).1 base size type -
          max precision (digitText num base type).length)
        (max precision (digitText num base type).length) type =
      str ++ numberText num base size precision type := by
  have table : (digitTable type.small).getD 33 0 =
      if type.small then ascii 'x' else ascii 'X' := by cases type.small <;> rfl
  have room : sizeLeft (takeSign num type).1 base size type -
      max precision (digitText num base type).length =
        size - unpaddedLength num base precision type := by
    rw [sizeLeft_eq, unpaddedLength]
    omega
  have more : (max precision (digitText num base type).length -
      ((digitText num base type).reverse.length : ℤ)).toNat =
        (precision - (digitText num base type).length).toNat := by
    rw [List.length_reverse]
    omega
  rw [layOut_eq _ _ _ _ _ _ _ _ excl, tmpDigits_eq, table, room, more, ← takeSign_fst,
    List.reverse_reverse]
  simp only [numberText, leftSpaces, zeros, rightSpaces, padding, List.append_assoc]
  cases left : type.left
  · simp only [Bool.false_eq_true, not_false_eq_true, and_true, false_or]
    rfl
  · simp only [excl left, Bool.false_eq_true, false_and, if_false]
    rfl

/-- `number` appends the text of the number. -/
theorem number_eq (str : List Byte) (hb : 2 ≤ base ∧ base ≤ 36) :
    number str num base size precision type =
      some (str ++ numberText num base size precision type) := by
  have longer (t : Flags) : (if ((tmpDigits (digitTable t.small) base hb
      (takeSign num t).2).length : ℤ) > precision then
        ((tmpDigits (digitTable t.small) base hb (takeSign num t).2).length : ℤ) else precision) =
          max precision (digitText num base t).length := by
    rw [tmpDigits_eq, List.length_reverse]
    split_ifs <;> omega
  have written (t : Flags) (small : t.small = type.small) (excl : t.left → t.zeropad = false)
      (clear : (if type.left then { type with zeropad := false } else type) = t)
      (same : numberText num base size precision t = numberText num base size precision type) :
      number str num base size precision type =
        some (str ++ numberText num base size precision type) := by
    unfold number
    rw [dif_neg (by omega)]
    simp only [clear]
    rw [← small, longer, layOut_takeSign str hb excl, same]
  cases left : type.left
  · exact written type rfl (by simp [left]) (by simp [left]) rfl
  · refine written { type with zeropad := false } rfl (fun _ => rfl) (by simp [left]) ?_
    simp only [numberText, leftSpaces, zeros, rightSpaces, left]
    simp
    rfl

/-- Every number has at most 32 digits, so `tmp` is large enough. -/
theorem digitText_length_le (hb : 2 ≤ base) : (digitText num base type).length ≤ 32 := by
  have small : magnitude num type < 2 ^ 32 := by
    rw [← takeSign_snd]
    exact BitVec.isLt _
  have power : 2 ^ 32 ≤ base.toNat ^ 32 := Nat.pow_le_pow_left (by omega) 32
  rw [digitText, List.length_map]
  exact numeral_length_le (by omega) (by omega) (by omega)

theorem numberText_length : ((numberText num base size precision type).length : ℤ) =
    max size (unpaddedLength num base precision type) := by
  have pad : (padding num base size precision type : ℤ) =
      max (size - unpaddedLength num base precision type) 0 := Int.toNat_eq_max _
  have more : ((precision - (digitText num base type).length).toNat : ℤ) =
      max (precision - (digitText num base type).length) 0 := Int.toNat_eq_max _
  have room : unpaddedLength num base precision type =
      (signText num type).length + (specialText base type).length +
        max precision (digitText num base type).length := rfl
  simp only [numberText, leftSpaces, zeros, rightSpaces, List.length_append, List.length_replicate]
  push_cast
  cases type.left <;> cases type.zeropad <;> simp <;> omega

end Field

/-! ## Reading a number back -/

section ReadBack

open Numeral

/-- The digit that a character stands for in base `base`. -/
def digitOf (base : ℕ) (c : Byte) : Option ℕ :=
  let d := c.toNat
  let value :=
    if 48 ≤ d ∧ d ≤ 57 then some (d - 48)
    else if 65 ≤ d ∧ d ≤ 90 then some (d - 55)
    else if 97 ≤ d ∧ d ≤ 122 then some (d - 87)
    else none
  value.filter (· < base)

/-- The number that the digits at the beginning of the text denote. -/
def readDigits (base : ℕ) (text : List Byte) : ℕ :=
  value base ((text.map (digitOf base)).takeWhile Option.isSome).reduceOption

/-- Skip a `0x`. -/
def skipSpecial (base : ℕ) (text : List Byte) : List Byte :=
  match text with
  | _ :: x :: rest => if base = 16 ∧ (x = ascii 'x' ∨ x = ascii 'X') then rest else text
  | text => text

/-- The number that the text shows, behind spaces and a sign. -/
def readNumber (base : ℕ) (text : List Byte) : Word :=
  match text.dropWhile (· = ascii ' ') with
  | [] => 0
  | c :: rest =>
    if c = ascii '-' then
      -BitVec.ofNat 32 (readDigits base (skipSpecial base rest))
    else if c = ascii '+' then
      BitVec.ofNat 32 (readDigits base (skipSpecial base rest))
    else
      BitVec.ofNat 32 (readDigits base (skipSpecial base (c :: rest)))

variable {num : Word} {base : ℕ} {size precision : ℤ} (type : Flags)

/-- The character of a digit. -/
def digitChar (small : Bool) (d : ℕ) : Byte := (digitTable small).getD d 0

theorem digitOf_digitChar (small : Bool) {d : ℕ} (hb : base ≤ 16) (hd : d < base) :
    digitOf base (digitChar small d) = some d := by
  have all : ∀ small, ∀ d < 16, digitOf 16 (digitChar small d) = some d := by decide
  have sixteen := all small d (by omega)
  unfold digitOf at sixteen ⊢
  rw [Option.filter_eq_some_iff] at sixteen ⊢
  exact ⟨sixteen.1, decide_eq_true hd⟩

theorem digitOf_eq_none (hb : base ≤ 16) {c : Byte}
    (hc : c ∈ [' ', '-', '+', 'x', 'X'].map ascii) : digitOf base c = none := by
  have all : ∀ c ∈ [' ', '-', '+', 'x', 'X'].map ascii, digitOf 16 c = none := by decide
  have sixteen := all c hc
  unfold digitOf at sixteen ⊢
  rw [Option.filter_eq_none_iff] at sixteen ⊢
  intro d hd
  have := sixteen d hd
  rw [decide_eq_true_iff] at this ⊢
  omega

/-- A digit is none of the other characters of a number. -/
theorem digitChar_ne (small : Bool) {d : ℕ} (hb : base ≤ 16) (hd : d < base) {c : Byte}
    (hc : c ∈ [' ', '-', '+', 'x', 'X'].map ascii) : digitChar small d ≠ c := by
  rintro rfl
  have digit := digitOf_digitChar small hb hd
  rw [digitOf_eq_none hb hc] at digit
  cases digit

theorem reduceOption_map_some (ds : List ℕ) : (ds.map some).reduceOption = ds := by
  induction ds with
  | nil => rfl
  | cons d ds ih => rw [List.map_cons, List.reduceOption_cons_of_some, ih]

section Text

variable (small : Bool) (hb : base ≤ 16) {ds : List ℕ} (hds : ∀ d ∈ ds, d < base) (spaces : ℕ)
include hb hds

theorem readDigits_digitChars :
    readDigits base (ds.map (digitChar small) ++ List.replicate spaces (ascii ' ')) =
      value base ds := by
  have digits : (ds.map (digitChar small)).map (digitOf base) = ds.map some := by
    rw [List.map_map]
    exact List.map_congr_left fun d hd => digitOf_digitChar small hb (hds d hd)
  have rest : (List.replicate spaces (ascii ' ')).map (digitOf base) =
      List.replicate spaces none := by
    rw [List.map_replicate, digitOf_eq_none hb (by decide)]
  rw [readDigits, List.map_append, digits, rest, List.takeWhile_append_of_pos]
  · have stop : (List.replicate spaces (none : Option ℕ)).takeWhile Option.isSome = [] := by
      cases spaces <;> rfl
    rw [stop, List.append_nil, reduceOption_map_some]
  · intro o ho
    obtain ⟨d, -, rfl⟩ := List.mem_map.1 ho
    rfl

/-- There is nothing to skip in front of digits. -/
theorem skipSpecial_digitChars :
    skipSpecial base (ds.map (digitChar small) ++ List.replicate spaces (ascii ' ')) =
      ds.map (digitChar small) ++ List.replicate spaces (ascii ' ') := by
  have other {a x : Byte} {rest : List Byte} (hx : x ≠ ascii 'x' ∧ x ≠ ascii 'X') :
      skipSpecial base (a :: x :: rest) = a :: x :: rest :=
    if_neg fun h => h.2.elim hx.1 hx.2
  cases ds with
  | nil =>
    rcases spaces with _ | _ | spaces
    · rfl
    · rfl
    · exact other (by decide)
  | cons d ds =>
    cases ds with
    | nil =>
      cases spaces with
      | zero => rfl
      | succ spaces => exact other (by decide)
    | cons e ds =>
      have he : e < base := hds e (by simp)
      exact other ⟨digitChar_ne small hb he (by decide), digitChar_ne small hb he (by decide)⟩

end Text

/-- Behind the sign there is the value. -/
theorem readDigits_skipSpecial (hb : base ≤ 16) (pos : 0 < base) {ds : List ℕ}
    (hds : ∀ d ∈ ds, d < base) (spaces : ℕ) :
    readDigits base (skipSpecial base (specialText base type ++
      (ds.map (digitChar type.small) ++ List.replicate spaces (ascii ' ')))) = value base ds := by
  unfold specialText
  by_cases special : type.special
  · rw [if_pos special]
    by_cases octal : (base : ℤ) = 8
    · have zero : ascii '0' = digitChar type.small 0 := by cases type.small <;> rfl
      have hds' : ∀ d ∈ 0 :: ds, d < base := by
        intro d hd
        rcases List.mem_cons.1 hd with rfl | hd
        · exact pos
        · exact hds d hd
      have more := value_zeros_append (b := base) 1 ds
      rw [if_pos octal, zero, List.singleton_append, ← List.cons_append, ← List.map_cons,
        skipSpecial_digitChars _ hb hds', readDigits_digitChars _ hb hds']
      exact more
    · rw [if_neg octal]
      by_cases hex : (base : ℤ) = 16
      · have skipped : ∀ text : List Byte, skipSpecial base ([ascii '0',
            if type.small then ascii 'x' else ascii 'X'] ++ text) = text := by
          intro text
          refine if_pos ⟨by omega, ?_⟩
          cases type.small
          · exact .inr rfl
          · exact .inl rfl
        rw [if_pos hex, skipped, readDigits_digitChars _ hb hds]
      · rw [if_neg hex, List.nil_append, skipSpecial_digitChars _ hb hds,
          readDigits_digitChars _ hb hds]
  · rw [if_neg special, List.nil_append, skipSpecial_digitChars _ hb hds,
      readDigits_digitChars _ hb hds]

/-- A prefix or a digit comes next. -/
theorem specialText_append_eq_cons (hb : base ≤ 16) {ds : List ℕ} (hds : ∀ d ∈ ds, d < base)
    (some_digit : ds ≠ []) (tail : List Byte) : ∃ c rest,
      specialText base type ++ (ds.map (digitChar type.small) ++ tail) = c :: rest ∧
        c ≠ ascii ' ' ∧ c ≠ ascii '-' ∧ c ≠ ascii '+' := by
  obtain ⟨d, ds, rfl⟩ := List.exists_cons_of_ne_nil some_digit
  have hd : d < base := hds d (by simp)
  unfold specialText
  split_ifs
  · exact ⟨_, _, rfl, by decide, by decide, by decide⟩
  · exact ⟨_, _, rfl, by decide, by decide, by decide⟩
  · exact ⟨_, _, rfl, by decide, by decide, by decide⟩
  · exact ⟨_, _, rfl, digitChar_ne _ hb hd (by decide), digitChar_ne _ hb hd (by decide),
      digitChar_ne _ hb hd (by decide)⟩
  · exact ⟨_, _, rfl, digitChar_ne _ hb hd (by decide), digitChar_ne _ hb hd (by decide),
      digitChar_ne _ hb hd (by decide)⟩

theorem readNumber_spaces (l : ℕ) (text : List Byte) :
    readNumber base (List.replicate l (ascii ' ') ++ text) = readNumber base text := by
  have skip : (List.replicate l (ascii ' ') ++ text).dropWhile (· = ascii ' ') =
      text.dropWhile (· = ascii ' ') :=
    List.dropWhile_append_of_pos fun c hc => decide_eq_true (List.eq_of_mem_replicate hc)
  rw [readNumber, readNumber, skip]

theorem readNumber_minus (text : List Byte) : readNumber base (ascii '-' :: text) =
    -BitVec.ofNat 32 (readDigits base (skipSpecial base text)) := rfl

theorem readNumber_plus (text : List Byte) : readNumber base (ascii '+' :: text) =
    BitVec.ofNat 32 (readDigits base (skipSpecial base text)) := rfl

theorem readNumber_unsigned {c : Byte} (rest : List Byte)
    (hc : c ≠ ascii ' ' ∧ c ≠ ascii '-' ∧ c ≠ ascii '+') : readNumber base (c :: rest) =
      BitVec.ofNat 32 (readDigits base (skipSpecial base (c :: rest))) := by
  have first : (c :: rest).dropWhile (· = ascii ' ') = c :: rest :=
    List.dropWhile_cons_of_neg (by simpa using hc.1)
  rw [readNumber, first]
  show (if c = ascii '-' then _ else _) = _
  rw [if_neg hc.2.1, if_neg hc.2.2]

/-- The text of a number shows the number. -/
theorem readNumber_numberText (hb : base ≤ 16) (two : 2 ≤ base) :
    readNumber base (numberText num base size precision type) = num := by
  obtain ⟨ds, small, digits, shown⟩ : ∃ ds : List ℕ, (∀ d ∈ ds, d < base) ∧ ds ≠ [] ∧
      value base ds = magnitude num type ∧
      List.replicate (zeros num base size precision type) (ascii '0') ++ digitText num base type =
        ds.map (digitChar type.small) := by
    have zero : ascii '0' = digitChar type.small 0 := by cases type.small <;> rfl
    refine ⟨List.replicate (zeros num base size precision type) 0 ++
      numeral base (magnitude num type), fun d hd => ?_, ?_, ?_, ?_⟩
    · rcases List.mem_append.1 hd with hd | hd
      · rw [List.eq_of_mem_replicate hd]
        omega
      · exact numeral_lt (by omega) hd
    · exact List.append_ne_nil_of_right_ne_nil _ (numeral_ne_nil _ _)
    · rw [value_zeros_append, value_numeral]
    · rw [List.map_append, List.map_replicate, ← zero]
      rfl
  have text : numberText num base size precision type =
      List.replicate (leftSpaces num base size precision type) (ascii ' ') ++
        (signText num type ++ (specialText base type ++ (ds.map (digitChar type.small) ++
          List.replicate (rightSpaces num base size precision type) (ascii ' ')))) := by
    rw [← shown.2]
    simp only [numberText, List.append_assoc]
  have behind := readDigits_skipSpecial type hb (by omega) small
    (rightSpaces num base size precision type)
  obtain ⟨c, rest, front, hc⟩ := specialText_append_eq_cons type hb small digits
    (List.replicate (rightSpaces num base size precision type) (ascii ' '))
  rw [shown.1, front] at behind
  have word := @takeSign_snd num type
  have whole : BitVec.ofNat 32 (magnitude num type) = (takeSign num type).2 := by
    rw [← word, BitVec.ofNat_toNat, BitVec.setWidth_eq]
  rw [text, readNumber_spaces, front]
  unfold signText
  by_cases minus : Negative num type
  · rw [if_pos minus, List.singleton_append, readNumber_minus, behind, whole, takeSign,
      if_pos (minus_iff.2 minus), BitVec.neg_neg]
  · rw [takeSign, if_neg (mt minus_iff.1 minus)] at whole
    rw [if_neg minus]
    split_ifs
    · rw [List.singleton_append, readNumber_plus, behind, whole]
    · rw [← List.replicate_one, readNumber_spaces, readNumber_unsigned _ hc, behind, whole]
    · rw [List.nil_append, readNumber_unsigned _ hc, behind, whole]

/-- `number` in the bases that `vsprintf` asks for: the parts of the text in their order, canonical
digits, enough of them, the exact length, where the padding stands, and the number read back. -/
theorem number_faithful (str : List Byte) (num : Word) (size precision : ℤ) (type : Flags)
    (hb : base = 2 ∨ base = 8 ∨ base = 10 ∨ base = 16) :
    number str num base size precision type =
        some (str ++ (List.replicate (leftSpaces num base size precision type) (ascii ' ') ++
          signText num type ++ specialText base type ++
          List.replicate (zeros num base size precision type) (ascii '0') ++
          digitText num base type ++
          List.replicate (rightSpaces num base size precision type) (ascii ' '))) ∧
      (∃ ds : List ℕ, digitText num base type = ds.map (digitChar type.small) ∧
        value base ds = magnitude num type ∧ (∀ d ∈ ds, d < base) ∧
        (∀ l, ds = 0 :: l → magnitude num type = 0 ∧ l = []) ∧ ds.length ≤ 36) ∧
      precision ≤ zeros num base size precision type + (digitText num base type).length ∧
      ((numberText num base size precision type).length : ℤ) =
        max size ((signText num type).length + (specialText base type).length +
          max precision (digitText num base type).length) ∧
      (type.left → leftSpaces num base size precision type = 0 ∧
        zeros num base size precision type =
          (precision - (digitText num base type).length).toNat) ∧
      (¬ type.left → type.zeropad → leftSpaces num base size precision type = 0 ∧
        rightSpaces num base size precision type = 0) ∧
      (¬ type.left → ¬ type.zeropad → rightSpaces num base size precision type = 0 ∧
        zeros num base size precision type =
          (precision - (digitText num base type).length).toNat) ∧
      readNumber base (numberText num base size precision type) = num := by
  have two : 2 ≤ base := by omega
  have sixteen : base ≤ 16 := by omega
  refine ⟨number_eq str (by omega), ⟨_, rfl, ?_, ?_, ?_, ?_⟩, ?_, numberText_length, ?_, ?_, ?_,
    readNumber_numberText type sixteen two⟩
  · exact value_numeral base (magnitude num type)
  · exact fun d => numeral_lt (by omega)
  · exact fun l => numeral_canonical
  · have few := @digitText_length_le num base type (by omega)
    rw [digitText, List.length_map] at few
    exact few.trans (by omega)
  · rw [zeros]
    omega
  · intro left
    simp [leftSpaces, zeros, left]
  · intro left zeropad
    simp [leftSpaces, rightSpaces, left, zeropad]
  · intro left zeropad
    simp [zeros, rightSpaces, left, zeropad]

theorem number_faithful_minusFive :
    number [] (-5) 10 5 (-1) { noFlags with sign := true } =
        some ([' ', ' ', ' ', '-', '5'].map ascii) ∧
      readNumber 10 ([' ', ' ', ' ', '-', '5'].map ascii) = -5 := by
  have text : numberText (-5) 10 5 (-1) { noFlags with sign := true } =
      [' ', ' ', ' ', '-', '5'].map ascii := by decide +kernel
  obtain ⟨printed, -, -, -, -, -, -, back⟩ := number_faithful [] (-5) 5 (-1)
    { noFlags with sign := true } (.inr (.inr (.inl rfl)) : 10 = 2 ∨ 10 = 8 ∨ 10 = 10 ∨ 10 = 16)
  rw [← text]
  exact ⟨printed, back⟩

end ReadBack

end SimpleKernel
