import SimpleKernel.Machine

/-!
# The text console

`console.c`.  Video memory in text mode is an array of 25 rows of 80 cells, and an access outside
it stops the program.
-/

namespace SimpleKernel

open ProgramLogic

/-- `real_color_t`. -/
inductive RealColor where
  | black | blue | green | cyan | red | magenta | brown | lightGrey
  | darkGrey | lightBlue | lightGreen | lightCyan | lightRed | lightMagenta | lightBrown | white
  deriving DecidableEq, Repr

def RealColor.code (color : RealColor) : Byte := BitVec.ofNat 8 color.ctorIdx

/-- A character in the low byte, its attribute in the high one. -/
abbrev Cell := BitVec 16

/-- Video memory, the cursor, and the registers of the display controller. -/
structure Console where
  videoMemory : ℕ → Cell
  cursorX : Byte
  cursorY : Byte
  crtIndex : Byte
  crtData : Byte → Byte

namespace Console

@[simps -fullyApplied]
def setCell (con : Console) (i : ℕ) (cell : Cell) : Console :=
  { con with videoMemory := Function.update con.videoMemory i cell }

@[simps -fullyApplied]
def setX (con : Console) (x : Byte) : Console := { con with cursorX := x }

@[simps -fullyApplied]
def setY (con : Console) (y : Byte) : Console := { con with cursorY := y }

end Console

/-- An access to `video_memory` outside the screen. -/
structure OffScreen where
  index : ℕ
  deriving DecidableEq, Repr

abbrev Video (α : Type) := Prog Console OffScreen α

def screenSize : ℕ := 80 * 25

def loadCell (i : ℕ) : Video Cell := do
  if i < screenSize then
    return (← get).videoMemory i
  else
    throw ⟨i⟩

def storeCell (i : ℕ) (cell : Cell) : Video Unit := do
  if i < screenSize then
    modify fun con => con.setCell i cell
  else
    throw ⟨i⟩

/-- `outb`, for the two ports of the display controller. -/
def outb (port : BitVec 16) (value : Byte) : Video Unit := modify fun con =>
  if port = 0x3D4 then { con with crtIndex := value }
  else if port = 0x3D5 then { con with crtData := Function.update con.crtData con.crtIndex value }
  else con

def moveCursor : Video Unit := do
  let con ← get
  let location : BitVec 16 := con.cursorY.setWidth 16 * 80 + con.cursorX.setWidth 16
  outb 0x3D4 14
  outb 0x3D5 ((location >>> 8).setWidth 8)
  outb 0x3D4 15
  outb 0x3D5 (location.setWidth 8)

/-- `attribute_byte` and then `attribute`, for these two colours. -/
def charAttribute (back fore : Byte) : Cell := ((back <<< 4) ||| (fore &&& 0x0F)).setWidth 16 <<< 8

/-- `blank`, a space in white on black. -/
def blank : Cell := 0x20 ||| charAttribute 0 15

@[irreducible]
def consoleClear : Video Unit := do
  (List.range (80 * 25)).forM fun i => storeCell i blank
  modify fun con => con.setX 0
  modify fun con => con.setY 0
  moveCursor

def scroll : Video Unit := do
  if (← get).cursorY ≥ 25 then
    (List.range (24 * 80)).forM fun i => do
      storeCell i (← loadCell (i + 80))
    (List.range 80).forM fun i => storeCell (24 * 80 + i) blank
    modify fun con => con.setY 24

/-- The chain of `console_putc_color`.  A `char` is signed. -/
def typeChar (c : Byte) (ink : Cell) : Video Unit := do
  let con ← get
  if c = 0x08 ∧ con.cursorX ≠ 0 then
    modify fun con => con.setX (con.cursorX - 1)
  else if c = 0x09 then
    modify fun con => con.setX ((con.cursorX + 8) &&& ~~~(8 - 1))
  else if c = 0x0D then
    modify fun con => con.setX 0
  else if c = 0x0A then
    modify fun con => con.setX 0
    modify fun con => con.setY (con.cursorY + 1)
  else if BitVec.sle 0x20 c then
    storeCell (con.cursorY.toNat * 80 + con.cursorX.toNat) (c.signExtend 16 ||| ink)
    modify fun con => con.setX (con.cursorX + 1)

/-- `console_putc_color` goes on in the next row. -/
def wrapLine : Video Unit := do
  if (← get).cursorX ≥ 80 then
    modify fun con => con.setX 0
    modify fun con => con.setY (con.cursorY + 1)

def consolePutcColor (c : Byte) (back fore : RealColor) : Video Unit := do
  typeChar c (charAttribute back.code fore.code)
  wrapLine
  scroll
  moveCursor

/-- The string is given by its bytes, which end at the first zero. -/
def consoleWriteColor (cstr : List Byte) (back fore : RealColor) : Video Unit :=
  (cstr.takeWhile (· ≠ 0)).forM fun c => consolePutcColor c back fore

def consoleWrite (cstr : List Byte) : Video Unit :=
  (cstr.takeWhile (· ≠ 0)).forM fun c => consolePutcColor c .black .white

/-! ## Specifications -/

section Specs

variable {E : OffScreen → Console → Prop} {con : Console} {i : ℕ}

theorem loadCell_spec {Q : Cell → Console → Prop} (h : i < 2000) (hQ : Q (con.videoMemory i) con) :
    WP (loadCell i) E Q con := by
  unfold loadCell
  exact wp_ite.2 ⟨fun _ => hQ, fun out => absurd h out⟩

theorem storeCell_spec {cell : Cell} {Q : Unit → Console → Prop} (h : i < 2000)
    (hQ : Q () (con.setCell i cell)) : WP (storeCell i cell) E Q con := by
  unfold storeCell
  exact wp_ite.2 ⟨fun _ => hQ, fun out => absurd h out⟩

/-- The controller shows its cursor at the cell `place`. -/
def PointsAt (con : Console) (place : ℕ) : Prop :=
  (con.crtData 14 ++ con.crtData 15 : BitVec (8 + 8)) = BitVec.ofNat 16 place

theorem halves_append (x : BitVec 16) :
    ((x >>> 8).setWidth 8 ++ x.setWidth 8 : BitVec (8 + 8)) = x := by
  apply BitVec.eq_of_getLsbD_eq
  intro i hi
  simp only [BitVec.getLsbD_append, BitVec.getLsbD_setWidth, BitVec.getLsbD_ushiftRight]
  split_ifs <;> grind

theorem location_eq (x y : Byte) : y.setWidth 16 * 80 + x.setWidth 16 =
    BitVec.ofNat 16 (y.toNat * 80 + x.toNat) := by
  apply BitVec.eq_of_toNat_eq
  rw [BitVec.toNat_add, BitVec.toNat_mul, BitVec.toNat_setWidth, BitVec.toNat_setWidth,
    BitVec.toNat_ofNat, Nat.mod_mul_mod, Nat.mod_add_mod, Nat.add_mod_mod]
  rfl

theorem moveCursor_spec {Q : Unit → Console → Prop}
    (hQ : ∀ index data, PointsAt { con with crtIndex := index, crtData := data }
      (con.cursorY.toNat * 80 + con.cursorX.toNat) →
      Q () { con with crtIndex := index, crtData := data }) :
    WP moveCursor E Q con := by
  refine hQ 15 _ ?_
  rw [PointsAt, ← location_eq]
  exact halves_append _

end Specs

end SimpleKernel
