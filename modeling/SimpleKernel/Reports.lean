import SimpleKernel.Interrupts
import SimpleKernel.Screen

/-!
# What the kernel reports

What `page_fault` and `isr_handler` show on the screen.  The lines of `page_fault` say what it was
called for.
-/

namespace SimpleKernel

open ByteStore Numeral ProgramLogic X86

/-- A string literal. -/
@[irreducible]
def asciiText (s : String) : List Byte := s.toList.map ascii

theorem newline_plain : ascii '%' ∉ asciiText "\n" := by decide +kernel

namespace Display

/-! ## `page_fault.c` -/

/-- `regs->f`, read from memory. -/
def regsMember (regs : Word) (f : PtRegsField) : Screen Word := onMachine (load32 (regs + f.offset))

/-- `page_fault`, with what it reads from `cr2`. -/
def pageFault (cr2 regs : Word) : Screen Unit := do
  let eip ← regsMember regs .eip
  printk (asciiText "Page fault at 0x%x, virtual faulting address 0x%x\n") [eip, cr2]
  let errCode ← regsMember regs .errCode
  printk (asciiText "Error code: %x\n") [errCode]
  let errCode ← regsMember regs .errCode
  if errCode &&& 0x1 = 0 then
    printkColor .black .red (asciiText "Because the page wasn't present.\n") []
  let errCode ← regsMember regs .errCode
  if errCode &&& 0x2 ≠ 0 then
    printkColor .black .red (asciiText "Write error.\n") []
  else
    printkColor .black .red (asciiText "Read error.\n") []
  let errCode ← regsMember regs .errCode
  if errCode &&& 0x4 ≠ 0 then
    printkColor .black .red (asciiText "In user mode.\n") []
  else
    printkColor .black .red (asciiText "In kernel mode.\n") []
  let errCode ← regsMember regs .errCode
  if errCode &&& 0x8 ≠ 0 then
    printkColor .black .red (asciiText "Reserved bits being overwritten.\n") []
  let errCode ← regsMember regs .errCode
  if errCode &&& 0x10 ≠ 0 then
    printkColor .black .red (asciiText "The fault occurred during an instruction fetch.\n") []
  -- `while (1);`
  throw (.kernel .hang)

/-! ## `idt.c` -/

/-- `interrupt_handlers[n]`. -/
def interruptHandler (n : Word) : Screen Word := do
  if n.toNat < 256 then
    return (← get).machine.interruptHandlers (n.setWidth 8)
  else
    throw .outside

/-- `isr_handler`; `call` are the functions that addresses point to. -/
def isrHandler (call : Word → Word → Screen Unit) (regs : Word) : Screen Unit := do
  let func ← interruptHandler (← regsMember regs .intNo)
  if func ≠ 0 then
    let func ← interruptHandler (← regsMember regs .intNo)
    call func regs
  else
    let intNo ← regsMember regs .intNo
    printkColor .black .blue (asciiText "Unhandled interrupt: %d\n") [intNo]

end Display

/-! ## Messages -/

namespace Message

def faultAddress : Message where
  fields := [(asciiText "Page fault at 0x", bare 'x'),
    (asciiText ", virtual faulting address 0x", bare 'x')]
  last := asciiText "\n"
  plain := by decide +kernel
  plainLast := newline_plain
  numeric := by decide +kernel
  noNul := by decide +kernel
  short := by decide +kernel

def faultCode : Message where
  fields := [(asciiText "Error code: ", bare 'x')]
  last := asciiText "\n"
  plain := by decide +kernel
  plainLast := newline_plain
  numeric := by decide +kernel
  noNul := by decide +kernel
  short := by decide +kernel

def unhandled : Message where
  fields := [(asciiText "Unhandled interrupt: ", bare 'd')]
  last := asciiText "\n"
  plain := by decide +kernel
  plainLast := newline_plain
  numeric := by decide +kernel
  noNul := by decide +kernel
  short := by decide +kernel

theorem faultAddress_format : faultAddress.format =
    asciiText "Page fault at 0x%x, virtual faulting address 0x%x\n" := by decide +kernel

theorem faultCode_format : faultCode.format = asciiText "Error code: %x\n" := by decide +kernel

theorem unhandled_format : unhandled.format = asciiText "Unhandled interrupt: %d\n" := by decide +kernel

theorem faultAddress_text (eip cr2 : Word) : faultAddress.text [eip, cr2] =
    asciiText "Page fault at 0x" ++ (hexText true eip ++
      (asciiText ", virtual faulting address 0x" ++ (hexText true cr2 ++ asciiText "\n"))) := by
  simp [text, Template.text, template, faultAddress, Template.fill, print_hex, Display.argsOf]

theorem faultCode_text (errCode : Word) : faultCode.text [errCode] =
    asciiText "Error code: " ++ (hexText true errCode ++ asciiText "\n") := by
  simp [text, Template.text, template, faultCode, Template.fill, print_hex, Display.argsOf]

theorem unhandled_text (n : Word) : unhandled.text [n] =
    asciiText "Unhandled interrupt: " ++ (signedText n ++ asciiText "\n") := by
  simp [text, Template.text, template, unhandled, Template.fill, print_signed, Display.argsOf]

end Message

namespace Display

section Prints

variable {m : Machine}

theorem prints_message (M : Message) {format : List Byte} (spelled : M.format = format)
    (args : List Word) : Prints m (printk format args) [.write (M.text args)] :=
  spelled ▸ message_prints M args

theorem prints_coloured (M : Message) {format : List Byte} (spelled : M.format = format)
    (args : List Word) (back fore : RealColor) :
    Prints m (printkColor back fore format args) [.writeColor (M.text args) back fore] :=
  spelled ▸ message_printsColor M args back fore

/-- A text without numbers. -/
theorem prints_text {s : List Byte} (plain : ascii '%' ∉ s) (noNul : 0 ∉ s) (short : s.length < 1024)
    (back fore : RealColor) : Prints m (printkColor back fore s []) [.writeColor s back fore] :=
  message_printsColor (.ofText s plain noNul short) [] back fore

theorem faultAddress_prints (eip cr2 : Word) : Prints m
    (printk (asciiText "Page fault at 0x%x, virtual faulting address 0x%x\n") [eip, cr2])
    [.write (asciiText "Page fault at 0x" ++ (hexText true eip ++
      (asciiText ", virtual faulting address 0x" ++ (hexText true cr2 ++ asciiText "\n"))))] := by
  have shown := prints_message (m := m) .faultAddress Message.faultAddress_format [eip, cr2]
  rwa [Message.faultAddress_text] at shown

theorem faultCode_prints (errCode : Word) : Prints m
    (printk (asciiText "Error code: %x\n") [errCode])
    [.write (asciiText "Error code: " ++ (hexText true errCode ++ asciiText "\n"))] := by
  have shown := prints_message (m := m) .faultCode Message.faultCode_format [errCode]
  rwa [Message.faultCode_text] at shown

/-- A line in red. -/
def redLine (s : String) : List Output := [.writeColor (asciiText s) .black .red]

/-- The lines of `page_fault`. -/
def faultReport (eip cr2 errCode : Word) : List Output :=
  [.write (asciiText "Page fault at 0x" ++ (hexText true eip ++
    (asciiText ", virtual faulting address 0x" ++ (hexText true cr2 ++ asciiText "\n"))))] ++
  ([.write (asciiText "Error code: " ++ (hexText true errCode ++ asciiText "\n"))] ++
  ((if !errCode.getLsbD 0 then redLine "Because the page wasn't present.\n" else []) ++
  ((if errCode.getLsbD 1 then redLine "Write error.\n" else redLine "Read error.\n") ++
  ((if errCode.getLsbD 2 then redLine "In user mode.\n" else redLine "In kernel mode.\n") ++
  ((if errCode.getLsbD 3 then redLine "Reserved bits being overwritten.\n" else []) ++
  ((if errCode.getLsbD 4 then redLine "The fault occurred during an instruction fetch.\n" else []) ++
    []))))))

/-- The lines in red. -/
def redLines : List String :=
  ["Because the page wasn't present.\n", "Write error.\n", "Read error.\n", "In user mode.\n",
    "In kernel mode.\n", "Reserved bits being overwritten.\n",
    "The fault occurred during an instruction fetch.\n"]

theorem redLine_prints {s : String} (known : s ∈ redLines) :
    Prints m (printkColor .black .red (asciiText s) []) (redLine s) := by
  have all : ∀ s ∈ redLines, ascii '%' ∉ asciiText s ∧ 0 ∉ asciiText s ∧
      (asciiText s).length < 1024 := by
    decide +kernel
  obtain ⟨plain, noNul, short⟩ := all s known
  exact prints_text plain noNul short .black .red

/-- How `page_fault` tests a bit of the error code. -/
theorem and_bit_ne_zero (w : Word) (i : Fin 32) :
    w &&& BitVec.twoPow 32 i ≠ 0 ↔ w.getLsbD i = true := by
  have bit : BitVec.twoPow 32 i ≠ 0 := by
    revert i
    decide
  rw [BitVec.and_twoPow]
  split
  next set => exact iff_of_true bit set
  next clear => exact iff_of_false (fun h => h rfl) clear

theorem pageFault_prints {cr2 regs eip errCode : Word}
    (eipAt : Returns (load32 (regs + PtRegsField.eip.offset)) m eip m)
    (errCodeAt : Returns (load32 (regs + PtRegsField.errCode.offset)) m errCode m) :
    PrintsAndStops m (pageFault cr2 regs) (faultReport eip cr2 errCode) (.kernel .hang) := by
  have test := and_bit_ne_zero errCode
  have absent : errCode &&& 0x1 = 0 ↔ (!errCode.getLsbD 0) = true :=
    (not_not.symm.trans (not_congr (test 0))).trans (by simp)
  apply PrintsAndStops.read eipAt
  apply (faultAddress_prints eip cr2).bind_stops
  apply PrintsAndStops.read errCodeAt
  apply (faultCode_prints errCode).bind_stops
  apply PrintsAndStops.read errCodeAt
  apply PrintsAndStops.optional absent (redLine_prints (by decide))
  apply PrintsAndStops.read errCodeAt
  apply PrintsAndStops.either (test 1) (redLine_prints (by decide)) (redLine_prints (by decide))
  apply PrintsAndStops.read errCodeAt
  apply PrintsAndStops.either (test 2) (redLine_prints (by decide)) (redLine_prints (by decide))
  apply PrintsAndStops.read errCodeAt
  apply PrintsAndStops.optional (test 3) (redLine_prints (by decide))
  apply PrintsAndStops.read errCodeAt
  apply PrintsAndStops.optional (test 4) (redLine_prints (by decide))
  exact .throw _

theorem unhandled_prints (n : Word) : Prints m
    (printkColor .black .blue (asciiText "Unhandled interrupt: %d\n") [n])
    [.writeColor (asciiText "Unhandled interrupt: " ++ (signedText n ++ asciiText "\n"))
      .black .blue] := by
  have shown := prints_coloured (m := m) .unhandled Message.unhandled_format [n] .black .blue
  rwa [Message.unhandled_text] at shown

/-- The report says where the fault was, at which address, and its error code. -/
theorem faultReport_inj {eip cr2 errCode eip' cr2' errCode' : Word}
    (same : faultReport eip cr2 errCode = faultReport eip' cr2' errCode') :
    eip = eip' ∧ cr2 = cr2' ∧ errCode = errCode' := by
  have comma : asciiText ", virtual faulting address 0x" =
      ascii ',' :: asciiText " virtual faulting address 0x" := by decide +kernel
  have newline : asciiText "\n" = [ascii '\n'] := by decide +kernel
  have ends : EndsHex (ascii ',') ∧ EndsHex (ascii '\n') := by
    unfold EndsHex
    decide
  simp only [faultReport, List.cons_append, List.nil_append, List.cons.injEq, Output.write.injEq,
    List.append_cancel_left_eq, comma, newline] at same
  obtain ⟨addresses, code, -⟩ := same
  obtain ⟨eip, behind⟩ := hexText_append_inj ends.1 ends.1 addresses
  have behind := List.append_cancel_left (List.cons.inj behind).2
  exact ⟨eip, (hexText_append_inj ends.2 ends.2 behind).1, (hexText_append_inj ends.2 ends.2 code).1⟩

end Prints

end Display

end SimpleKernel
