import SimpleKernel.Reports
import SimpleKernel.StackTrace

/-!
# A panic on the screen

`panic` with its prints: the message, the call stack from the innermost frame outwards, and a line
at the end.  Then the kernel hangs.
-/

namespace SimpleKernel

open ByteStore Numeral ProgramLogic

namespace Display

/-! ## `debug.c` -/

/-- A round of the loop of `print_stack_trace`. -/
def printStackTraceRound (elf : Elf) (ebp : Word) : Screen Word := do
  let eip := ebp + 4
  let name ← onMachine do elfLookupSymbol (← load32 eip) elf
  let address ← onMachine (load32 eip)
  printk (asciiText "  [0x%x] %s\n") [address, name]
  onMachine (load32 ebp)

def printStackTrace (elf : Elf) (ebp : Word) : Screen Unit := do
  let _ ← whileM (.kernel .hang) (fun ebp : Word => return decide (ebp ≠ 0))
    (printStackTraceRound elf) roundLimit ebp

def panic (elf : Elf) (ebp msg : Word) : Screen Unit := do
  printk (asciiText "--------- System panic: %s ---------\n") [msg]
  printStackTrace elf ebp
  printk (asciiText "---------\n") []
  -- `while (1);`
  throw (.kernel .hang)

end Display

/-! ## The lines -/

/-- The line of a frame. -/
def frameLine : Template where
  fields := [(asciiText "  [0x", bare 'x'), (asciiText "] ", bare 's')]
  last := asciiText "\n"
  plain := by decide +kernel
  literal := by
    simp only [List.forall_mem_cons, List.not_mem_nil, false_imp_iff, implies_true, and_true]
    exact ⟨bare_literal (by decide), bare_literal (by decide)⟩
  plainLast := newline_plain

/-- The first line. -/
def panicLine : Template where
  fields := [(asciiText "--------- System panic: ", bare 's')]
  last := asciiText " ---------\n"
  plain := by decide +kernel
  literal := by
    simp only [List.forall_mem_cons, List.not_mem_nil, false_imp_iff, implies_true, and_true]
    exact bare_literal (by decide)
  plainLast := by decide +kernel

theorem frameLine_format : frameLine.format = asciiText "  [0x%x] %s\n" := by decide +kernel

theorem panicLine_format : panicLine.format =
    asciiText "--------- System panic: %s ---------\n" := by decide +kernel

/-- What is shown for a frame with this return address, in a function of this name. -/
def frameText (address : Word) (name : List Byte) : List Byte :=
  asciiText "  [0x" ++ (hexText true address ++ (asciiText "] " ++ (name ++ asciiText "\n")))

theorem frameLine_text (address name : Word) (s : List Byte) :
    frameLine.text (fun _ => s) [address, name] = frameText address s := by
  simp [Template.text, frameLine, Template.fill, print_hex, print_string, Display.argsOf, frameText]

theorem panicLine_text (msg : Word) (s : List Byte) : panicLine.text (fun _ => s) [msg] =
    asciiText "--------- System panic: " ++ (s ++ asciiText " ---------\n") := by
  simp [Template.text, panicLine, Template.fill, print_string]

namespace Display

section Trace

variable {m : Machine} {symtab symtabsz strtab ebp msg : Word} (strtabsz : Option Word)
  {addresses : List Word} {E : DisplayStop → Display → Prop} {d : Display} {t : Terminal}
  {s : List Byte}

theorem frameLine_prints (address : Word) {name : Word} (string : Ahead (charsAt name) m 0 s)
    (fits : s.length ≤ longestName) :
    Prints m (printk (asciiText "  [0x%x] %s\n") [address, name]) [.write (frameText address s)] := by
  have few := hexText_length true address
  have parts : (asciiText "  [0x").length = 5 ∧ (asciiText "] ").length = 2 ∧
      (asciiText "\n").length = 1 := by decide +kernel
  rw [← frameLine_format, ← frameLine_text address name s]
  apply template_prints
  · decide +kernel
  · decide +kernel
  · have taken : Template.pointers (argsOf [address, name]) 0 frameLine.fields = [name] := rfl
    rw [taken]
    simpa using string
  · rw [frameLine_text, frameText]
    simp only [List.length_append, parts]
    unfold longestName at fits
    omega

theorem panicLine_prints (message : Ahead (charsAt msg) m 0 s) (fits : s.length ≤ longestMessage) :
    Prints m (printk (asciiText "--------- System panic: %s ---------\n") [msg])
      [.write (asciiText "--------- System panic: " ++ (s ++ asciiText " ---------\n"))] := by
  have parts : (asciiText "--------- System panic: ").length = 24 ∧
      (asciiText " ---------\n").length = 11 := by decide +kernel
  rw [← panicLine_format, ← panicLine_text msg s]
  apply template_prints
  · decide +kernel
  · decide +kernel
  · have taken : Template.pointers (argsOf [msg]) 0 panicLine.fields = [msg] := rfl
    rw [taken]
    simpa using message
  · rw [panicLine_text]
    simp only [List.length_append, parts]
    unfold longestMessage at fits
    omega

section Known

variable {names : Word → List Byte}
  (readable : ∀ va ∈ symbolReads symtab symtabsz, translate m va ≠ none)
  (known : ∀ a ∈ addresses, Ahead (charsAt (nameIn (symbols m symtab symtabsz) strtab a)) m 0
    (names a) ∧ (names a).length ≤ longestName)
include readable known

/-- A round prints the line of its frame and goes on to the caller's frame. -/
theorem traceRound_prints (mapped : ∀ va ∈ wordBytes ebp ∪ wordBytes (ebp + 4), translate m va ≠ none)
    (innermost : readWord (view m) (ebp + 4) ∈ addresses) (machine : d.machine = m)
    (sim : Simulates d.console t) :
    WP (printStackTraceRound ⟨some symtab, some symtabsz, some strtab, strtabsz⟩ ebp) E
      (fun x d' => x = readWord (view m) ebp ∧ d'.machine = m ∧ Simulates d'.console
        (Output.onTerminal t (.write (frameText (readWord (view m) (ebp + 4))
          (names (readWord (view m) (ebp + 4))))))) d := by
  have eip := load32_returns fun i hi => mapped _ (.inr ⟨i, hi, rfl⟩)
  have next := load32_returns fun i hi => mapped _ (.inl ⟨i, hi, rfl⟩)
  have lookup := @elfLookupSymbol_returns m symtab symtabsz strtab (readWord (view m) (ebp + 4))
    strtabsz readable
  obtain ⟨string, fits⟩ := known _ innermost
  have line := frameLine_prints (readWord (view m) (ebp + 4)) string fits E d t machine sim
  simp only [printStackTraceRound, onMachine, wp_bind, wp_focus, machine]
  apply eip.wp
  apply lookup.wp
  apply eip.wp
  rw [← machine, setMachine_self, setMachine_self, machine]
  refine line.mono fun _ d' shown => ?_
  have back : d'.setMachine m = d' := by
    rw [← shown.1]
    rfl
  rw [shown.1]
  apply next.wp
  rw [back]
  exact ⟨rfl, shown⟩

/-- The trace shows the frames in the order of the chain. -/
theorem traceLoop_prints (chain : EbpChain m ebp addresses) {fuel : ℕ}
    (enough : addresses.length < fuel) (machine : d.machine = m) (sim : Simulates d.console t) :
    WP (whileM (.kernel .hang) (fun ebp : Word => return decide (ebp ≠ 0))
        (printStackTraceRound ⟨some symtab, some symtabsz, some strtab, strtabsz⟩) fuel ebp) E
      (fun _ d' => d'.machine = m ∧ Simulates d'.console
        ((addresses.map fun a => Output.write (frameText a (names a))).foldl Output.onTerminal t)) d := by
  induction chain generalizing fuel d t with
  | nil =>
    obtain ⟨fuel, rfl⟩ := Nat.exists_eq_add_one_of_ne_zero (Nat.ne_zero_of_lt enough)
    rw [whileM, wp_bind, wp_pure]
    exact ⟨machine, sim⟩
  | @cons ebp addresses frame mapped rest ih =>
    obtain ⟨fuel, rfl⟩ := Nat.exists_eq_add_one_of_ne_zero (Nat.ne_zero_of_lt enough)
    have round := traceRound_prints (E := E) strtabsz readable known mapped List.mem_cons_self machine
      sim
    rw [whileM, wp_bind, wp_pure, if_pos (decide_eq_true frame), wp_bind]
    refine round.mono ?_
    rintro _ d' ⟨rfl, machine', sim'⟩
    exact ih (fun a ha => known a (List.mem_cons_of_mem _ ha)) (by simpa using enough) machine' sim'

end Known

end Trace

/-- A panic whose return addresses lie in named functions shows its message and the call stack, the
innermost frame first, and hangs. -/
theorem panic_shown {symtab symtabsz strtab ebp msg : Word} (strtabsz : Option Word)
    {addresses : List Word} {names : Word → List Byte} {s : List Byte} (d : Display)
    (readable : ∀ va ∈ symbolReads symtab symtabsz, translate d.machine va ≠ none)
    (chain : EbpChain d.machine ebp addresses)
    (known : ∀ a ∈ addresses,
      Ahead (charsAt (nameIn (symbols d.machine symtab symtabsz) strtab a)) d.machine 0 (names a) ∧
        (names a).length ≤ longestName)
    (message : Ahead (charsAt msg) d.machine 0 s) (fits : s.length ≤ longestMessage) {t : Terminal}
    (sim : Simulates d.console t) : ∃ d',
      Stops (panic ⟨some symtab, some symtabsz, some strtab, strtabsz⟩ ebp msg) d (.kernel .hang) d' ∧
      d'.machine = d.machine ∧ Simulates d'.console
        (([Output.write (asciiText "--------- System panic: " ++ (s ++ asciiText " ---------\n"))] ++
          ((addresses.map fun a => Output.write (frameText a (names a))) ++
            [Output.write (asciiText "---------\n")])).foldl Output.onTerminal t) := by
  have trace : Prints d.machine
      (printStackTrace ⟨some symtab, some symtabsz, some strtab, strtabsz⟩ ebp)
      (addresses.map fun a => .write (frameText a (names a))) := by
    intro E d' t' machine sim'
    rw [printStackTrace, wp_bind]
    exact traceLoop_prints strtabsz readable known chain chain.length_lt machine sim'
  have last : Prints d.machine (printk (asciiText "---------\n") [])
      [.write (asciiText "---------\n")] :=
    message_prints (.ofText _ (by decide +kernel) (by decide +kernel) (by decide +kernel)) []
  have whole : PrintsAndStops d.machine
      (panic ⟨some symtab, some symtabsz, some strtab, strtabsz⟩ ebp msg) _ _ :=
    (panicLine_prints message fits).bind_stops (trace.bind_stops (last.bind_stops (.throw _)))
  rcases (whole d t rfl sim).outcome with ⟨_, _, _, never⟩ | ⟨e, d', stop, rfl, machine, sim'⟩
  · exact never.elim
  · exact ⟨d', stop, machine, sim'⟩

/-- The name of the only function. -/
theorem traced_main {address : Word} {m : Machine} (traced : Traced address m) :
    Ahead (charsAt 0xC0201004) m 0 (asciiText "main") := by
  have length : (asciiText "main").length = 4 := by decide +kernel
  apply ahead_charsAt (by decide +kernel)
  · have stored : Spells (traceMemory 0) 0x201004 (asciiText "main") := by decide +kernel
    refine stored.congr fun j hj => ?_
    have place : 0xC0201004 + BitVec.ofNat 32 j = 0x201004 + BitVec.ofNat 32 j + pageOffset := by
      unfold pageOffset
      bv_omega
    rw [place]
    exact traced.view_eq (by bv_omega) (by bv_omega)
  · intro j hj
    apply traced.mapped <;> bv_omega

/-- A panic in `main`, with the name of the function as its message. -/
theorem panic_shown_main : ∃ d d',
    Stops (panic ⟨some 0xC0200000, some 16, some 0xC0201000, some 9⟩ 0xC0130F00 0xC0201004) d
      (.kernel .hang) d' ∧ Simulates d'.console
        ([Output.write (asciiText "--------- System panic: main ---------\n"),
          .write (asciiText "  [0xc0100030] main\n"),
          .write (asciiText "---------\n")].foldl Output.onTerminal Terminal.cleared) := by
  obtain ⟨m, traced⟩ := exists_traced 0xC0100030
  obtain ⟨con, sim⟩ := exists_cleared
  have main := traced_main traced
  have name : nameIn (symbols m 0xC0200000 16) 0xC0201000 0xC0100030 = 0xC0201004 := by
    rw [traced.symbols_eq]
    decide
  have short : (asciiText "main").length = 4 := by decide +kernel
  have known : ∀ a ∈ [0xC0100030],
      Ahead (charsAt (nameIn (symbols m 0xC0200000 16) 0xC0201000 a)) m 0 (asciiText "main") ∧
        (asciiText "main").length ≤ longestName := by
    intro a ha
    rw [List.mem_singleton.1 ha, name]
    exact ⟨main, short.trans_le (by decide)⟩
  obtain ⟨d', stop, -, shown⟩ := panic_shown (some 9) ⟨m, con⟩ traced.readable traced.chain known main
    (short.trans_le (by decide)) sim
  have first : asciiText "--------- System panic: " ++ (asciiText "main" ++ asciiText " ---------\n") =
      asciiText "--------- System panic: main ---------\n" := by decide +kernel
  have frame : frameText 0xC0100030 (asciiText "main") = asciiText "  [0xc0100030] main\n" := by
    decide +kernel
  rw [first] at shown
  simp only [List.map_cons, List.map_nil, frame] at shown
  exact ⟨_, d', stop, shown⟩

end Display

end SimpleKernel
