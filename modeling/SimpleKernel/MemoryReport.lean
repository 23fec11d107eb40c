import SimpleKernel.MemoryMap
import SimpleKernel.Reports

/-!
# The memory map on the screen

`show_memory_map` prints a heading and a line for each entry.  No line is as long as a row, so that
each entry has a row of its own, and the line says base, length and type of its entry although the
halves of the 64 bit numbers are printed separately.
-/

namespace SimpleKernel

open ByteStore Numeral ProgramLogic

/-- The format of a line. -/
def Message.memoryEntry : Message where
  fields := [(asciiText "base_addr = 0x", bare 'X'), ([], hex8), (asciiText ", length = 0x", bare 'X'),
    ([], hex8), (asciiText ", type = 0x", bare 'X')]
  last := asciiText "\n"
  plain := by decide +kernel
  plainLast := newline_plain
  numeric := by decide +kernel
  noNul := by decide +kernel
  short := by decide +kernel

theorem Message.memoryEntry_format : memoryEntry.format =
    asciiText "base_addr = 0x%X%08X, length = 0x%X%08X, type = 0x%X\n" := by decide +kernel

/-- The line of an entry. -/
def MmapEntry.text (e : MmapEntry) : List Byte :=
  asciiText "base_addr = 0x" ++ (hexText false (e.word .baseAddrHigh) ++
    (hex8Text (e.word .baseAddrLow) ++ (asciiText ", length = 0x" ++
    (hexText false (e.word .lengthHigh) ++ (hex8Text (e.word .lengthLow) ++
    (asciiText ", type = 0x" ++ hexText false (e.word .type)))))))

namespace MmapEntry

theorem text_eq (e : MmapEntry) : Message.memoryEntry.text e.line = e.text ++ asciiText "\n" := by
  simp [Message.text, Template.text, Message.template, Message.memoryEntry, Template.fill, text, line,
    print_upper, print_hex8, Display.argsOf]

theorem text_printable (e : MmapEntry) : Terminal.Printable e.text := by
  have texts : ∀ s ∈ ["base_addr = 0x", ", length = 0x", ", type = 0x"],
      Terminal.Printable (asciiText s) := by
    unfold Terminal.Printable
    decide +kernel
  have hex (w : Word) := Terminal.hexText_printable false w
  have hex8 (w : Word) := Terminal.hex8Text_printable w
  unfold text
  apply (texts _ (by simp)).append
  apply (hex _).append
  apply (hex8 _).append
  apply (texts _ (by simp)).append
  apply (hex _).append
  apply (hex8 _).append
  apply (texts _ (by simp)).append
  exact hex _

theorem text_length (e : MmapEntry) : e.text.length < 80 := by
  have base : (asciiText "base_addr = 0x").length = 14 := by decide +kernel
  have length : (asciiText ", length = 0x").length = 13 := by decide +kernel
  have type : (asciiText ", type = 0x").length = 11 := by decide +kernel
  have hex (w : Word) := hexText_length false w
  have first := hex (e.word .baseAddrHigh)
  have second := hex (e.word .lengthHigh)
  have third := hex (e.word .type)
  simp only [text, List.length_append, hex8Text_length, base, length, type]
  omega

/-- A line says base, length and type of its entry. -/
theorem text_inj {e e' : MmapEntry} (same : e.text = e'.text) : e.triple = e'.triple := by
  have length : asciiText ", length = 0x" = ascii ',' :: asciiText " length = 0x" := by decide +kernel
  have type : asciiText ", type = 0x" = ascii ',' :: asciiText " type = 0x" := by decide +kernel
  have ends : EndsHex (ascii ',') := by
    unfold EndsHex
    decide
  simp only [text, List.append_cancel_left_eq, length, type, List.cons_append] at same
  obtain ⟨baseHigh, baseLow, behind⟩ := hexText_hex8Text_inj ends ends same
  have behind := List.append_cancel_left (List.cons.inj behind).2
  obtain ⟨lengthHigh, lengthLow, behind⟩ := hexText_hex8Text_inj ends ends behind
  have types := hexText_inj false (List.append_cancel_left (List.cons.inj behind).2)
  rw [triple, triple, baseHigh, baseLow, lengthHigh, lengthLow, types]

end MmapEntry

namespace Display

/-- `show_memory_map`. -/
def showMemoryMap : Screen Unit := do
  let mb := (← get).machine.glbMbootPtr
  let mmapAddr ← onMachine (load32 (mb + MutilbootField.mmapAddr.offset))
  let mmapLength ← onMachine (load32 (mb + MutilbootField.mmapLength.offset))
  printk (asciiText "Memory map: \n") []
  let _ ← whileM (.kernel .hang) (fun mmap : Word => return decide (mmap < mmapAddr + mmapLength))
    (fun mmap => do
      let line ← onMachine (showEntry mmap)
      printk (asciiText "base_addr = 0x%X%08X, length = 0x%X%08X, type = 0x%X\n") line
      return mmap + sizeofMmapEntry) roundLimit mmapAddr

section Prints

variable {m : Machine} {stop a : Word} {fuel : ℕ} {E : DisplayStop → Display → Prop} {d : Display}
  {t : Terminal}

/-- The line for the entry at `a`. -/
def lineOutput (m : Machine) (a : Word) : Output := .write (Message.memoryEntry.text (lineAt m a))

/-- A round prints the line of its entry. -/
theorem showLoop_prints
    (mapped : ∀ b ∈ mapEntries stop fuel a, ∀ x ∈ entryBytes b, translate m x ≠ none)
    (short : (mapEntries stop fuel a).length < fuel) (machine : d.machine = m)
    (sim : Simulates d.console t) :
    WP (whileM (.kernel .hang) (fun mmap : Word => return decide (mmap < stop))
      (fun mmap => do
        let line ← onMachine (showEntry mmap)
        printk (asciiText "base_addr = 0x%X%08X, length = 0x%X%08X, type = 0x%X\n") line
        return mmap + sizeofMmapEntry) fuel a) E (fun _ d' => d'.machine = m ∧ Simulates d'.console
      (((mapEntries stop fuel a).map (lineOutput m)).foldl Output.onTerminal t)) d := by
  induction fuel generalizing a d t with
  | zero => exact absurd short (Nat.not_lt_zero _)
  | succ fuel ih =>
    rw [whileM, wp_bind, wp_pure]
    by_cases more : a < stop
    · simp only [mapEntries, if_pos more, List.map_cons, List.length_cons, List.forall_mem_cons,
        Nat.add_lt_add_iff_right] at mapped short ⊢
      have entry : WP (showEntry a) (fun e t => E (.kernel e) (d.setMachine t))
          (fun line t => line = lineAt m a ∧ t = m) m :=
        showEntry_spec (fun x hx unmapped => absurd unmapped (mapped.1 x hx)) ⟨rfl, rfl⟩
      rw [if_pos (decide_eq_true more), wp_bind, wp_bind, onMachine, wp_focus, machine]
      refine entry.mono ?_
      rintro line u ⟨rfl, rfl⟩
      rw [wp_bind, ← machine, setMachine_self, machine]
      have printed := prints_message .memoryEntry Message.memoryEntry_format (lineAt u a) E d t
        machine sim
      refine printed.mono fun _ d' shown => ?_
      exact ih mapped.2 short shown.1 shown.2
    · simp only [mapEntries, if_neg more, List.map_nil, List.foldl_nil]
      rw [if_neg (by simpa using more)]
      exact ⟨machine, sim⟩

theorem showMemoryMap_prints
    (info : ∀ i < 8, translate m (m.glbMbootPtr + MutilbootField.mmapLength.offset +
      BitVec.ofNat 32 i) ≠ none)
    (mapped : ∀ b ∈ examinedEntries m, ∀ x ∈ entryBytes b, translate m x ≠ none)
    (short : (examinedEntries m).length < roundLimit) : Prints m showMemoryMap
      (.write (asciiText "Memory map: \n") :: (examinedEntries m).map (lineOutput m)) := by
  have heading : Prints m (printk (asciiText "Memory map: \n") [])
      [.write (asciiText "Memory map: \n")] :=
    message_prints (.ofText _ (by decide +kernel) (by decide +kernel) (by decide +kernel)) []
  intro E d t machine sim
  rw [showMemoryMap, wp_bind, wp_get, machine]
  apply Prints.read (load32_info info (.inr rfl)) ?_ E d t machine sim
  apply Prints.read (load32_info info (.inl rfl))
  apply heading.bind
  intro E d t machine sim
  rw [wp_bind]
  exact showLoop_prints mapped short machine sim

end Prints

/-- A memory map whose entries have the size of the struct is shown entry by entry, each in a row of
its own, which says base, length and type. -/
theorem showMemoryMap_shown (d : Display) {es : List MmapEntry} (map : DescribesMap d.machine es)
    (sizes : ∀ e ∈ es, e.word .size = 20) {t : Terminal} (sim : Simulates d.console t)
    (start : t.col = 0) : ∃ d' t', Returns showMemoryMap d () d' ∧ d'.machine = d.machine ∧
      Simulates d'.console t' ∧ t'.row = t.row + 1 + es.length ∧ t'.col = 0 ∧
      t'.HasText .black .white t.row 0 (asciiText "Memory map: ") ∧
      (∀ k e, es[k]? = some e → t'.HasText .black .white (t.row + 1 + k) 0 e.text) ∧
      ∀ e e' : MmapEntry, e.text = e'.text → e.triple = e'.triple := by
  have walked := map.walkedAs sizes
  have fits := map.fits
  have least := le_totalExtent es
  have short : (examinedEntries d.machine).length < roundLimit := by
    have count := congrArg List.length walked.triples
    have limit : roundLimit = 2 ^ 32 := rfl
    rw [List.length_map, List.length_map] at count
    omega
  have mapped : ∀ b ∈ examinedEntries d.machine, ∀ x ∈ entryBytes b,
      translate d.machine x ≠ none := by
    rintro b hb _ ⟨i, hi, rfl⟩
    obtain ⟨low, high⟩ := walked.inside b hb
    have place := toNat_offset (a := b) (i := i) (by omega)
    exact map.mapped _ (by omega) (by omega)
  have lines : (examinedEntries d.machine).map (lineAt d.machine) = es.map MmapEntry.line := by
    have spec : WP SimpleKernel.showMemoryMap (fun _ _ => False)
        (fun out _ => out = (examinedEntries d.machine).map (lineAt d.machine)) d.machine :=
      showMemoryMap_spec map.info (fun b hb x hx unmapped => mapped b hb x hx unmapped)
        (fun long => by omega) rfl
    exact (spec.returned walked.shown).symm
  have newline : asciiText "\n" = [0x0A] := by decide +kernel
  have outputs : (examinedEntries d.machine).map (lineOutput d.machine) =
      es.map fun e => .write (e.text ++ [0x0A]) := by
    have texts := congrArg (List.map fun l => Output.write (Message.memoryEntry.text l)) lines
    simp only [List.map_map, Function.comp_def, MmapEntry.text_eq, newline] at texts
    exact texts
  obtain ⟨⟨⟩, d', run, machine, sim'⟩ :=
    (showMemoryMap_prints map.info mapped short (fun _ _ => False) d t rfl sim).returns
  have heading : asciiText "Memory map: \n" = asciiText "Memory map: " ++ [0x0A] := by decide +kernel
  have shown : (Output.write (asciiText "Memory map: \n") :: (examinedEntries d.machine).map
      (lineOutput d.machine)).foldl Output.onTerminal t =
      (asciiText "Memory map: " :: es.map MmapEntry.text).foldl
        (fun t s => t.puts (s ++ [0x0A]) .black .white) t := by
    rw [outputs, List.foldl_cons, List.foldl_cons, heading, List.foldl_map, List.foldl_map]
    rfl
  have headingPlain : Terminal.Printable (asciiText "Memory map: ") ∧
      (asciiText "Memory map: ").length < 80 := by
    unfold Terminal.Printable
    decide +kernel
  have printable : ∀ s ∈ asciiText "Memory map: " :: es.map MmapEntry.text, Terminal.Printable s := by
    simpa using ⟨headingPlain.1, fun e _ => e.text_printable⟩
  have room : ∀ s ∈ asciiText "Memory map: " :: es.map MmapEntry.text, s.length < 80 := by
    simpa using ⟨headingPlain.2, fun e _ => e.text_length⟩
  obtain ⟨row, col, text, -⟩ := @Terminal.puts_lines t .black .white _ printable room start
  rw [shown] at sim'
  refine ⟨d', _, run, machine, sim', row.trans ?_, col, ?_, fun k e hk => ?_, fun e e' => e.text_inj⟩
  · simp only [List.length_cons, List.length_map]
    omega
  · exact text 0 (Nat.succ_pos _)
  · have small : k < es.length := (List.getElem?_eq_some_iff.1 hk).1
    have this := text (k + 1) (by simpa using small)
    have entry : (asciiText "Memory map: " :: es.map MmapEntry.text).getD (k + 1) [] = e.text := by
      simp [List.getD, hk]
    rw [entry] at this
    rwa [show t.row + 1 + k = t.row + (k + 1) by omega]

/-- An empty region from 0 on, behind a cleared screen. -/
theorem showMemoryMap_shown_single : ∃ d d' t', Returns showMemoryMap d () d' ∧
    Simulates d'.console t' ∧ t'.row = 2 ∧ t'.HasText .black .white 1 0
      (asciiText "base_addr = 0x000000000, length = 0x000000000, type = 0x0") := by
  obtain ⟨m, -, map⟩ := exists_singleEntry 20 (by decide) (by decide)
  obtain ⟨con, sim⟩ := exists_cleared
  obtain ⟨d', t', run, -, sim', row, -, -, lines, -⟩ := showMemoryMap_shown ⟨m, con⟩ map
    (by simp [entryOfSize]) sim rfl
  have line : (entryOfSize 20 (by decide)).text =
      asciiText "base_addr = 0x000000000, length = 0x000000000, type = 0x0" := by decide +kernel
  have text := lines 0 _ rfl
  rw [line] at text
  exact ⟨_, d', t', run, sim', row, text⟩

end Display

end SimpleKernel
