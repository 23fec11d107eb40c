import SimpleKernel.BufferSize
import SimpleKernel.SwitchOver
import SimpleKernel.Symbols

/-!
# Stack traces

`print_stack_trace` of `debug.c`.  It gives whatever `elf_lookup_symbol` returns to `%s`, so a return
address that lies in no function makes `printk` take the length of a null string.
-/

namespace SimpleKernel

open ByteStore Numeral ProgramLogic

/-! ## `debug.c` -/

/-- The literal `"  [0x%x] %s\n"`. -/
def traceFormat : List Byte :=
  [' ', ' ', '[', '0', 'x', '%', 'x', ']', ' ', '%', 's', '\n'].map ascii

/-- The words behind the format. -/
def traceArgs (address name : Word) : ℕ → Word := consArg address (consArg name fun _ => 0)

/-- A call of `printk`: its two arguments, and what it leaves in its buffer. -/
structure TraceLine where
  address : Word
  name : Word
  text : List Byte

/-- One round of the loop, with `ebp` and the calls of `printk` so far. -/
def printStackTraceRound (elf : Elf) (x : Word × List TraceLine) :
    Kernel (Word × List TraceLine) := do
  let eip := x.1 + 4
  let name ← elfLookupSymbol (← load32 eip) elf
  let address ← load32 eip
  let out ← inBuffer (printk (literal traceFormat) (traceArgs address name))
  return (← load32 x.1, x.2 ++ [⟨address, name, out.buff⟩])

/-- `print_stack_trace` behind its read of `ebp`. -/
def printStackTrace (elf : Elf) (ebp : Word) : Kernel (List TraceLine) := do
  let x ← whileM .hang (fun x => return decide (x.1 ≠ 0)) (printStackTraceRound elf) roundLimit
    (ebp, [])
  return x.2

/-- The literal `"--------- System panic: %s ---------\n"`. -/
def panicFormat : List Byte :=
  "--------- System panic: %s ---------\n".toList.map ascii

/-- The literal `"---------\n"`. -/
def panicEnd : List Byte := "---------\n".toList.map ascii

/-- `panic`, with the `ebp` that `print_stack_trace` reads. -/
def panic (elf : Elf) (ebp msg : Word) : Kernel Unit := do
  let _ ← inBuffer (printk (literal panicFormat) (consArg msg fun _ => 0))
  let _ ← printStackTrace elf ebp
  let _ ← inBuffer (printk (literal panicEnd) fun _ => 0)
  -- `while (1);`
  throw .hang

/-! ## The chain of frames -/

/-- The frame pointers from `ebp` on lead to 0, and the frames have these return addresses. -/
inductive EbpChain (m : Machine) : Word → List Word → Prop
  | nil : EbpChain m 0 []
  | cons {ebp : Word} {addresses : List Word} (frame : ebp ≠ 0)
      (mapped : ∀ va ∈ wordBytes ebp ∪ wordBytes (ebp + 4), translate m va ≠ none)
      (rest : EbpChain m (readWord (view m) ebp) addresses) :
      EbpChain m ebp (readWord (view m) (ebp + 4) :: addresses)

namespace EbpChain

variable {m : Machine} {ebp : Word} {addresses addresses' : List Word}

theorem unique (chain : EbpChain m ebp addresses) (chain' : EbpChain m ebp addresses') :
    addresses = addresses' := by
  induction chain generalizing addresses' with
  | nil =>
    cases chain' with
    | nil => rfl
    | cons frame => exact absurd rfl frame
  | cons frame mapped rest ih =>
    cases chain' with
    | nil => exact absurd rfl frame
    | cons frame' mapped' rest' => rw [ih rest']

/-- Every suffix of the chain is a chain. -/
theorem suffix (chain : EbpChain m ebp addresses) {k : ℕ} (hk : k ≤ addresses.length) :
    ∃ ebp' addresses', EbpChain m ebp' addresses' ∧ addresses'.length = k := by
  induction chain with
  | nil => exact ⟨0, [], .nil, (Nat.le_zero.1 hk).symm⟩
  | @cons ebp addresses frame mapped rest ih =>
    rcases Nat.lt_or_ge addresses.length k with whole | part
    · exact ⟨ebp, _, .cons frame mapped rest, by simp at hk ⊢; omega⟩
    · exact ih part

/-- A frame pointer determines how many frames are left, so no chain has more frames than there are
words. -/
theorem length_lt (chain : EbpChain m ebp addresses) : addresses.length < 2 ^ 32 := by
  have left (k : Fin (addresses.length + 1)) := chain.suffix (Nat.le_of_lt_succ k.isLt)
  choose pointer rest chains lengths using left
  have inj : Function.Injective fun k => (pointer k).toFin := by
    intro i j same
    have meet : pointer i = pointer j := BitVec.eq_of_toFin_eq same
    have suffixes := (chains i).unique (meet ▸ chains j)
    apply Fin.ext
    rw [← lengths i, ← lengths j, suffixes]
  have count := Fintype.card_le_of_injective _ inj
  rw [Fintype.card_fin, Fintype.card_fin] at count
  omega

end EbpChain

/-! ## A line -/

/-- The name of a function can be this long: in a line it comes with at most 16 other characters. -/
def longestName : ℕ := 1007

/-- A message can be this long: its line has 35 characters more. -/
def longestMessage : ℕ := 988

/-- The line for an address with the name `s`. -/
def traceText (address : Word) (s : List Byte) : List Byte :=
  [' ', ' ', '[', '0', 'x'].map ascii ++ (numeral 16 address.toNat).map (digitChar true) ++
    [']', ' '].map ascii ++ s ++ [ascii '\n']

section Line

variable {m : Machine} {address name : Word}

theorem parse_traceFormat : parse traceFormat =
    ([' ', ' ', '[', '0', 'x'].map ascii).map .text ++
      .directive ⟨[], .absent, none, none, some (ascii 'x')⟩ ::
        (([']', ' '].map ascii).map .text ++
          [.directive ⟨[], .absent, none, none, some (ascii 's')⟩, .text (ascii '\n')]) := by
  have first : traceFormat = [' ', ' ', '[', '0', 'x'].map ascii ++
      ascii '%' :: (['x', ']', ' ', '%', 's', '\n'].map ascii) := rfl
  have readHex : takeDirective (['x', ']', ' ', '%', 's', '\n'].map ascii) =
      (⟨[], .absent, none, none, some (ascii 'x')⟩,
        [']', ' '].map ascii ++ ascii '%' :: (['s', '\n'].map ascii)) := by decide
  have readString : takeDirective (['s', '\n'].map ascii) =
      (⟨[], .absent, none, none, some (ascii 's')⟩, [ascii '\n']) := by decide
  rw [first, parse_plain_append (by decide), parse_percent, readHex,
    parse_plain_append (by decide), parse_percent, readString, parse_plain (by decide)]
  rfl

/-- Without a width, `%x` prints the hexadecimal numeral. -/
theorem numberText_hex : numberText address 16 (-1) (-1) { noFlags with small := true } =
    (numeral 16 address.toNat).map (digitChar true) := by
  have plain : ¬ Negative address { noFlags with small := true } := fun h => Bool.false_ne_true h.1
  have digits : digitText address 16 { noFlags with small := true } =
      (numeral 16 address.toNat).map (digitChar true) := by
    rw [digitText, magnitude, if_neg plain]
    rfl
  have sign : signText address { noFlags with small := true } = [] := if_neg plain
  have special : specialText 16 { noFlags with small := true } = [] := rfl
  have none : padding address 16 (-1) (-1) { noFlags with small := true } = 0 := by
    rw [padding, unpaddedLength]
    omega
  have leading : zeros address 16 (-1) (-1) { noFlags with small := true } = 0 := by
    rw [zeros, none, ite_self]
    omega
  rw [numberText, leftSpaces, rightSpaces, none, ite_self, ite_self, leading, sign, special, digits]
  simp

theorem stringArgs_traceFormat :
    stringArgs (traceArgs address name) 0 (parse traceFormat) = [name] := by
  rw [parse_traceFormat]
  rfl

/-- Without a width, `%s` prints the string. -/
theorem print_bareString (strings : Word → List Byte) (va : ℕ → Word) (a : ℕ) :
    (Piece.directive ⟨[], .absent, none, none, some (ascii 's')⟩).print strings va a =
      strings (va a) := by
  show padded false (-1) (strings (va a)) = strings (va a)
  have none : (-1 - ((strings (va a)).length : ℤ)).toNat = 0 := by omega
  simp [padded, none]

theorem render_traceFormat (strings : Word → List Byte) :
    (render strings (traceArgs address name) 0 (parse traceFormat)).flatten =
      traceText address (strings name) := by
  have hex : (Piece.directive ⟨[], .absent, none, none, some (ascii 'x')⟩).print strings
      (traceArgs address name) 0 = (numeral 16 address.toNat).map (digitChar true) := numberText_hex
  have string : strings (traceArgs address name (0 + 1)) = strings name := rfl
  rw [parse_traceFormat, render_plain_append, render, hex, List.flatten_cons, render_plain_append,
    render, print_bareString, render, render, List.flatten_cons, List.flatten_cons,
    List.flatten_nil, traceText, Piece.print]
  simp only [List.append_assoc, List.append_nil]
  rfl

theorem traceText_length (address : Word) (s : List Byte) :
    (traceText address s).length ≤ s.length + 16 := by
  have digits : (numeral 16 address.toNat).length ≤ 8 :=
    numeral_length_le (by decide) (by decide) address.isLt
  simp only [traceText, List.length_append, List.length_map, List.length_cons, List.length_nil]
  omega

/-- A name that is a string and leaves room for the rest of the line is printed. -/
theorem printk_line (address : Word) {s : List Byte} (named : Ahead (charsAt name) m 0 s)
    (fits : s.length ≤ longestName) : ∃ out,
      Returns (inBuffer (printk (literal traceFormat) (traceArgs address name))) m out m ∧
        out.buff = traceText address s ++ [0] := by
  have valid : ∀ p ∈ stringArgs (traceArgs address name) 0 (parse traceFormat),
      Ahead (charsAt p) m 0 s := by
    rw [stringArgs_traceFormat]
    intro p hp
    rwa [List.mem_singleton.1 hp]
  obtain ⟨out, run, -, buff⟩ := @printk_returns _ (traceArgs address name) m (fun _ => s) _
    (ahead_literal (by decide) (by decide) m) valid
  rw [render_traceFormat] at buff
  have size := traceText_length address s
  refine ⟨out, inBuffer_returns run ?_, buff⟩
  rw [buff, List.length_append, List.length_singleton]
  unfold longestName at fits
  unfold buffSize
  omega

/-- If the null pointer cannot be read, a missing name faults. -/
theorem printk_null (unmapped : translate m 0 = none) :
    Stops (inBuffer (printk (literal traceFormat) (traceArgs address 0))) m (.pageFault 0) m := by
  have first : Stops (charsAt 0 0) m (.pageFault 0) m := by
    have start : (0 : Word) + 0 = 0 := BitVec.add_zero _
    rw [charsAt, start]
    exact load8_stops unmapped
  exact inBuffer_stops (vsprintf_stops (ahead_literal (by decide) (by decide) m)
    (by rw [stringArgs_traceFormat]; rfl) first).bind

/-- The line in front of a trace, for a message that is a string and leaves room for the rest. -/
theorem printk_message {msg : Word} {s : List Byte} (message : Ahead (charsAt msg) m 0 s)
    (fits : s.length ≤ longestMessage) :
    ∃ out, Returns (inBuffer (printk (literal panicFormat) (consArg msg fun _ => 0))) m out m := by
  have first : panicFormat = "--------- System panic: ".toList.map ascii ++
      ascii '%' :: ("s ---------\n".toList.map ascii) := rfl
  have readString : takeDirective ("s ---------\n".toList.map ascii) =
      (⟨[], .absent, none, none, some (ascii 's')⟩, " ---------\n".toList.map ascii) := by decide
  have pieces : parse panicFormat = ("--------- System panic: ".toList.map ascii).map .text ++
      .directive ⟨[], .absent, none, none, some (ascii 's')⟩ ::
        (" ---------\n".toList.map ascii).map .text := by
    rw [first, parse_plain_append (by decide), parse_percent, readString, parse_plain (by decide)]
  have strings : stringArgs (consArg msg fun _ => 0) 0 (parse panicFormat) = [msg] := by
    rw [pieces, stringArgs_plain_append]
    rfl
  obtain ⟨out, run, -, buff⟩ := @printk_returns _ (consArg msg fun _ => 0) m (fun _ => s) panicFormat
    (ahead_literal (by decide) (by decide) m) (by
      rw [strings]
      intro p hp
      rwa [List.mem_singleton.1 hp])
  have size : (render (fun _ => s) (consArg msg fun _ => 0) 0 (parse panicFormat)).flatten.length =
      s.length + 35 := by
    rw [pieces, render_plain_append, render, print_bareString, List.flatten_cons, render_plain,
      List.length_append, List.length_append, List.length_map, List.length_map]
    show 24 + (s.length + 11) = s.length + 35
    omega
  refine ⟨out, inBuffer_returns run ?_⟩
  rw [buff, List.length_append, List.length_singleton, size]
  unfold longestMessage at fits
  unfold buffSize
  omega

/-- The line behind a trace. -/
theorem printk_end : ∃ out, Returns (inBuffer (printk (literal panicEnd) fun _ => 0)) m out m := by
  have plain : ascii '%' ∉ panicEnd := by decide
  obtain ⟨out, run, -, buff⟩ := @printk_returns _ (fun _ => 0) m (fun _ => []) panicEnd
    (ahead_literal (by decide) (by decide) m) (by
      rw [parse_plain plain, stringArgs_plain]
      intro p hp
      cases hp)
  refine ⟨out, inBuffer_returns run ?_⟩
  rw [buff, parse_plain plain, render_plain]
  decide

/-- Whatever it is given, `printk` leaves the memory as it is. -/
theorem printk_keeps (s : List Byte) (va : ℕ → Word) :
    Keeps (· = m) (inBuffer (printk (literal s) va)) := by
  apply Keeps.bind
  · exact Keeps.bind (vsprintf_keeps va (fun _ => Keeps.pure _) fun _ _ => load8_keeps _) fun _ =>
      Keeps.pure _
  · exact fun out => Keeps.ite (Keeps.bind (Keeps.throw _) fun _ => Keeps.pure _) (Keeps.pure _)

end Line

/-! ## Whole traces -/

/-- The line shows the address and a string that is not null. -/
def TraceLine.Shows (m : Machine) (address : Word) (line : TraceLine) : Prop :=
  line.address = address ∧ line.name ≠ 0 ∧
    ∃ s, Ahead (charsAt line.name) m 0 s ∧ line.text = traceText address s ++ [0]

/-- The trace from `ebp` on returns, and each frame has its line. -/
def TracesSafely (m : Machine) (elf : Elf) (ebp : Word) (addresses : List Word) : Prop :=
  ∃ lines, Returns (printStackTrace elf ebp) m lines m ∧
    List.Forall₂ (TraceLine.Shows m) addresses lines

/-- What is known of a line if its address has the name `name`. -/
structure TraceLine.Records (m : Machine) (address name : Word) (line : TraceLine) : Prop where
  sameAddress : line.address = address
  sameName : line.name = name
  known : name ≠ 0 → ∃ s, Ahead (charsAt name) m 0 s ∧ line.text = traceText address s ++ [0]
  unknown : name = 0 → translate m 0 ≠ none

theorem TraceLine.Records.shows_iff {m : Machine} {address name : Word} {line : TraceLine}
    (records : line.Records m address name) : line.Shows m address ↔ name ≠ 0 := by
  constructor
  · rintro ⟨-, known, -⟩
    rwa [records.sameName] at known
  · intro known
    refine ⟨records.sameAddress, ?_, ?_⟩
    · rwa [records.sameName]
    · rw [records.sameName]
      exact records.known known

theorem TraceLine.forall₂_shows_iff {m : Machine} {name : Word → Word} {addresses : List Word}
    {lines : List TraceLine}
    (records : List.Forall₂ (fun a => TraceLine.Records m a (name a)) addresses lines) :
    List.Forall₂ (TraceLine.Shows m) addresses lines ↔ ∀ a ∈ addresses, name a ≠ 0 := by
  induction records with
  | nil => simp
  | cons first rest ih => rw [List.forall₂_cons, List.forall_mem_cons, ih, first.shows_iff]

section Trace

variable {m : Machine} {symtab symtabsz strtab ebp : Word} (strtabsz : Option Word)
  {addresses : List Word}

/-- The functions of the table have names, and these are strings that fit into a line. -/
def FunctionsNamed (m : Machine) (symtab symtabsz strtab : Word) : Prop :=
  ∀ s ∈ symbols m symtab symtabsz, s.IsFunction → strtab + s.name ≠ 0 ∧
    ∃ text : List Byte, text.length ≤ longestName ∧ Ahead (charsAt (strtab + s.name)) m 0 text

/-- An address has a name exactly if it matches a function. -/
theorem FunctionsNamed.nameIn_iff (named : FunctionsNamed m symtab symtabsz strtab)
    (address : Word) : nameIn (symbols m symtab symtabsz) strtab address ≠ 0 ↔
      ∃ s ∈ symbols m symtab symtabsz, s.Matches address := by
  rw [nameIn]
  cases found : (symbols m symtab symtabsz).find? (Symbol.Matches address) with
  | none =>
    refine iff_of_false (not_not_intro rfl) fun matched => ?_
    obtain ⟨s, hs, known⟩ := matched
    exact List.find?_eq_none.1 found s hs (decide_eq_true known)
  | some s =>
    have known : s.Matches address := by simpa using List.find?_some found
    have member := List.mem_of_find?_eq_some found
    exact iff_of_true (named s member known.1).1 ⟨s, member, known⟩

theorem FunctionsNamed.string (named : FunctionsNamed m symtab symtabsz strtab) {address : Word}
    (known : nameIn (symbols m symtab symtabsz) strtab address ≠ 0) :
    ∃ text : List Byte, text.length ≤ longestName ∧
      Ahead (charsAt (nameIn (symbols m symtab symtabsz) strtab address)) m 0 text := by
  rw [nameIn] at known ⊢
  cases found : (symbols m symtab symtabsz).find? (Symbol.Matches address) with
  | none =>
    rw [found] at known
    exact absurd rfl known
  | some s =>
    have matches_ : s.Matches address := by simpa using List.find?_some found
    exact (named s (List.mem_of_find?_eq_some found) matches_.1).2

/-- What a stopped trace says: an address was unknown, and if the null pointer cannot be read, this
was the fault. -/
def NullFault (m : Machine) (unknown : Prop) (e : Stop) (t : Machine) : Prop :=
  unknown ∧ (translate m 0 = none → e = .pageFault 0 ∧ t = m)

/-- One round prints the line of one frame. -/
theorem printStackTraceRound_spec (named : FunctionsNamed m symtab symtabsz strtab)
    (readable : ∀ va ∈ symbolReads symtab symtabsz, translate m va ≠ none)
    (mapped : ∀ va ∈ wordBytes ebp ∪ wordBytes (ebp + 4), translate m va ≠ none)
    (lines : List TraceLine) :
    WP (printStackTraceRound ⟨some symtab, some symtabsz, some strtab, strtabsz⟩ (ebp, lines))
      (NullFault m (nameIn (symbols m symtab symtabsz) strtab (readWord (view m) (ebp + 4)) = 0))
      (fun x t => t = m ∧ ∃ line, x = (readWord (view m) ebp, lines ++ [line]) ∧
        line.Records m (readWord (view m) (ebp + 4))
          (nameIn (symbols m symtab symtabsz) strtab (readWord (view m) (ebp + 4)))) m := by
  have eip := load32_returns fun i hi => mapped _ (.inr ⟨i, hi, rfl⟩)
  have next := load32_returns fun i hi => mapped _ (.inl ⟨i, hi, rfl⟩)
  have lookup := @elfLookupSymbol_returns m symtab symtabsz strtab (readWord (view m) (ebp + 4))
    strtabsz readable
  simp only [printStackTraceRound, wp_bind, wp_pure]
  apply eip.wp
  apply lookup.wp
  apply eip.wp
  generalize readWord (view m) (ebp + 4) = address
  by_cases known : nameIn (symbols m symtab symtabsz) strtab address = 0
  · rw [known]
    by_cases unmapped : translate m 0 = none
    · exact (printk_null unmapped).wp ⟨rfl, fun _ => ⟨rfl, rfl⟩⟩
    · refine (printk_keeps traceFormat (traceArgs address 0) m rfl).weaken
        (fun e t _ => ⟨rfl, fun h => absurd h unmapped⟩) fun out t same => ?_
      subst same
      exact next.wp ⟨rfl, _, rfl, rfl, rfl, fun h => absurd rfl h, fun _ => unmapped⟩
  · obtain ⟨s, fits, string⟩ := named.string known
    obtain ⟨out, run, buff⟩ := printk_line address string fits
    apply run.wp
    exact next.wp ⟨rfl, _, rfl, rfl, rfl, fun _ => ⟨s, string, buff⟩, fun h => absurd h known⟩

/-- The trace goes through the chain frame by frame. -/
theorem printStackTrace_loop (named : FunctionsNamed m symtab symtabsz strtab)
    (readable : ∀ va ∈ symbolReads symtab symtabsz, translate m va ≠ none)
    (chain : EbpChain m ebp addresses) {fuel : ℕ} (enough : addresses.length < fuel)
    (lines : List TraceLine) :
    WP (whileM .hang (fun x => return decide (x.1 ≠ 0))
        (printStackTraceRound ⟨some symtab, some symtabsz, some strtab, strtabsz⟩) fuel (ebp, lines))
      (NullFault m (∃ a ∈ addresses, nameIn (symbols m symtab symtabsz) strtab a = 0))
      (fun x t => t = m ∧ ∃ more, x.2 = lines ++ more ∧ List.Forall₂
        (fun a => TraceLine.Records m a (nameIn (symbols m symtab symtabsz) strtab a))
        addresses more) m := by
  induction chain generalizing fuel lines with
  | nil =>
    obtain ⟨fuel, rfl⟩ := Nat.exists_eq_add_one_of_ne_zero (Nat.ne_zero_of_lt enough)
    have stop : Returns (pure (decide ((0 : Word) ≠ 0)) : Kernel Bool) m false m := rfl
    unfold ProgramLogic.whileM
    refine (wp_bind _ _).2 (stop.wp ?_)
    rw [if_neg Bool.false_ne_true]
    exact ⟨rfl, [], by simp, .nil⟩
  | @cons ebp addresses frame mapped rest ih =>
    obtain ⟨fuel, rfl⟩ := Nat.exists_eq_add_one_of_ne_zero (Nat.ne_zero_of_lt enough)
    have more : Returns (pure (decide (ebp ≠ 0)) : Kernel Bool) m true m := by
      rw [decide_eq_true frame]
      rfl
    have round := printStackTraceRound_spec strtabsz named readable mapped lines
    unfold ProgramLogic.whileM
    refine (wp_bind _ _).2 (more.wp ?_)
    rw [if_pos rfl, wp_bind]
    refine round.weaken ?_ ?_
    · rintro e t ⟨unknown, fault⟩
      exact ⟨⟨_, List.mem_cons_self .., unknown⟩, fault⟩
    · rintro _ _ ⟨rfl, line, rfl, first⟩
      refine (ih (by simpa using enough) (lines ++ [line])).weaken ?_ ?_
      · rintro e t ⟨⟨a, ha, unknown⟩, fault⟩
        exact ⟨⟨a, List.mem_cons_of_mem _ ha, unknown⟩, fault⟩
      · rintro x t ⟨rfl, others, eq, lines'⟩
        exact ⟨rfl, line :: others, by simp [eq], .cons first lines'⟩

theorem printStackTrace_spec (named : FunctionsNamed m symtab symtabsz strtab)
    (readable : ∀ va ∈ symbolReads symtab symtabsz, translate m va ≠ none)
    (chain : EbpChain m ebp addresses) :
    WP (printStackTrace ⟨some symtab, some symtabsz, some strtab, strtabsz⟩ ebp)
      (NullFault m (∃ a ∈ addresses, nameIn (symbols m symtab symtabsz) strtab a = 0))
      (fun lines t => t = m ∧ List.Forall₂
        (fun a => TraceLine.Records m a (nameIn (symbols m symtab symtabsz) strtab a))
        addresses lines) m := by
  refine (printStackTrace_loop strtabsz named readable chain chain.length_lt []).bind ?_
  rintro x t ⟨rfl, lines, eq, records⟩
  rw [eq]
  exact ⟨rfl, records⟩

/-- `panic` stops where the trace stops, or hangs behind it. -/
theorem panic_stops (ebp : Word) (elf : Elf) {msg : Word} {text : List Byte}
    (message : Ahead (charsAt msg) m 0 text) (fits : text.length ≤ longestMessage) :
    (∀ lines, Returns (printStackTrace elf ebp) m lines m → Stops (panic elf ebp msg) m .hang m) ∧
      ∀ e, Stops (printStackTrace elf ebp) m e m → Stops (panic elf ebp msg) m e m := by
  obtain ⟨out, first⟩ := printk_message message fits
  obtain ⟨out', last⟩ := printk_end (m := m)
  constructor
  · intro lines run
    exact first.bind_stops (run.bind_stops (last.bind_stops rfl))
  · intro e stop
    exact first.bind_stops stop.bind

/-- If every return address lies in a function, the trace is safe. -/
theorem tracesSafely_of_known (named : FunctionsNamed m symtab symtabsz strtab)
    (readable : ∀ va ∈ symbolReads symtab symtabsz, translate m va ≠ none)
    (chain : EbpChain m ebp addresses)
    (known : ∀ a ∈ addresses, ∃ s ∈ symbols m symtab symtabsz, s.Matches a) :
    TracesSafely m ⟨some symtab, some symtabsz, some strtab, strtabsz⟩ ebp addresses := by
  simp only [← named.nameIn_iff] at known
  rcases (printStackTrace_spec strtabsz named readable chain).outcome with
    ⟨lines, t, run, rfl, records⟩ | ⟨e, t, -, ⟨a, ha, unknown⟩, -⟩
  · exact ⟨lines, run, (TraceLine.forall₂_shows_iff records).2 known⟩
  · exact absurd unknown (known a ha)

theorem TracesSafely.known (named : FunctionsNamed m symtab symtabsz strtab)
    (readable : ∀ va ∈ symbolReads symtab symtabsz, translate m va ≠ none)
    (chain : EbpChain m ebp addresses)
    (safe : TracesSafely m ⟨some symtab, some symtabsz, some strtab, strtabsz⟩ ebp addresses) :
    ∀ a ∈ addresses, ∃ s ∈ symbols m symtab symtabsz, s.Matches a := by
  simp only [← named.nameIn_iff]
  obtain ⟨lines, run, shows⟩ := safe
  have spec := printStackTrace_spec strtabsz named readable chain
  exact (TraceLine.forall₂_shows_iff (spec.returned run).2).1 shows

/-- If one does not and nothing is mapped at 0, the trace ends in a page fault there. -/
theorem printStackTrace_faults (named : FunctionsNamed m symtab symtabsz strtab)
    (readable : ∀ va ∈ symbolReads symtab symtabsz, translate m va ≠ none)
    (chain : EbpChain m ebp addresses) (unmapped : translate m 0 = none)
    (unknown : ∃ a ∈ addresses, ∀ s ∈ symbols m symtab symtabsz, ¬ s.Matches a) :
    Stops (printStackTrace ⟨some symtab, some symtabsz, some strtab, strtabsz⟩ ebp) m
      (.pageFault 0) m := by
  obtain ⟨a, ha, unknown⟩ := unknown
  rcases (printStackTrace_spec strtabsz named readable chain).outcome with
    ⟨lines, t, -, rfl, records⟩ | ⟨e, t, stop, -, fault⟩
  · have shows := records.imp fun a line record =>
      record.shows_iff.2 fun null => record.unknown null unmapped
    have known := (TraceLine.forall₂_shows_iff records).1 shows a ha
    obtain ⟨s, hs, known⟩ := (named.nameIn_iff a).1 known
    exact absurd known (unknown s hs)
  · obtain ⟨rfl, rfl⟩ := fault unmapped
    exact stop

/-- The trace is safe exactly if every return address lies in a function.  With nothing mapped at 0,
the trace of any other chain ends in a page fault there, and so does a `panic`, which should only
hang. -/
theorem tracesSafely_iff (named : FunctionsNamed m symtab symtabsz strtab)
    (readable : ∀ va ∈ symbolReads symtab symtabsz, translate m va ≠ none)
    (chain : EbpChain m ebp addresses) :
    (TracesSafely m ⟨some symtab, some symtabsz, some strtab, strtabsz⟩ ebp addresses ↔
        ∀ a ∈ addresses, ∃ s ∈ symbols m symtab symtabsz, s.Matches a) ∧
      ∀ (msg : Word) (text : List Byte), Ahead (charsAt msg) m 0 text →
        text.length ≤ longestMessage → translate m 0 = none →
        (Stops (panic ⟨some symtab, some symtabsz, some strtab, strtabsz⟩ ebp msg) m .hang m ↔
          ∀ a ∈ addresses, ∃ s ∈ symbols m symtab symtabsz, s.Matches a) ∧
        (Stops (panic ⟨some symtab, some symtabsz, some strtab, strtabsz⟩ ebp msg) m
            (.pageFault 0) m ↔
          ∃ a ∈ addresses, ∀ s ∈ symbols m symtab symtabsz, ¬ s.Matches a) := by
  refine ⟨⟨TracesSafely.known strtabsz named readable chain,
    tracesSafely_of_known strtabsz named readable chain⟩, fun msg text message fits unmapped => ?_⟩
  have stops := panic_stops ebp ⟨some symtab, some symtabsz, some strtab, strtabsz⟩ message fits
  by_cases known : ∀ a ∈ addresses, ∃ s ∈ symbols m symtab symtabsz, s.Matches a
  · obtain ⟨lines, run, -⟩ := tracesSafely_of_known strtabsz named readable chain known
    have hangs := stops.1 lines run
    refine ⟨iff_of_true hangs known, iff_of_false (fun fault => ?_) fun nameless => ?_⟩
    · cases hangs.unique fault
    · obtain ⟨a, ha, unknown⟩ := nameless
      obtain ⟨s, hs, known⟩ := known a ha
      exact unknown s hs known
  · have unknown : ∃ a ∈ addresses, ∀ s ∈ symbols m symtab symtabsz, ¬ s.Matches a := by
      simpa using known
    have faults := stops.2 _ (printStackTrace_faults strtabsz named readable chain unmapped unknown)
    refine ⟨iff_of_false (fun hangs => ?_) known, iff_of_true faults unknown⟩
    cases faults.unique hangs

end Trace

/-! ## A concrete trace -/

/-- One function, `main`, from 0xC0100020 on, and one frame with a return address. -/
def traceMemory (address : Word) : Store 32 :=
  List.foldr (fun w mem => writeWord mem w.1 w.2) (fun _ => 0)
    [(0x130F04, address), (0x200000, 4), (0x200004, 0xC0100020), (0x200008, 0x40),
      (0x20000c, 0x12), (0x201004, 0x6e69616d)]

theorem traceMemory_outside (address : Word) {a : Word}
    (h : a.toNat < 0x130F04 ∨ 0x130F08 ≤ a.toNat ∧ a.toNat < 0x200000) :
    traceMemory address a = 0 := by
  apply foldr_writeWord_outside
  simp only [List.forall_mem_cons, List.not_mem_nil, false_implies, implies_true, and_true]
  bv_omega

/-- The kernel with this memory, once `init_vmm` has run. -/
structure Traced (address : Word) (m : Machine) : Prop where
  booted : ∃ m₁, Booted (traceMemory address) m₁ ∧ Returns (initVmm smallImage) m₁ () m
  paging : KernelPaging smallImage m
  outside : ∀ a, 0x4000 ≤ a.toNat → a ∉ smallImage.tablePages → m.mem a = traceMemory address a

theorem smallImage_tablePages {a : Word} : a ∈ smallImage.tablePages ↔
    0x140000 ≤ a.toNat ∧ a.toNat < 0x141000 ∨ 0x150000 ≤ a.toNat ∧ a.toNat < 0x1D0000 := Iff.rfl

theorem exists_traced (address : Word) : ∃ m, Traced address m := by
  obtain ⟨m₁, booted⟩ := exists_booted (traceMemory address)
  have zeroed : ∀ a ∈ smallImage.tablePages, m₁.mem a = 0 := by
    intro a ha
    rw [booted.outside a (tablePages_high ha)]
    rw [smallImage_tablePages] at ha
    exact traceMemory_outside address (by omega)
  obtain ⟨⟨⟩, m, run, rfl⟩ := (initVmm_spec (E := fun _ _ => False) smallImage booted.temp
    (Q := fun _ t => t = { m₁ with
      mem := vmmMemory smallImage m₁.mem
      interruptHandlers := Function.update m₁.interruptHandlers 14 smallImage.pageFault
      cr3 := smallImage.pgdPhys }) rfl).returns
  refine ⟨_, ⟨m₁, booted, run⟩, kernelPaging_of_initVmm smallImage booted.temp zeroed _, ?_⟩
  intro a lo out
  exact (vmmMemory_outside _ _ out).trans (booted.outside a fun h => by have := h.2; omega)

namespace Traced

variable {address : Word} {m : Machine}

theorem mapped (traced : Traced address m) {va : Word} (lo : 0xC0001000 ≤ va.toNat)
    (hi : va.toNat < 0xE0000000) : translate m va ≠ none := by
  rw [traced.paging.window.translate lo hi]
  exact Option.some_ne_none _

theorem null (traced : Traced address m) : translate m 0 = none :=
  traced.paging.translate_below (by decide)

/-- The tables behind the image do not depend on the return address. -/
theorem tables (traced : Traced address m) {a : Word} (lo : 0x200000 ≤ a.toNat) :
    m.mem a = traceMemory 0 a := by
  have same (x : Word) : traceMemory x a = traceMemory 0 a := by
    have behind : (0x130F04 : Word).toNat + 4 ≤ a.toNat := by
      have : (0x130F04 : Word).toNat = 0x130F04 := rfl
      omega
    exact (writeWord_outside _ x (by decide) (.inr behind)).trans
      (writeWord_outside _ 0 (by decide) (.inr behind)).symm
  rw [← same address]
  refine traced.outside a (by omega) ?_
  rw [smallImage_tablePages]
  omega

theorem view_eq (traced : Traced address m) {a : Word} (lo : 0x200000 ≤ a.toNat)
    (hi : a.toNat < 0x400000) : view m (a + pageOffset) = traceMemory 0 a := by
  have up : (a + pageOffset).toNat = a.toNat + 0xC0000000 := toNat_offset (i := 0xC0000000) (by omega)
  rw [SimpleKernel.view_eq (traced.paging.window.translate (by omega) (by omega)),
    BitVec.add_sub_cancel]
  exact traced.tables lo

theorem word_eq (traced : Traced address m) {a : Word} (lo : 0x200000 ≤ a.toNat)
    (hi : a.toNat + 4 ≤ 0x400000) :
    readWord (view m) (a + pageOffset) = readWord (traceMemory 0) a := by
  rw [traced.paging.readWord_view (by omega) (by omega)]
  exact readWord_congr (by omega) fun b lo' _ => traced.tables (by omega)

theorem frame_eq (traced : Traced address m) {a : Word} (lo : 0x130F00 ≤ a.toNat)
    (hi : a.toNat + 4 ≤ 0x140000) :
    readWord (view m) (a + pageOffset) = readWord (traceMemory address) a := by
  rw [traced.paging.readWord_view (by omega) (by omega)]
  refine readWord_congr (by omega) fun b lo hi => traced.outside b (by omega) ?_
  rw [smallImage_tablePages]
  omega

theorem chain (traced : Traced address m) : EbpChain m 0xC0130F00 [address] := by
  have last : readWord (view m) 0xC0130F00 = 0 := by
    have seen := traced.frame_eq (a := 0x130F00) (by decide) (by decide)
    have none : readWord (traceMemory address) 0x130F00 = 0 := by
      refine readWord_zero (by decide) fun a lo hi => traceMemory_outside address (.inl ?_)
      bv_omega
    exact seen.trans none
  have returns : readWord (view m) (0xC0130F00 + 4) = address := by
    have seen := traced.frame_eq (a := 0x130F04) (by decide) (by decide)
    have written : readWord (traceMemory address) 0x130F04 = address :=
      readWord_writeWord_self _ address (by decide : (0x130F04 : Word).toNat + 4 ≤ 2 ^ 32)
    exact seen.trans written
  have frame : EbpChain m (readWord (view m) 0xC0130F00) [] := by
    rw [last]
    exact .nil
  have whole := EbpChain.cons (by decide) (fun va hva => ?_) frame
  · rwa [returns] at whole
  · obtain ⟨i, hi, rfl⟩ | ⟨i, hi, rfl⟩ := hva
    · apply traced.mapped <;> bv_omega
    · apply traced.mapped <;> bv_omega

theorem symbols_eq (traced : Traced address m) :
    symbols m 0xC0200000 16 = [⟨4, 0xC0100020, 0x40, 0x12⟩] := by
  have one : List.range (symbolCount 16) = [0] := by decide
  have name := traced.word_eq (a := 0x200000) (by decide) (by decide)
  have value := traced.word_eq (a := 0x200004) (by decide) (by decide)
  have size := traced.word_eq (a := 0x200008) (by decide) (by decide)
  have info := traced.view_eq (a := 0x20000c) (by decide) (by decide)
  have first : symbolOf m 0xC0200000 (BitVec.ofNat 32 0) = ⟨readWord (traceMemory 0) 0x200000,
      readWord (traceMemory 0) 0x200004, readWord (traceMemory 0) 0x200008,
      traceMemory 0 0x20000c⟩ := by
    rw [← name, ← value, ← size, ← info]
    rfl
  rw [symbols, one, List.map_singleton, first]
  decide +kernel

theorem readable (traced : Traced address m) :
    ∀ va ∈ symbolReads 0xC0200000 16, translate m va ≠ none := by
  rintro va ⟨i, below, j, hj, rfl⟩
  have one : (16 : Word) / sizeofSymbol = 1 := by decide
  obtain rfl : i = 0 := by
    rw [one] at below
    bv_omega
  have start : (0xC0200000 : Word) + sizeofSymbol * 0 = 0xC0200000 := by decide
  rw [start]
  apply traced.mapped <;> bv_omega

theorem named (traced : Traced address m) : FunctionsNamed m 0xC0200000 16 0xC0201000 := by
  rw [FunctionsNamed, traced.symbols_eq]
  intro s hs _
  obtain rfl := List.mem_singleton.1 hs
  refine ⟨by decide, ['m', 'a', 'i', 'n'].map ascii, by decide,
    ahead_charsAt (by decide) ?_ fun j hj => ?_⟩
  · have stored : Spells (traceMemory 0) 0x201004 (['m', 'a', 'i', 'n'].map ascii) := by
      decide +kernel
    refine stored.congr fun j hj => ?_
    have small : j ≤ 4 := hj
    have place : 0xC0201000 + 4 + BitVec.ofNat 32 j =
        0x201004 + BitVec.ofNat 32 j + pageOffset := by
      unfold pageOffset
      bv_omega
    rw [place]
    exact traced.view_eq (by bv_omega) (by bv_omega)
  · have small : j ≤ 4 := hj
    apply traced.mapped <;> bv_omega

end Traced

/-- A trace through `main` is safe. -/
theorem tracesSafely_iff_main : ∃ m, Traced 0xC0100030 m ∧
    TracesSafely m ⟨some 0xC0200000, some 16, some 0xC0201000, some 9⟩ 0xC0130F00 [0xC0100030] := by
  obtain ⟨m, traced⟩ := exists_traced 0xC0100030
  refine ⟨m, traced, (tracesSafely_iff (some 9) traced.named traced.readable traced.chain).1.2 ?_⟩
  intro a ha
  obtain rfl := List.mem_singleton.1 ha
  rw [traced.symbols_eq]
  exact ⟨_, List.mem_singleton_self _, by decide⟩

/-- The address 0xC010000C, in the code of `start`, lies in no function. -/
theorem printStackTrace_start : ∃ m, Traced 0xC010000C m ∧
    FunctionsNamed m 0xC0200000 16 0xC0201000 ∧
    (∀ va ∈ symbolReads 0xC0200000 16, translate m va ≠ none) ∧
    EbpChain m 0xC0130F00 [0xC010000C] ∧
    Stops (printStackTrace ⟨some 0xC0200000, some 16, some 0xC0201000, some 9⟩ 0xC0130F00) m
      (.pageFault 0) m ∧
    ¬ TracesSafely m ⟨some 0xC0200000, some 16, some 0xC0201000, some 9⟩ 0xC0130F00
      [0xC010000C] := by
  obtain ⟨m, traced⟩ := exists_traced 0xC010000C
  have unknown : ∀ s ∈ symbols m 0xC0200000 16, ¬ s.Matches 0xC010000C := by
    rw [traced.symbols_eq]
    decide
  have fault := printStackTrace_faults (some 9) traced.named traced.readable
    traced.chain traced.null ⟨_, List.mem_singleton_self _, unknown⟩
  exact ⟨m, traced, traced.named, traced.readable, traced.chain, fault,
    fun safe => safe.elim fun _ lines => lines.1.not_stops fault⟩

end SimpleKernel
