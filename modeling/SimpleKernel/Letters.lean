import SimpleKernel.Reports
import SimpleKernel.Lib.Turns

/-!
# Two threads at one screen

At the end of `entry.c` the loop of `kern_init` prints an A whenever `flag` is 0 and sets it to 1,
and that of `thread` prints a B whenever it is 1 and sets it to 0.  The timer may switch between the
two anywhere, also within `printk_color`, with its static buffer half written or the cursor half
moved.  As the flag gives the screen to one of them at a time, this cannot be seen.
-/

namespace SimpleKernel

open ProgramLogic Turns

namespace Display

/-! ## `entry.c` -/

/-- What the loop of `kern_init`, for `false`, or of `thread` calls when `flag` names it. -/
def printLetter : Bool → Screen Unit
  | false => printkColor .black .red (asciiText "A") []
  | true => printkColor .black .green (asciiText "B") []

/-- What the call prints. -/
def letter : Bool → Output
  | false => .writeColor (asciiText "A") .black .red
  | true => .writeColor (asciiText "B") .black .green

/-- The first `n` letters, of both in turn. -/
def firstLetters (n : ℕ) : List Output := (List.range n).map fun k => letter (Parties.turn false k)

theorem firstLetters_succ (n : ℕ) :
    firstLetters (n + 1) = firstLetters n ++ [letter (Parties.turn false n)] := by
  rw [firstLetters, List.range_succ, List.map_append]
  rfl

theorem printLetter_prints (p : Bool) (m : Machine) : Prints m (printLetter p) [letter p] := by
  have texts : ∀ s ∈ ["A", "B"], ascii '%' ∉ asciiText s ∧ 0 ∉ asciiText s ∧
      (asciiText s).length < 1024 := by
    decide +kernel
  cases p with
  | false =>
    obtain ⟨plain, noNul, short⟩ := texts "A" (by simp)
    exact prints_text plain noNul short .black .red
  | true =>
    obtain ⟨plain, noNul, short⟩ := texts "B" (by simp)
    exact prints_text plain noNul short .black .green

section Alternate

variable {Λ σ : Type} {P : Parties Λ σ} {display : σ → Display}

/-- The code of the calls, in steps of any size, on the memory that the threads share: if nothing
comes between its steps, it does to the display what the call does. -/
def Compiles (P : Parties Λ σ) (display : σ → Display) : Prop :=
  ∀ p x d, Returns (printLetter p) (display x) () d → ∃ y, P.Works p x y ∧ display y = d

/-- The screen shows `n` letters behind what it has shown before. -/
def LettersShown (display : σ → Display) (m : Machine) (t : Terminal) (n : ℕ) (x : σ) : Prop :=
  (display x).machine = m ∧
    Simulates (display x).console ((firstLetters n).foldl Output.onTerminal t)

/-- Each round adds the letter of its party. -/
theorem lettersShown_carry (compiled : Compiles P display) {m : Machine} {t : Terminal} (n : ℕ) (x : σ)
    (shown : LettersShown display m t n x) :
    ∃ y, P.Works (Parties.turn false n) x y ∧ LettersShown display m t (n + 1) y := by
  have printed := printLetter_prints (Parties.turn false n) m (fun _ _ => False) (display x) _
    shown.1 shown.2
  obtain ⟨⟨⟩, d, run, machine, sim⟩ := printed.returns
  obtain ⟨y, works, rfl⟩ := compiled _ _ _ run
  rw [← List.foldl_append, ← firstLetters_succ] at sim
  exact ⟨y, works, machine, sim⟩

end Alternate

/-! ## Code in four steps -/

/-- Lists of programs, of which every step runs the first one. -/
def inSteps (code : Bool → List (Screen Unit)) : Parties (List (Screen Unit)) Display where
  start := code
  move := fun _ l d => ((l.headD (pure ()) d).2, if l.tail = [] then none else some l.tail)

/-- What is left of a call of `printk_color` once its text is printed into the buffer. -/
def letterCode (p : Bool) : List (Screen Unit) :=
  [onConsole (typeChar (bif p then ascii 'B' else ascii 'A')
      (charAttribute RealColor.black.code (bif p then RealColor.green else RealColor.red).code)),
    onConsole wrapLine, onConsole scroll, onConsole moveCursor]

theorem inSteps_ends {code : Bool → List (Screen Unit)} {l : List (Screen Unit)} (some : l ≠ [])
    (p : Bool) {d d' : Display} (run : WP (l.forM id) (fun _ _ => False) (fun _ t => t = d') d) :
    ∃ n, (inSteps code).Ends p n l d d' := by
  induction l generalizing d with
  | nil => exact absurd rfl some
  | cons c l ih =>
    have begun : WP (c >>= fun _ => l.forM id) (fun _ _ => False) (fun _ t => t = d') d := run
    rw [wp_bind] at begun
    obtain ⟨a, t, first, rest⟩ := begun.returns
    have moved : (inSteps code).move p (c :: l) d = (t, if l = [] then none else Option.some l) := by
      show ((c d).2, _) = _
      rw [show c d = (.ok a, t) from first]
      rfl
    by_cases last : l = []
    · subst last
      obtain rfl : t = d' := rest
      exact ⟨0, .last (by simpa using moved)⟩
    · obtain ⟨n, ends⟩ := ih last rest
      exact ⟨n + 1, .more (by simpa [last] using moved) ends⟩

/-- Once a text is printed into the buffer, the console has to write it. -/
theorem wp_printkColor_text {s : List Byte} (plain : ascii '%' ∉ s) (noNul : 0 ∉ s)
    (short : s.length < 1024) (back fore : RealColor) {E : DisplayStop → Display → Prop}
    {Q : Unit → Display → Prop} {d : Display} :
    WP (printkColor back fore s []) E Q d ↔
      WP (onConsole (consoleWriteColor (s ++ [0]) back fore)) E Q d := by
  let M := Message.ofText s plain noNul short
  obtain ⟨out, -, run, buff⟩ := template_printed (T := M.template) M.noNul M.format_length
    (M.valid [] d.machine) (M.text_length [])
  have text : out.buff = s ++ [0] := buff
  have formatted : Returns (inBuffer (SimpleKernel.printkColor (literal s) (argsOf []))) d.machine
      out d.machine := run
  simp only [printkColor, wp_bind, onMachine, wp_focus, formatted.wp_iff, setMachine_self]
  rw [text]

/-- A string of one character. -/
theorem wp_onConsole_single {c : Byte} (some : c ≠ 0) (back fore : RealColor)
    {E : DisplayStop → Display → Prop} {Q : Unit → Display → Prop} {d : Display} :
    WP (onConsole (consoleWriteColor [c, 0] back fore)) E Q d ↔
      WP ([onConsole (typeChar c (charAttribute back.code fore.code)), onConsole wrapLine,
        onConsole scroll, onConsole moveCursor].forM id) E Q d := by
  have written : consoleWriteColor [c, 0] back fore =
      (consolePutcColor c back fore >>= fun _ => pure ()) := by
    have whole : [c, 0].takeWhile (fun c => c ≠ 0) = [c] := by
      simpa [List.takeWhile_cons] using some
    rw [consoleWriteColor, whole]
    rfl
  have split : WP ([onConsole (typeChar c (charAttribute back.code fore.code)), onConsole wrapLine,
        onConsole scroll, onConsole moveCursor].forM id) E Q d ↔
      WP (onConsole (typeChar c (charAttribute back.code fore.code)) >>= fun _ =>
        onConsole wrapLine >>= fun _ => onConsole scroll >>= fun _ => onConsole moveCursor >>= fun _ =>
          pure ()) E Q d := Iff.rfl
  rw [split, written, consolePutcColor]
  simp only [onConsole, wp_bind, wp_focus, wp_pure, setConsole_console]
  rfl

theorem letterCode_compiles : Compiles (inSteps letterCode) id := by
  intro p d d' run
  have texts : ∀ s ∈ ["A", "B"], ascii '%' ∉ asciiText s ∧ 0 ∉ asciiText s ∧
      (asciiText s).length < 1024 ∧ asciiText s = s.toList.map ascii := by
    decide +kernel
  have whole : WP (printLetter p) (fun _ _ => False) (fun _ t => t = d') d := run.wp rfl
  have steps : WP ((letterCode p).forM id) (fun _ _ => False) (fun _ t => t = d') d := by
    cases p with
    | false =>
      obtain ⟨plain, noNul, short, text⟩ := texts "A" (by simp)
      have written := (wp_printkColor_text plain noNul short .black .red).1 whole
      rw [text] at written
      exact (wp_onConsole_single (by decide) .black .red).1 written
    | true =>
      obtain ⟨plain, noNul, short, text⟩ := texts "B" (by simp)
      have written := (wp_printkColor_text plain noNul short .black .green).1 whole
      rw [text] at written
      exact (wp_onConsole_single (by decide) .black .green).1 written
  obtain ⟨n, ends⟩ := inSteps_ends (List.cons_ne_nil _ _) p steps
  exact ⟨d', ⟨n, ends⟩, rfl⟩

/-! ## All the letters -/

/-- However the two threads are interleaved, at most one of them is printing, and between their
prints the screen shows A and B in turn, beginning with A.  If both get to run again and again, the
row of letters has no end. -/
theorem letters_alternate {Λ σ : Type} {P : Parties Λ σ} {display : σ → Display}
    (compiled : Compiles P display) {x : σ} {t : Terminal}
    (sim : Simulates (display x).console t) (f : ℕ → Bool) :
    (∀ i, (P.run f (.init false x) i).control (!(P.run f (.init false x) i).flag) = .waiting ∧
      ((P.run f (.init false x) i).control (P.run f (.init false x) i).flag = .waiting →
        LettersShown display (display x).machine t (P.run f (.init false x) i).rounds
          (P.run f (.init false x) i).shared)) ∧
      (Parties.Fair f → ∀ n, ∃ i, n ≤ (P.run f (.init false x) i).rounds) := by
  have carry := fun n y => lettersShown_carry (m := (display x).machine) (t := t) compiled n y
  have start : LettersShown display (display x).machine t 0 x := ⟨rfl, sim⟩
  have kept := Parties.kept_of_waiting (s := .init false x) carry rfl (fun _ => rfl) start
  refine ⟨fun i => ?_, fun fair => Parties.exists_rounds carry kept fair⟩
  have now := kept.run carry f i
  exact ⟨now.other, now.waiting⟩

/-- Two threads that take steps alternately print one letter after the other. -/
theorem letters_alternate_inSteps : ∃ d : Display, Simulates d.console Terminal.cleared ∧
    ∀ n, ∃ i, n ≤ ((inSteps letterCode).run (fun i => decide (i % 2 = 1)) (.init false d) i).rounds := by
  obtain ⟨con, sim⟩ := exists_cleared
  have fair : Parties.Fair fun i => decide (i % 2 = 1) := by
    intro t p
    cases p with
    | false => exact ⟨2 * t, by omega, by simp⟩
    | true => exact ⟨2 * t + 1, by omega, by simp⟩
  have shown := letters_alternate (x := (⟨bootMachine 0x10000, con⟩ : Display)) letterCode_compiles
    sim fun i => decide (i % 2 = 1)
  exact ⟨_, sim, shown.2 fair⟩

end Display

end SimpleKernel
