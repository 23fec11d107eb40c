import SimpleKernel.PmmInit
import SimpleKernel.Reports

/-!
# Exceptions, from the processor to the screen

What becomes of an interrupt at a vector of `isrs`: the stub makes the frame, `isr_handler` finds its
handler there, and the screen shows the outcome.  A page fault is reported with all that the
processor says about it.  An interrupt without a handler is reported, and the interrupted code goes
on as if nothing had been.
-/

namespace SimpleKernel

open ByteStore ProgramLogic X86 Display

/-- The processor at the first instruction of `isr_handler`. -/
def atIsrHandler (stub : List Op) (back n code : Word) (c : Core) : Core :=
  runOps (stub ++ isrCommonStub back) (interruptAt n code c)

/-- The machine has the frame at `regs` as it is in `mem`. -/
def ShowsFrame (m : Machine) (mem : Store 32) (regs : Word) : Prop :=
  ∀ i < 56, translate m (regs + BitVec.ofNat 32 i) ≠ none ∧
    view m (regs + BitVec.ofNat 32 i) = mem (regs + BitVec.ofNat 32 i)

section Frames

variable {m : Machine} {mem : Store 32} {regs n back code : Word} {c : Core} {stub : List Op}

theorem ShowsFrame.member (shown : ShowsFrame m mem regs) (f : PtRegsField) :
    Returns (load32 (regs + f.offset)) m (ptRegs mem regs f) m := by
  have last : f.ctorIdx < 14 := by cases f <;> decide
  have place (i : ℕ) : regs + f.offset + BitVec.ofNat 32 i =
      regs + BitVec.ofNat 32 (4 * f.ctorIdx + i) := by
    rw [PtRegsField.offset, offset_offset]
  have value : readWord (view m) (regs + f.offset) = ptRegs mem regs f := by
    refine readWord_congr_offset fun i hi => ?_
    rw [place]
    exact (shown _ (by omega)).2
  rw [← value]
  refine load32_returns fun i hi => ?_
  rw [place]
  exact (shown _ (by omega)).1

theorem atIsrHandler_entered (installed : (n, stub) ∈ isrs) :
    Entered back n (errorCode n code) c (atIsrHandler stub back n code c) := by
  rw [atIsrHandler, runOps_append]
  exact (stub_numbered (List.mem_append_left _ installed) code c).entered

/-- No vector of `isrs` is behind the end of `interrupt_handlers`. -/
theorem isrs_vector : ∀ e ∈ isrs, e.1.toNat < 256 := by decide

end Frames

/-- `init_vmm` has registered `page_fault`. -/
theorem initVmm_registers {im : Image} {m₀ m₁ : Machine} (boot : Returns (initVmm im) m₀ () m₁) :
    m₁.interruptHandlers 14 = im.pageFault := by
  have any {α : Type} (c : Kernel α) (m : Machine) :
      WP c (fun _ _ => True) (fun _ _ => True) m := by
    unfold WP
    split <;> trivial
  -- the counts stay variables, so that no loop is unrolled
  obtain ⟨k, rounds⟩ : ∃ k, pteCount * pteSize - 1 = k := ⟨_, rfl⟩
  obtain ⟨n, rounds'⟩ : ∃ n, pteCount = n := ⟨_, rfl⟩
  have registers : WP (initVmm im) (fun _ _ => True)
      (fun _ m => m.interruptHandlers 14 = im.pageFault) m₀ := by
    rw [initVmm, rounds, rounds']
    apply WP.bind (any _ _)
    intro _ m _
    apply WP.bind (any _ _)
    intro _ m _
    simp [registerInterruptHandler, switchPgd, wp_bind]
  exact registers.returned boot

namespace Display

section Handlers

variable {E : DisplayStop → Display → Prop} {d : Display} {call : Word → Word → Screen Unit}
  {regs n : Word}

/-- `isr_handler` calls the handler that is registered for the vector of its frame. -/
theorem isrHandler_calls {func : Word}
    (intNo : Returns (load32 (regs + PtRegsField.intNo.offset)) d.machine n d.machine)
    (low : n.toNat < 256) (registered : d.machine.interruptHandlers (n.setWidth 8) = func)
    (nonnull : func ≠ 0) {Q : Unit → Display → Prop} (called : WP (call func regs) E Q d) :
    WP (isrHandler call regs) E Q d := by
  simp only [isrHandler, regsMember, onMachine, wp_bind, wp_focus]
  refine intNo.wp ?_
  have found : WP (interruptHandler n) E (fun a d' => a = func ∧ d' = d) d := by
    rw [interruptHandler, if_pos low]
    exact ⟨registered, rfl⟩
  refine (found.mono ?_)
  rintro a d' ⟨rfl, rfl⟩
  rw [wp_ite]
  refine ⟨fun _ => ?_, fun none => absurd nonnull none⟩
  simp only [wp_bind, wp_focus]
  refine intNo.wp ?_
  refine (found.mono ?_)
  rintro a' d' ⟨rfl, rfl⟩
  exact called

/-- Without a handler it says so. -/
theorem isrHandler_missing
    (intNo : Returns (load32 (regs + PtRegsField.intNo.offset)) d.machine n d.machine)
    (low : n.toNat < 256) (missing : d.machine.interruptHandlers (n.setWidth 8) = 0) {t : Terminal}
    (sim : Simulates d.console t) :
    WP (isrHandler call regs) E (fun _ d' => d'.machine = d.machine ∧ Simulates d'.console
      (t.puts (asciiText "Unhandled interrupt: " ++ (signedText n ++ asciiText "\n"))
        .black .blue)) d := by
  have found : WP (interruptHandler n) E (fun a d' => a = 0 ∧ d' = d) d := by
    rw [interruptHandler, if_pos low]
    exact ⟨missing, rfl⟩
  simp only [isrHandler, regsMember, onMachine, wp_bind, wp_focus]
  refine intNo.wp ?_
  rw [setMachine_self]
  refine found.mono ?_
  rintro a d' ⟨rfl, rfl⟩
  rw [wp_ite]
  refine ⟨fun given => absurd rfl given, fun _ => ?_⟩
  simp only [wp_bind, wp_focus]
  refine intNo.wp ?_
  rw [setMachine_self]
  exact unhandled_prints n E _ t rfl sim

end Handlers

end Display

/-! ## The two outcomes -/

section Outcomes

variable (call : Word → Word → Screen Unit) (d : Display) (back code : Word) (c : Core)
  {t : Terminal}

/-- Once `init_vmm` has run, a page fault is reported with the interrupted instruction, the address
and the error code, and then the kernel hangs.  No other fault has this report. -/
theorem pageFault_reported {im : Image} {m₀ m₁ : Machine} (boot : Returns (initVmm im) m₀ () m₁)
    (kept : d.machine.interruptHandlers 14 = m₁.interruptHandlers 14) (nonnull : im.pageFault ≠ 0)
    {cr2 : Word} (linked : call im.pageFault = pageFault cr2)
    (shown : ShowsFrame d.machine (atIsrHandler (isrErrcode 14) back 14 code c).mem
      (c.reg .esp - 56)) (sim : Simulates d.console t) :
    let entry := atIsrHandler (isrErrcode 14) back 14 code c
    ∃ d', Stops (isrHandler call (readWord entry.mem (entry.reg .esp + 4))) d (.kernel .hang) d' ∧
      d'.machine = d.machine ∧
      Simulates d'.console ((faultReport c.eip cr2 code).foldl Output.onTerminal t) ∧
      ∀ eip' cr2' code', faultReport eip' cr2' code' = faultReport c.eip cr2 code →
        eip' = c.eip ∧ cr2' = cr2 ∧ code' = code := by
  intro entry
  have entered : Entered back 14 code c entry := atIsrHandler_entered (by decide)
  have described := entered.describes
  have frame : readWord entry.mem (entry.reg .esp + 4) = c.reg .esp - 56 := entered.argument
  have intNo := shown.member .intNo
  have eip := shown.member .eip
  have errCode := shown.member .errCode
  rw [described.intNo] at intNo
  rw [described.eip] at eip
  rw [described.errCode] at errCode
  have registered : d.machine.interruptHandlers ((14 : Word).setWidth 8) = im.pageFault :=
    kept.trans (initVmm_registers boot)
  have prints : PrintsAndStops d.machine (pageFault cr2 (c.reg .esp - 56)) _ _ :=
    pageFault_prints eip errCode
  have reported := prints d t rfl sim
  rw [← linked] at reported
  have handled := isrHandler_calls intNo (by decide) registered nonnull reported
  rw [frame]
  rcases handled.outcome with ⟨_, _, _, never⟩ | ⟨e, d', stop, rfl, machine, sim'⟩
  · exact never.elim
  · exact ⟨d', stop, machine, sim', fun _ _ _ same => faultReport_inj same⟩

/-- An interrupt without a handler is reported with its vector, and when `isr_handler` has returned,
the stub gives the interrupted code its registers back. -/
theorem isrHandler_unhandled {n : Word} {stub : List Op} (installed : (n, stub) ∈ isrs)
    (missing : d.machine.interruptHandlers (n.setWidth 8) = 0)
    (segments : ∀ s, s ≠ .cs → c.seg s = c.seg .ds)
    (shown : ShowsFrame d.machine (atIsrHandler stub back n code c).mem (c.reg .esp - 56))
    (sim : Simulates d.console t) :
    let entry := atIsrHandler stub back n code c
    ∃ d', Returns (isrHandler call (readWord entry.mem (entry.reg .esp + 4))) d () d' ∧
      d'.machine = d.machine ∧
      Simulates d'.console (t.puts (asciiText "Unhandled interrupt: " ++
        (signedText n ++ asciiText "\n")) .black .blue) ∧
      ∀ u, Cdecl entry u → ShowsFrame d'.machine u.mem (c.reg .esp - 56) →
        u.eip = back ∧ SameRegisters (runOps isrCommonReturn u) c := by
  intro entry
  have entered : Entered back n (errorCode n code) c entry := atIsrHandler_entered installed
  have frame : readWord entry.mem (entry.reg .esp + 4) = c.reg .esp - 56 := entered.argument
  have intNo := shown.member .intNo
  rw [entered.describes.intNo] at intNo
  obtain ⟨_, d', run, machine, sim'⟩ :=
    (isrHandler_missing intNo (isrs_vector _ installed) missing sim).returns
  rw [frame]
  refine ⟨d', run, machine, sim', fun u cdecl shown' => ⟨?_, ?_⟩⟩
  · exact cdecl.eip.trans entered.returnAddress
  · apply irqReturn_restores entered segments
    · rw [cdecl.esp, entered.esp]
      bv_omega
    · intro k hk
      rw [machine] at shown'
      exact (shown' k hk).2.symm.trans (shown k hk).2

/-- An unpaged machine with this memory, before a screen. -/
def displayOf (mem : Store 32) (handlers : Byte → Word) (console : Console) : Display where
  machine := { bootMachine 0 with mem := mem, interruptHandlers := handlers }
  console := console

theorem showsFrame_displayOf (mem : Store 32) (handlers : Byte → Word) (console : Console)
    (regs : Word) : ShowsFrame (displayOf mem handlers console).machine mem regs := by
  have off : (displayOf mem handlers console).machine.cr0 &&& 0x80000000 = 0 :=
    (by decide : (0x11 : Word) &&& 0x80000000 = 0)
  intro i _
  have walked (x : Word) : translate (displayOf mem handlers console).machine x = some x := if_pos off
  exact ⟨by simp [walked], view_eq (walked _)⟩

/-- A write to the address 16 in the kernel's code. -/
theorem pageFault_reported_write : ∃ d d', Stops
    (isrHandler (fun _ => pageFault 0x10)
      (readWord (atIsrHandler (isrErrcode 14) 0xC0100400 14 2 kernelCore).mem
        ((atIsrHandler (isrErrcode 14) 0xC0100400 14 2 kernelCore).reg .esp + 4)))
    d (.kernel .hang) d' ∧
    Simulates d'.console
      ((faultReport 0xC0100800 0x10 2).foldl Output.onTerminal Terminal.cleared) := by
  obtain ⟨m, booted⟩ := exists_booted fun _ => 0
  obtain ⟨⟨⟩, m₁, boot, -⟩ := (initVmm_spec (E := fun _ _ => False) smallImage booted.temp
    (Q := fun _ _ => True) trivial).returns
  obtain ⟨con, sim⟩ := exists_cleared
  have shown := showsFrame_displayOf (atIsrHandler (isrErrcode 14) 0xC0100400 14 2 kernelCore).mem
    m₁.interruptHandlers con (kernelCore.reg .esp - 56)
  obtain ⟨d', stop, -, sim', -⟩ := pageFault_reported (fun _ => pageFault 0x10) _ 0xC0100400 2
    kernelCore boot rfl (by decide) rfl shown sim
  exact ⟨_, d', stop, sim'⟩

/-- A breakpoint in the kernel's code. -/
theorem isrHandler_unhandled_breakpoint : ∃ d d' u, Returns (isrHandler (fun _ _ => pure ())
    (readWord (atIsrHandler (isrNoErrcode 3) 0xC0100400 3 0 kernelCore).mem
      ((atIsrHandler (isrNoErrcode 3) 0xC0100400 3 0 kernelCore).reg .esp + 4))) d () d' ∧
    Simulates d'.console (Terminal.cleared.puts (asciiText "Unhandled interrupt: 3\n") .black .blue) ∧
    SameRegisters (runOps isrCommonReturn u) kernelCore := by
  obtain ⟨con, sim⟩ := exists_cleared
  have shown := showsFrame_displayOf (atIsrHandler (isrNoErrcode 3) 0xC0100400 3 0 kernelCore).mem
    (fun _ => 0) con (kernelCore.reg .esp - 56)
  obtain ⟨d', run, machine, sim', resumed⟩ := isrHandler_unhandled (fun _ _ => pure ()) _ 0xC0100400 0
    kernelCore (by decide) rfl (fun s hs => if_neg hs) shown sim
  have line : asciiText "Unhandled interrupt: " ++ (signedText 3 ++ asciiText "\n") =
      asciiText "Unhandled interrupt: 3\n" := by decide +kernel
  rw [line] at sim'
  refine ⟨_, d', _, run, sim', (resumed _ (ret_cdecl _) ?_).2⟩
  rw [machine]
  exact shown

end Outcomes

end SimpleKernel
