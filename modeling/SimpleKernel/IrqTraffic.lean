import SimpleKernel.Devices
import Mathlib.Logic.Relation

/-!
# Interrupt requests from the devices to their handlers

Devices ask for interrupts at any time, the controllers pass on the most urgent request when the
processor lets interrupts in, and `irq_handler` tells the controllers that the request is done
before it calls the handler.  So while a handler runs, or a task that the timer's handler has
switched to, nothing is in service and no request is held back.
-/

namespace SimpleKernel

open ByteStore ProgramLogic X86 Pic8259 Board

/-! ## States and steps -/

/-- The processor runs code, with interrupts let in or not, or has taken a vector from the
controllers and is on its way to `irq_handler`, with interrupts shut out. -/
inductive Phase where
  | running (interruptible : Bool)
  | entered (n : Byte)
  deriving DecidableEq, Repr

/-- The board and what has happened on its lines, the last in front: the requests that controllers
latched, those that the processor took, the interrupts that came without a request, and the runs of
`irq_handler`. -/
structure Traffic where
  board : Board
  phase : Phase
  latched : List ℕ
  taken : List ℕ
  spurious : List ℕ
  handled : List ℕ

/-- The line that has the vector `n`. -/
def lineOf (n : Byte) : ℕ := n.toNat - 32

/-- The memory shows the frame that the stub for the vector `n` passes to its handler. -/
def FrameShown (m : Machine) (n regs : Word) : Prop :=
  ∃ back enter leave code c, (n, enter, leave) ∈ stubs back ∧
    regs = readWord (runOps enter (interruptAt n code c)).mem
      ((runOps enter (interruptAt n code c)).reg .esp + 4) ∧
    ∀ i < 56, translate m (regs + BitVec.ofNat 32 i) ≠ none ∧
      view m (regs + BitVec.ofNat 32 i) =
        (runOps enter (interruptAt n code c)).mem (regs + BitVec.ofNat 32 i)

/-- Code that runs changes everything but the controllers, also whether interrupts are let in: it is
the kernel, a handler, or another task. -/
inductive TrafficStep : Traffic → Traffic → Prop where
  | request {s : Traffic} {k : ℕ} (line : k ∈ Pics.order) : TrafficStep s { s with
      board := s.board.setPics (s.board.pics.raise k)
      latched := if s.board.pics.pending k then s.latched else k :: s.latched }
  | acknowledge {s : Traffic} {n : Byte} {p : Pics} (letIn : s.phase = .running true)
      (given : s.board.pics.acknowledge = some (n, p)) : TrafficStep s { s with
      board := s.board.setPics p
      phase := .entered n
      taken := lineOf n :: s.taken }
  | spuriousMaster {s : Traffic} (letIn : s.phase = .running true) : TrafficStep s { s with
      board := s.board.setPics s.board.pics.spuriousMaster.2
      phase := .entered s.board.pics.spuriousMaster.1
      spurious := lineOf s.board.pics.spuriousMaster.1 :: s.spurious }
  | spuriousSlave {s : Traffic} (letIn : s.phase = .running true) : TrafficStep s { s with
      board := s.board.setPics s.board.pics.spuriousSlave.2
      phase := .entered s.board.pics.spuriousSlave.1
      spurious := lineOf s.board.pics.spuriousSlave.1 :: s.spurious }
  | handle {s : Traffic} {n : Byte} {regs : Word} {m : Machine} {b : Board}
      (entered : s.phase = .entered n) (frame : FrameShown m (n.setWidth 32) regs)
      (run : Returns (irqHandler regs) (s.board.setMachine m) () b) : TrafficStep s { s with
      board := b
      phase := .running false
      handled := lineOf n :: s.handled }
  | code {s : Traffic} {m : Machine} {f g : Bool} (running : s.phase = .running f) :
      TrafficStep s { s with
        board := s.board.setMachine m
        phase := .running g }

/-- No line has been used, and interrupts are shut out. -/
def Traffic.start (b : Board) : Traffic := ⟨b, .running false, [], [], [], []⟩

/-! ## One interrupt -/

section Handler

variable {E : BoardStop → Board → Prop} {b : Board} {m : Machine} {p : Pics} {n : Byte}
  {regs : Word} {k : ℕ}

/-- The vector of line `k`. -/
def vectorOf (k : ℕ) : Byte := BitVec.ofNat 8 (32 + k)

theorem lineOf_vectorOf (hk : k < 16) : lineOf (vectorOf k) = k := by
  simp only [lineOf, vectorOf, BitVec.toNat_ofNat]
  omega

theorem vector_initialPics : ∀ k < 16, initialPics.vector k = vectorOf k := by decide

/-- `irq_handler` finds the number of its interrupt. -/
theorem FrameShown.intNo {n : Word} (frame : FrameShown m n regs) :
    Returns (load32 (regs + PtRegsField.intNo.offset)) m n m := by
  obtain ⟨back, enter, leave, code, c, installed, argument, shown⟩ := frame
  obtain ⟨stub, known, rfl, -⟩ := exists_of_mem_stubs installed
  have entered : Entered back _ _ c (runOps (irqCommonStub back) (runOps _ (interruptAt _ code c))) :=
    (stub_numbered known code c).entered
  rw [← runOps_append] at entered
  have regs_eq := argument.trans entered.argument
  have number := entered.describes.intNo
  rw [← regs_eq] at number
  have place (i : ℕ) : regs + PtRegsField.intNo.offset + BitVec.ofNat 32 i =
      regs + BitVec.ofNat 32 (36 + i) := by
    rw [show PtRegsField.intNo.offset = BitVec.ofNat 32 36 from rfl, offset_offset]
  have value : readWord (view m) (regs + PtRegsField.intNo.offset) = n := by
    refine Eq.trans (readWord_congr_offset fun i hi => ?_) number
    rw [place]
    exact (shown (36 + i) (by omega)).2
  rw [← value]
  refine load32_returns fun i hi => ?_
  rw [place]
  exact (shown (36 + i) (by omega)).1

/-- Without paging the frame is shown where it was made. -/
theorem frameShown_unpaged {n back : Word} {enter leave : List Op} {code : Word} {c : Core}
    (installed : (n, enter, leave) ∈ stubs back) (off : m.cr0 &&& 0x80000000 = 0)
    (mem : m.mem = (runOps enter (interruptAt n code c)).mem) :
    FrameShown m n (readWord m.mem ((runOps enter (interruptAt n code c)).reg .esp + 4)) := by
  have walked (x : Word) : translate m x = some x := if_pos off
  refine ⟨back, enter, leave, code, c, installed, by rw [mem], fun i _ => ⟨?_, ?_⟩⟩
  · simp [walked]
  · rw [view_eq (walked _), mem]

/-- The commands of `irq_handler` for the vector `n` end all that is in service. -/
def Serving (n : Byte) (p : Pics) : Prop := ∃ a s, p.InService a s ∧ (∀ k ∈ a, k < 8) ∧
  (∀ k ∈ s, k < 8) ∧ (n.toNat < 40 → s = none)

theorem Serving.raise (serving : Serving n p) (k : ℕ) : Serving n (p.raise k) := by
  obtain ⟨a, s, served, ha, hs, none⟩ := serving
  exact ⟨a, s, served.raise k, ha, hs, none⟩

/-- `irq_handler` leaves nothing in service and calls the handler of its vector, if there is one. -/
theorem irqHandler_spec (serving : Serving n b.pics)
    (intNo : Returns (load32 (regs + PtRegsField.intNo.offset)) b.machine (n.setWidth 32) b.machine)
    {Q : Unit → Board → Prop}
    (hQ : ∀ q : Pics, q.Idle → q.pending = b.pics.pending → q.vector = b.pics.vector →
      Q () ⟨b.machine, q, b.pit, if b.machine.interruptHandlers n = 0 then b.calls else
        (b.machine.interruptHandlers n, regs) :: b.calls⟩) : WP (irqHandler regs) E Q b := by
  obtain ⟨a, s, served, ha, hs, low⟩ := serving
  have small := n.isLt
  have number : (n.setWidth 32 : Word).toNat = n.toNat := by
    rw [BitVec.toNat_setWidth]
    omega
  have index : ((n.setWidth 32 : Word).setWidth 8) = n := by simp
  -- behind the command to the slave, if there is one
  have last {p : Pics} (served : p.InService a none) (pending : p.pending = b.pics.pending)
      (vector : p.vector = b.pics.vector) : WP (do
        Board.outb 0x20 0x20
        let func ← interruptHandler (n.setWidth 32)
        if func ≠ 0 then
          callHandler func regs) E Q (b.setPics p) := by
    obtain ⟨q, written, idle, pending', vector'⟩ := served.endMaster ha
    have done := hQ q idle (pending'.trans pending) (vector'.trans vector)
    rw [wp_bind]
    refine outb_pics written ?_
    simp only [interruptHandler, wp_bind, wp_ite, number, index, wp_get, wp_pure]
    refine ⟨fun _ => ⟨fun given => ?_, fun missing => ?_⟩, fun large => (large (by omega)).elim⟩
    · have given : b.machine.interruptHandlers n ≠ 0 := given
      rw [if_neg given] at done
      exact done
    · have missing : b.machine.interruptHandlers n = 0 := not_not.1 missing
      rw [if_pos missing] at done
      exact done
  simp only [irqHandler, wp_bind, onMachine, wp_focus, wp_ite]
  refine intNo.wp ⟨fun high => ?_, fun lower => ?_⟩
  · obtain ⟨q, written, served', pending, vector⟩ := served.endSlave hs
    refine outb_pics written ?_
    simpa only [wp_bind, wp_ite, setMachine_self] using last served' pending vector
  · obtain rfl := low (by omega)
    simpa only [wp_bind, wp_ite, setMachine_self, setPics_self] using last served rfl rfl

/-- A request of line `k` that the processor has taken. -/
theorem serving_accept (idle : p.Idle) (hk : k < 16) : Serving (vectorOf k) (p.accept k) := by
  refine ⟨_, _, idle.accept k, ?_, ?_, ?_⟩
  · intro j hj
    obtain rfl := Option.some.inj hj
    split <;> omega
  · intro j hj
    unfold Pics.slaveLine at hj
    split at hj
    · simp at hj
    · obtain rfl := Option.some.inj hj
      omega
  · intro low
    have : (vectorOf k).toNat = 32 + k := by
      rw [vectorOf, BitVec.toNat_ofNat]
      omega
    exact if_pos (by omega)

end Handler

/-! ## Runs -/

/-- What every step keeps. -/
structure Settled (s : Traffic) : Prop where
  vector : ∀ k < 16, s.board.pics.vector k = vectorOf k
  idle : ∀ f, s.phase = .running f → s.board.pics.Idle
  serving : ∀ n, s.phase = .entered n → Serving n s.board.pics ∧ ∃ k ∈ Pics.order, n = vectorOf k
  waiting : ∀ k ∈ Pics.order,
    s.latched.count k = s.taken.count k + (if s.board.pics.pending k then 1 else 0)
  finished : ∀ k ∈ Pics.order, s.taken.count k + s.spurious.count k =
    s.handled.count k + (if s.phase = .entered (vectorOf k) then 1 else 0)
  gone : ∀ k ∈ s.spurious, k = 7 ∨ k = 15

section Runs

variable {s t : Traffic}

theorem vectorOf_inj {j k : ℕ} (hj : j ∈ Pics.order) (hk : k ∈ Pics.order) :
    vectorOf j = vectorOf k ↔ j = k := by
  constructor
  · intro same
    have lines := congrArg lineOf same
    rwa [lineOf_vectorOf (Pics.mem_order_iff.1 hj).1, lineOf_vectorOf (Pics.mem_order_iff.1 hk).1]
      at lines
  · rintro rfl
    rfl

/-- The processor, in code that lets interrupts in, takes the vector of line `j`. -/
theorem Settled.enter {j : ℕ} {p : Pics} {taken spurious : List ℕ} (ok : Settled s)
    (letIn : s.phase = .running true) (hj : j ∈ Pics.order) (serving : Serving (vectorOf j) p)
    (vector : p.vector = s.board.pics.vector)
    (waiting : ∀ k ∈ Pics.order, s.latched.count k = taken.count k + (if p.pending k then 1 else 0))
    (entered : ∀ k ∈ Pics.order, taken.count k + spurious.count k =
      s.taken.count k + s.spurious.count k + (if j = k then 1 else 0))
    (gone : ∀ k ∈ spurious, k = 7 ∨ k = 15) : Settled { s with
      board := s.board.setPics p
      phase := .entered (vectorOf j)
      taken := taken
      spurious := spurious } where
  vector k hk := (congrFun vector k).trans (ok.vector k hk)
  idle f h := by cases h
  serving n h := by
    cases h
    exact ⟨serving, j, hj, rfl⟩
  waiting := waiting
  finished k hk := by
    have before := ok.finished k hk
    rw [letIn, if_neg (by simp)] at before
    simp only [Phase.entered.injEq, vectorOf_inj hj hk]
    rw [entered k hk, before]
    omega
  gone := gone

theorem TrafficStep.keeps (step : TrafficStep s t) (ok : Settled s) : Settled t := by
  cases step with
  | @request k line =>
    have pending := s.board.pics.pending_raise (k := k) (Pics.mem_order_iff.1 line).1
    refine ⟨fun j hj => ?_, fun f h => (ok.idle f h).raise k, fun n h => ?_, fun j hj => ?_, ok.finished,
      ok.gone⟩
    · rw [← ok.vector j hj]
      exact congrFun (Pics.vector_raise _ k) j
    · exact ⟨(ok.serving n h).1.raise k, (ok.serving n h).2⟩
    · have before := ok.waiting j hj
      simp only [Board.setPics_pics, pending]
      by_cases same : j = k
      · subst same
        cases h : s.board.pics.pending j <;> simp_all
      · split <;> simp_all [Ne.symm same]
  | @acknowledge n p letIn given =>
    have idle := ok.idle true letIn
    rw [idle.acknowledge_eq, Option.map_eq_some_iff] at given
    obtain ⟨j, first, same⟩ := given
    obtain ⟨hn, rfl⟩ := Prod.mk.inj same
    have hj := List.mem_of_find?_eq_some first
    have pending := List.find?_some first
    have hj16 := (Pics.mem_order_iff.1 hj).1
    obtain rfl : vectorOf j = n := (ok.vector j hj16).symm.trans hn
    rw [lineOf_vectorOf hj16]
    refine ok.enter letIn hj (serving_accept idle hj16) (Pics.vector_accept ..) (fun k hk => ?_)
      (fun k hk => ?_) ok.gone
    · rw [ok.waiting k hk, Pics.pending_accept hk, List.count_cons]
      by_cases h : k = j
      · simp [h, pending]
      · simp [h, Ne.symm h]
    · simp only [List.count_cons, beq_iff_eq]
      omega
  | spuriousMaster letIn =>
    have idle := ok.idle true letIn
    have vector : s.board.pics.spuriousMaster.1 = vectorOf 7 := ok.vector 7 (by decide)
    rw [vector, lineOf_vectorOf (by decide)]
    refine ok.enter letIn (by decide) ⟨none, none, idle, by simp, by simp, fun _ => rfl⟩ rfl ok.waiting
      (fun k hk => ?_) (by simpa using ok.gone)
    simp only [List.count_cons, beq_iff_eq]
    omega
  | spuriousSlave letIn =>
    have idle := ok.idle true letIn
    have vector : s.board.pics.spuriousSlave.1 = vectorOf 15 := ok.vector 15 (by decide)
    rw [vector, lineOf_vectorOf (by decide)]
    refine ok.enter letIn (by decide) ⟨some 2, none, idle.spuriousSlave, by simp, by simp, fun _ => rfl⟩
      rfl (fun k hk => ?_) (fun k hk => ?_) (by simpa using ok.gone)
    · rw [ok.waiting k hk, Pics.pending_spuriousSlave hk]
    · simp only [List.count_cons, beq_iff_eq]
      omega
  | @handle n regs m b entered frame run =>
    obtain ⟨serving, j, hj, rfl⟩ := ok.serving n entered
    have handled := (irqHandler_spec (E := fun _ _ => True) (b := s.board.setMachine m) serving
      frame.intNo (Q := fun _ b => b.pics.Idle ∧ b.pics.pending = s.board.pics.pending ∧
        b.pics.vector = s.board.pics.vector)
      fun q idle pending vector => ⟨idle, pending, vector⟩).returned run
    obtain ⟨idle, pending, vector⟩ := handled
    refine ⟨fun k hk => (congrFun vector k).trans (ok.vector k hk), fun f h => idle, (fun n h => by cases h),
      fun k hk => ?_, fun k hk => ?_, ok.gone⟩
    · rw [ok.waiting k hk]
      simp only [pending]
    · have before := ok.finished k hk
      simp only [entered, Phase.entered.injEq, vectorOf_inj hj hk] at before
      rw [before, lineOf_vectorOf (Pics.mem_order_iff.1 hj).1]
      simp [List.count_cons]
  | code running =>
    refine ⟨ok.vector, fun f h => ok.idle _ running, (fun n h => by cases h), ok.waiting,
      fun k hk => ?_, ok.gone⟩
    have before := ok.finished k hk
    rwa [running] at before

theorem TrafficStep.run (steps : Relation.ReflTransGen TrafficStep s t) (ok : Settled s) :
    Settled t := by
  induction steps with
  | refl => exact ok
  | tail _ step ih => exact step.keeps ih

/-- `init_8259APIC` in every state of the controllers. -/
theorem settled_start {b₀ b : Board} (init : Returns init8259APIC b₀ () b) :
    Settled (.start b) := by
  obtain rfl : b = b₀.setPics initialPics :=
    (init8259APIC_spec (E := fun _ _ => True) (Q := fun _ b => b = b₀.setPics initialPics)
      rfl).returned init
  refine ⟨vector_initialPics, fun _ _ => initialPics_idle, (fun n h => by cases h), fun k _ => ?_,
    fun k _ => ?_, by simp [Traffic.start]⟩
  · simp [Traffic.start, initialPics_pending]
  · simp [Traffic.start]

/-! ## Main results -/

/-- After `init_8259APIC`, from whatever state of the controllers, and in every run of the devices, the
processor and `irq_handler`: nothing is in service while code runs; every request that was latched
either waits, or is on its way, or went through `irq_handler` once, and only lines 7 and 15 see
interrupts without a request.  The processor is offered the most urgent waiting request, with the
vector of its line.  `irq_handler` always gets to the handler of its vector, with the frame of the
stub, and calls nothing where there is none. -/
theorem irqTraffic_conserved (b₀ b : Board) (s : Traffic) (init : Returns init8259APIC b₀ () b)
    (steps : Relation.ReflTransGen TrafficStep (.start b) s) :
    (∀ f, s.phase = .running f → s.board.pics.Idle ∧
      s.board.pics.acknowledge.map Prod.fst = (Pics.order.find? s.board.pics.pending).map vectorOf) ∧
    (∀ k ∈ Pics.order, s.latched.count k + s.spurious.count k = s.handled.count k +
      (if s.board.pics.pending k then 1 else 0) + (if s.phase = .entered (vectorOf k) then 1 else 0)) ∧
    (∀ k ∈ s.spurious, k = 7 ∨ k = 15) ∧
    ∀ n, s.phase = .entered n → ∀ m regs, FrameShown m (n.setWidth 32) regs →
      ∃ t, Returns (irqHandler regs) (s.board.setMachine m) () t ∧ t.machine = m ∧ t.pics.Idle ∧
        t.calls = if m.interruptHandlers n = 0 then s.board.calls else
          (m.interruptHandlers n, regs) :: s.board.calls := by
  have ok := TrafficStep.run steps (settled_start init)
  refine ⟨fun f running => ⟨ok.idle f running, ?_⟩, fun k hk => ?_, ok.gone, fun n entered m regs frame => ?_⟩
  · rw [(ok.idle f running).acknowledge_eq, Option.map_map]
    cases first : Pics.order.find? s.board.pics.pending with
    | none => rfl
    | some j =>
      have hj := List.mem_of_find?_eq_some first
      exact congrArg some (ok.vector j (Pics.mem_order_iff.1 hj).1)
  · have waiting := ok.waiting k hk
    have finished := ok.finished k hk
    omega
  · obtain ⟨⟨⟩, t, run, machine, idle, calls⟩ := (irqHandler_spec (E := fun _ _ => False)
      (b := s.board.setMachine m) (ok.serving n entered).1 frame.intNo
      (Q := fun _ t => t.machine = m ∧ t.pics.Idle ∧
        t.calls = if m.interruptHandlers n = 0 then s.board.calls else
          (m.interruptHandlers n, regs) :: s.board.calls)
      fun q idle _ _ => ⟨rfl, idle, rfl⟩).returns
    exact ⟨t, run, machine, idle, calls⟩

/-- Controllers in the middle of an initialization, with requests in service. -/
def strayBoard : Board where
  machine := bootMachine 0
  pics := ⟨⟨0xFF, 0x41, 0x10, 0x13, 0x70, 0, 0, .icw4⟩, ⟨0, 0x02, 0xFF, 0x11, 0, 0, 0, .icw2⟩⟩
  pit := ⟨0, none, none⟩
  calls := []

/-- What `init_8259APIC` makes of them. -/
theorem init_strayBoard : Returns init8259APIC strayBoard () (strayBoard.setPics initialPics) := by
  obtain ⟨⟨⟩, t, run, rfl⟩ := (init8259APIC_spec (E := fun _ _ => False) (b := strayBoard)
    (Q := fun _ t => t = strayBoard.setPics initialPics) rfl).returns
  exact run

/-- A timer tick with a handler. -/
theorem irqTraffic_conserved_tick : ∃ b s regs, Returns init8259APIC strayBoard () b ∧
    Relation.ReflTransGen TrafficStep (.start b) s ∧ s.latched = [0] ∧ s.handled.count 0 = 1 ∧
    s.board.calls = [(0xC0100900, regs)] ∧ s.board.pics.Idle := by
  have installed : ((32 : Word), irq 32 ++ irqCommonStub 0xC0100400, irqCommonReturn) ∈
      stubs 0xC0100400 :=
    List.mem_append_right _ (List.mem_map.2 ⟨(32, irq 32), by decide, rfl⟩)
  set m : Machine := { bootMachine 0 with
    mem := (runOps (irq 32 ++ irqCommonStub 0xC0100400) (interruptAt 32 0 kernelCore)).mem
    interruptHandlers := Function.update (fun _ => 0) 32 0xC0100900 } with hm
  obtain ⟨regs, frame⟩ : ∃ regs, FrameShown m 32 regs :=
    ⟨_, frameShown_unpaged installed (by decide) rfl⟩
  have ready : Relation.ReflTransGen TrafficStep (.start (strayBoard.setPics initialPics))
      ⟨strayBoard.setPics ((initialPics.raise 0).accept 0), .entered 32, [0], [0], [], []⟩ :=
    .head (.request (k := 0) (by decide)) (.head (.code (m := bootMachine 0) (g := true) rfl)
      (.single (.acknowledge rfl rfl)))
  obtain ⟨-, -, -, handler⟩ := irqTraffic_conserved _ _ _ init_strayBoard ready
  obtain ⟨t, run, -, idle, calls⟩ := handler 32 rfl m regs frame
  have steps := ready.tail (.handle rfl frame run)
  have called : t.calls = [(0xC0100900, regs)] := by
    rw [calls, if_neg (by simp [hm])]
    simp [hm, strayBoard]
  exact ⟨_, _, regs, init_strayBoard, steps, rfl, rfl, called, idle⟩

/-- The lines with a waiting request, the most urgent first. -/
def waitingLines (s : Traffic) : List ℕ := Pics.order.filter s.board.pics.pending

/-- A step without a new request of a device and without a spurious interrupt. -/
def Quiet (s t : Traffic) : Prop := TrafficStep s t ∧ t.latched = s.latched ∧ t.spurious = s.spurious

/-- Where the first of the waiting requests is taken, the others are left. -/
theorem filter_find {l : List ℕ} (nodup : l.Nodup) {p : ℕ → Bool} {j : ℕ} (first : l.find? p = some j) :
    l.filter p = j :: l.filter fun k => p k && decide (k ≠ j) := by
  induction l with
  | nil => simp at first
  | cons a l ih =>
    obtain ⟨away, nodup⟩ := List.nodup_cons.1 nodup
    cases h : p a with
    | true =>
      obtain rfl : a = j := by simpa [List.find?_cons, h] using first
      rw [List.filter_cons_of_pos h, List.filter_cons_of_neg (by simp)]
      refine congrArg (a :: ·) (List.filter_congr fun k hk => ?_)
      have other : k ≠ a := fun same => away (same ▸ hk)
      simp [other]
    | false =>
      have first : l.find? p = some j := by simpa [List.find?_cons, h] using first
      rw [List.filter_cons_of_neg (by simp [h]), List.filter_cons_of_neg (by simp [h]), ih nodup first]

theorem Quiet.keeps (step : Quiet s t) (ok : Settled s) :
    ∃ l, t.taken = l.reverse ++ s.taken ∧ l ++ waitingLines t = waitingLines s := by
  obtain ⟨step, latched, spurious⟩ := step
  cases step with
  | @request k line =>
    refine ⟨[], rfl, List.filter_congr fun j hj => ?_⟩
    rw [Board.setPics_pics, Pics.pending_raise (Pics.mem_order_iff.1 line).1]
    by_cases same : j = k
    · subst same
      cases h : s.board.pics.pending j <;> simp_all
    · simp [same]
  | @acknowledge n p letIn given =>
    have idle := ok.idle true letIn
    rw [idle.acknowledge_eq, Option.map_eq_some_iff] at given
    obtain ⟨j, first, same⟩ := given
    obtain ⟨rfl, rfl⟩ := Prod.mk.inj same
    have hj16 := (Pics.mem_order_iff.1 (List.mem_of_find?_eq_some first)).1
    refine ⟨[j], ?_, ?_⟩
    · rw [ok.vector j hj16, lineOf_vectorOf hj16]
      rfl
    · rw [waitingLines, waitingLines, filter_find Pics.order_nodup first]
      exact congrArg (j :: ·) (List.filter_congr fun k hk => Pics.pending_accept hk)
  | spuriousMaster letIn => simp at spurious
  | spuriousSlave letIn => simp at spurious
  | @handle n regs m b entered frame run =>
    have pending := (irqHandler_spec (E := fun _ _ => True) (b := s.board.setMachine m)
      (ok.serving n entered).1 frame.intNo (Q := fun _ b => b.pics.pending = s.board.pics.pending)
      fun q _ pending _ => pending).returned run
    refine ⟨[], rfl, ?_⟩
    simp only [waitingLines, pending, List.nil_append]
  | code running => exact ⟨[], rfl, rfl⟩

/-- From every state that can be reached, while the devices are quiet, the processor takes the
waiting requests in the order of their urgency, which is 0, 1, 8 to 15, and 3 to 7. -/
theorem irqTraffic_byUrgency (b₀ b : Board) (s t : Traffic) (init : Returns init8259APIC b₀ () b)
    (before : Relation.ReflTransGen TrafficStep (.start b) s)
    (quiet : Relation.ReflTransGen Quiet s t) :
    ∃ l, t.taken = l.reverse ++ s.taken ∧ l ++ waitingLines t = waitingLines s := by
  have ok := TrafficStep.run before (settled_start init)
  have both : Settled t ∧ ∃ l, t.taken = l.reverse ++ s.taken ∧ l ++ waitingLines t = waitingLines s := by
    induction quiet with
    | refl => exact ⟨ok, [], rfl, rfl⟩
    | tail _ step ih =>
      obtain ⟨ok', l, taken, lines⟩ := ih
      obtain ⟨l', taken', lines'⟩ := step.keeps ok'
      refine ⟨step.1.keeps ok', l ++ l', ?_, ?_⟩
      · rw [taken', taken, List.reverse_append, List.append_assoc]
      · rw [List.append_assoc, lines', lines]
  exact both.2

/-- Line 9 of the slave goes before line 5 of the master. -/
theorem irqTraffic_byUrgency_slave : ∃ b s t, Returns init8259APIC strayBoard () b ∧
    Relation.ReflTransGen TrafficStep (.start b) s ∧ Relation.ReflTransGen Quiet s t ∧
    waitingLines s = [9, 5] ∧ t.taken = [9] ∧ waitingLines t = [5] := by
  have before : Relation.ReflTransGen TrafficStep (.start (strayBoard.setPics initialPics))
      ⟨strayBoard.setPics ((initialPics.raise 5).raise 9), .running true, [9, 5], [], [], []⟩ :=
    .head (.request (k := 5) (by decide)) (.head (.request (k := 9) (by decide))
      (.single (.code (m := bootMachine 0) (g := true) rfl)))
  have quiet : Relation.ReflTransGen Quiet
      ⟨strayBoard.setPics ((initialPics.raise 5).raise 9), .running true, [9, 5], [], [], []⟩
      ⟨strayBoard.setPics (((initialPics.raise 5).raise 9).accept 9), .entered 41, [9, 5], [9], [], []⟩ :=
    .single ⟨.acknowledge rfl rfl, rfl, rfl⟩
  have lines : waitingLines ⟨strayBoard.setPics ((initialPics.raise 5).raise 9), .running true, [9, 5],
      [], [], []⟩ = [9, 5] := by decide
  obtain ⟨l, taken, rest⟩ := irqTraffic_byUrgency _ _ _ _ init_strayBoard before quiet
  rw [lines] at rest
  refine ⟨_, _, _, init_strayBoard, before, quiet, lines, rfl, ?_⟩
  obtain rfl : l = [9] := by simpa using congrArg List.reverse taken.symm
  simpa using rest

end Runs

end SimpleKernel
