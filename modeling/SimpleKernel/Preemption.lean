import SimpleKernel.RunQueue
import SimpleKernel.Interrupts
import SimpleKernel.SwitchTo

/-!
# Preemption

Threads that the timer interrupts at any point.  The C code between the interrupt stub and
`switch_to` is a parameter that follows the C calling convention.  A preempted thread consists of
its stack, on which the stub and the C code have left their frames, and its `struct context`;
nobody touches either of them until the thread goes on, and then its registers are what they were.
-/

namespace SimpleKernel

open ByteStore ProgramLogic X86

/-- The tasks, their stacks, the variable `current` and the two return addresses of the stub and of
`switch_to`; none of the memory overlaps. -/
structure Threads where
  tasks : List Word
  lo : Word → ℕ
  hi : Word → ℕ
  current : Word
  back : Word
  switchRet : Word
  placed : Placed tasks
  stack_end : ∀ a ∈ tasks, hi a ≤ 2 ^ 32
  stacks_apart : ∀ a ∈ tasks, ∀ b ∈ tasks, a ≠ b → hi a ≤ lo b ∨ hi b ≤ lo a
  structs_apart : ∀ a ∈ tasks, ∀ b ∈ tasks, b.toNat + 44 ≤ lo a ∨ hi a ≤ b.toNat
  current_end : current.toNat + 4 ≤ 2 ^ 32
  current_stack : ∀ a ∈ tasks, current.toNat + 4 ≤ lo a ∨ hi a ≤ current.toNat
  current_struct : ∀ a ∈ tasks, current.toNat + 4 ≤ a.toNat ∨ a.toNat + 44 ≤ current.toNat

/-- The C code that runs on a timer interrupt: `irq_handler`, `timer_callback`, `schedule` and
`change_task_to`, compiled.  It takes at most `depth` bytes of stack.  `calls` leads from the first
instruction of `irq_handler` to that of `switch_to`, `returns` from there back into the stub where
no task is switched, and `finishes` from behind the call of `switch_to` into the stub. -/
structure Compiled where
  depth : ℕ
  calls : Core → Core → Prop
  returns : Core → Core → Prop
  finishes : Core → Core → Prop

/-- The processor at the first instruction of `irq_handler`, when the timer interrupts it in the
state `c`. -/
def atHandler (back : Word) (c : Core) : Core :=
  runOps (irqCommonStub back) (runOps irq0 c.interrupt)

theorem atHandler_entered (back : Word) (c : Core) : Entered back 32 0 c (atHandler back c) :=
  (isrNoErrcode_numbered 32 c).entered

section System

variable (w : Threads) (k : Compiled)

/-- The task in the variable `current`. -/
def currentTask (c : Core) : Word := readWord c.mem w.current

/-- `irq_handler` begins in the thread `task`. -/
structure InHandler (c : Core) (task : Word) : Prop where
  mem : task ∈ w.tasks
  current : currentTask w c = task
  low : w.lo task + k.depth ≤ (c.reg .esp).toNat
  high : (c.reg .esp).toNat + 8 ≤ w.hi task
  masked : c.eflags &&& interruptFlag = 0
  segments : KernelSegments c

/-- The bytes that belong to `irq_handler` when it begins in `c`: its frame and its argument. -/
def HandlerFrame (c : Core) (x : Word) : Prop :=
  (c.reg .esp).toNat ≤ x.toNat + k.depth ∧ x.toNat < (c.reg .esp).toNat ∨
    (c.reg .esp).toNat + 4 ≤ x.toNat ∧ x.toNat < (c.reg .esp).toNat + 8

/-- `switch_to`, called in `t` by the thread `task`, has returned in `d`, and the stack above the
call is as it was. -/
structure Resumed (task : Word) (t d : Core) : Prop where
  cdecl : Cdecl t d
  stack : ∀ x : Word, (t.reg .esp).toNat ≤ x.toNat → x.toNat < w.hi task → d.mem x = t.mem x
  masked : d.eflags &&& interruptFlag = 0
  segments : KernelSegments d

/-- `schedule`, begun in `c` while `task` is current, has come to its call of `switch_to` in `t`: the
contexts of the two tasks are the arguments, and `current` is what it has been set to. -/
def Schedules (c t : Core) (task : Word) : Prop :=
  ∃ (s u : Sched) (prev next : Word), s.mem = c.mem ∧ s.current = task ∧
    Returns scheduleCall s (some (prev, next)) u ∧
    readWord t.mem (t.reg .esp + 4) = contextOf prev ∧
    readWord t.mem (t.reg .esp + 8) = contextOf next ∧ currentTask w t = u.current

/-- What the C code does before it calls `switch_to`. -/
structure CallsSwitch (c t : Core) (task : Word) : Prop where
  schedules : Schedules w c t task
  low : (c.reg .esp).toNat ≤ (t.reg .esp).toNat - 4 + k.depth
  four : 4 ≤ (t.reg .esp).toNat
  high : (t.reg .esp).toNat + 12 ≤ (c.reg .esp).toNat
  mem : ∀ x, ¬ HandlerFrame k c x →
    (x.toNat < w.current.toNat ∨ w.current.toNat + 4 ≤ x.toNat) → t.mem x = c.mem x
  masked : t.eflags &&& interruptFlag = 0
  segments : KernelSegments t

/-- The compiled code follows the calling convention, writes its own frames and `current` only, and
calls `switch_to` as `schedule` does.  Without such a call `schedule` leaves `current` alone. -/
structure FollowsC : Prop where
  calls : ∀ task c t, InHandler w k c task → k.calls c t → CallsSwitch w k c t task
  returns : ∀ task c t, InHandler w k c task → k.returns c t →
    Cdecl c t ∧ ∀ x, ¬ HandlerFrame k c x → t.mem x = c.mem x
  finishes : ∀ task c t d e, InHandler w k c task → k.calls c t → Resumed w task t d →
    k.finishes d e → Cdecl c e ∧ ∀ x, ¬ HandlerFrame k c x → e.mem x = d.mem x

/-- Behind `irq_handler` the stub goes on if control has returned to it. -/
def stubReturn (e : Core) : Core := if e.eip = w.back then runOps irqCommonReturn e else e

/-- A timer interrupt in the state `c`, up to the state in which a thread is running again.  From
the interrupt on interrupts are masked, so nothing comes in between.  `switch_to` may let them in
again, when it loads the flags of a task that has not run yet: that task is running then, and about
to return from `switch_to` into its function. -/
inductive Timer (c : Core) : Core → Prop where
  | stay {e : Core} : k.returns (atHandler w.back c) e → Timer c (stubReturn w e)
  | start {t : Core} : k.calls (atHandler w.back c) t →
    (runOps switchTo t).eflags &&& interruptFlag ≠ 0 →
    Timer c { runOps switchTo t with eip := w.switchRet }
  | resume {t e : Core} : k.calls (atHandler w.back c) t →
    (runOps switchTo t).eflags &&& interruptFlag = 0 →
    k.finishes (Op.ret.exec (runOps switchTo t)) e → Timer c (stubReturn w e)

/-- The running thread does anything that leaves memory outside its stack and the segment selectors
alone. -/
structure Runs (c t : Core) : Prop where
  mem : ∀ x : Word, (x.toNat < w.lo (currentTask w c) ∨ w.hi (currentTask w c) ≤ x.toNat) →
    t.mem x = c.mem x
  seg : t.seg = c.seg

/-- The stack of the running thread has room for the frames of an interrupt. -/
structure HasRoom (c : Core) : Prop where
  low : w.lo (currentTask w c) + 64 + k.depth ≤ (c.reg .esp).toNat
  high : (c.reg .esp).toNat ≤ w.hi (currentTask w c)

/-- A run, with the state of every thread at its last interruption. -/
inductive Preempted (s : Core) : (Word → Option Core) → Core → Prop where
  | start : Preempted s (fun _ => none) s
  | thread {last : Word → Option Core} {c t : Core} : Preempted s last c → Runs w c t →
    Preempted s last t
  | timer {last : Word → Option Core} {c t : Core} : Preempted s last c → HasRoom w k c →
    Timer w k c t → Preempted s (Function.update last (currentTask w c) (some c)) t

/-- A task that has not run yet starts in its stack, with interrupts let in. -/
structure Startable (mem : Store 32) (task : Word) : Prop where
  low : w.lo task + 4 ≤ (contextAt mem (contextOf task)).esp.toNat
  high : (contextAt mem (contextOf task)).esp.toNat ≤ w.hi task
  unmasked : (contextAt mem (contextOf task)).eflags &&& interruptFlag ≠ 0

/-- One task is running and the others have not run yet. -/
structure Begins (s : Core) : Prop where
  current : currentTask w s ∈ w.tasks
  segments : KernelSegments s
  ring : ∀ a ∈ w.tasks, taskField s.mem a .next ∈ w.tasks
  others : ∀ a ∈ w.tasks, a ≠ currentTask w s → Startable w s.mem a

end System

section Schedules

variable {w : Threads} {c t : Core} {task : Word}

/-- `switch_to` is called on the contexts of the current task and of the one behind it, when these
are two tasks, and the latter is current by then. -/
theorem Schedules.switch (schedules : Schedules w c t task) :
    taskField c.mem task .next ≠ task ∧ readWord t.mem (t.reg .esp + 4) = contextOf task ∧
      readWord t.mem (t.reg .esp + 8) = contextOf (taskField c.mem task .next) ∧
      currentTask w t = taskField c.mem task .next := by
  obtain ⟨s, u, prev, next, mem, rfl, run, hp, hn, current⟩ := schedules
  rw [← mem]
  have spec : WP scheduleCall (fun _ _ => True) (fun call u => ∀ p n, call = some (p, n) →
      taskField s.mem s.current .next ≠ s.current ∧ p = s.current ∧
        n = taskField s.mem s.current .next ∧ u.current = n) s := by
    refine wp_scheduleCall.2 ⟨fun other p n call => ?_, fun _ p n call => ?_⟩
    · obtain ⟨rfl, rfl⟩ := Prod.mk.inj (Option.some.inj call)
      exact ⟨other.2.symm, rfl, rfl, rfl⟩
    · exact absurd call.symm (Option.some_ne_none _)
  obtain ⟨ne, rfl, rfl, same⟩ := spec.returned run prev next rfl
  exact ⟨ne, hp, hn, current.trans same⟩

/-- Two different tasks are switched. -/
theorem schedules_of_ne (zero : task ≠ 0) (ne : taskField c.mem task .next ≠ task)
    (prev : readWord t.mem (t.reg .esp + 4) = contextOf task)
    (next : readWord t.mem (t.reg .esp + 8) = contextOf (taskField c.mem task .next))
    (current : currentTask w t = taskField c.mem task .next) : Schedules w c t task := by
  have run := (wp_scheduleCall (E := fun _ _ => False) (s := ⟨c.mem, 0, task, 0, 0⟩)
    (Q := fun call u => call = some (task, taskField c.mem task .next) ∧
      u.current = taskField c.mem task .next)).2 ⟨fun _ => ⟨rfl, rfl⟩, ?_⟩
  · obtain ⟨_, u, run, rfl, set⟩ := run.returns
    exact ⟨_, u, _, _, rfl, rfl, run, prev, next, current.trans set.symm⟩
  · rintro (absent | same)
    · exact absurd absent zero
    · exact absurd same.symm ne

end Schedules

/-! ## Who owns which bytes -/

namespace Threads

variable (w : Threads) {a b x : Word}

def InStack (a x : Word) : Prop := w.lo a ≤ x.toNat ∧ x.toNat < w.hi a

def InCurrent (x : Word) : Prop := w.current.toNat ≤ x.toNat ∧ x.toNat < w.current.toNat + 4

/-- The bytes of a task: its stack and its struct. -/
def Owns (a x : Word) : Prop := w.InStack a x ∨ a.toNat ≤ x.toNat ∧ x.toNat < a.toNat + 44

/-- The bytes of `task->context`. -/
def InContext (a x : Word) : Prop := a.toNat + 16 ≤ x.toNat ∧ x.toNat < a.toNat + 40

variable {w}

theorem not_owns (ha : a ∈ w.tasks) (hb : b ∈ w.tasks) (ne : a ≠ b) (own : w.Owns a x) :
    ¬ w.Owns b x := by
  have away := w.stacks_apart a ha b hb ne
  have here := w.structs_apart a ha b hb
  have there := w.structs_apart b hb a ha
  have structs := w.placed.apart_of_ne ha hb ne
  unfold Owns InStack at *
  omega

theorem not_inCurrent (ha : a ∈ w.tasks) (own : w.Owns a x) : ¬ w.InCurrent x := by
  have stack := w.current_stack a ha
  have struct := w.current_struct a ha
  unfold Owns InStack InCurrent at *
  omega

theorem contextOf_toNat (ha : a ∈ w.tasks) : (contextOf a).toNat = a.toNat + 16 := by
  have room := w.placed.room a ha
  exact toNat_offset (i := 16) (by omega)

theorem owns_of_inContext (h : InContext a x) : w.Owns a x := by
  unfold InContext at h
  exact .inr (by omega)

/-- A struct does not lie in a stack. -/
theorem not_inStack (ha : a ∈ w.tasks) (hb : b ∈ w.tasks) (low : a.toNat ≤ x.toNat)
    (high : x.toNat < a.toNat + 44) : ¬ w.InStack b x := by
  have apart := w.structs_apart b hb a ha
  unfold InStack
  omega

end Threads

theorem currentTask_congr {w : Threads} {c d : Core}
    (h : ∀ x, w.InCurrent x → d.mem x = c.mem x) : currentTask w d = currentTask w c :=
  readWord_congr w.current_end fun x low high => h x ⟨low, high⟩

/-! ## The stub's frame -/

section Stub

variable {w : Threads} {k : Compiled} {c : Core} {x : Word}

theorem atHandler_esp (back : Word) (room : 64 ≤ (c.reg .esp).toNat) :
    ((atHandler back c).reg .esp).toNat = (c.reg .esp).toNat - 64 := by
  rw [(atHandler_entered back c).esp]
  bv_omega

theorem atHandler_mem (back : Word) (room : 64 ≤ (c.reg .esp).toNat)
    (h : x.toNat < (c.reg .esp).toNat - 64 ∨ (c.reg .esp).toNat ≤ x.toNat) :
    (atHandler back c).mem x = c.mem x := by
  have room : 4 * (stubFrame back 32 0 c).length ≤ (c.toCpu.reg .esp).toNat := room
  rw [(atHandler_entered back c).mem]
  exact Cpu.pushes_mem room h

theorem atHandler_inHandler (mem : currentTask w c ∈ w.tasks) (room : HasRoom w k c) :
    InHandler w k (atHandler w.back c) (currentTask w c) := by
  obtain ⟨low, high⟩ := room
  have entered := atHandler_entered w.back c
  have esp := atHandler_esp (c := c) w.back (by omega)
  refine ⟨mem, currentTask_congr fun x hx => ?_, by omega, by omega, entered.masked,
    entered.segments⟩
  have outside : ¬ w.InStack _ x := fun h => Threads.not_inCurrent mem (.inl h) hx
  refine atHandler_mem w.back (by omega) ?_
  unfold Threads.InStack at outside
  omega

/-- The bytes of `irq_handler` lie in the stack of its thread. -/
theorem InHandler.inStack {task : Word} (h : InHandler w k c task) (frame : HandlerFrame k c x) :
    w.InStack task x := by
  have low := h.low
  have high := h.high
  unfold HandlerFrame at frame
  unfold Threads.InStack
  omega

end Stub

/-! ## Threads that do not run -/

section Idle

variable (w : Threads) (k : Compiled)

/-- The thread `task` was interrupted in the state `c`.  Its stack holds the frames of the stub and
of the C code up to the call of `switch_to`, and its context what `switch_to` has saved. -/
structure Suspended (mem : Store 32) (task : Word) (c : Core) : Prop where
  segments : KernelSegments c
  owner : currentTask w c = task
  room : HasRoom w k c
  frames : ∃ t, k.calls (atHandler w.back c) t ∧
    (∀ x : Word, (t.reg .esp).toNat ≤ x.toNat → x.toNat < w.hi task → mem x = t.mem x) ∧
    contextAt mem (contextOf task) = savedContext t

/-- A thread that does not run has not started yet, or was interrupted in the given state. -/
def Idle (mem : Store 32) (task : Word) : Option Core → Prop
  | none => Startable w mem task
  | some c => Suspended w k mem task c

variable {w k} {mem mem' : Store 32} {c t d : Core} {task x : Word} {last : Option Core}

theorem context_keep (hm : task ∈ w.tasks)
    (keep : ∀ x, Threads.InContext task x → mem' x = mem x) :
    contextAt mem' (contextOf task) = contextAt mem (contextOf task) := by
  have place := Threads.contextOf_toNat hm
  have room := w.placed.room task hm
  exact contextAt_congr (by omega) fun x low high => keep x ⟨by omega, by omega⟩

/-- `irq_handler` has called `switch_to`. -/
theorem callsSwitch (follows : FollowsC w k) (hm : currentTask w c ∈ w.tasks)
    (room : HasRoom w k c) (call : k.calls (atHandler w.back c) t) :
    CallsSwitch w k (atHandler w.back c) t (currentTask w c) :=
  follows.calls _ _ _ (atHandler_inHandler hm room) call

/-- The stack of the thread has room for the arguments of `switch_to` and for the saved flags. -/
theorem callsSwitch_esp (follows : FollowsC w k) (hm : currentTask w c ∈ w.tasks)
    (room : HasRoom w k c) (call : k.calls (atHandler w.back c) t) :
    w.lo (currentTask w c) + 4 ≤ (t.reg .esp).toNat ∧
      (t.reg .esp).toNat + 20 ≤ w.hi (currentTask w c) := by
  have switch := callsSwitch follows hm room call
  have inside := atHandler_inHandler hm room
  have low := switch.low
  have four := switch.four
  have high := switch.high
  have lo := inside.low
  have hi := inside.high
  omega

/-- From the interrupt to the call of `switch_to` only `current` and the stack of the interrupted
thread change. -/
theorem callsSwitch_mem (follows : FollowsC w k) (hm : currentTask w c ∈ w.tasks)
    (room : HasRoom w k c) (call : k.calls (atHandler w.back c) t)
    (stack : ¬ w.InStack (currentTask w c) x) (other : ¬ w.InCurrent x) : t.mem x = c.mem x := by
  have inside := atHandler_inHandler hm room
  have switch := callsSwitch follows hm room call
  have low := room.low
  have high := room.high
  rw [switch.mem x (fun frame => stack (inside.inStack frame))
    (by unfold Threads.InCurrent at other; omega)]
  exact atHandler_mem w.back (by omega) (by unfold Threads.InStack at stack; omega)

theorem Idle.keep (follows : FollowsC w k) (hm : task ∈ w.tasks)
    (keep : ∀ x, w.Owns task x → mem' x = mem x) (h : Idle w k mem task last) :
    Idle w k mem' task last := by
  have context := context_keep hm fun x hx => keep x (Threads.owns_of_inContext hx)
  cases last with
  | none =>
    obtain ⟨low, high, unmasked⟩ := h
    exact ⟨by rwa [context], by rwa [context], by rwa [context]⟩
  | some c =>
    obtain ⟨segments, rfl, room, t, call, stack, saved⟩ := h
    have esp := callsSwitch_esp follows hm room call
    refine ⟨segments, rfl, room, t, call, fun x low high => ?_, context.trans saved⟩
    rw [keep x (.inl ⟨by omega, high⟩), stack x low high]

/-- The stack pointer that `switch_to` finds. -/
theorem Idle.esp (follows : FollowsC w k) (hm : task ∈ w.tasks) (h : Idle w k mem task last) :
    w.lo task + 4 ≤ (contextAt mem (contextOf task)).esp.toNat ∧
      (contextAt mem (contextOf task)).esp.toNat ≤ w.hi task := by
  cases last with
  | none => exact ⟨h.low, h.high⟩
  | some c =>
    obtain ⟨-, rfl, room, t, call, -, saved⟩ := h
    have esp := callsSwitch_esp follows hm room call
    rw [saved]
    exact ⟨esp.1, by have := esp.2; show (t.reg .esp).toNat ≤ _; omega⟩

/-- A thread that was interrupted has called `switch_to` with interrupts masked. -/
theorem Suspended.masked (h : Suspended w k mem task c) (follows : FollowsC w k)
    (hm : task ∈ w.tasks) :
    (contextAt mem (contextOf task)).eflags &&& interruptFlag = 0 := by
  obtain ⟨-, rfl, room, t, call, -, saved⟩ := h
  rw [saved]
  exact (flagsImage_interruptFlag _).trans (callsSwitch follows hm room call).masked

end Idle

/-! ## The exchange -/

/-- `current->next`. -/
def nextTask (w : Threads) (c : Core) : Word := taskField c.mem (currentTask w c) .next

/-- The bytes that an exchange of `prev` for `next` leaves alone. -/
structure Threads.Untouched (w : Threads) (prev next x : Word) : Prop where
  current : ¬ w.InCurrent x
  prevStack : ¬ w.InStack prev x
  nextStack : ¬ w.InStack next x
  prevContext : ¬ Threads.InContext prev x

section Exchange

variable {w : Threads} {k : Compiled} {c t : Core} {x : Word} {last : Option Core}

theorem atHandler_next (hm : currentTask w c ∈ w.tasks) (room : HasRoom w k c) :
    taskField (atHandler w.back c).mem (currentTask w c) .next = nextTask w c := by
  have low := room.low
  have high := room.high
  refine taskField_congr .next (w.placed.room _ hm) fun x lo hi => ?_
  have outside := Threads.not_inStack hm hm lo hi
  exact atHandler_mem w.back (by omega) (by unfold Threads.InStack at outside; omega)

/-- `switch_to` works on the contexts of two threads, with `next` the one behind the running one. -/
theorem switchTo_switched (follows : FollowsC w k) (hm : currentTask w c ∈ w.tasks)
    (hn : nextTask w c ∈ w.tasks) (room : HasRoom w k c)
    (idle : Idle w k c.mem (nextTask w c) last) (call : k.calls (atHandler w.back c) t) :
    nextTask w c ≠ currentTask w c ∧
      contextAt t.mem (contextOf (nextTask w c)) = contextAt c.mem (contextOf (nextTask w c)) ∧
      Switched t (runOps switchTo t) (contextOf (currentTask w c)) (contextOf (nextTask w c)) := by
  have switch := callsSwitch follows hm room call
  have same := atHandler_next hm room
  obtain ⟨ne, prev, next, -⟩ := switch.schedules.switch
  rw [same] at ne next
  have keep : contextAt t.mem (contextOf (nextTask w c)) =
      contextAt c.mem (contextOf (nextTask w c)) := by
    refine context_keep hn fun x hx => ?_
    have own := Threads.owns_of_inContext (w := w) hx
    exact callsSwitch_mem follows hm room call
      (fun h => Threads.not_owns hn hm ne own (.inl h)) (Threads.not_inCurrent hn own)
  have prevPlace := Threads.contextOf_toNat hm
  have nextPlace := Threads.contextOf_toNat hn
  have prevRoom := w.placed.room _ hm
  have nextRoom := w.placed.room _ hn
  have structs := w.placed.apart_of_ne hm hn ne.symm
  have prevApart := w.structs_apart _ hm _ hm
  have nextApart := w.structs_apart _ hm _ hn
  have crossApart := w.structs_apart _ hn _ hm
  have esp := callsSwitch_esp follows hm room call
  have stackEnd := w.stack_end _ hm
  have nextEsp := idle.esp follows hn
  refine ⟨ne, keep, switchTo_spec ⟨?_, ?_, ?_, ?_, ?_, ?_, ?_⟩ prev next⟩
  · exact ⟨by omega, by omega⟩
  · exact ⟨by omega, by omega⟩
  · omega
  · omega
  · omega
  · rw [keep]
    omega
  · rw [keep]
    omega

variable (w k) in
/-- The processor before the `ret` of `switch_to`: it stands in the next thread, and the thread
that was interrupted in `c` waits. -/
structure Exchanged (c u : Core) : Prop where
  next_ne : nextTask w c ≠ currentTask w c
  mem : ∀ x, w.Untouched (currentTask w c) (nextTask w c) x → u.mem x = c.mem x
  stack : ∀ x, w.InStack (nextTask w c) x →
    (contextAt c.mem (contextOf (nextTask w c))).esp.toNat ≤ x.toNat → u.mem x = c.mem x
  current : currentTask w u = nextTask w c
  suspended : Suspended w k u.mem (currentTask w c) c
  esp : u.reg .esp = (contextAt c.mem (contextOf (nextTask w c))).esp
  ebp : u.reg .ebp = (contextAt c.mem (contextOf (nextTask w c))).ebp
  ebx : u.reg .ebx = (contextAt c.mem (contextOf (nextTask w c))).ebx
  esi : u.reg .esi = (contextAt c.mem (contextOf (nextTask w c))).esi
  edi : u.reg .edi = (contextAt c.mem (contextOf (nextTask w c))).edi
  interrupts : u.eflags &&& interruptFlag =
    (contextAt c.mem (contextOf (nextTask w c))).eflags &&& interruptFlag
  segments : KernelSegments u

theorem switchTo_exchanged (follows : FollowsC w k) (segments : KernelSegments c)
    (hm : currentTask w c ∈ w.tasks) (hn : nextTask w c ∈ w.tasks) (room : HasRoom w k c)
    (idle : Idle w k c.mem (nextTask w c) last) (call : k.calls (atHandler w.back c) t) :
    Exchanged w k c (runOps switchTo t) := by
  obtain ⟨ne, context, switched⟩ := switchTo_switched follows hm hn room idle call
  have switch := callsSwitch follows hm room call
  have esp := callsSwitch_esp follows hm room call
  have nextEsp := idle.esp follows hn
  have prevPlace := Threads.contextOf_toNat hm
  rw [← context] at nextEsp
  -- what `switch_to` itself changes lies in the two stacks and in the old context
  have mem (x : Word) (old : ¬ Threads.InContext (currentTask w c) x)
      (prev : w.InStack (currentTask w c) x → (t.reg .esp).toNat ≤ x.toNat)
      (next : w.InStack (nextTask w c) x →
        (contextAt t.mem (contextOf (nextTask w c))).esp.toNat ≤ x.toNat) :
      (runOps switchTo t).mem x = t.mem x := by
    unfold Threads.InContext at old
    unfold Threads.InStack at prev next
    exact switched.mem x (by omega) (by omega) (by omega)
  have stackApart {x : Word} (h : w.InStack (currentTask w c) x) :
      ¬ w.InStack (nextTask w c) x :=
    fun h' => Threads.not_owns hm hn ne.symm (.inl h) (.inl h')
  refine ⟨ne, fun x h => ?_, fun x inside above => ?_, ?_, ?_, ?_, ?_, ?_, ?_, ?_, ?_, ?_⟩
  · rw [mem x h.prevContext (fun i => absurd i h.prevStack) (fun i => absurd i h.nextStack)]
    exact callsSwitch_mem follows hm room call h.prevStack h.current
  · have own : w.Owns (nextTask w c) x := .inl inside
    have other := Threads.not_owns hn hm ne own
    rw [mem x (fun i => other (Threads.owns_of_inContext i)) (fun i => absurd (.inl i) other)
      fun _ => by rwa [context]]
    exact callsSwitch_mem follows hm room call (fun i => other (.inl i))
      (Threads.not_inCurrent hn own)
  · rw [← atHandler_next hm room, ← switch.schedules.switch.2.2.2]
    refine currentTask_congr fun x h => mem x ?_ ?_ ?_
    · exact fun i => Threads.not_inCurrent hm (Threads.owns_of_inContext i) h
    · exact fun i => absurd h (Threads.not_inCurrent hm (.inl i))
    · exact fun i => absurd h (Threads.not_inCurrent hn (.inl i))
  · refine ⟨segments, rfl, room, t, call, fun x low high => ?_, switched.old⟩
    have inside : w.InStack (currentTask w c) x := ⟨by omega, high⟩
    refine mem x (fun i => ?_) (fun _ => low) fun i => absurd i (stackApart inside)
    exact Threads.not_inStack hm hm (by have := i.1; omega) (by have := i.2; omega) inside
  · rw [switched.esp, context]
  · rw [switched.ebp, context]
  · rw [switched.ebx, context]
  · rw [switched.esi, context]
  · rw [switched.edi, context]
  · rw [switched.eflags, context, flagsOfImage_interruptFlag]
  · exact fun s hs => (congrFun switched.seg s).trans (switch.segments s hs)

end Exchange

/-! ## Runs -/

section Run

variable {w : Threads} {k : Compiled} {c t : Core} {last : Word → Option Core}

variable (w k) in
/-- One thread runs and the others are idle. -/
structure Multitasking (last : Word → Option Core) (c : Core) : Prop where
  current : currentTask w c ∈ w.tasks
  segments : KernelSegments c
  ring : ∀ a ∈ w.tasks, taskField c.mem a .next ∈ w.tasks
  idle : ∀ a ∈ w.tasks, a ≠ currentTask w c → Idle w k c.mem a (last a)

theorem Begins.multitasking (begins : Begins w c) : Multitasking w k (fun _ => none) c :=
  ⟨begins.current, begins.segments, begins.ring, begins.others⟩

/-- A thread that runs does not change what the others have left. -/
theorem Multitasking.runs (inv : Multitasking w k last c) (follows : FollowsC w k)
    (runs : Runs w c t) : Multitasking w k last t := by
  have outside {x : Word} (h : ¬ w.InStack (currentTask w c) x) : t.mem x = c.mem x :=
    runs.mem x (by unfold Threads.InStack at h; omega)
  have current : currentTask w t = currentTask w c :=
    currentTask_congr fun x hx => outside fun h => Threads.not_inCurrent inv.current (.inl h) hx
  refine ⟨current ▸ inv.current, fun s hs => ?_, fun a ha => ?_, fun a ha ne => ?_⟩
  · rw [runs.seg]
    exact inv.segments s hs
  · rw [taskField_congr .next (w.placed.room a ha) fun x low high =>
      outside (Threads.not_inStack ha inv.current low high)]
    exact inv.ring a ha
  · rw [current] at ne
    exact (inv.idle a ha ne).keep follows ha fun x own =>
      outside fun h => Threads.not_owns ha inv.current ne own (.inl h)

/-- An exchange leaves the ring alone. -/
theorem next_keep {prev next a : Word} {mem mem' : Store 32} (hm : prev ∈ w.tasks)
    (hn : next ∈ w.tasks) (ha : a ∈ w.tasks)
    (keep : ∀ x, w.Untouched prev next x → mem' x = mem x) :
    taskField mem' a .next = taskField mem a .next := by
  have room := w.placed.room a ha
  have place : (a + TaskField.next.offset).toNat = a.toNat + 40 := taskField_toNat .next room
  refine readWord_congr (by omega) fun x low high => keep x ?_
  have own : w.Owns a x := .inr (by omega)
  refine ⟨Threads.not_inCurrent ha own, Threads.not_inStack ha hm (by omega) (by omega),
    Threads.not_inStack ha hn (by omega) (by omega), fun i => ?_⟩
  by_cases self : a = prev
  · have := i.2
    rw [← self] at this
    omega
  · exact Threads.not_owns ha hm self own (Threads.owns_of_inContext i)

/-- What an interrupt that leads to the thread `current` of `t` has to keep. -/
theorem Multitasking.exchange (inv : Multitasking w k last c) (follows : FollowsC w k)
    (mem : ∀ x, w.Untouched (currentTask w c) (currentTask w t) x → t.mem x = c.mem x)
    (current : currentTask w t ∈ w.tasks) (segments : KernelSegments t)
    (waits : currentTask w t ≠ currentTask w c → Suspended w k t.mem (currentTask w c) c) :
    Multitasking w k (Function.update last (currentTask w c) (some c)) t := by
  refine ⟨current, segments, fun a ha => ?_, fun a ha ne => ?_⟩
  · rw [next_keep inv.current current ha mem]
    exact inv.ring a ha
  · by_cases self : a = currentTask w c
    · rw [self, Function.update_self]
      exact waits (self ▸ ne.symm)
    · rw [Function.update_of_ne self]
      refine (inv.idle a ha self).keep follows ha fun x own => mem x ⟨?_, ?_, ?_, ?_⟩
      · exact Threads.not_inCurrent ha own
      · exact fun i => Threads.not_owns ha inv.current self own (.inl i)
      · exact fun i => Threads.not_owns ha current ne own (.inl i)
      · exact fun i => Threads.not_owns ha inv.current self own (Threads.owns_of_inContext i)

/-- The stub, entered in `c`, takes the registers from its frame when `irq_handler` returns. -/
theorem stubReturn_restores {e : Core} (segments : KernelSegments c)
    (room : 64 ≤ (c.reg .esp).toNat) (cdecl : Cdecl (atHandler w.back c) e)
    (frame : ∀ x : Word, (c.reg .esp).toNat - 56 ≤ x.toNat → x.toNat < (c.reg .esp).toNat →
      e.mem x = (atHandler w.back c).mem x) :
    SameRegisters (stubReturn w e) c ∧ (stubReturn w e).mem = e.mem := by
  have entered := atHandler_entered w.back c
  have back : e.eip = w.back := cdecl.eip.trans entered.returnAddress
  have esp : e.reg .esp = c.reg .esp - 60 := by
    rw [cdecl.esp, entered.esp]
    bv_omega
  rw [stubReturn, if_pos back]
  refine ⟨irqReturn_restores entered (fun s hs => ?_) esp fun i hi => ?_, irqReturn_mem e⟩
  · rw [segments s hs, segments .ds (by decide)]
  · exact frame _ (by bv_omega) (by bv_omega)

theorem SameRegisters.kernelSegments (same : SameRegisters t c) (segments : KernelSegments c) :
    KernelSegments t := fun s hs => (same.seg s).trans (segments s hs)

/-- A timer interrupt after which the same thread runs. -/
theorem timer_stay {e : Core} (follows : FollowsC w k) (inv : Multitasking w k last c)
    (room : HasRoom w k c) (returns : k.returns (atHandler w.back c) e) :
    SameRegisters (stubReturn w e) c ∧ currentTask w (stubReturn w e) = currentTask w c ∧
      Multitasking w k (Function.update last (currentTask w c) (some c)) (stubReturn w e) := by
  have inside := atHandler_inHandler inv.current room
  obtain ⟨cdecl, mem⟩ := follows.returns _ _ _ inside returns
  have low := room.low
  have high := room.high
  have esp := atHandler_esp (c := c) w.back (by omega)
  obtain ⟨same, stored⟩ := stubReturn_restores inv.segments (by omega) cdecl fun x lo hi =>
    mem x (by unfold HandlerFrame; omega)
  have outside {x : Word} (h : ¬ w.InStack (currentTask w c) x) :
      (stubReturn w e).mem x = c.mem x := by
    rw [stored, mem x fun frame => h (inside.inStack frame)]
    exact atHandler_mem w.back (by omega) (by unfold Threads.InStack at h; omega)
  have current : currentTask w (stubReturn w e) = currentTask w c :=
    currentTask_congr fun x hx => outside fun h => Threads.not_inCurrent inv.current (.inl h) hx
  exact ⟨same, current, inv.exchange follows (fun x h => outside h.prevStack)
    (current ▸ inv.current) (same.kernelSegments inv.segments) fun ne => absurd current ne⟩

/-- `switch_to`, entered in an interrupt of the running thread, has reached its `ret`. -/
theorem Multitasking.exchanged (inv : Multitasking w k last c) (follows : FollowsC w k)
    (room : HasRoom w k c) (call : k.calls (atHandler w.back c) t) :
    Exchanged w k c (runOps switchTo t) := by
  have hn : nextTask w c ∈ w.tasks := inv.ring _ inv.current
  have ne := (callsSwitch follows inv.current room call).schedules.switch.1
  rw [atHandler_next inv.current room] at ne
  exact switchTo_exchanged follows inv.segments inv.current hn room (inv.idle _ hn ne) call

/-- A timer interrupt that leads to a thread which has not run yet. -/
theorem timer_start (follows : FollowsC w k) (inv : Multitasking w k last c)
    (room : HasRoom w k c) (call : k.calls (atHandler w.back c) t)
    (unmasked : (runOps switchTo t).eflags &&& interruptFlag ≠ 0) :
    last (nextTask w c) = none ∧
      currentTask w { runOps switchTo t with eip := w.switchRet } = nextTask w c ∧
      Multitasking w k (Function.update last (currentTask w c) (some c))
        { runOps switchTo t with eip := w.switchRet } := by
  have exchanged := inv.exchanged follows room call
  have hn : nextTask w c ∈ w.tasks := inv.ring _ inv.current
  have idle := inv.idle _ hn exchanged.next_ne
  refine ⟨?_, exchanged.current, inv.exchange follows ?_ ?_ exchanged.segments
    fun _ => exchanged.suspended⟩
  · cases earlier : last (nextTask w c) with
    | none => rfl
    | some s =>
      rw [earlier] at idle
      exact absurd (exchanged.interrupts.trans (Suspended.masked idle follows hn)) unmasked
  · exact fun x h => exchanged.mem x (exchanged.current ▸ h)
  · exact exchanged.current.symm ▸ hn

/-- `switch_to` returns in the thread that it has taken over, as it was called there. -/
theorem Exchanged.resumed {u a : Core} {task : Word} (exchanged : Exchanged w k c u)
    (hn : task ∈ w.tasks) (next : nextTask w c = task)
    (low : w.lo task ≤ (a.reg .esp).toNat) (high : (a.reg .esp).toNat + 20 ≤ w.hi task)
    (stack : ∀ x : Word, (a.reg .esp).toNat ≤ x.toNat → x.toNat < w.hi task → c.mem x = a.mem x)
    (saved : contextAt c.mem (contextOf task) = savedContext a)
    (masked : u.eflags &&& interruptFlag = 0) : Resumed w task a (Op.ret.exec u) := by
  subst next
  have espSame := exchanged.esp
  have ebpSame := exchanged.ebp
  have ebxSame := exchanged.ebx
  have esiSame := exchanged.esi
  have ediSame := exchanged.edi
  have above := exchanged.stack
  rw [saved] at espSame ebpSame ebxSame esiSame ediSame above
  have mem (x : Word) (lo : (a.reg .esp).toNat ≤ x.toNat) (hi : x.toNat < w.hi (nextTask w c)) :
      u.mem x = a.mem x :=
    (above x ⟨by omega, hi⟩ lo).trans (stack x lo hi)
  have stackEnd := w.stack_end _ hn
  refine ⟨⟨?_, ?_, fun r hr => ?_⟩, mem, masked, exchanged.segments⟩
  · show readWord u.mem (u.reg .esp + BitVec.ofNat 32 (4 * 0)) = _
    rw [Nat.mul_zero, BitVec.add_zero, espSame]
    refine readWord_congr ?_ fun x lo hi => mem x lo ?_
    · show (a.reg .esp).toNat + 4 ≤ _
      omega
    · change x.toNat < (a.reg .esp).toNat + 4 at hi
      omega
  · exact congrArg (· + 4) espSame
  · simp only [List.mem_cons, List.not_mem_nil, or_false] at hr
    obtain rfl | rfl | rfl | rfl := hr
    · exact ebxSame
    · exact esiSame
    · exact ediSame
    · exact ebpSame

/-- A timer interrupt that leads back to a thread that was interrupted before. -/
theorem timer_resume {e : Core} (follows : FollowsC w k) (inv : Multitasking w k last c)
    (room : HasRoom w k c) (call : k.calls (atHandler w.back c) t)
    (masked : (runOps switchTo t).eflags &&& interruptFlag = 0)
    (finishes : k.finishes (Op.ret.exec (runOps switchTo t)) e) :
    (∃ s, last (nextTask w c) = some s ∧ SameRegisters (stubReturn w e) s) ∧
      currentTask w (stubReturn w e) = nextTask w c ∧
      Multitasking w k (Function.update last (currentTask w c) (some c)) (stubReturn w e) := by
  have exchanged := inv.exchanged follows room call
  have hn : nextTask w c ∈ w.tasks := inv.ring _ inv.current
  have idle := inv.idle _ hn exchanged.next_ne
  cases earlier : last (nextTask w c) with
  | none =>
    -- a thread that has not run yet starts with interrupts let in
    rw [earlier] at idle
    exact absurd (exchanged.interrupts.symm.trans masked) idle.unmasked
  | some s =>
    rw [earlier] at idle
    obtain ⟨segments, owner, before, a, called, stack, saved⟩ := idle
    have hm : currentTask w s ∈ w.tasks := owner ▸ hn
    have inside := atHandler_inHandler hm before
    have switch := callsSwitch follows hm before called
    have esp := callsSwitch_esp follows hm before called
    have top := atHandler_esp (c := s) w.back (by have := before.low; omega)
    have low := before.low
    have high := before.high
    rw [owner] at inside switch esp low high
    have resumed := exchanged.resumed hn rfl (by omega) esp.2 stack saved masked
    obtain ⟨cdecl, mem⟩ := follows.finishes _ _ _ _ _ inside called resumed finishes
    -- the frame of the stub lies above everything that was written since
    have frame (x : Word) (lo : (s.reg .esp).toNat - 56 ≤ x.toNat)
        (hi : x.toNat < (s.reg .esp).toNat) : e.mem x = (atHandler w.back s).mem x := by
      have argument := switch.high
      have outside : ¬ HandlerFrame k (atHandler w.back s) x := by
        unfold HandlerFrame
        omega
      rw [mem x outside, resumed.stack x (by omega) (by omega)]
      refine switch.mem x outside ?_
      have current := Threads.not_inCurrent hn (.inl ⟨by omega, by omega⟩ : w.Owns _ x)
      unfold Threads.InCurrent at current
      omega
    obtain ⟨same, stored⟩ := stubReturn_restores segments (by omega) cdecl frame
    have outside {x : Word} (h : ¬ w.InStack (nextTask w c) x) :
        (stubReturn w e).mem x = (runOps switchTo t).mem x := by
      rw [stored, mem x fun f => h (inside.inStack f)]
      rfl
    have current : currentTask w (stubReturn w e) = nextTask w c := by
      rw [← exchanged.current]
      exact currentTask_congr fun x hx =>
        outside fun h => Threads.not_inCurrent hn (.inl h) hx
    refine ⟨⟨s, rfl, same⟩, current, inv.exchange follows (fun x h => ?_) (current ▸ hn)
      (same.kernelSegments segments) fun _ => ?_⟩
    · rw [current] at h
      rw [outside h.nextStack, exchanged.mem x h]
    · have suspended : Idle w k (runOps switchTo t).mem (currentTask w c) (some c) :=
        exchanged.suspended
      exact suspended.keep follows inv.current fun x own => outside fun h =>
        Threads.not_owns inv.current hn exchanged.next_ne.symm own (.inl h)

/-- What a timer interrupt does to a system in which one thread runs. -/
theorem Multitasking.timer (inv : Multitasking w k last c) (follows : FollowsC w k)
    (room : HasRoom w k c) (step : Timer w k c t) :
    Multitasking w k (Function.update last (currentTask w c) (some c)) t ∧
      ∀ s, Function.update last (currentTask w c) (some c) (currentTask w t) = some s →
        SameRegisters t s := by
  cases step with
  | stay returns =>
    obtain ⟨same, current, next⟩ := timer_stay follows inv room returns
    refine ⟨next, fun s hs => ?_⟩
    rw [current, Function.update_self] at hs
    exact Option.some_inj.1 hs ▸ same
  | start call unmasked =>
    obtain ⟨fresh, current, next⟩ := timer_start follows inv room call unmasked
    have ne := (inv.exchanged follows room call).next_ne
    refine ⟨next, fun s hs => ?_⟩
    rw [current, Function.update_of_ne ne, fresh] at hs
    cases hs
  | resume call masked finishes =>
    obtain ⟨⟨before, earlier, same⟩, current, next⟩ :=
      timer_resume follows inv room call masked finishes
    have ne := (inv.exchanged follows room call).next_ne
    refine ⟨next, fun s hs => ?_⟩
    rw [current, Function.update_of_ne ne, earlier] at hs
    exact Option.some_inj.1 hs ▸ same

theorem Preempted.multitasking {s : Core} (follows : FollowsC w k) (begins : Begins w s)
    (run : Preempted w k s last c) : Multitasking w k last c := by
  induction run with
  | start => exact begins.multitasking
  | thread _ step ih => exact ih.runs follows step
  | timer _ room step ih => exact (ih.timer follows room step).1

end Run

/-! ## Code without frames -/

section Plain

variable (w : Threads) (ret : Word) {c : Core} {task : Word}

/-- The arguments of `switch_to`, the last one first, and where it returns to. -/
def plainArguments (c : Core) : List Word :=
  [contextOf (nextTask w c), contextOf (currentTask w c), ret]

/-- `schedule` sets `current` and calls `switch_to`. -/
def plainCall (c : Core) : Core :=
  c.onCpu fun cpu => (cpu.setMem (writeWord c.mem w.current (nextTask w c))).pushes
    (plainArguments w ret c)

/-- It drops the arguments and returns. -/
def plainFinish (d : Core) : Core := runOps [.addImm .esp 8, .ret] d

/-- C code that keeps nothing on the stack but the call of `switch_to`. -/
def plainCode : Compiled where
  depth := 16
  calls c t := nextTask w c ≠ currentTask w c ∧ t = plainCall w ret c
  returns c t := nextTask w c = currentTask w c ∧ t = Op.ret.exec c
  finishes d e := e = plainFinish d

variable {w ret}

variable (w ret c) in
theorem plainCall_esp (room : 12 ≤ (c.reg .esp).toNat) :
    ((plainCall w ret c).reg .esp).toNat = (c.reg .esp).toNat - 12 := by
  show (c.reg .esp - 4 - 4 - 4).toNat = _
  bv_omega

theorem plainCall_mem (room : 12 ≤ (c.reg .esp).toNat) {x : Word}
    (h : x.toNat < (c.reg .esp).toNat - 12 ∨ (c.reg .esp).toNat ≤ x.toNat) :
    (plainCall w ret c).mem x = writeWord c.mem w.current (nextTask w c) x := by
  have room : 4 * (plainArguments w ret c).length ≤ (c.toCpu.reg .esp).toNat := room
  exact Cpu.pushes_mem (c := c.toCpu.setMem (writeWord c.mem w.current (nextTask w c))) room h

theorem plainCall_word {i : ℕ} {v : Word} (h : (plainArguments w ret c)[i]? = some v) :
    readWord (plainCall w ret c).mem (c.reg .esp - BitVec.ofNat 32 (4 * (i + 1))) = v := by
  have room : 4 * (plainArguments w ret c).length ≤ 2 ^ 32 := by
    show 12 ≤ 2 ^ 32
    decide
  exact Cpu.pushes_word (c := c.toCpu.setMem (writeWord c.mem w.current (nextTask w c))) room h

theorem plainCall_calls (here : InHandler w (plainCode w ret) c task)
    (ne : nextTask w c ≠ currentTask w c) :
    CallsSwitch w (plainCode w ret) c (plainCall w ret c) task := by
  have low := here.low
  have high := here.high
  have stackEnd := w.stack_end _ here.mem
  have currentEnd := w.current_end
  have away := w.current_stack _ here.mem
  change w.lo task + 16 ≤ (c.reg .esp).toNat at low
  have esp := plainCall_esp w ret c (by omega)
  obtain ⟨inside, rfl, -, -, masked, segments⟩ := here
  have zero := w.placed.ne_zero _ inside
  refine ⟨schedules_of_ne zero ne ?_ ?_ ?_, ?_, ?_, ?_, fun x frame other => ?_, masked, segments⟩
  · refine (congrArg (readWord _) ?_).trans (plainCall_word (i := 1) rfl)
    bv_omega
  · refine (congrArg (readWord _) ?_).trans (plainCall_word (i := 0) rfl)
    bv_omega
  · refine (readWord_congr (by omega) fun x lo hi => ?_).trans
      (readWord_writeWord_self c.mem (nextTask w c) w.current_end)
    exact plainCall_mem (by omega) (by omega)
  · show _ ≤ _ + 16
    omega
  · omega
  · omega
  · unfold HandlerFrame at frame
    change ¬ ((c.reg .esp).toNat ≤ x.toNat + 16 ∧ _ ∨ _) at frame
    rw [plainCall_mem (by omega) (by omega)]
    exact writeWord_outside _ _ (by omega) other

theorem plainCode_follows : FollowsC w (plainCode w ret) where
  calls _ _ _ here call := call.2 ▸ plainCall_calls here call.1
  returns _ c _ _ returns := returns.2 ▸ ⟨ret_cdecl c, fun _ _ => rfl⟩
  finishes task c t d e here call resumed finishes := by
    obtain ⟨ne, rfl⟩ := call
    obtain rfl : e = plainFinish d := finishes
    have switch := plainCall_calls here ne
    have low := here.low
    have high := here.high
    have stackEnd := w.stack_end _ here.mem
    have away := w.current_stack _ here.mem
    change w.lo task + 16 ≤ (c.reg .esp).toNat at low
    have esp := plainCall_esp w ret c (by omega)
    -- behind the arguments lies the return address of `irq_handler`
    have top : d.reg .esp + 8 = c.reg .esp := by
      rw [resumed.cdecl.esp]
      bv_omega
    refine ⟨⟨?_, ?_, fun r hr => ?_⟩, fun _ _ => rfl⟩
    · show readWord d.mem (d.reg .esp + 8 + BitVec.ofNat 32 (4 * 0)) = _
      rw [Nat.mul_zero, BitVec.add_zero, top]
      refine readWord_congr (by omega) fun x lo hi => ?_
      rw [resumed.stack x (by omega) (by omega)]
      exact switch.mem x (by unfold HandlerFrame; omega) (by omega)
    · show d.reg .esp + 8 + 4 = _
      rw [top]
    · have kept := resumed.cdecl.saved r hr
      simp only [List.mem_cons, List.not_mem_nil, or_false] at hr
      obtain rfl | rfl | rfl | rfl := hr <;> exact kept

end Plain

/-- The boot task, and a second one at the start of the heap. -/
def twoTasks : List Word := [0xC0130000, 0xE000000C]

theorem forall_twoTasks {p : Word → Prop} (boot : p 0xC0130000) (second : p 0xE000000C) :
    ∀ a ∈ twoTasks, p a :=
  List.forall_mem_cons.2 ⟨boot, List.forall_mem_singleton.2 second⟩

theorem placed_twoTasks : Placed twoTasks where
  ne_zero := forall_twoTasks (by decide) (by decide)
  room := forall_twoTasks (by decide) (by decide)
  apart := List.pairwise_pair.2 (by decide)

def twoThreads : Threads where
  tasks := twoTasks
  lo a := a.toNat + 44
  hi a := a.toNat + stackSize.toNat
  current := 0xC0106000
  back := 0xC0100200
  switchRet := 0xC0100300
  placed := placed_twoTasks
  stack_end := forall_twoTasks (by decide) (by decide)
  stacks_apart := forall_twoTasks (forall_twoTasks (by decide) (by decide))
    (forall_twoTasks (by decide) (by decide))
  structs_apart := forall_twoTasks (forall_twoTasks (by decide) (by decide))
    (forall_twoTasks (by decide) (by decide))
  current_end := by decide
  current_stack := forall_twoTasks (by decide) (by decide)
  current_struct := forall_twoTasks (by decide) (by decide)

/-- The boot task runs, and the second task is as `kernel_thread` has left it. -/
def firstThread : Core where
  reg := fun r => if r = .esp then 0xC0131000 else 0
  eflags := 0x202
  mem :=
    let mem := writeWord (fun _ => 0) 0xC0106000 0xC0130000
    let mem := writeWord mem (0xC0130000 + TaskField.next.offset) 0xE000000C
    let mem := writeWord mem (0xE000000C + TaskField.next.offset) 0xC0130000
    let mem := writeWord mem (0xE000000C + TaskField.esp.offset) (0xE000000C + stackSize - 12)
    writeWord mem (0xE000000C + TaskField.eflags.offset) 0x200
  eip := 0xC0100800
  seg := fun s => if s = .cs then 0x8 else 0x10

theorem firstThread_current : currentTask twoThreads firstThread = 0xC0130000 := by decide +kernel

theorem firstThread_begins : Begins twoThreads firstThread where
  current := by
    rw [firstThread_current]
    exact List.mem_cons_self
  segments := fun s hs => if_neg hs
  ring := forall_twoTasks (by decide +kernel) (by decide +kernel)
  others := by
    rw [firstThread_current]
    exact forall_twoTasks (fun ne => absurd rfl ne)
      fun _ => ⟨by decide +kernel, by decide +kernel, by decide +kernel⟩

theorem firstThread_room (ret : Word) :
    HasRoom twoThreads (plainCode twoThreads ret) firstThread where
  low := by
    rw [firstThread_current]
    show (0xC0130000 : Word).toNat + 44 + 64 + 16 ≤ (0xC0131000 : Word).toNat
    decide
  high := by
    rw [firstThread_current]
    decide

/-- The first interrupt leads to the second thread. -/
theorem exists_started (ret : Word) : ∃ c,
    Timer twoThreads (plainCode twoThreads ret) firstThread c ∧
      HasRoom twoThreads (plainCode twoThreads ret) c ∧
      currentTask twoThreads c = 0xE000000C ∧ nextTask twoThreads c = 0xC0130000 := by
  have inv : Multitasking twoThreads (plainCode twoThreads ret) (fun _ => none) firstThread :=
    firstThread_begins.multitasking
  have next : nextTask twoThreads firstThread = 0xE000000C := by decide +kernel
  have room := firstThread_room ret
  have call : (plainCode twoThreads ret).calls (atHandler twoThreads.back firstThread)
      (plainCall twoThreads ret (atHandler twoThreads.back firstThread)) := by
    refine ⟨?_, rfl⟩
    rw [nextTask, (atHandler_inHandler inv.current room).current, atHandler_next inv.current room,
      next, firstThread_current]
    decide
  have exchanged := inv.exchanged plainCode_follows room call
  have esp := exchanged.esp
  have interrupts := exchanged.interrupts
  have current := exchanged.current
  have keep := exchanged.mem
  rw [next] at esp interrupts current keep
  rw [firstThread_current] at keep
  have back : nextTask twoThreads (runOps switchTo
      (plainCall twoThreads ret (atHandler twoThreads.back firstThread))) = 0xC0130000 := by
    have second : (0xE000000C : Word) ∈ twoThreads.tasks := by decide
    rw [nextTask, current, next_keep (w := twoThreads) (by decide) second second keep]
    decide +kernel
  refine ⟨_, .start call ?_, ⟨?_, ?_⟩, current, back⟩
  · rw [interrupts]
    decide +kernel
  · change twoThreads.lo (currentTask twoThreads (runOps switchTo _)) + 64 + 16 ≤
      ((runOps switchTo _).reg .esp).toNat
    rw [current, esp]
    decide +kernel
  · change ((runOps switchTo _).reg .esp).toNat ≤
      twoThreads.hi (currentTask twoThreads (runOps switchTo _))
    rw [current, esp]
    decide +kernel

/-! ## Preemption is transparent -/

section Transparent

variable {w : Threads} {k : Compiled} {c t : Core} {last : Word → Option Core}

/-- Whenever a timer interrupt leads to a thread that was interrupted before, in whatever run, the
thread goes on with the registers that it had at its last interruption. -/
theorem preemption_transparent {s : Core} (follows : FollowsC w k) (begins : Begins w s)
    (run : Preempted w k s last c) (room : HasRoom w k c) (step : Timer w k c t) {before : Core}
    (interrupted : Function.update last (currentTask w c) (some c) (currentTask w t) =
      some before) : SameRegisters t before :=
  ((run.multitasking follows begins).timer follows room step).2 before interrupted

end Transparent

theorem preemption_transparent_two : ∃ last c t before,
    Preempted twoThreads (plainCode twoThreads 0xC0100700) firstThread last c ∧
      currentTask twoThreads c ≠ currentTask twoThreads t ∧
      last (currentTask twoThreads t) = some before ∧ SameRegisters t before := by
  obtain ⟨c, started, room, current, next⟩ := exists_started 0xC0100700
  have run := Preempted.start.timer (firstThread_room 0xC0100700) started
  have inv := run.multitasking plainCode_follows firstThread_begins
  have call : (plainCode twoThreads 0xC0100700).calls (atHandler twoThreads.back c)
      (plainCall twoThreads 0xC0100700 (atHandler twoThreads.back c)) := by
    refine ⟨?_, rfl⟩
    rw [nextTask, (atHandler_inHandler inv.current room).current, atHandler_next inv.current room,
      next, current]
    decide
  have exchanged := inv.exchanged plainCode_follows room call
  have interrupted : Function.update (fun _ => none) (currentTask twoThreads firstThread)
      (some firstThread) (nextTask twoThreads c) = some firstThread := by
    rw [next, firstThread_current, Function.update_self]
  have hn : nextTask twoThreads c ∈ twoThreads.tasks := inv.ring _ inv.current
  have idle := inv.idle _ hn exchanged.next_ne
  rw [interrupted] at idle
  have masked := exchanged.interrupts.trans (Suspended.masked idle plainCode_follows hn)
  have resume := Timer.resume call masked rfl
  obtain ⟨-, again, -⟩ := timer_resume plainCode_follows inv room call masked rfl
  have ne := exchanged.next_ne
  rw [← again] at interrupted ne
  refine ⟨_, c, _, firstThread, run, ne.symm, interrupted, ?_⟩
  exact preemption_transparent plainCode_follows firstThread_begins run room resume
    ((Function.update_of_ne ne ..).trans interrupted)

end SimpleKernel
