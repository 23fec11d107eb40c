import SimpleKernel.Layout

/-!
# Tasks and the scheduler

`task.h`, `task.c` and `sched.c`.  A task is the address of its `task_struct`, which lies at the low
end of the task's stack; the tasks form a circular list.  The functions are written once, over
whatever gives them memory and their variables; the ones here take `kmalloc` as a parameter, and
their memory is what the C pointers of these files reach.
-/

namespace SimpleKernel

open ByteStore ProgramLogic

/-- The words of `struct task_struct`; the members of its `context` are spelled out. -/
inductive TaskField where
  | state | pid | stack | mm | esp | ebp | ebx | esi | edi | eflags | next
  deriving DecidableEq, Repr

namespace TaskField

def offset (f : TaskField) : Word := BitVec.ofNat 32 (4 * f.ctorIdx)

theorem ctorIdx_lt (f : TaskField) : f.ctorIdx < 11 := by
  cases f <;> decide

theorem ctorIdx_ne {f g : TaskField} (h : g ≠ f) : g.ctorIdx ≠ f.ctorIdx := by
  revert h
  cases f <;> cases g <;> decide

end TaskField

/-- `sizeof(struct task_struct)`. -/
def sizeofTask : Word := TaskField.next.offset + 4

/-- `TASK_RUNNABLE`. -/
def taskRunnable : Word := 2

/-- The registers that `switch_to` exchanges. -/
structure Context where
  esp : Word
  ebp : Word
  ebx : Word
  esi : Word
  edi : Word
  eflags : Word

/-- What the functions of `sched.c` and `task.c` work with: words of memory, `bzero` and the
variables. -/
structure TaskOps (σ : Type) where
  load : Word → Prog σ Stop Word
  store : Word → Word → Prog σ Stop Unit
  bzero : Word → ℕ → Prog σ Stop Unit
  kernStackTop : σ → Word
  current : σ → Word
  runningProcHead : σ → Word
  nowPid : σ → Word
  setCurrent : σ → Word → σ
  setHead : σ → Word → σ
  setNowPid : σ → Word → σ

namespace TaskOps

variable {σ : Type} (o : TaskOps σ)

def loadTask (f : TaskField) (task : Word) : Prog σ Stop Word := o.load (task + f.offset)

def storeTask (f : TaskField) (task v : Word) : Prog σ Stop Unit := o.store (task + f.offset) v

/-! ## `sched.c` -/

/-- `now_pid++`. -/
def takePid : Prog σ Stop Word := do
  let pid := o.nowPid (← get)
  modify fun s => o.setNowPid s (pid + 1)
  return pid

def initSched : Prog σ Stop Unit := do
  modify fun s => o.setCurrent s (o.kernStackTop s - stackSize)
  o.storeTask .state (o.current (← get)) taskRunnable
  o.storeTask .pid (o.current (← get)) (← o.takePid)
  o.storeTask .stack (o.current (← get)) (o.current (← get))
  o.storeTask .mm (o.current (← get)) 0
  o.storeTask .next (o.current (← get)) (o.current (← get))
  modify fun s => o.setHead s (o.current s)

/-- What `switch_to` does to the two contexts: it saves the registers `regs` in the one of `prev`
and goes on with those in the one of `next`. -/
def switchContext (regs : Context) (prev next : Word) : Prog σ Stop Context := do
  o.storeTask .esp prev regs.esp
  o.storeTask .ebp prev regs.ebp
  o.storeTask .ebx prev regs.ebx
  o.storeTask .esi prev regs.esi
  o.storeTask .edi prev regs.edi
  o.storeTask .eflags prev regs.eflags
  return {
    esp := ← o.loadTask .esp next
    ebp := ← o.loadTask .ebp next
    ebx := ← o.loadTask .ebx next
    esi := ← o.loadTask .esi next
    edi := ← o.loadTask .edi next
    eflags := ← o.loadTask .eflags next }

/-- `switchTo` is the call of `switch_to` on the contexts of two tasks.  The function gives what it
gives, and `stay` where there is no such call. -/
def changeTaskTo {α : Type} (switchTo : Word → Word → Prog σ Stop α) (stay : α) (next : Word) :
    Prog σ Stop α := do
  if o.current (← get) ≠ next then
    let prev := o.current (← get)
    modify fun s => o.setCurrent s next
    switchTo prev (o.current (← get))
  else
    return stay

def schedule {α : Type} (switchTo : Word → Word → Prog σ Stop α) (stay : α) : Prog σ Stop α := do
  if o.current (← get) ≠ 0 then
    o.changeTaskTo switchTo stay (← o.loadTask .next (o.current (← get)))
  else
    return stay

/-- What follows `schedule` may be taken into its call of `switch_to`. -/
theorem schedule_bind {α β : Type} (switchTo : Word → Word → Prog σ Stop α) {stay : α} {stay' : β}
    {k : α → Prog σ Stop β} (same : k stay = pure stay') : o.schedule switchTo stay >>= k =
      o.schedule (fun prev next => switchTo prev next >>= k) stay' := by
  have change (next : Word) : o.changeTaskTo switchTo stay next >>= k =
      o.changeTaskTo (fun prev next => switchTo prev next >>= k) stay' next := by
    unfold changeTaskTo
    rw [bind_assoc]
    refine bind_congr fun s => ?_
    split_ifs
    · simp only [bind_assoc]
    · rw [pure_bind, same]
  unfold schedule
  rw [bind_assoc]
  refine bind_congr fun s => ?_
  split_ifs
  · simp only [bind_assoc, change]
  · rw [pure_bind, same]

/-! ## `task.c` -/

/-- The words with which the new stack begins: the last one is where the first switch to the task
returns to, and the others are the frame of `fn`. -/
def fillStack (stackTop kthreadExit fn arg : Word) : Prog σ Stop Unit := do
  o.store (stackTop - 4) arg
  o.store (stackTop - 8) kthreadExit
  o.store (stackTop - 12) fn

/-- What `kernel_thread` writes into the block that it got. -/
def fillTask (kthreadExit fn arg newTask : Word) : Prog σ Stop Unit := do
  o.bzero newTask sizeofTask.toNat
  o.storeTask .state newTask taskRunnable
  o.storeTask .stack newTask (o.current (← get))
  o.storeTask .pid newTask (← o.takePid)
  o.storeTask .mm newTask 0
  o.fillStack (newTask + stackSize) kthreadExit fn arg
  o.storeTask .esp newTask (newTask + stackSize - 4 * 3)
  o.storeTask .eflags newTask 0x200

/-- The search for the task before `running_proc_head`. -/
def findTail (tail : Word) : Prog σ Stop Word :=
  whileM .hang (fun tail => return decide ((← o.loadTask .next tail) ≠ o.runningProcHead (← get)))
    (fun tail => o.loadTask .next tail) roundLimit tail

/-- `kernel_thread` puts the new task into the list. -/
def enqueue (newTask : Word) : Prog σ Stop Unit := do
  o.storeTask .next newTask (o.runningProcHead (← get))
  let tail := o.runningProcHead (← get)
  if tail = 0 then
    throw (.panic "Must init sched!")
  let tail ← o.findTail tail
  o.storeTask .next tail newTask

def kernelThread (kmalloc : Word → Prog σ Stop Word) (kthreadExit fn arg : Word) :
    Prog σ Stop Word := do
  let newTask ← kmalloc stackSize
  if newTask = 0 then
    throw (.panic "kern_thread: kmalloc error")
  o.fillTask kthreadExit fn arg newTask
  o.enqueue newTask
  o.loadTask .pid newTask

end TaskOps

/-! ## Tasks in flat memory -/

/-- The part of the kernel's state on which tasks rest. -/
structure Sched where
  mem : Store 32
  kernStackTop : Word
  current : Word
  runningProcHead : Word
  nowPid : Word

namespace Sched

@[simps -fullyApplied]
def setMem (s : Sched) (mem : Store 32) : Sched := { s with mem := mem }

@[simps -fullyApplied]
def setCurrent (s : Sched) (task : Word) : Sched := { s with current := task }

@[simps -fullyApplied]
def setNowPid (s : Sched) (pid : Word) : Sched := { s with nowPid := pid }

@[simps -fullyApplied]
def setHead (s : Sched) (task : Word) : Sched := { s with runningProcHead := task }

end Sched

abbrev Scheduler (α : Type) := Prog Sched Stop α

/-- One word of one task. -/
def taskField (mem : Store 32) (task : Word) (f : TaskField) : Word := readWord mem (task + f.offset)

/-- `*p = v`. -/
def storeWord (p v : Word) : Scheduler Unit := modify fun s => s.setMem (writeWord s.mem p v)

/-- `bzero`, on the memory of tasks. -/
def bzeroTask : Word → ℕ → Scheduler Unit :=
  bzeroWith fun p v => modify fun s => s.setMem (writeByte s.mem p v)

@[simps kernStackTop current runningProcHead setCurrent]
def flatTasks : TaskOps Sched where
  load p := return readWord (← get).mem p
  store := storeWord
  bzero := bzeroTask
  kernStackTop := Sched.kernStackTop
  current := Sched.current
  runningProcHead := Sched.runningProcHead
  nowPid := Sched.nowPid
  setCurrent := Sched.setCurrent
  setHead := Sched.setHead
  setNowPid := Sched.setNowPid

def loadTask (f : TaskField) (task : Word) : Scheduler Word := flatTasks.loadTask f task

def storeTask (f : TaskField) (task v : Word) : Scheduler Unit := flatTasks.storeTask f task v

def takePid : Scheduler Word := flatTasks.takePid

def initSched : Scheduler Unit := flatTasks.initSched

def switchContext (regs : Context) (prev next : Word) : Scheduler Context :=
  flatTasks.switchContext regs prev next

/-- It gives the registers with which the processor goes on. -/
def schedule (regs : Context) : Scheduler Context := flatTasks.schedule (switchContext regs) regs

/-- `schedule` up to its call of `switch_to`, if there is one, with the tasks whose contexts it
passes. -/
def scheduleCall : Scheduler (Option (Word × Word)) :=
  flatTasks.schedule (fun prev next => return some (prev, next)) none

/-- The rest of `schedule`. -/
def switchCall (regs : Context) : Option (Word × Word) → Scheduler Context
  | some (prev, next) => switchContext regs prev next
  | none => return regs

def fillStack (stackTop kthreadExit fn arg : Word) : Scheduler Unit :=
  flatTasks.fillStack stackTop kthreadExit fn arg

def fillTask (kthreadExit fn arg newTask : Word) : Scheduler Unit :=
  flatTasks.fillTask kthreadExit fn arg newTask

def findTail (tail : Word) : Scheduler Word := flatTasks.findTail tail

def enqueue (newTask : Word) : Scheduler Unit := flatTasks.enqueue newTask

def kernelThread (kmalloc : Word → Scheduler Word) (kthreadExit fn arg : Word) : Scheduler Word :=
  flatTasks.kernelThread kmalloc kthreadExit fn arg

section Flat

variable {E : Stop → Sched → Prop} {s : Sched} {f : TaskField} {a v : Word}

@[simp] theorem wp_loadTask {Q : Word → Sched → Prop} :
    WP (flatTasks.loadTask f a) E Q s ↔ Q (taskField s.mem a f) s := Iff.rfl

@[simp] theorem wp_storeTask {Q : Unit → Sched → Prop} : WP (flatTasks.storeTask f a v) E Q s ↔
    Q () (s.setMem (writeWord s.mem (a + f.offset) v)) := Iff.rfl

@[simp] theorem wp_takePid {Q : Word → Sched → Prop} :
    WP flatTasks.takePid E Q s ↔ Q s.nowPid (s.setNowPid (s.nowPid + 1)) := Iff.rfl

theorem schedule_eq (regs : Context) : schedule regs = scheduleCall >>= switchCall regs := by
  have call (prev next : Word) : (pure (some (prev, next)) >>= switchCall regs : Scheduler Context) =
      switchContext regs prev next := pure_bind ..
  have stay : switchCall regs none = pure regs := rfl
  rw [scheduleCall, flatTasks.schedule_bind _ stay]
  simp only [call]
  rw [schedule]

/-- It switches to another task only, and has made it current by then. -/
theorem wp_scheduleCall {Q : Option (Word × Word) → Sched → Prop} : WP scheduleCall E Q s ↔
    (s.current ≠ 0 ∧ s.current ≠ taskField s.mem s.current .next →
      Q (some (s.current, taskField s.mem s.current .next))
        (s.setCurrent (taskField s.mem s.current .next))) ∧
    (s.current = 0 ∨ s.current = taskField s.mem s.current .next → Q none s) := by
  simp only [scheduleCall, TaskOps.schedule, TaskOps.changeTaskTo, flatTasks_current,
    flatTasks_setCurrent, Sched.setCurrent_current, wp_loadTask, wp_bind, wp_get, wp_modify, wp_pure,
    wp_ite]
  tauto

end Flat

end SimpleKernel
