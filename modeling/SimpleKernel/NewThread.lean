import SimpleKernel.RunQueue
import SimpleKernel.SwitchTo

/-!
# The first switch to a new thread

`kernel_thread` builds by hand what `switch_to` expects of a task: a context, and a stack on which
the address of the thread's function lies where a return address is taken from.
-/

namespace SimpleKernel

open ByteStore ProgramLogic X86

/-- `switch_to(&prev->context, &next->context)` begins in `c`, with its frame outside the old context
and both of them outside the block of `next`. -/
structure CallsFirst (c : Core) (prev next : Word) : Prop where
  old : readWord c.mem (c.reg .esp + 4) = contextOf prev
  new : readWord c.mem (c.reg .esp + 8) = contextOf next
  room : 4 ≤ (c.reg .esp).toNat ∧ (c.reg .esp).toNat + 12 ≤ 2 ^ 32
  struct : prev.toNat + 44 ≤ 2 ^ 32
  apart : prev.toNat + 44 ≤ (c.reg .esp).toNat - 4 ∨ (c.reg .esp).toNat + 12 ≤ prev.toNat
  frame : (c.reg .esp).toNat + 12 ≤ next.toNat ∨ next.toNat + 8192 ≤ (c.reg .esp).toNat - 4
  block : prev.toNat + 44 ≤ next.toNat ∨ next.toNat + 8192 ≤ prev.toNat

/-- The processor at the first instruction of `fn`, as if `fn(arg)` were called from just before
`kthread_exit`. -/
structure Launched (c : Core) (p kthreadExit fn arg : Word) : Prop where
  eip : c.eip = fn
  esp : c.reg .esp = p + stackSize - 8
  back : readWord c.mem (c.reg .esp) = kthreadExit
  argument : readWord c.mem (c.reg .esp + 4) = arg
  zero : ∀ r ∈ [Reg.ebp, .ebx, .esi, .edi], c.reg r = 0
  interrupts : c.eflags &&& interruptFlag ≠ 0

section Start

variable {l : List Word} {p kthreadExit fn arg prev current pid : Word} {mem₀ mem : Store 32}
  {c : Core}

/-- The context of the new task. -/
theorem Created.context (created : Created l p kthreadExit fn arg (newTask current pid p) mem₀ mem) :
    contextAt mem (contextOf p) = ⟨p + stackSize - 12, 0, 0, 0, 0, 0x200⟩ := by
  have field (f : TaskField) (h : f ≠ .next) : taskField mem p f = newTask current pid p f :=
    created.fields f h
  rw [contextAt_contextOf, field .esp (by decide), field .ebp (by decide), field .ebx (by decide),
    field .esi (by decide), field .edi (by decide), field .eflags (by decide)]
  rfl

variable (room : p.toNat + 8192 ≤ 2 ^ 32)
  (created : Created l p kthreadExit fn arg (newTask current pid p) mem₀ mem)
  (untouched : ∀ x : Word, p.toNat ≤ x.toNat → x.toNat < p.toNat + 8192 →
    x.toNat < p.toNat + 40 ∨ p.toNat + 44 ≤ x.toNat → c.mem x = mem x)
include room created untouched

/-- The context is untouched up to the switch. -/
theorem context_untouched :
    contextAt c.mem (contextOf p) = ⟨p + stackSize - 12, 0, 0, 0, 0, 0x200⟩ := by
  have place : (contextOf p).toNat = p.toNat + 16 := toNat_offset (i := 16) (by omega)
  rw [← created.context]
  exact contextAt_congr (by omega) fun x lo hi => untouched x (by omega) (by omega) (by omega)

variable (call : CallsFirst c prev p)
include call

/-- `switch_to` to a task whose block is as `kernel_thread` has left it, up to its `ret`. -/
theorem switchTo_created : Switched c (runOps switchTo c) (contextOf prev) (contextOf p) := by
  have context := context_untouched room created untouched
  obtain ⟨old, new, ⟨low, high⟩, struct, apart, frame, block⟩ := call
  have prevPlace : (contextOf prev).toNat = prev.toNat + 16 := toNat_offset (i := 16) (by omega)
  have newPlace : (contextOf p).toNat = p.toNat + 16 := toNat_offset (i := 16) (by omega)
  have top : (p + stackSize - 12).toNat = p.toNat + 8180 :=
    stackSize_sub room (k := 12) (by decide) (by decide)
  refine switchTo_spec ⟨⟨low, high⟩, ⟨by omega, by omega⟩, by omega, by omega, by omega, ?_, ?_⟩
    old new
  · rw [context]
    show 4 ≤ (p + stackSize - 12).toNat
    omega
  · rw [context]
    show _ ≤ (p + stackSize - 12).toNat - 4 ∨ (p + stackSize - 12).toNat ≤ _
    omega

variable {u : Core} (switched : Switched c u (contextOf prev) (contextOf p))
include switched

/-- In what `switch_to` changes only the flags that it pushes lie in the block, behind the struct. -/
theorem switched_outside (x : Word)
    (old : x.toNat < prev.toNat + 16 ∨ prev.toNat + 40 ≤ x.toNat)
    (flags : x.toNat < (c.reg .esp).toNat - 4 ∨ (c.reg .esp).toNat ≤ x.toNat)
    (pushed : x.toNat < p.toNat + 8176 ∨ p.toNat + 8180 ≤ x.toNat) : u.mem x = c.mem x := by
  have outside := switched.mem
  rw [context_untouched room created untouched] at outside
  have top : (p + stackSize - 12).toNat = p.toNat + 8180 :=
    stackSize_sub room (k := 12) (by decide) (by decide)
  have prevRoom := call.struct
  have prevPlace : (contextOf prev).toNat = prev.toNat + 16 := toNat_offset (i := 16) (by omega)
  refine outside x (by omega) flags ?_
  show x.toNat < (p + stackSize - 12).toNat - 4 ∨ (p + stackSize - 12).toNat ≤ x.toNat
  omega

/-- The `ret` of that `switch_to` enters `fn`. -/
theorem launched_of_switched : Launched (Op.ret.exec u) p kthreadExit fn arg := by
  have outside := switched_outside room created untouched call switched
  have espSame := switched.esp
  have ebpSame := switched.ebp
  have ebxSame := switched.ebx
  have esiSame := switched.esi
  have ediSame := switched.edi
  have eflagsSame := switched.eflags
  have context := context_untouched room created untouched
  rw [context] at espSame ebpSame ebxSame esiSame ediSame eflagsSame
  change u.reg .esp = p + stackSize - 12 at espSame
  have frame := call.frame
  have block := call.block
  -- neither the old context nor the saved flags lie in the new stack
  have stack : NewStack p kthreadExit fn arg u.mem := by
    refine created.stack.congr room fun x lo hi => ?_
    rw [outside x (by omega) (by omega) (by omega)]
    exact untouched x (by omega) hi (.inr (by omega))
  have up (v w : Word) : p + stackSize - v + w = p + stackSize - (v - w) := by bv_omega
  refine ⟨?_, ?_, ?_, ?_, fun r hr => ?_, ?_⟩
  · show readWord u.mem (u.reg .esp + BitVec.ofNat 32 (4 * 0)) = fn
    rw [Nat.mul_zero, BitVec.add_zero, espSame]
    exact stack.fn
  · show u.reg .esp + 4 = _
    rw [espSame, up]
    rfl
  · show readWord u.mem (u.reg .esp + 4) = _
    rw [espSame, up]
    exact stack.kthreadExit
  · show readWord u.mem (u.reg .esp + 4 + 4) = _
    rw [espSame, up, up]
    exact stack.arg
  · simp only [List.mem_cons, List.not_mem_nil, or_false] at hr
    obtain rfl | rfl | rfl | rfl := hr
    · exact ebpSame
    · exact ebxSame
    · exact esiSame
    · exact ediSame
  · show u.eflags &&& interruptFlag ≠ 0
    rw [eflagsSame, flagsOfImage_interruptFlag]
    show (0x200 : Word) &&& interruptFlag ≠ 0
    decide

end Start

/-- `kernel_thread` and the first switch to its task, with anything in between that leaves the block
alone but for the `next` word of the queue. -/
theorem newThread_launched (im : Image) (linked : StackLinked im) (s : Sched) (l : List Word)
    (reached : Reached im s l) {kmalloc : Word → Scheduler Word}
    {kthreadExit fn arg p pid : Word} {u t : Sched} (given : Allocates kmalloc s l p u)
    (run : Returns (kernelThread kmalloc kthreadExit fn arg) s pid t) {c : Core} {prev : Word}
    (call : CallsFirst c prev p)
    (untouched : ∀ x : Word, p.toNat ≤ x.toNat → x.toNat < p.toNat + 8192 →
      x.toNat < p.toNat + 40 ∨ p.toNat + 44 ≤ x.toNat → c.mem x = t.mem x) :
    let after := Op.ret.exec (runOps switchTo c)
    Launched after p kthreadExit fn arg ∧
      contextAt after.mem (contextOf prev) = savedContext c ∧
      (∀ f, f ≠ .next → taskField t.mem p f = newTask s.current s.nowPid p f) ∧
      (∀ x : Word, x.toNat < p.toNat ∨ p.toNat + 8192 ≤ x.toNat →
        (∀ a ∈ l, x.toNat < a.toNat + 40 ∨ a.toNat + 44 ≤ x.toNat) → t.mem x = u.mem x) ∧
      ∀ x : Word, x.toNat < prev.toNat + 16 ∨ prev.toNat + 40 ≤ x.toNat →
        x.toNat < (c.reg .esp).toNat - 4 ∨ (c.reg .esp).toNat ≤ x.toNat →
        x.toNat < p.toNat + 8176 ∨ p.toNat + 8180 ≤ x.toNat → after.mem x = c.mem x := by
  intro after
  have queue := reached.runQueue linked
  have created : Created l p kthreadExit fn arg (newTask s.current s.nowPid p) u.mem t.mem :=
    (queue.kernelThread (E := fun _ _ => True) kmalloc kthreadExit fn arg given.returns given.fresh
      given.globals given.tasks (Q := fun _ t => Created l p kthreadExit fn arg
        (newTask s.current s.nowPid p) u.mem t.mem) fun _ _ _ created => created).returned run
  have room := given.fresh.room
  have switched := switchTo_created room created untouched call
  exact ⟨launched_of_switched room created untouched call switched, switched.old, created.fields,
    created.outside, fun x => switched_outside room created untouched call switched x⟩

/-- A processor on the boot task's stack that calls `switch_to` for the task at `0xE0002018`. -/
def switchingCore (mem : Store 32) : Core where
  reg := fun _ => 0xC0131000
  eflags := 0x202
  mem := writeWord (writeWord mem 0xC0131004 (contextOf 0xC0130000)) 0xC0131008
    (contextOf 0xE0002018)
  eip := 0xC0100600
  seg := fun s => if s = .cs then 0x8 else 0x10

theorem newThread_launched_third : ∃ s pid t,
    Returns (kernelThread (fun _ => pure 0xE0002018) 0xC0100700 0xC0100800 7) s pid t ∧
      Launched (Op.ret.exec (runOps switchTo (switchingCore t.mem))) 0xE0002018 0xC0100700
        0xC0100800 7 := by
  obtain ⟨s, reached⟩ := exists_twoTasks
  have given : Allocates (fun _ => pure 0xE0002018) s [0xC0130000, 0xE000000C] 0xE0002018 s :=
    ⟨rfl, fresh_third, rfl, fun _ _ => rfl⟩
  obtain ⟨pid, t, run, -⟩ := ((reached.runQueue stackLinked_smallImage).kernelThread
    (E := fun _ _ => False) (fun _ => pure 0xE0002018) 0xC0100700 0xC0100800 7 given.returns
    given.fresh given.globals given.tasks (Q := fun _ _ => True) fun _ _ _ _ => trivial).returns
  have call : CallsFirst (switchingCore t.mem) 0xC0130000 0xE0002018 := by
    have place : (0xC0131000 : Word) + 4 = 0xC0131004 := by decide
    refine ⟨?_, readWord_writeWord_self _ _ (by decide), ?_, by decide, ?_, ?_, by decide⟩
    · show readWord (writeWord (writeWord t.mem 0xC0131004 _) 0xC0131008 _) (0xC0131000 + 4) = _
      rw [place, readWord_writeWord_disjoint _ _ (by decide) (by decide) (by decide)]
      exact readWord_writeWord_self _ _ (by decide)
    · show 4 ≤ (0xC0131000 : Word).toNat ∧ (0xC0131000 : Word).toNat + 12 ≤ 2 ^ 32
      decide
    · refine .inl ?_
      show (0xC0130000 : Word).toNat + 44 ≤ (0xC0131000 : Word).toNat - 4
      decide
    · refine .inl ?_
      show (0xC0131000 : Word).toNat + 12 ≤ (0xE0002018 : Word).toNat
      decide
  refine ⟨s, pid, t, run, (newThread_launched smallImage stackLinked_smallImage s _ reached given
    run call fun x lo _ _ => ?_).1⟩
  change 0xE0002018 ≤ x.toNat at lo
  show writeWord (writeWord t.mem 0xC0131004 (contextOf 0xC0130000)) 0xC0131008 _ x = t.mem x
  rw [writeWord_outside _ _ (by decide) (.inr ?_), writeWord_outside _ _ (by decide) (.inr ?_)]
  · show 0xC0131004 + 4 ≤ x.toNat
    omega
  · show 0xC0131008 + 4 ≤ x.toNat
    omega

end SimpleKernel
