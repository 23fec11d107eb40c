import SimpleKernel.PagedTasks

/-!
# Tasks and the heap together

Runs of the system in which `kernel_thread`, `schedule` and the users of the heap take turns.  Every
task but the boot task lives in a block that `kmalloc` gave for it, the run queue stays in order, and
the heap stays safe.
-/

namespace SimpleKernel

open ByteStore ProgramLogic Tiling

namespace System

/-- The part of the system on which tasks rest, with memory as the kernel sees it. -/
def flat (s : System) : Sched where
  mem := view s.machine
  kernStackTop := s.machine.kernStackTop
  current := s.current
  runningProcHead := s.runningProcHead
  nowPid := s.nowPid

end System

/-- The system with the blocks in use and the tasks. -/
structure Runtime where
  system : System
  live : List Live
  tasks : List Word

/-- A call of `kernel_thread` or `schedule`, a call of the heap by others, who do not free tasks, or a
write into memory of tasks that spares the task structs: blocks of the heap and stacks. -/
inductive SystemStep (im : Image) : Runtime → Runtime → Prop where
  | kernelThread {r : Runtime} {u : Machine} {t : System} {p pid kthreadExit fn arg : Word}
      (given : Returns (kmalloc im stackSize) r.system.machine p u)
      (run : Returns (System.kernelThread im kthreadExit fn arg) r.system pid t) :
      SystemStep im r ⟨t, (p, stackSize) :: r.live, r.tasks ++ [p]⟩
  | schedule {r : Runtime} {t : System} {regs out : Context}
      (run : Returns (System.schedule regs) r.system out t) : SystemStep im r ⟨t, r.live, r.tasks⟩
  | kmalloc {r : Runtime} {u : Machine} {p len : Word} (noWrap : NoWrap r.system.machine len)
      (run : Returns (kmalloc im len) r.system.machine p u) :
      SystemStep im r ⟨r.system.setMachine u, (p, len) :: r.live, r.tasks⟩
  | kfree {r : Runtime} {u : Machine} {b : Live} (has : b ∈ r.live) (other : b.1 ∉ r.tasks)
      (ok : PrevLinked r.system.machine b.1) (run : Returns (kfree im b.1) r.system.machine () u) :
      SystemStep im r ⟨r.system.setMachine u, r.live.erase b, r.tasks⟩
  | write {r : Runtime} {u : Machine} {va : Word} {v : Byte} (inside : va ∈ taskMemory im r.live)
      (other : va ∉ taskBytes r.tasks) (run : Returns (store8 va v) r.system.machine () u) :
      SystemStep im r ⟨r.system.setMachine u, r.live, r.tasks⟩

/-- What every step keeps. -/
structure SystemSafe (im : Image) (F : List Word) (r : Runtime) : Prop where
  safe : SafeState im F r.system.machine r.live
  queue : RunQueue r.system.flat r.tasks
  boot : r.tasks[0]? = some im.kernStack
  housed : ∀ a ∈ r.tasks, Housed im r.live a

/-- What `kernel_thread` leaves in the block `p` for the new thread. -/
structure Started (p kthreadExit fn arg pid : Word) (t : System) : Prop where
  pid : taskField (view t.machine) p .pid = pid
  esp : taskField (view t.machine) p .esp = p + stackSize - 4 * 3
  stack : NewStack p kthreadExit fn arg (view t.machine)

section Steps

variable {E : Stop → System → Prop} {im : Image} {F : List Word} {live : List Live}
  {l : List Word} {m₀ m u : Machine} {s : System} {t : Sched} {r r' : Runtime}

/-- The task structs are memory of tasks. -/
theorem taskBytes_sub (housed : ∀ a ∈ l, Housed im live a) {x : Word} (hx : x ∈ taskBytes l) :
    x ∈ taskMemory im live := by
  obtain ⟨a, ha, lo, hi⟩ := hx
  exact (housed a ha).within x lo (by omega)

theorem Related.queue (rel : Related im F m₀ live s t) (queue : RunQueue t l)
    (housed : ∀ a ∈ l, Housed im live a) : RunQueue s.flat l := by
  have same : s.flat = t.setMem (view s.machine) := by
    simp only [System.flat, Sched.setMem, rel.top, rel.current, rel.head, rel.nowPid]
  rw [same]
  exact queue.of_agree fun x hx => rel.work.shows x (taskBytes_sub housed hx)

theorem related_flat (safe : SafeState im F s.machine live) :
    Related im F s.machine live s s.flat :=
  ⟨⟨safe, .refl .., fun _ _ has => has, fun _ _ => rfl⟩, rfl, rfl, rfl, rfl⟩

/-- What leaves blocks and kernel bytes alone leaves the tasks alone. -/
theorem tasks_kept {before behind : List Live} (safe : SafeState im F m before)
    (safe' : SafeState im F u behind) (stack : StackApart im) (same : Untouched im m u)
    (kept : SafeState.BlocksKept live m u) {x : Word} (hx : x ∈ taskMemory im live) :
    view u x = view m x := by
  rcases hx with ⟨lo, hi⟩ | ⟨b, hb, lo, hi⟩
  · rw [view_eq (safe'.translate_stack stack lo hi), view_eq (safe.translate_stack stack lo hi)]
    exact same.image _ (stack.place lo hi).1
  · have e : b.1 + BitVec.ofNat 32 (x.toNat - b.1.toNat) = x := by
      apply BitVec.eq_of_toNat_eq
      rw [toNat_offset (by omega)]
      omega
    rw [← e]
    exact kept b hb _ (by omega)

/-- A new block lies apart from the tasks. -/
theorem fresh_of_safe {p : Word} (pool : KernelFrames im F) (stack : StackApart im)
    (safe : SafeState im F u ((p, stackSize) :: live)) (housed : ∀ a ∈ l, Housed im live a) :
    Fresh l p := by
  have size : stackSize.toNat = 8192 := rfl
  have header : sizeofHeader.toNat = 12 := rfl
  have first : heapStart.toNat = 0xE0000000 := rfl
  have heap := safe.heapSafe pool
  obtain ⟨lo, hi⟩ := heap.inside (p, stackSize) (List.mem_cons_self ..)
  have limit := u.heapMax.isLt
  simp only at lo hi
  refine ⟨?_, by omega, fun a ha => ?_⟩
  · rintro rfl
    simp at lo
    omega
  · rcases housed a ha with rfl | block
    · have stop := stack.stop
      have mapped := im.kernEnd_mapped
      omega
    · have apart := (List.pairwise_cons.1 heap.apart).1 _ block
      simp only at apart
      omega

/-- There is always room for a stack in the address space. -/
theorem SafeState.noWrap_stack (safe : SafeState im F m live) (pool : KernelFrames im F) :
    NoWrap m stackSize := by
  obtain ⟨tables, pages, l, bs, heap, -, -⟩ := safe
  have size : stackSize.toNat = 8192 := rfl
  have fits := heap.listed.fits
  have limit := heap.listed.own.heapMax_lt pool
  refine (heap.noWrap_iff pool).2 ⟨by omega, fun _ => ?_⟩
  unfold after
  omega

/-- A `kmalloc` over flat memory that gives the block `p` and leaves `mem` behind. -/
def givenBlock (p : Word) (mem : Store 32) : Word → Scheduler Word := fun _ => do
  modify fun t => t.setMem mem
  return p

/-- `kernel_thread` starts one more task, or stops because the frames have run out. -/
theorem SystemSafe.kernelThread (ok : SystemSafe im F r) (pool : KernelFrames im F)
    (stack : StackApart im) (kthreadExit fn arg : Word) :
    WP (System.kernelThread im kthreadExit fn arg)
      (fun e _ => e = outOfMemory ∧ ∃ u, Stops (kmalloc im stackSize) r.system.machine e u)
      (fun pid t => ∃ p u, Returns (kmalloc im stackSize) r.system.machine p u ∧
        SystemSafe im F ⟨t, (p, stackSize) :: r.live, r.tasks ++ [p]⟩ ∧
        Sheltered im r.system.machine t.machine ∧ Started p kthreadExit fn arg pid t ∧
        ∀ which l, HeapHas which im F u l → HeapHas which im F t.machine l) r.system := by
  have noWrap := ok.safe.noWrap_stack pool
  unfold System.kernelThread TaskOps.kernelThread
  rw [wp_bind]
  refine wp_focus.2 ?_
  rcases (ok.safe.kmalloc_kept pool noWrap).outcome with
    ⟨p, u, given, safe, same, kept⟩ | ⟨e, u, stop, rfl⟩
  · refine given.wp ?_
    have fresh := fresh_of_safe pool stack safe ok.housed
    have more (a : Word) (ha : a ∈ r.tasks) : Housed im ((p, stackSize) :: r.live) a :=
      (ok.housed a ha).imp_right (List.mem_cons_of_mem _)
    have new : Housed im ((p, stackSize) :: r.live) p := .inr (List.mem_cons_self ..)
    have old : ∀ x ∈ taskBytes r.tasks, view u x = view r.system.machine x := fun x hx =>
      tasks_kept ok.safe safe stack same kept (taskBytes_sub ok.housed hx)
    have rel : Related im F u ((p, stackSize) :: r.live) (r.system.setMachine u)
        (r.system.flat.setMem (view u)) :=
      ⟨⟨safe, .refl .., fun _ _ has => has, fun _ _ => rfl⟩,
        (kernStackTop_of_globals same.globals).symm, rfl, rfl, rfl⟩
    have queue : RunQueue (r.system.flat.setMem (view u)) r.tasks := ok.queue.of_agree old
    have flat := ok.queue.kernelThread (E := fun _ _ => False) (givenBlock p (view u)) kthreadExit fn
      arg rfl fresh rfl old (Q := fun pid t => RunQueue t (r.tasks ++ [p]) ∧ pid = r.system.nowPid ∧
        Created r.tasks p kthreadExit fn arg
          (newTask r.system.current r.system.nowPid p) (view u) t.mem)
      fun t queue' _ created => ⟨queue', rfl, created⟩
    have rest := rel.startTask pool stack queue.toQueued fresh new more kthreadExit fn arg
    have whole : Refines (fun pid s' pid' t' => pid = pid' ∧
        Related im F u ((p, stackSize) :: r.live) s' t')
        (do
          System.fillTask kthreadExit fn arg p
          System.enqueue p
          System.loadTask .pid p)
        (SimpleKernel.kernelThread (givenBlock p (view u)) kthreadExit fn arg)
        (r.system.setMachine u) r.system.flat := by
      refine Refines.right (b := p) rfl ?_
      rw [if_neg fresh.ne_zero]
      exact rest
    refine wp_ite.2 ⟨fun zero => absurd zero fresh.ne_zero, fun _ => ?_⟩
    refine (whole.wp flat).weaken (fun _ _ h => h.elim fun _ no => no.elim) ?_
    rintro _ s' ⟨_, t, ⟨queue', rfl, created⟩, rfl, rel'⟩
    have all (a : Word) (ha : a ∈ r.tasks ++ [p]) : Housed im ((p, stackSize) :: r.live) a := by
      rcases List.mem_append.1 ha with ha | ha
      · exact more a ha
      · rw [List.mem_singleton.1 ha]
        exact new
    have room := fresh.room
    have shows (x : Word) (lo : p.toNat ≤ x.toNat) (hi : x.toNat < p.toNat + 8192) :
        view s'.machine x = t.mem x := rel'.work.shows x (new.within x lo hi)
    have field (f : TaskField) (other : f ≠ .next) :
        taskField (view s'.machine) p f = newTask r.system.current r.system.nowPid p f :=
      (taskField_congr f (by omega) fun x lo hi => shows x lo (by omega)).trans
        (created.fields f other)
    refine ⟨p, u, given, ⟨rel'.work.safe, rel'.queue queue' all, ?_, all⟩,
      Sheltered.trans (.of_untouched same) rel'.work.sheltered, ⟨field .pid (by decide),
        field .esp (by decide), created.stack.congr room fun x lo hi =>
          shows x (by omega) (by omega)⟩, rel'.work.chunks⟩
    rw [List.getElem?_append_left (Ring.index_lt ok.boot)]
    exact ok.boot
  · exact stop.wp ⟨rfl, u, stop⟩

/-- `schedule` makes the next task current. -/
theorem SystemSafe.schedule (ok : SystemSafe im F r) (pool : KernelFrames im F)
    (stack : StackApart im) (regs : Context) : WP (System.schedule regs) E (fun _ t =>
      SystemSafe im F ⟨t, r.live, r.tasks⟩ ∧ Sheltered im r.system.machine t.machine ∧
        t.current = taskField (view r.system.machine) r.system.current .next) r.system := by
  have flat := ok.queue.schedule (E := fun _ _ => False) regs (Q := fun _ t =>
    RunQueue t r.tasks ∧ t.current = taskField (view r.system.machine) r.system.current .next)
    fun _ t queue' current => ⟨queue', current⟩
  refine (((related_flat ok.safe).schedule pool stack ok.queue ok.housed regs).wp flat).weaken
    (fun _ _ h => h.elim fun _ no => no.elim) ?_
  rintro _ s' ⟨_, t, ⟨queue', current⟩, -, rel⟩
  exact ⟨⟨rel.work.safe, rel.queue queue' ok.housed, ok.boot, ok.housed⟩, rel.work.sheltered,
    rel.current.symm.trans current⟩

/-- What is done to the heap by others. -/
theorem SystemSafe.setMachine {live' : List Live} (ok : SystemSafe im F r)
    (safe : SafeState im F u live') (same : u.globals = r.system.machine.globals)
    (kept : ∀ x ∈ taskBytes r.tasks, view u x = view r.system.machine x)
    (housed : ∀ a ∈ r.tasks, Housed im live' a) :
    SystemSafe im F ⟨r.system.setMachine u, live', r.tasks⟩ := by
  refine ⟨safe, ?_, ok.boot, housed⟩
  have top : u.kernStackTop = r.system.machine.kernStackTop := kernStackTop_of_globals same
  have flat : (r.system.setMachine u).flat = r.system.flat.setMem (view u) := by
    simp only [System.flat, Sched.setMem, System.setMachine_machine, System.setMachine_current,
      System.setMachine_runningProcHead, System.setMachine_nowPid, top]
  show RunQueue (r.system.setMachine u).flat r.tasks
  rw [flat]
  exact ok.queue.of_agree kept

/-- One step keeps tasks and heap, and the image beside them. -/
theorem SystemStep.keeps (step : SystemStep im r r') (pool : KernelFrames im F)
    (stack : StackApart im) (ok : SystemSafe im F r) :
    SystemSafe im F r' ∧ Sheltered im r.system.machine r'.system.machine := by
  cases step with
  | kernelThread given run =>
    obtain ⟨p, u, given', ok', same, -⟩ := (ok.kernelThread pool stack _ _ _).returned run
    rw [given.unique given']
    exact ⟨ok', same⟩
  | schedule run =>
    obtain ⟨ok', same, -⟩ := (ok.schedule (E := fun _ _ => True) pool stack _).returned run
    exact ⟨ok', same⟩
  | kmalloc noWrap run =>
    obtain ⟨safe, same, kept⟩ := (ok.safe.kmalloc_kept pool noWrap).returned run
    refine ⟨ok.setMachine safe same.globals (fun x hx => ?_) fun a ha =>
      (ok.housed a ha).imp_right (List.mem_cons_of_mem _), .of_untouched same⟩
    exact tasks_kept ok.safe safe stack same kept (taskBytes_sub ok.housed hx)
  | @kfree u b has other linked run =>
    obtain ⟨safe, same, kept⟩ :=
      (ok.safe.kfree_kept (E := fun _ _ => True) pool has linked).returned run
    have housed (a : Word) (ha : a ∈ r.tasks) : Housed im (r.live.erase b) a := by
      refine (ok.housed a ha).imp_right fun block => ?_
      refine (List.mem_erase_of_ne ?_).2 block
      rintro rfl
      exact other ha
    refine ⟨ok.setMachine safe same.globals (fun x hx => ?_) housed, .of_untouched same⟩
    exact tasks_kept ok.safe safe stack same kept (taskBytes_sub housed hx)
  | @write u va v inside other run =>
    have work : Workspace im F r.system.machine r.live r.system.machine (view r.system.machine) :=
      ⟨ok.safe, .refl .., fun _ _ has => has, fun _ _ => rfl⟩
    have written := (work.store8 pool stack inside (b := v) (E := fun _ _ => True)
      (Q := fun _ t => Workspace im F r.system.machine r.live t
        (writeByte (view r.system.machine) va v)) fun _ work' => work').returned run
    refine ⟨ok.setMachine written.safe written.sheltered.globals (fun x hx => ?_) ok.housed,
      written.sheltered⟩
    rw [written.shows x (taskBytes_sub ok.housed hx)]
    refine writeByte_of_ne _ ?_
    rintro rfl
    exact other hx

theorem SystemStep.run (pool : KernelFrames im F) (stack : StackApart im)
    (steps : Relation.ReflTransGen (SystemStep im) r r') (ok : SystemSafe im F r) :
    SystemSafe im F r' ∧ Sheltered im r.system.machine r'.system.machine := by
  induction steps with
  | refl => exact ⟨ok, .refl ..⟩
  | tail _ step ih =>
    obtain ⟨ok', same⟩ := step.keeps pool stack ih.1
    exact ⟨ok', ih.2.trans same⟩

/-- `init_sched` makes the thread that runs the first task. -/
theorem systemSafe_of_initSched (pool : KernelFrames im F) (stack : StackApart im)
    (safe : SafeState im F s.machine live) (top : s.machine.kernStackTop = kernStackTop im.kernStack)
    (pid : s.nowPid = 0) : WP System.initSched E
      (fun _ t => SystemSafe im F ⟨t, live, [im.kernStack]⟩ ∧
        Sheltered im s.machine t.machine) s := by
  have flat := initSched_spec (E := fun _ _ => False) stack.toStackLinked (s := s.flat) top pid
    (Q := fun _ t => RunQueue t [im.kernStack]) fun _ queue _ => queue
  refine (((related_flat safe).initSched pool stack top).wp flat).weaken
    (fun _ _ h => h.elim fun _ no => no.elim) ?_
  rintro _ s' ⟨_, t, queue, rel⟩
  have housed (a : Word) (ha : a ∈ [im.kernStack]) : Housed im live a := .inl (List.mem_singleton.1 ha)
  exact ⟨⟨rel.work.safe, rel.queue queue housed, rfl, housed⟩, rel.work.sheltered⟩

end Steps

/-! ## Main result -/

/-- A heap without blocks in use has no chunks and no pages. -/
theorem SafeState.heapList {im : Image} {F : List Word} {m : Machine} (safe : SafeState im F m []) :
    ∃ tables, HeapList (· = false) im F m [] tables [] := by
  obtain ⟨tables, served⟩ := safe
  exact ⟨tables, Served.empty served⟩

end SimpleKernel
