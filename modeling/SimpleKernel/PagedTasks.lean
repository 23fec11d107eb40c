import SimpleKernel.TaskMemory

/-!
# Tasks in paged memory

`task.c` and `sched.c` as the kernel runs them: every field of a task is reached through the page
tables, and `kmalloc` is the one of `heap.c`.  Each function refines the one over flat memory as long
as the tasks lie in blocks in use.
-/

namespace SimpleKernel

open ByteStore ProgramLogic

/-- The machine and the globals of `sched.c` and `task.c`. -/
structure System where
  machine : Machine
  current : Word
  runningProcHead : Word
  nowPid : Word

namespace System

@[simps -fullyApplied]
def setMachine (s : System) (machine : Machine) : System := { s with machine := machine }

@[simps -fullyApplied]
def setCurrent (s : System) (task : Word) : System := { s with current := task }

@[simps -fullyApplied]
def setNowPid (s : System) (pid : Word) : System := { s with nowPid := pid }

@[simps -fullyApplied]
def setHead (s : System) (task : Word) : System := { s with runningProcHead := task }

abbrev Tasking (α : Type) := Prog System Stop α

def onMachine {α : Type} (c : Kernel α) : Tasking α := focus id machine setMachine c

def pagedTasks : TaskOps System where
  load va := onMachine (load32 va)
  store va v := onMachine (store32 va v)
  bzero dest len := onMachine (bzero dest len)
  kernStackTop s := s.machine.kernStackTop
  current := current
  runningProcHead := runningProcHead
  nowPid := nowPid
  setCurrent := setCurrent
  setHead := setHead
  setNowPid := setNowPid

def loadTask (f : TaskField) (task : Word) : Tasking Word := pagedTasks.loadTask f task

def storeTask (f : TaskField) (task v : Word) : Tasking Unit := pagedTasks.storeTask f task v

def takePid : Tasking Word := pagedTasks.takePid

def initSched : Tasking Unit := pagedTasks.initSched

def switchContext (regs : Context) (prev next : Word) : Tasking Context :=
  pagedTasks.switchContext regs prev next

def schedule (regs : Context) : Tasking Context := pagedTasks.schedule (switchContext regs) regs

def fillStack (stackTop kthreadExit fn arg : Word) : Tasking Unit :=
  pagedTasks.fillStack stackTop kthreadExit fn arg

def fillTask (kthreadExit fn arg newTask : Word) : Tasking Unit :=
  pagedTasks.fillTask kthreadExit fn arg newTask

def findTail (tail : Word) : Tasking Word := pagedTasks.findTail tail

def enqueue (newTask : Word) : Tasking Unit := pagedTasks.enqueue newTask

def kernelThread (im : Image) (kthreadExit fn arg : Word) : Tasking Word :=
  pagedTasks.kernelThread (fun len => onMachine (kmalloc im len)) kthreadExit fn arg

end System

/-! ## Refinement -/

/-- The system `s` is the flat one `t` as far as tasks are concerned, and its heap is safe. -/
structure Related (im : Image) (F : List Word) (m₀ : Machine) (live : List Live) (s : System)
    (t : Sched) : Prop where
  work : Workspace im F m₀ live s.machine t.mem
  top : t.kernStackTop = s.machine.kernStackTop
  current : t.current = s.current
  head : t.runningProcHead = s.runningProcHead
  nowPid : t.nowPid = s.nowPid

theorem kernStackTop_of_globals {m m' : Machine} (same : m'.globals = m.globals) :
    m'.kernStackTop = m.kernStackTop := congrArg (fun g => g.2.2.2.1) same

theorem Within.mono {im : Image} {live : List Live} {p : Word} {n k : ℕ} (within : Within im live p n)
    (le : k ≤ n) : Within im live p k := fun x lo hi => within x lo (by omega)

/-- Everything in a block in use is memory of tasks. -/
theorem within_block {im : Image} {live : List Live} {b : Live} (hb : b ∈ live) :
    Within im live b.1 b.2.toNat := fun _ lo hi => .inr ⟨b, hb, lo, hi⟩

/-- A task in `kern_stack` or in a block in use of its size. -/
def Housed (im : Image) (live : List Live) (a : Word) : Prop :=
  a = im.kernStack ∨ (a, stackSize) ∈ live

theorem Housed.within {im : Image} {live : List Live} {a : Word} (housed : Housed im live a) :
    Within im live a 8192 := by
  rcases housed with rfl | hb
  · exact fun x lo hi => .inl ⟨lo, hi⟩
  · exact within_block hb

namespace Related

variable {im : Image} {F : List Word} {m₀ : Machine} {live : List Live} {s : System} {t : Sched}
  {l : List Word} {a p v : Word} {f : TaskField}

theorem sameTop (rel : Related im F m₀ live s t) :
    System.pagedTasks.kernStackTop s = flatTasks.kernStackTop t := rel.top.symm

theorem sameCurrent (rel : Related im F m₀ live s t) :
    System.pagedTasks.current s = flatTasks.current t := rel.current.symm

theorem sameHead (rel : Related im F m₀ live s t) :
    System.pagedTasks.runningProcHead s = flatTasks.runningProcHead t := rel.head.symm

theorem setMem (rel : Related im F m₀ live s t) {m : Machine} {mem : Store 32}
    (work : Workspace im F m₀ live m mem) : Related im F m₀ live (s.setMachine m) (t.setMem mem) :=
  ⟨work, rel.top.trans (kernStackTop_of_globals
    (rel.work.sheltered.globals.trans work.sheltered.globals.symm)), rel.current, rel.head, rel.nowPid⟩

theorem setCurrent (rel : Related im F m₀ live s t) (v : Word) :
    Related im F m₀ live (s.setCurrent v) (t.setCurrent v) :=
  ⟨rel.work, rel.top, rfl, rel.head, rel.nowPid⟩

theorem setNowPid (rel : Related im F m₀ live s t) (v : Word) :
    Related im F m₀ live (s.setNowPid v) (t.setNowPid v) :=
  ⟨rel.work, rel.top, rel.current, rel.head, rfl⟩

theorem setHead (rel : Related im F m₀ live s t) (v : Word) :
    Related im F m₀ live (s.setHead v) (t.setHead v) :=
  ⟨rel.work, rel.top, rel.current, rfl, rel.nowPid⟩

/-- `*p = v` in both. -/
theorem storeWord (rel : Related im F m₀ live s t) (pool : KernelFrames im F) (stack : StackApart im)
    (room : p.toNat + 4 ≤ 2 ^ 32) (inside : Within im live p 4)
    {R : Unit → System → Unit → Sched → Prop}
    (hR : ∀ s', Related im F m₀ live s' (t.setMem (writeWord t.mem p v)) →
      s'.current = s.current → R () s' () (t.setMem (writeWord t.mem p v))) :
    Refines R (System.onMachine (store32 p v)) (SimpleKernel.storeWord p v) s t := by
  refine wp_focus.2 (rel.work.store32 pool stack room inside fun m work => ?_)
  exact ⟨(), _, rfl, hR _ (rel.setMem work) rfl⟩

theorem loadTask (rel : Related im F m₀ live s t) (pool : KernelFrames im F) (stack : StackApart im)
    (room : a.toNat + 44 ≤ 2 ^ 32) (inside : Within im live a 44)
    {R : Word → System → Word → Sched → Prop} (hR : R (taskField t.mem a f) s (taskField t.mem a f) t) :
    Refines R (System.loadTask f a) (SimpleKernel.loadTask f a) s t := by
  have place := taskField_toNat f room
  have few := f.ctorIdx_lt
  have below : (a + f.offset).toNat + 4 ≤ 2 ^ 32 := by omega
  have loaded := rel.work.load32 pool stack below
    fun x lo hi => inside x (by omega) (by omega)
  refine wp_focus.2 (loaded.wp ⟨_, t, rfl, ?_⟩)
  exact hR

theorem storeTask (rel : Related im F m₀ live s t) (pool : KernelFrames im F) (stack : StackApart im)
    (room : a.toNat + 44 ≤ 2 ^ 32) (inside : Within im live a 44)
    {R : Unit → System → Unit → Sched → Prop}
    (hR : ∀ s', Related im F m₀ live s' (t.setMem (writeWord t.mem (a + f.offset) v)) →
      s'.current = s.current → R () s' () (t.setMem (writeWord t.mem (a + f.offset) v))) :
    Refines R (System.storeTask f a v) (SimpleKernel.storeTask f a v) s t := by
  have place := taskField_toNat f room
  have few := f.ctorIdx_lt
  exact rel.storeWord pool stack (by omega) (fun x lo hi => inside x (by omega) (by omega)) hR

theorem bzero {n : ℕ} (rel : Related im F m₀ live s t) (pool : KernelFrames im F)
    (stack : StackApart im) (room : p.toNat + n ≤ 2 ^ 32) (inside : Within im live p n)
    {R : Unit → System → Unit → Sched → Prop}
    (hR : ∀ s', Related im F m₀ live s' (t.setMem (zeroFill t.mem p n)) → s'.current = s.current →
      R () s' () (t.setMem (zeroFill t.mem p n))) :
    Refines R (System.onMachine (bzero p n)) (bzeroTask p n) s t := by
  obtain ⟨_, u, run, rfl⟩ := (bzeroTask_spec (E := fun _ _ => False) (s := t) room
    (Q := fun _ u => u = t.setMem (zeroFill t.mem p n)) rfl).returns
  refine wp_focus.2 (rel.work.bzero pool stack room inside fun m work => ?_)
  exact ⟨(), _, run, hR _ (rel.setMem work) rfl⟩

/-- `now_pid++` in both. -/
theorem takePid (rel : Related im F m₀ live s t) {R : Word → System → Word → Sched → Prop}
    (hR : Related im F m₀ live (s.setNowPid (s.nowPid + 1)) (t.setNowPid (t.nowPid + 1)) →
      R t.nowPid (s.setNowPid (s.nowPid + 1)) t.nowPid (t.setNowPid (t.nowPid + 1))) :
    Refines R System.takePid SimpleKernel.takePid s t := by
  have related := rel.setNowPid (t.nowPid + 1)
  have same := rel.nowPid
  refine ⟨t.nowPid, _, rfl, ?_⟩
  show R s.nowPid (s.setNowPid (s.nowPid + 1)) t.nowPid (t.setNowPid (t.nowPid + 1))
  rw [← same] at hR ⊢
  exact hR related

/-! ### `kernel_thread` -/

theorem fillStack (rel : Related im F m₀ live s t) (pool : KernelFrames im F) (stack : StackApart im)
    (room : p.toNat + 8192 ≤ 2 ^ 32) (inside : Within im live p 8192) (kthreadExit fn arg : Word)
    {R : Unit → System → Unit → Sched → Prop}
    (hR : ∀ s' t', Related im F m₀ live s' t' → R () s' () t') :
    Refines R (System.fillStack (p + stackSize) kthreadExit fn arg)
      (SimpleKernel.fillStack (p + stackSize) kthreadExit fn arg) s t := by
  have place (k : ℕ) (pos : 0 < k) (hk : k ≤ 8192) := stackSize_sub room pos hk
  have word (k : ℕ) (pos : 4 ≤ k) (hk : k ≤ 8192) :
      (p + stackSize - BitVec.ofNat 32 k).toNat + 4 ≤ 2 ^ 32 ∧
        Within im live (p + stackSize - BitVec.ofNat 32 k) 4 := by
    have e := place k (by omega) hk
    exact ⟨by omega, fun x lo hi => inside x (by omega) (by omega)⟩
  have first := word 4 (by decide) (by decide)
  have second := word 8 (by decide) (by decide)
  have third := word 12 (by decide) (by decide)
  unfold System.fillStack SimpleKernel.fillStack TaskOps.fillStack
  refine Refines.seq (rel.storeWord pool stack first.1 first.2 fun s₁ rel₁ _ => ?_)
  refine Refines.seq (rel₁.storeWord pool stack second.1 second.2 fun s₂ rel₂ _ => ?_)
  exact rel₂.storeWord pool stack third.1 third.2 fun s₃ rel₃ _ => hR _ _ rel₃

theorem fillTask (rel : Related im F m₀ live s t) (pool : KernelFrames im F) (stack : StackApart im)
    (room : p.toNat + 8192 ≤ 2 ^ 32) (inside : Within im live p 8192) (kthreadExit fn arg : Word)
    {R : Unit → System → Unit → Sched → Prop}
    (hR : ∀ s' t', Related im F m₀ live s' t' → R () s' () t') :
    Refines R (System.fillTask kthreadExit fn arg p) (SimpleKernel.fillTask kthreadExit fn arg p)
      s t := by
  have room' : p.toNat + 44 ≤ 2 ^ 32 := by omega
  have struct : Within im live p 44 := Within.mono inside (by omega)
  unfold System.fillTask SimpleKernel.fillTask TaskOps.fillTask
  refine Refines.seq (rel.bzero pool stack room' struct fun s₁ rel₁ _ => ?_)
  refine Refines.seq (rel₁.storeTask pool stack room' struct fun s₂ rel₂ _ => ?_)
  refine Refines.seq (Refines.get ?_)
  rw [rel₂.sameCurrent]
  refine Refines.seq (rel₂.storeTask pool stack room' struct fun s₃ rel₃ _ => ?_)
  refine Refines.seq (rel₃.takePid fun rel₄ => ?_)
  refine Refines.seq (rel₄.storeTask pool stack room' struct fun s₅ rel₅ _ => ?_)
  refine Refines.seq (rel₅.storeTask pool stack room' struct fun s₆ rel₆ _ => ?_)
  refine Refines.seq (rel₆.fillStack pool stack room inside kthreadExit fn arg fun s₇ t₇ rel₇ => ?_)
  refine Refines.seq (rel₇.storeTask pool stack room' struct fun s₈ rel₈ _ => ?_)
  exact rel₈.storeTask pool stack room' struct fun s₉ rel₉ _ => hR _ _ rel₉

theorem findTail (rel : Related im F m₀ live s t) (pool : KernelFrames im F) (stack : StackApart im)
    (queue : Queued t l) (housed : ∀ a ∈ l, Housed im live a) {R : Word → System → Word → Sched → Prop}
    (hR : ∀ tail ∈ l, R tail s tail t) :
    Refines R (System.findTail t.runningProcHead) (SimpleKernel.findTail t.runningProcHead) s t := by
  have struct (a : Word) (ha : a ∈ l) : Within im live a 44 := (housed a ha).within.mono (by omega)
  have room := queue.placed.room
  unfold System.findTail SimpleKernel.findTail TaskOps.findTail
  refine Refines.whileM (fun x s' y t' => x = y ∧ s' = s ∧ t' = t ∧ x ∈ l) ?_ roundLimit
    ⟨rfl, rfl, rfl, List.mem_of_getElem? queue.head⟩
  rintro a s' _ t' ⟨rfl, rfl, rfl, ha⟩
  refine Refines.seq (rel.loadTask pool stack (room a ha) (struct a ha) ?_)
  refine Refines.seq (Refines.get (Refines.pure ⟨by rw [rel.sameHead], ?_⟩))
  split_ifs
  · exact rel.loadTask pool stack (room a ha) (struct a ha) ⟨rfl, rfl, rfl, queue.ring.next_mem ha⟩
  · exact hR a ha

theorem enqueue (rel : Related im F m₀ live s t) (pool : KernelFrames im F) (stack : StackApart im)
    (queue : Queued t l) (fresh : Fresh l p) (new : Housed im live p)
    (housed : ∀ a ∈ l, Housed im live a) {R : Unit → System → Unit → Sched → Prop}
    (hR : ∀ s' t', Related im F m₀ live s' t' → R () s' () t') :
    Refines R (System.enqueue p) (SimpleKernel.enqueue p) s t := by
  have placed := queue.placed.append fresh
  have inP : p ∈ l ++ [p] := List.mem_append_right _ (List.mem_singleton_self p)
  have first := List.mem_of_getElem? queue.head
  have ne (a : Word) (ha : a ∈ l) : a ≠ p := by
    rintro rfl
    have := fresh.apart a ha
    have := fresh.room
    omega
  unfold System.enqueue SimpleKernel.enqueue TaskOps.enqueue
  refine Refines.seq (Refines.get ?_)
  rw [rel.sameHead]
  refine Refines.seq (rel.storeTask pool stack (placed.room p inP) (new.within.mono (by omega))
    fun s₁ rel₁ _ => ?_)
  refine Refines.seq (Refines.get ?_)
  rw [rel₁.sameHead]
  refine Refines.ite Iff.rfl (fun zero => absurd zero (queue.placed.ne_zero _ first)) fun _ => ?_
  have linked : Queued (t.setMem (writeWord t.mem (p + TaskField.next.offset) t.runningProcHead)) l :=
    queue.of_next rfl fun a ha =>
      placed.taskField_write_of_ne _ _ _ _ inP (List.mem_append_left _ ha) (ne a ha)
  refine Refines.seq (rel₁.findTail pool stack linked housed fun tail ht => ?_)
  exact rel₁.storeTask pool stack (queue.placed.room tail ht) ((housed tail ht).within.mono (by omega))
    fun s₂ rel₂ _ => hR _ _ rel₂

/-- What `kernel_thread` does with the block that it got. -/
theorem startTask (rel : Related im F m₀ live s t) (pool : KernelFrames im F) (stack : StackApart im)
    (queue : Queued t l) (fresh : Fresh l p) (new : Housed im live p)
    (housed : ∀ a ∈ l, Housed im live a) (kthreadExit fn arg : Word) :
    Refines (fun pid s' pid' t' => pid = pid' ∧ Related im F m₀ live s' t')
      (do
        System.fillTask kthreadExit fn arg p
        System.enqueue p
        System.loadTask .pid p)
      (do
        SimpleKernel.fillTask kthreadExit fn arg p
        SimpleKernel.enqueue p
        SimpleKernel.loadTask .pid p) s t := by
  have filled : WP (SimpleKernel.fillTask kthreadExit fn arg p) (fun _ _ => True)
      (fun _ t' => Queued t' l) t := by
    refine fillTask_spec _ _ _ fresh.room fun mem filling _ => queue.of_next rfl fun a ha => ?_
    refine taskField_congr _ (queue.placed.room a ha) fun x lo hi => filling.outside x ?_
    have apart := fresh.apart a ha
    omega
  have fill := rel.fillTask pool stack fresh.room new.within kthreadExit fn arg
    (R := fun _ s' _ t' => Related im F m₀ live s' t') fun _ _ rel' => rel'
  refine (fill.and filled).bind ?_
  rintro _ s₁ _ t₁ ⟨rel₁, queue₁⟩
  have room := fresh.room
  refine Refines.seq (rel₁.enqueue pool stack queue₁ fresh new housed fun s₂ t₂ rel₂ => ?_)
  exact rel₂.loadTask pool stack (by omega) (new.within.mono (by omega)) ⟨rfl, rel₂⟩

/-! ### `schedule` and `init_sched` -/

theorem switchContext (rel : Related im F m₀ live s t) (pool : KernelFrames im F)
    (stack : StackApart im) (placed : Placed l) (housed : ∀ a ∈ l, Housed im live a)
    (regs : Context) (ha : a ∈ l) {b : Word} (hb : b ∈ l) :
    Refines (fun out s' out' t' => out = out' ∧ Related im F m₀ live s' t')
      (System.switchContext regs a b) (SimpleKernel.switchContext regs a b) s t := by
  have room := placed.room
  have struct (a : Word) (ha : a ∈ l) : Within im live a 44 := (housed a ha).within.mono (by omega)
  unfold System.switchContext SimpleKernel.switchContext TaskOps.switchContext
  refine Refines.seq (rel.storeTask pool stack (room a ha) (struct a ha) fun s₁ rel₁ _ => ?_)
  refine Refines.seq (rel₁.storeTask pool stack (room a ha) (struct a ha) fun s₂ rel₂ _ => ?_)
  refine Refines.seq (rel₂.storeTask pool stack (room a ha) (struct a ha) fun s₃ rel₃ _ => ?_)
  refine Refines.seq (rel₃.storeTask pool stack (room a ha) (struct a ha) fun s₄ rel₄ _ => ?_)
  refine Refines.seq (rel₄.storeTask pool stack (room a ha) (struct a ha) fun s₅ rel₅ _ => ?_)
  refine Refines.seq (rel₅.storeTask pool stack (room a ha) (struct a ha) fun s₆ rel₆ _ => ?_)
  refine Refines.seq (rel₆.loadTask pool stack (room b hb) (struct b hb) ?_)
  refine Refines.seq (rel₆.loadTask pool stack (room b hb) (struct b hb) ?_)
  refine Refines.seq (rel₆.loadTask pool stack (room b hb) (struct b hb) ?_)
  refine Refines.seq (rel₆.loadTask pool stack (room b hb) (struct b hb) ?_)
  refine Refines.seq (rel₆.loadTask pool stack (room b hb) (struct b hb) ?_)
  refine Refines.seq (rel₆.loadTask pool stack (room b hb) (struct b hb) ?_)
  exact Refines.pure ⟨rfl, rel₆⟩

theorem schedule (rel : Related im F m₀ live s t) (pool : KernelFrames im F) (stack : StackApart im)
    (queue : RunQueue t l) (housed : ∀ a ∈ l, Housed im live a) (regs : Context) :
    Refines (fun out s' out' t' => out = out' ∧ Related im F m₀ live s' t')
      (System.schedule regs) (SimpleKernel.schedule regs) s t := by
  have here := queue.current
  have next := queue.ring.next_mem here
  unfold System.schedule SimpleKernel.schedule TaskOps.schedule
  refine Refines.seq (Refines.get ?_)
  rw [rel.sameCurrent]
  refine Refines.ite Iff.rfl (fun _ => ?_) fun _ => Refines.pure ⟨rfl, rel⟩
  refine Refines.seq (Refines.get ?_)
  rw [rel.sameCurrent]
  refine Refines.seq (rel.loadTask pool stack (queue.placed.room _ here)
    ((housed _ here).within.mono (by omega)) ?_)
  unfold TaskOps.changeTaskTo
  refine Refines.seq (Refines.get ?_)
  rw [rel.sameCurrent]
  refine Refines.ite Iff.rfl (fun _ => ?_) fun _ => Refines.pure ⟨rfl, rel⟩
  refine Refines.seq (Refines.get ?_)
  rw [rel.sameCurrent]
  refine Refines.seq (Refines.modify ?_)
  refine Refines.seq (Refines.get ?_)
  exact (rel.setCurrent (taskField t.mem t.current .next)).switchContext pool stack queue.placed
    housed regs here next

theorem initSched (rel : Related im F m₀ live s t) (pool : KernelFrames im F) (stack : StackApart im)
    (top : t.kernStackTop = kernStackTop im.kernStack) :
    Refines (fun _ s' _ t' => Related im F m₀ live s' t') System.initSched SimpleKernel.initSched
      s t := by
  have stop := stack.stop
  have limit := im.kernEnd_mapped
  have boot : kernStackTop im.kernStack - stackSize = im.kernStack := stack.bootTask
  have room : im.kernStack.toNat + 44 ≤ 2 ^ 32 := by omega
  have struct : Within im live im.kernStack 44 := Within.mono (Housed.within (.inl rfl)) (by omega)
  unfold System.initSched SimpleKernel.initSched TaskOps.initSched
  refine Refines.seq (Refines.modify ?_)
  rw [rel.sameTop, flatTasks_kernStackTop, top, boot]
  have rel₀ := rel.setCurrent im.kernStack
  refine Refines.seq (Refines.get ?_)
  refine Refines.seq (rel₀.storeTask pool stack room struct fun s₁ rel₁ _ => ?_)
  refine Refines.seq (Refines.get ?_)
  rw [rel₁.sameCurrent]
  refine Refines.seq (rel₁.takePid fun rel₂ => ?_)
  refine Refines.seq (rel₂.storeTask pool stack room struct fun s₃ rel₃ _ => ?_)
  refine Refines.seq (Refines.get ?_)
  rw [rel₃.sameCurrent]
  refine Refines.seq (Refines.get ?_)
  rw [rel₃.sameCurrent]
  refine Refines.seq (rel₃.storeTask pool stack room struct fun s₄ rel₄ _ => ?_)
  refine Refines.seq (Refines.get ?_)
  rw [rel₄.sameCurrent]
  refine Refines.seq (rel₄.storeTask pool stack room struct fun s₅ rel₅ _ => ?_)
  refine Refines.seq (Refines.get ?_)
  rw [rel₅.sameCurrent]
  refine Refines.seq (Refines.get ?_)
  rw [rel₅.sameCurrent]
  refine Refines.seq (rel₅.storeTask pool stack room struct fun s₆ rel₆ _ => ?_)
  refine Refines.modify ?_
  rw [rel₆.sameCurrent]
  exact rel₆.setHead _

end Related

end SimpleKernel
