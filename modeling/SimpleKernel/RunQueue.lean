import Mathlib.Data.List.Pairwise
import Mathlib.Data.List.Perm.Subperm
import SimpleKernel.BootStack
import SimpleKernel.Lib.Ring
import SimpleKernel.Task

/-!
# The run queue

The tasks form a ring in the order of their creation, and their pids count them.  `Step` is one
call of `kernel_thread` or `schedule`, or anything else that leaves the task structs alone;
`RunQueue` is what every step keeps.
-/

namespace SimpleKernel

open ByteStore ProgramLogic

/-! ## Task structs in memory -/

/-- The task structs at the addresses in `l` do not overlap. -/
structure Placed (l : List Word) : Prop where
  ne_zero : ∀ a ∈ l, a ≠ 0
  room : ∀ a ∈ l, a.toNat + 44 ≤ 2 ^ 32
  apart : l.Pairwise fun a b => a.toNat + 44 ≤ b.toNat ∨ b.toNat + 44 ≤ a.toNat

/-- The bytes of the task structs. -/
def taskBytes (l : List Word) : Set Word := {x | ∃ a ∈ l, a.toNat ≤ x.toNat ∧ x.toNat < a.toNat + 44}

theorem sizeofTask_toNat : sizeofTask.toNat = 44 := rfl

theorem taskField_toNat {a : Word} (f : TaskField) (room : a.toNat + 44 ≤ 2 ^ 32) :
    (a + f.offset).toNat = a.toNat + 4 * f.ctorIdx := by
  have := f.ctorIdx_lt
  exact toNat_offset (by omega)

/-- The fields of a task depend on its own bytes only. -/
theorem taskField_congr {mem mem' : Store 32} {a : Word} (f : TaskField)
    (room : a.toNat + 44 ≤ 2 ^ 32)
    (h : ∀ x : Word, a.toNat ≤ x.toNat → x.toNat < a.toNat + 44 → mem' x = mem x) :
    taskField mem' a f = taskField mem a f := by
  have e := taskField_toNat f room
  have := f.ctorIdx_lt
  exact readWord_congr (by omega) fun x lo hi => h x (by omega) (by omega)

theorem taskField_write (mem : Store 32) {a : Word} (f g : TaskField) (v : Word)
    (room : a.toNat + 44 ≤ 2 ^ 32) : taskField (writeWord mem (a + f.offset) v) a g =
      Function.update (taskField mem a) f v g := by
  have ef := taskField_toNat f room
  have eg := taskField_toNat g room
  have := f.ctorIdx_lt
  have := g.ctorIdx_lt
  by_cases same : g = f
  · subst same
    rw [Function.update_self]
    exact readWord_writeWord_self _ _ (by omega)
  · have := TaskField.ctorIdx_ne same
    rw [Function.update_of_ne same]
    exact readWord_writeWord_disjoint _ _ (by omega) (by omega) (by omega)

theorem storeTask_spec {E : Stop → Sched → Prop} {s : Sched} {mem : Store 32} {a : Word}
    {f : TaskField} {v : Word} (room : a.toNat + 44 ≤ 2 ^ 32) {Q : Unit → Sched → Prop}
    (hQ : ∀ mem', taskField mem' a = Function.update (taskField mem a) f v →
      Q () (s.setMem mem')) :
    WP (storeTask f a v) E Q (s.setMem mem) :=
  hQ _ (funext fun g => taskField_write mem f g v room)

theorem writeField_outside (mem : Store 32) {a x : Word} (f : TaskField) (v : Word)
    (room : a.toNat + 44 ≤ 2 ^ 32) (h : x.toNat < a.toNat ∨ a.toNat + 44 ≤ x.toNat) :
    writeWord mem (a + f.offset) v x = mem x := by
  have e := taskField_toNat f room
  have := f.ctorIdx_lt
  exact writeWord_outside _ _ (by omega) (by omega)

namespace Placed

variable {l : List Word} {a b : Word}

theorem apart_of_ne (placed : Placed l) (ha : a ∈ l) (hb : b ∈ l) (ne : a ≠ b) :
    a.toNat + 44 ≤ b.toNat ∨ b.toNat + 44 ≤ a.toNat := by
  have symm : Std.Symm fun a b : Word =>
      a.toNat + 44 ≤ b.toNat ∨ b.toNat + 44 ≤ a.toNat := ⟨fun _ _ => Or.symm⟩
  exact placed.apart.forall ha hb ne

theorem nodup (placed : Placed l) : l.Nodup :=
  placed.apart.imp fun h e => by
    subst e
    omega

/-- There is no room for more than `2 ^ 27` tasks. -/
theorem length_le (placed : Placed l) : l.length ≤ 2 ^ 27 := by
  have distinct : (l.map fun a => a.toNat / 32).Nodup :=
    List.pairwise_map.2 (placed.apart.imp fun h => by omega)
  have inside : l.map (fun a => a.toNat / 32) ⊆ List.range (2 ^ 27) := by
    intro k hk
    obtain ⟨a, -, rfl⟩ := List.mem_map.1 hk
    have := a.isLt
    exact List.mem_range.2 (by omega)
  have := (distinct.subperm inside).length_le
  rwa [List.length_map, List.length_range] at this

/-- Changing a task leaves the others alone. -/
theorem taskField_write_of_ne (placed : Placed l) (mem : Store 32) (f g : TaskField) (v : Word)
    (ha : a ∈ l) (hb : b ∈ l) (ne : b ≠ a) :
    taskField (writeWord mem (a + f.offset) v) b g = taskField mem b g := by
  have := placed.apart_of_ne ha hb ne.symm
  exact taskField_congr g (placed.room b hb) fun x lo hi =>
    writeField_outside mem f v (placed.room a ha) (by omega)

/-- A store to one field of a task leaves the other fields of all tasks alone. -/
theorem taskField_write_of_field_ne (placed : Placed l) (mem : Store 32) {f g : TaskField} (v : Word)
    (ha : a ∈ l) (hb : b ∈ l) (field : g ≠ f) :
    taskField (writeWord mem (a + f.offset) v) b g = taskField mem b g := by
  by_cases same : b = a
  · subst same
    rw [taskField_write _ _ _ _ (placed.room b ha), Function.update_of_ne field]
  · exact placed.taskField_write_of_ne mem f g v ha hb same

end Placed

/-! ## The queue -/

/-- The tasks `l` form a ring from `running_proc_head` on. -/
structure Queued (s : Sched) (l : List Word) : Prop where
  placed : Placed l
  head : l[0]? = some s.runningProcHead
  ring : Ring.Closed (fun a => taskField s.mem a .next) l

/-- The queue while no call is under way: pids number the tasks, and one of them is current. -/
structure RunQueue (s : Sched) (l : List Word) : Prop extends Queued s l where
  pids : ∀ i a, l[i]? = some a → taskField s.mem a .pid = BitVec.ofNat 32 i
  nowPid : s.nowPid = BitVec.ofNat 32 l.length
  current : s.current ∈ l

section Queue

variable {E : Stop → Sched → Prop} {s t : Sched} {l : List Word}

/-- The ring lies in the `next` words of its tasks. -/
theorem Queued.of_next (queue : Queued s l) (head : t.runningProcHead = s.runningProcHead)
    (next : ∀ a ∈ l, taskField t.mem a .next = taskField s.mem a .next) : Queued t l := by
  refine ⟨queue.placed, by rw [head, queue.head], fun i a hi => ?_⟩
  show l[(i + 1) % l.length]? = some (taskField t.mem a .next)
  rw [next a (List.mem_of_getElem? hi)]
  exact queue.ring i a hi

theorem RunQueue.of_fields (queue : RunQueue s l) (head : t.runningProcHead = s.runningProcHead)
    (nowPid : t.nowPid = s.nowPid) (current : t.current ∈ l)
    (next : ∀ a ∈ l, taskField t.mem a .next = taskField s.mem a .next)
    (pid : ∀ a ∈ l, taskField t.mem a .pid = taskField s.mem a .pid) : RunQueue t l := by
  refine ⟨queue.toQueued.of_next head next, fun i a hi => ?_, by rw [nowPid, queue.nowPid], current⟩
  rw [pid a (List.mem_of_getElem? hi)]
  exact queue.pids i a hi

/-- Memory apart from the task structs does not show in them. -/
theorem Placed.taskField_of_agree (placed : Placed l) {mem mem' : Store 32}
    (h : ∀ x ∈ taskBytes l, mem' x = mem x) {a : Word} (ha : a ∈ l) (f : TaskField) :
    taskField mem' a f = taskField mem a f :=
  taskField_congr f (placed.room a ha) fun x lo hi => h x ⟨a, ha, lo, hi⟩

theorem RunQueue.of_agree (queue : RunQueue s l) {mem : Store 32}
    (h : ∀ x ∈ taskBytes l, mem x = s.mem x) : RunQueue (s.setMem mem) l :=
  queue.of_fields rfl rfl queue.current
    (fun _ ha => queue.placed.taskField_of_agree h ha .next)
    (fun _ ha => queue.placed.taskField_of_agree h ha .pid)

/-- The search runs along the queue and stops at its last task. -/
theorem Queued.findTail (queue : Queued s l) {Q : Word → Sched → Prop}
    (hQ : ∀ tail, l[l.length - 1]? = some tail → Q tail s) :
    WP (SimpleKernel.findTail s.runningProcHead) E Q s := by
  have small := queue.placed.length_le
  have nodup := queue.placed.nodup
  have here {a : Word} (ha : a ∈ l) : l[l.idxOf a]? = some a := List.getElem?_idxOf ha
  have limit : roundLimit = 2 ^ 32 := rfl
  unfold SimpleKernel.findTail TaskOps.findTail
  refine WP.whileM (fun a t => s = t ∧ a ∈ l) (fun a _ => l.length - l.idxOf a) ?_ roundLimit
    ⟨rfl, List.mem_of_getElem? queue.head⟩ (by omega)
  rintro a _ ⟨rfl, ha⟩
  have step := queue.ring _ _ (here ha)
  have lt := List.idxOf_lt_length_of_mem ha
  simp only [wp_loadTask, flatTasks_runningProcHead, wp_bind, wp_get, wp_pure]
  split_ifs with more
  · have more : taskField s.mem a .next ≠ s.runningProcHead := of_decide_eq_true more
    have inside : l.idxOf a + 1 ≠ l.length := by
      intro last
      rw [last, Nat.mod_self, queue.head] at step
      exact more (Option.some_inj.1 step).symm
    rw [Nat.mod_eq_of_lt (by omega)] at step
    have met := List.mem_of_getElem? step
    have index : l.idxOf a + 1 = l.idxOf (taskField s.mem a .next) :=
      (List.getElem?_inj (Ring.index_lt step) nodup).1 (step.trans (here met).symm)
    exact ⟨⟨trivial, met⟩, by omega⟩
  · have back : taskField s.mem a .next = s.runningProcHead :=
      not_not.1 fun ne => more (decide_eq_true ne)
    have last := queue.ring.last_of_next nodup (here ha) (queue.head.trans (by rw [back]))
    exact hQ a (by rw [← last, Nat.add_sub_cancel, here ha])

end Queue

/-! ## `kernel_thread` -/

/-- The block at `p` can hold a new task besides the tasks in `l`. -/
structure Fresh (l : List Word) (p : Word) : Prop where
  ne_zero : p ≠ 0
  room : p.toNat + 8192 ≤ 2 ^ 32
  apart : ∀ a ∈ l, a.toNat + 44 ≤ p.toNat ∨ p.toNat + 8192 ≤ a.toNat

theorem Placed.append {l : List Word} {p : Word} (placed : Placed l) (fresh : Fresh l p) :
    Placed (l ++ [p]) := by
  have room := fresh.room
  refine ⟨fun a ha => ?_, fun a ha => ?_, List.pairwise_append.2
    ⟨placed.apart, List.pairwise_singleton _ _, fun a ha b hb => ?_⟩⟩
  · rcases List.mem_append.1 ha with h | h
    · exact placed.ne_zero a h
    · rw [List.mem_singleton.1 h]
      exact fresh.ne_zero
  · rcases List.mem_append.1 ha with h | h
    · exact placed.room a h
    · rw [List.mem_singleton.1 h]
      omega
  · have := fresh.apart a ha
    rw [List.mem_singleton.1 hb]
    omega

theorem bzeroTask_spec {E : Stop → Sched → Prop} {s : Sched} {a : Word} {n : ℕ}
    (bound : a.toNat + n ≤ 2 ^ 32) {Q : Unit → Sched → Prop}
    (hQ : Q () (s.setMem (zeroFill s.mem a n))) : WP (bzeroTask a n) E Q s := by
  induction n generalizing s a with
  | zero =>
    rw [zeroFill_zero] at hQ
    exact hQ
  | succ n ih =>
    simp only [bzeroTask, bzeroWith, wp_bind, wp_modify]
    rw [← zeroFill_succ _ (by omega)] at hQ
    rcases Nat.eq_zero_or_pos n with rfl | pos
    · rw [zeroFill_zero] at hQ
      exact hQ
    · have e : (a + 1).toNat = a.toNat + 1 := toNat_offset (i := 1) (by omega)
      exact ih (by omega) hQ

/-- In the block at `p` a task struct that reads as `h` is being built; the rest of the memory
`mem₀` is unchanged. -/
structure Filling (mem₀ : Store 32) (p : Word) (h : TaskField → Word) (mem : Store 32) : Prop where
  outside : ∀ x : Word, x.toNat < p.toNat ∨ p.toNat + 8192 ≤ x.toNat → mem x = mem₀ x
  fields : ∀ f, taskField mem p f = h f

/-- The words with which the stack of a new task in the block at `p` begins. -/
structure NewStack (p kthreadExit fn arg : Word) (mem : Store 32) : Prop where
  fn : readWord mem (p + stackSize - 12) = fn
  kthreadExit : readWord mem (p + stackSize - 8) = kthreadExit
  arg : readWord mem (p + stackSize - 4) = arg

theorem stackSize_sub {p : Word} (room : p.toNat + 8192 ≤ 2 ^ 32) {k : ℕ} (pos : 0 < k)
    (hk : k ≤ 8192) : (p + stackSize - BitVec.ofNat 32 k).toNat = p.toNat + (8192 - k) := by
  unfold stackSize
  bv_omega

/-- The stack lies in the block, behind the task struct. -/
theorem NewStack.congr {p kthreadExit fn arg : Word} {mem mem' : Store 32}
    (stack : NewStack p kthreadExit fn arg mem) (room : p.toNat + 8192 ≤ 2 ^ 32)
    (h : ∀ x : Word, p.toNat + 8180 ≤ x.toNat → x.toNat < p.toNat + 8192 → mem' x = mem x) :
    NewStack p kthreadExit fn arg mem' := by
  have word {k : ℕ} (pos : 4 ≤ k) (hk : k ≤ 12) :
      readWord mem' (p + stackSize - BitVec.ofNat 32 k) =
        readWord mem (p + stackSize - BitVec.ofNat 32 k) := by
    have e := stackSize_sub room (by omega : 0 < k) (by omega)
    exact readWord_congr (by omega) fun x lo hi => h x (by omega) (by omega)
  exact ⟨(word (by decide) (by decide)).trans stack.fn,
    (word (by decide) (by decide)).trans stack.kthreadExit,
    (word (by decide) (by decide)).trans stack.arg⟩

namespace Filling

variable {mem₀ mem : Store 32} {p : Word} {h : TaskField → Word}

theorem zero {E : Stop → Sched → Prop} {s : Sched} (room : p.toNat + 8192 ≤ 2 ^ 32)
    {Q : Unit → Sched → Prop}
    (hQ : ∀ mem, Filling s.mem p (fun _ => 0) mem → Q () (s.setMem mem)) :
    WP (bzeroTask p sizeofTask.toNat) E Q s := by
  rw [sizeofTask_toNat]
  refine bzeroTask_spec (by omega) (hQ _ ⟨fun x hx => zeroFill_outside _ (by omega), fun f => ?_⟩)
  have e := taskField_toNat (a := p) f (by omega)
  have := f.ctorIdx_lt
  exact readWord_zero (by omega) fun x lo hi => zeroFill_inside _ (by omega) (by omega)

variable {E : Stop → Sched → Prop} {s : Sched}

theorem storeTask (filling : Filling mem₀ p h mem) (room : p.toNat + 8192 ≤ 2 ^ 32)
    {f : TaskField} {v : Word} {Q : Unit → Sched → Prop}
    (hQ : ∀ mem', Filling mem₀ p (Function.update h f v) mem' →
      (∀ x : Word, p.toNat + 44 ≤ x.toNat → mem' x = mem x) → Q () (s.setMem mem')) :
    WP (SimpleKernel.storeTask f p v) E Q (s.setMem mem) := by
  refine hQ (writeWord mem (p + f.offset) v) ⟨fun x hx => ?_, fun g => ?_⟩
    fun x hx => writeField_outside mem f v (by omega) (by omega)
  · rw [writeField_outside mem f v (by omega) (by omega), filling.outside x hx]
  · rw [taskField_write mem f g v (by omega), funext filling.fields]

/-- The words of the new stack lie behind the task struct. -/
theorem fillStack (filling : Filling mem₀ p h mem) (room : p.toNat + 8192 ≤ 2 ^ 32)
    {kthreadExit fn arg : Word} {Q : Unit → Sched → Prop}
    (hQ : ∀ mem, Filling mem₀ p h mem → NewStack p kthreadExit fn arg mem → Q () (s.setMem mem)) :
    WP (SimpleKernel.fillStack (p + stackSize) kthreadExit fn arg) E Q (s.setMem mem) := by
  have store {mem : Store 32} (filling : Filling mem₀ p h mem) (v : Word) {a : Word}
      (lo : p.toNat + 44 ≤ a.toNat) (hi : a.toNat + 4 ≤ p.toNat + 8192) :
      Filling mem₀ p h (writeWord mem a v) := by
    refine ⟨fun x hx => ?_, fun f => ?_⟩
    · rw [writeWord_outside _ _ (by omega) (by omega), filling.outside x hx]
    · rw [← filling.fields f]
      exact taskField_congr f (by omega) fun x _ _ => writeWord_outside _ _ (by omega) (by omega)
  have e4 : (p + stackSize - 4).toNat = p.toNat + 8188 :=
    stackSize_sub room (k := 4) (by decide) (by decide)
  have e8 : (p + stackSize - 8).toNat = p.toNat + 8184 :=
    stackSize_sub room (k := 8) (by decide) (by decide)
  have e12 : (p + stackSize - 12).toNat = p.toNat + 8180 :=
    stackSize_sub room (k := 12) (by decide) (by decide)
  have pushed := store (store (store filling arg (a := p + stackSize - 4) (by omega) (by omega))
    kthreadExit (a := p + stackSize - 8) (by omega) (by omega))
    fn (a := p + stackSize - 12) (by omega) (by omega)
  have words : NewStack p kthreadExit fn arg (writeWord (writeWord (writeWord mem
      (p + stackSize - 4) arg) (p + stackSize - 8) kthreadExit) (p + stackSize - 12) fn) := by
    refine ⟨readWord_writeWord_self _ _ (by omega), ?_, ?_⟩
    · rw [readWord_writeWord_disjoint _ _ (by omega) (by omega) (by omega)]
      exact readWord_writeWord_self _ _ (by omega)
    · rw [readWord_writeWord_disjoint _ _ (by omega) (by omega) (by omega),
        readWord_writeWord_disjoint _ _ (by omega) (by omega) (by omega)]
      exact readWord_writeWord_self _ _ (by omega)
  have post := hQ _ pushed words
  exact post

end Filling

/-- The task struct that `kernel_thread` fills in, up to its place in the queue. -/
def newTask (current pid p : Word) : TaskField → Word
  | .state => taskRunnable
  | .pid => pid
  | .stack => current
  | .esp => p + stackSize - 4 * 3
  | .eflags => 0x200
  | _ => 0

theorem fillTask_spec {E : Stop → Sched → Prop} {s : Sched} {p : Word} (kthreadExit fn arg : Word)
    (room : p.toNat + 8192 ≤ 2 ^ 32) {Q : Unit → Sched → Prop}
    (hQ : ∀ mem, Filling s.mem p (newTask s.current s.nowPid p) mem →
      NewStack p kthreadExit fn arg mem → Q () ((s.setMem mem).setNowPid (s.nowPid + 1))) :
    WP (fillTask kthreadExit fn arg p) E Q s := by
  rw [fillTask, TaskOps.fillTask, wp_bind]
  refine Filling.zero room fun _ blank => ?_
  rw [wp_bind]
  refine blank.storeTask room fun _ state _ => ?_
  rw [wp_bind, wp_get, wp_bind]
  refine state.storeTask room fun _ stack _ => ?_
  rw [wp_bind, wp_takePid, wp_bind]
  refine stack.storeTask (s := s.setNowPid (s.nowPid + 1)) room fun _ pid _ => ?_
  rw [wp_bind]
  refine pid.storeTask room fun _ mm _ => ?_
  rw [wp_bind]
  refine mm.fillStack room fun _ start stack => ?_
  rw [wp_bind]
  refine start.storeTask room fun _ esp above => ?_
  refine esp.storeTask room fun mem filling above' => ?_
  refine hQ mem ⟨filling.outside, fun f => (filling.fields f).trans ?_⟩
    (stack.congr room fun x lo _ => (above' x (by omega)).trans (above x (by omega)))
  cases f <;> rfl

/-- The block at `p` holds a new task in front of the tasks `l`; the rest of the memory `mem₀` is
unchanged apart from their `next` words. -/
structure Created (l : List Word) (p kthreadExit fn arg : Word) (fields : TaskField → Word)
    (mem₀ mem : Store 32) : Prop where
  stack : NewStack p kthreadExit fn arg mem
  fields : ∀ f, f ≠ .next → taskField mem p f = fields f
  outside : ∀ x : Word, x.toNat < p.toNat ∨ p.toNat + 8192 ≤ x.toNat →
    (∀ a ∈ l, x.toNat < a.toNat + 40 ∨ a.toNat + 44 ≤ x.toNat) → mem x = mem₀ x

/-- The new task comes in between the last task and the first. -/
theorem Queued.enqueue {E : Stop → Sched → Prop} {s : Sched} {l : List Word} {p : Word}
    (queue : Queued s l) (fresh : Fresh l p) {Q : Unit → Sched → Prop}
    (hQ : ∀ mem, Queued (s.setMem mem) (l ++ [p]) →
      (∀ a ∈ l ++ [p], ∀ f, f ≠ .next → taskField mem a f = taskField s.mem a f) →
      (∀ x : Word, (∀ a ∈ l ++ [p], x.toNat < a.toNat + 40 ∨ a.toNat + 44 ≤ x.toNat) →
        mem x = s.mem x) → Q () (s.setMem mem)) :
    WP (SimpleKernel.enqueue p) E Q s := by
  have placed := queue.placed.append fresh
  have inL {a : Word} (ha : a ∈ l) : a ∈ l ++ [p] := List.mem_append_left _ ha
  have inP : p ∈ l ++ [p] := List.mem_append_right _ (List.mem_cons_self ..)
  have ne {a : Word} (ha : a ∈ l) : a ≠ p := by
    rintro rfl
    have := fresh.apart a ha
    have := fresh.room
    omega
  simp only [SimpleKernel.enqueue, TaskOps.enqueue, flatTasks_runningProcHead, wp_bind, wp_get,
    wp_storeTask]
  refine wp_ite.2 ⟨fun zero => ?_, fun _ => ?_⟩
  · exact absurd zero (queue.placed.ne_zero _ (List.mem_of_getElem? queue.head))
  have linked : Queued (s.setMem (writeWord s.mem (p + TaskField.next.offset) s.runningProcHead)) l :=
    queue.of_next rfl fun a ha => placed.taskField_write_of_ne _ _ _ _ inP (inL ha) (ne ha)
  simp only [wp_bind, wp_storeTask]
  refine linked.findTail fun tail last => ?_
  have tailIn := List.mem_of_getElem? last
  have link {mem : Store 32} {a x v : Word} (ha : a ∈ l ++ [p])
      (h : ∀ a ∈ l ++ [p], x.toNat < a.toNat + 40 ∨ a.toNat + 44 ≤ x.toNat) :
      writeWord mem (a + TaskField.next.offset) v x = mem x := by
    have room := placed.room a ha
    have place : (a + TaskField.next.offset).toNat = a.toNat + 40 := taskField_toNat .next room
    have := h a ha
    exact writeWord_outside _ _ (by omega) (by omega)
  refine hQ _ ⟨placed, ?_, ?_⟩ (fun a ha f field => ?_)
    fun x h => (link (inL tailIn) h).trans (link inP h)
  · rw [List.getElem?_append_left (Ring.index_lt queue.head), queue.head]
    rfl
  · refine linked.ring.append queue.placed.nodup linked.head last ?_ ?_ fun a ha other => ?_
    · exact (taskField_write _ _ _ _ (placed.room _ (inL tailIn))).trans (Function.update_self ..)
    · refine (placed.taskField_write_of_ne _ _ _ _ (inL tailIn) inP (ne tailIn).symm).trans ?_
      exact (taskField_write _ _ _ _ (placed.room p inP)).trans (Function.update_self ..)
    · exact placed.taskField_write_of_ne _ _ _ _ (inL tailIn) (inL ha) other
  · refine (placed.taskField_write_of_field_ne _ _ (inL tailIn) ha field).trans ?_
    exact placed.taskField_write_of_field_ne _ _ inP ha field

/-- `kernel_thread` appends the block that `kmalloc` gave and returns its pid. -/
theorem RunQueue.kernelThread {E : Stop → Sched → Prop} {s u : Sched} {l : List Word} {p : Word}
    (queue : RunQueue s l) (kmalloc : Word → Scheduler Word) (kthreadExit fn arg : Word)
    (given : Returns (kmalloc stackSize) s p u) (fresh : Fresh l p)
    (same : u = s.setMem u.mem) (kept : ∀ x ∈ taskBytes l, u.mem x = s.mem x)
    {Q : Word → Sched → Prop}
    (hQ : ∀ t, RunQueue t (l ++ [p]) → t.current = s.current →
      Created l p kthreadExit fn arg (newTask s.current s.nowPid p) u.mem t.mem → Q s.nowPid t) :
    WP (SimpleKernel.kernelThread kmalloc kthreadExit fn arg) E Q s := by
  have queue' : RunQueue u l := by
    rw [same]
    exact queue.of_agree kept
  have pid : u.nowPid = s.nowPid := by rw [same, Sched.setMem_nowPid]
  simp only [SimpleKernel.kernelThread, TaskOps.kernelThread, wp_bind]
  refine given.wp ?_
  refine wp_ite.2 ⟨fun zero => absurd zero fresh.ne_zero, fun _ => ?_⟩
  simp only [wp_bind]
  refine fillTask_spec _ _ _ fresh.room fun mem filling stack => ?_
  have room := fresh.room
  have old (a : Word) (ha : a ∈ l) (f : TaskField) : taskField mem a f = taskField u.mem a f :=
    taskField_congr f (queue.placed.room a ha) fun x lo hi => filling.outside x (by
      have := fresh.apart a ha
      omega)
  have filled : Queued ((u.setMem mem).setNowPid (u.nowPid + 1)) l :=
    queue'.toQueued.of_next rfl fun a ha => old a ha .next
  refine filled.enqueue fresh fun mem' queued others outside => ?_
  rw [wp_loadTask]
  have newPid : taskField mem' p .pid = u.nowPid :=
    (others p (List.mem_append_right _ (List.mem_cons_self ..)) .pid (by decide)).trans
      (filling.fields .pid)
  show Q (taskField mem' p .pid) _
  rw [← pid] at hQ
  rw [newPid]
  refine hQ _ ⟨queued, fun i a hi => ?_, ?_, ?_⟩ ?_ ?_
  · rcases Nat.lt_or_ge i l.length with lt | ge
    · rw [List.getElem?_append_left lt] at hi
      have ha := List.mem_of_getElem? hi
      calc taskField mem' a .pid
          = taskField mem a .pid := others a (List.mem_append_left _ ha) .pid (by decide)
        _ = taskField u.mem a .pid := old a ha .pid
        _ = BitVec.ofNat 32 i := queue'.pids i a hi
    · have := Ring.index_lt hi
      rw [List.length_append, List.length_singleton] at this
      obtain rfl : i = l.length := by omega
      rw [List.getElem?_append_right le_rfl, Nat.sub_self] at hi
      obtain rfl : p = a := Option.some_inj.1 hi
      exact newPid.trans queue'.nowPid
  · show u.nowPid + 1 = _
    rw [queue'.nowPid, List.length_append, List.length_singleton, BitVec.ofNat_add]
    rfl
  · exact List.mem_append_left _ queue'.current
  · show u.current = s.current
    rw [same, Sched.setMem_current]
  · have inP : p ∈ l ++ [p] := List.mem_append_right _ (List.mem_cons_self ..)
    have apart {x : Word} (h : x.toNat < p.toNat + 40 ∨ p.toNat + 44 ≤ x.toNat)
        (h' : ∀ a ∈ l, x.toNat < a.toNat + 40 ∨ a.toNat + 44 ≤ x.toNat) :
        ∀ a ∈ l ++ [p], x.toNat < a.toNat + 40 ∨ a.toNat + 44 ≤ x.toNat := by
      intro a ha
      rcases List.mem_append.1 ha with old | new
      · exact h' a old
      · rwa [List.mem_singleton.1 new]
    refine ⟨stack.congr room fun x lo hi => outside x (apart (.inr (by omega)) fun a ha => ?_),
      fun f field => ?_, fun x out links => ?_⟩
    · have := fresh.apart a ha
      omega
    · have current : u.current = s.current := by rw [same, Sched.setMem_current]
      rw [← current]
      exact (others p inP f field).trans (filling.fields f)
    · exact (outside x (apart (by omega) links)).trans (filling.outside x out)

/-! ## `schedule` -/

theorem RunQueue.schedule {E : Stop → Sched → Prop} {s : Sched} {l : List Word}
    (queue : RunQueue s l) (regs : Context) {Q : Context → Sched → Prop}
    (hQ : ∀ out t, RunQueue t l → t.current = taskField s.mem s.current .next → Q out t) :
    WP (SimpleKernel.schedule regs) E Q s := by
  have placed := queue.placed
  have here := queue.current
  have next : taskField s.mem s.current .next ∈ l := queue.ring.next_mem here
  rw [schedule_eq, wp_bind, wp_scheduleCall]
  refine ⟨fun _ => ?_, fun still => ?_⟩
  · simp only [switchCall, switchContext, TaskOps.switchContext, wp_storeTask, wp_loadTask, wp_bind,
      wp_pure]
    refine hQ _ _ (queue.of_fields rfl rfl next (fun a ha => ?_) fun a ha => ?_) rfl
    all_goals
      simp only [Sched.setMem_mem, Sched.setCurrent_mem]
      iterate 6 rw [placed.taskField_write_of_field_ne _ _ here ha (by decide)]
  · rcases still with zero | same
    · exact absurd zero (placed.ne_zero _ here)
    · exact hQ _ _ queue same

/-! ## Runs -/

/-- The linker puts the aligned array `kern_stack` into the image. -/
structure StackLinked (im : Image) : Prop where
  aligned : im.kernStack.toNat % 16 = 0
  start : 0xC0100000 ≤ im.kernStack.toNat
  stop : im.kernStack.toNat + 8192 ≤ im.kernEnd.toNat

/-- The task of the boot thread lies at the low end of `kern_stack`. -/
theorem StackLinked.bootTask {im : Image} (linked : StackLinked im) :
    kernStackTop im.kernStack - stackSize = im.kernStack := by
  have aligned := linked.aligned
  have mapped := im.kernEnd_mapped
  have stop := linked.stop
  have top : (im.kernStack + stackSize).toNat = im.kernStack.toNat + 8192 :=
    toNat_offset (i := 8192) (by omega)
  have low (x : Word) : x &&& (0xfffffff0 : Word) = x >>> 4 <<< 4 := by
    apply BitVec.eq_of_getLsbD_eq
    intro i hi
    simp only [BitVec.getLsbD_and, BitVec.getLsbD_shiftLeft, BitVec.getLsbD_ushiftRight]
    interval_cases i <;> simp
  have whole : kernStackTop im.kernStack = im.kernStack + stackSize := by
    apply BitVec.eq_of_toNat_eq
    rw [kernStackTop, low, BitVec.toNat_shiftLeft, BitVec.toNat_ushiftRight,
      Nat.shiftRight_eq_div_pow, Nat.shiftLeft_eq, top]
    omega
  rw [whole, BitVec.add_sub_cancel]

/-- `init_sched` makes the boot thread the only task. -/
theorem initSched_spec {E : Stop → Sched → Prop} {s : Sched} {im : Image} (linked : StackLinked im)
    (top : s.kernStackTop = kernStackTop im.kernStack) (pid : s.nowPid = 0)
    {Q : Unit → Sched → Prop}
    (hQ : ∀ t, RunQueue t [im.kernStack] → t.current = im.kernStack → Q () t) :
    WP initSched E Q s := by
  have start := linked.start
  have stop := linked.stop
  have mapped := im.kernEnd_mapped
  have room : im.kernStack.toNat + 44 ≤ 2 ^ 32 := by omega
  have placed : Placed [im.kernStack] := by
    refine ⟨fun a ha => ?_, fun a ha => ?_, List.pairwise_singleton _ _⟩
    · rw [List.mem_singleton.1 ha]
      intro zero
      rw [zero] at start
      simp at start
    · rw [List.mem_singleton.1 ha]
      exact room
  have alone {i : ℕ} {a : Word} (hi : [im.kernStack][i]? = some a) : i = 0 ∧ im.kernStack = a := by
    have lt := Ring.index_lt hi
    obtain rfl : i = 0 := Nat.lt_one_iff.1 lt
    exact ⟨rfl, Option.some_inj.1 hi⟩
  rw [initSched, TaskOps.initSched, wp_bind, wp_modify, flatTasks_setCurrent,
    flatTasks_kernStackTop, top, linked.bootTask, wp_bind, wp_get, wp_bind]
  refine storeTask_spec (s := s.setCurrent im.kernStack) room fun _ _ => ?_
  rw [wp_bind, wp_get, wp_bind, wp_takePid, wp_bind]
  refine storeTask_spec (s := (s.setCurrent im.kernStack).setNowPid (s.nowPid + 1)) room
    fun _ pid' => ?_
  rw [wp_bind, wp_get, wp_bind, wp_get, wp_bind]
  refine storeTask_spec room fun _ stack => ?_
  rw [wp_bind, wp_get, wp_bind]
  refine storeTask_spec room fun _ mm => ?_
  rw [wp_bind, wp_get, wp_bind, wp_get, wp_bind]
  refine storeTask_spec room fun mem next => ?_
  refine hQ _ ⟨⟨placed, rfl, fun i a hi => ?_⟩, fun i a hi => ?_, ?_, List.mem_singleton_self _⟩ rfl
  · obtain ⟨rfl, rfl⟩ := alone hi
    rw [List.length_singleton, Nat.mod_one]
    show some im.kernStack = some (taskField mem im.kernStack .next)
    rw [next, Function.update_self]
    rfl
  · obtain ⟨rfl, rfl⟩ := alone hi
    show taskField mem im.kernStack .pid = _
    rw [next, Function.update_of_ne (by decide), mm, Function.update_of_ne (by decide), stack,
      Function.update_of_ne (by decide), pid', Function.update_self]
    exact pid
  · show s.nowPid + 1 = 1
    rw [pid]
    rfl

/-- The state behind `init_sched`. -/
def Starts (im : Image) (t : Sched) : Prop :=
  ∃ s, s.kernStackTop = kernStackTop im.kernStack ∧ s.nowPid = 0 ∧ Returns initSched s () t

/-- `kmalloc` gives the block `p` for a new task and leaves the tasks `l` alone. -/
structure Allocates (kmalloc : Word → Scheduler Word) (s : Sched) (l : List Word) (p : Word)
    (u : Sched) : Prop where
  returns : Returns (kmalloc stackSize) s p u
  fresh : Fresh l p
  globals : u = s.setMem u.mem
  tasks : ∀ x ∈ taskBytes l, u.mem x = s.mem x

/-- One step, with the tasks before and behind it and the task, if any, that `schedule` made
current. -/
inductive Step : Sched → List Word → List Word → Sched → List Word → Prop where
  | kernelThread {s t u : Sched} {l : List Word} {p kthreadExit fn arg pid : Word}
    {kmalloc : Word → Scheduler Word} : Allocates kmalloc s l p u →
    Returns (kernelThread kmalloc kthreadExit fn arg) s pid t → Step s l [] t (l ++ [p])
  | schedule {s t : Sched} {l : List Word} {regs out : Context} :
    Returns (schedule regs) s out t → Step s l [t.current] t l
  | other {s : Sched} {l : List Word} {mem : Store 32} : (∀ x ∈ taskBytes l, mem x = s.mem x) →
    Step s l [] (s.setMem mem) l

/-- A run of steps, with the tasks that became current one after the other. -/
inductive Run (s : Sched) (l : List Word) : List Word → Sched → List Word → Prop where
  | start : Run s l [] s l
  | step {visits visit l' l'' : List Word} {t u : Sched} : Run s l visits t l' →
    Step t l' visit u l'' → Run s l (visits ++ visit) u l''

def Reached (im : Image) (s : Sched) (l : List Word) : Prop :=
  ∃ t visits, Starts im t ∧ Run t [im.kernStack] visits s l

section Runs

variable {im : Image} {s t : Sched} {l l' visits visit : List Word}

/-- What a step does to a queue: it leaves `current` alone and at most appends a task, or it makes
the task behind `current` current. -/
theorem Step.queue (step : Step s l visit t l') (queue : RunQueue s l) : RunQueue t l' ∧
    (visit = [] ∧ t.current = s.current ∧ (l' = l ∨ ∃ p, l' = l ++ [p]) ∨
      visit = [t.current] ∧ l' = l ∧ t.current = taskField s.mem s.current .next) := by
  cases step with
  | kernelThread given run =>
    obtain ⟨queue', current⟩ := (queue.kernelThread (E := fun _ _ => True) _ _ _ _ given.returns
      given.fresh given.globals given.tasks
      (Q := fun _ t => RunQueue t (l ++ [_]) ∧ t.current = s.current)
      fun _ queue' current _ => ⟨queue', current⟩).returned run
    exact ⟨queue', .inl ⟨rfl, current, .inr ⟨_, rfl⟩⟩⟩
  | schedule run =>
    obtain ⟨queue', current⟩ := (queue.schedule (E := fun _ _ => True) _
      (Q := fun _ t => RunQueue t l ∧ t.current = taskField s.mem s.current .next)
      fun _ _ queue' current => ⟨queue', current⟩).returned run
    exact ⟨queue', .inr ⟨rfl, rfl, current⟩⟩
  | other kept => exact ⟨queue.of_agree kept, .inl ⟨rfl, rfl, .inl rfl⟩⟩

theorem Run.runQueue (run : Run s l visits t l') (queue : RunQueue s l) : RunQueue t l' := by
  induction run with
  | start => exact queue
  | step _ step ih => exact (step.queue ih).1

theorem Step.exists_append (step : Step s l visit t l') : ∃ new, l' = l ++ new := by
  cases step with
  | kernelThread => exact ⟨_, rfl⟩
  | schedule => exact ⟨[], (List.append_nil l).symm⟩
  | other => exact ⟨[], (List.append_nil l).symm⟩

theorem Run.exists_append (run : Run s l visits t l') : ∃ new, l' = l ++ new := by
  induction run with
  | start => exact ⟨[], (List.append_nil l).symm⟩
  | step _ step ih =>
    obtain ⟨new, rfl⟩ := ih
    obtain ⟨more, rfl⟩ := step.exists_append
    exact ⟨new ++ more, List.append_assoc ..⟩

theorem Reached.runQueue (linked : StackLinked im) (reached : Reached im s l) : RunQueue s l := by
  obtain ⟨t, visits, ⟨s₀, top, pid, init⟩, run⟩ := reached
  exact run.runQueue ((initSched_spec (E := fun _ _ => True) linked top pid
    (Q := fun _ t => RunQueue t [im.kernStack]) fun _ queue _ => queue).returned init)

theorem Reached.boot (reached : Reached im s l) : l[0]? = some im.kernStack := by
  obtain ⟨t, visits, -, run⟩ := reached
  obtain ⟨new, rfl⟩ := run.exists_append
  rfl

end Runs

/-- The queue from the outside: `next` leads from `running_proc_head` through the tasks in the order
of their creation, the boot task first, and back; pids count them. -/
structure Ordered (im : Image) (s : Sched) (l : List Word) : Prop where
  boot : l[0]? = some im.kernStack
  visited : ∀ k,
    l[k % l.length]? = some ((fun a => taskField s.mem a .next)^[k] s.runningProcHead)
  once : l.Nodup
  current : s.current ∈ l
  pids : ∀ (i : ℕ) a, l[i]? = some a → (taskField s.mem a .pid).toInt = i

theorem RunQueue.ordered {im : Image} {s : Sched} {l : List Word} (queue : RunQueue s l)
    (boot : l[0]? = some im.kernStack) : Ordered im s l := by
  refine ⟨boot, queue.ring.iterate queue.head, queue.placed.nodup, queue.current, fun i a hi => ?_⟩
  have lt := Ring.index_lt hi
  have small := queue.placed.length_le
  rw [queue.pids i a hi, BitVec.toInt_eq_toNat_of_lt, BitVec.toNat_ofNat, Nat.mod_eq_of_lt]
  · omega
  · rw [BitVec.toNat_ofNat, Nat.mod_eq_of_lt]
    all_goals omega

/-- After any calls of `kernel_thread` and `schedule` the queue is in order, and one more
`kernel_thread` returns the pid of the task that it appends. -/
theorem runQueue_ordered (im : Image) (linked : StackLinked im) (s : Sched) (l : List Word)
    (reached : Reached im s l) :
    Ordered im s l ∧ ∀ kmalloc kthreadExit fn arg p u, Allocates kmalloc s l p u →
      ∃ pid t, Returns (kernelThread kmalloc kthreadExit fn arg) s pid t ∧
        Ordered im t (l ++ [p]) ∧ taskField t.mem p .pid = pid := by
  have queue := reached.runQueue linked
  refine ⟨queue.ordered reached.boot, fun kmalloc kthreadExit fn arg p u given => ?_⟩
  have spec : WP (kernelThread kmalloc kthreadExit fn arg) (fun _ _ => False)
      (fun pid t => RunQueue t (l ++ [p]) ∧ pid = s.nowPid) s :=
    queue.kernelThread _ _ _ _ given.returns given.fresh given.globals given.tasks
      fun t queue' _ _ => ⟨queue', rfl⟩
  obtain ⟨pid, t, run, queue', rfl⟩ := spec.returns
  have new : (l ++ [p])[l.length]? = some p := by
    rw [List.getElem?_append_right le_rfl, Nat.sub_self]
    rfl
  have boot : (l ++ [p])[0]? = some im.kernStack := by
    rw [List.getElem?_append_left (Ring.index_lt reached.boot), reached.boot]
  exact ⟨_, t, run, queue'.ordered boot, (queue'.pids _ p new).trans queue.nowPid.symm⟩

/-- The kernel before `init_sched`, with zeroed memory. -/
def schedAtBoot (im : Image) : Sched where
  mem := fun _ => 0
  kernStackTop := kernStackTop im.kernStack
  current := 0
  runningProcHead := 0
  nowPid := 0

theorem stackLinked_smallImage : StackLinked smallImage where
  aligned := by decide
  start := by decide
  stop := by decide

/-- Besides the boot task a second one at the start of the heap, which is current. -/
theorem exists_twoTasks : ∃ s, Reached smallImage s [0xC0130000, 0xE000000C] := by
  obtain ⟨_, s, init, queue⟩ := (initSched_spec (E := fun _ _ => False) stackLinked_smallImage
    (s := schedAtBoot smallImage) rfl rfl (Q := fun _ t => RunQueue t [0xC0130000])
    fun _ queue _ => queue).returns
  have fresh : Fresh [0xC0130000] 0xE000000C := by
    refine ⟨by decide, by decide, fun a ha => ?_⟩
    rw [List.mem_singleton.1 ha]
    decide
  have given : Allocates (fun _ => pure 0xE000000C) s [0xC0130000] 0xE000000C s :=
    ⟨rfl, fresh, rfl, fun _ _ => rfl⟩
  obtain ⟨_, t, create, queue'⟩ := (queue.kernelThread (E := fun _ _ => False)
    (fun _ => pure 0xE000000C) 0 0 0 given.returns given.fresh given.globals given.tasks
    (Q := fun _ t => RunQueue t [0xC0130000, 0xE000000C]) fun _ queue' _ _ => queue').returns
  obtain ⟨_, u, switch, -⟩ := (queue'.schedule (E := fun _ _ => False) ⟨0, 0, 0, 0, 0, 0⟩
    (Q := fun _ _ => True) fun _ _ _ _ => trivial).returns
  exact ⟨u, s, _, ⟨_, rfl, rfl, init⟩,
    ((Run.start.step (.kernelThread given create)).step (.schedule switch))⟩

/-- The block that a third task gets. -/
theorem fresh_third : Fresh [0xC0130000, 0xE000000C] 0xE0002018 := by
  refine ⟨by decide, by decide, fun a ha => ?_⟩
  rcases List.mem_cons.1 ha with rfl | h
  · decide
  · rw [List.mem_singleton.1 h]
    decide

theorem runQueue_ordered_two : ∃ s pid t,
    Returns (kernelThread (fun _ => pure 0xE0002018) 0 0 0) s pid t ∧
      Ordered smallImage t [0xC0130000, 0xE000000C, 0xE0002018] ∧
      taskField t.mem 0xE0002018 .pid = pid := by
  obtain ⟨s, reached⟩ := exists_twoTasks
  exact ⟨s, (runQueue_ordered smallImage stackLinked_smallImage s _ reached).2 _ 0 0 0 0xE0002018 s
    ⟨rfl, fresh_third, rfl, fun _ _ => rfl⟩⟩

end SimpleKernel
