import SimpleKernel.Capacity
import SimpleKernel.Drain
import SimpleKernel.SystemRuns

/-!
# Booting

`kern_init` from `init_pmm` to `kernel_thread`: the frame stack, the page tables, the test of the heap,
the run queue and the first thread.  It gets through exactly if `init_pmm` has found 15 frames, which
is what `test_heap` needs; the thread after it needs fewer.
-/

namespace SimpleKernel

open ByteStore ProgramLogic Tiling

/-- `test_heap` without its output. -/
def testHeap (im : Image) : Kernel Unit := do
  let addr1 ← kmalloc im 50
  let addr2 ← kmalloc im 500
  let addr3 ← kmalloc im 5000
  let addr4 ← kmalloc im 50000
  kfree im addr1
  kfree im addr2
  kfree im addr3
  kfree im addr4

/-- The sizes that it asks for. -/
def testSizes : List Word := [50, 500, 5000, 50000]

/-- The calls of `kern_init` from `init_pmm` to `kernel_thread`, without the output between them. -/
def System.kernInit (im : Image) (kthreadExit thread : Word) : System.Tasking Unit := do
  onMachine (initPmm im)
  onMachine (initVmm im)
  onMachine initHeap
  onMachine (testHeap im)
  initSched
  let _ ← kernelThread im kthreadExit thread 0

section Test

variable {im : Image} {F pages tables : List Word} {m : Machine} {l : List Chunk}

theorem testHeap_eq (im : Image) : testHeap im = (do
    let ptrs ← kmallocAll im testSizes
    kfreeAll im ptrs) := by
  simp only [testHeap, testSizes, kmallocAll, kfreeAll, bind_assoc, pure_bind, bind_pure_unit]

/-- While nothing is freed, `kmalloc` leaves the rest of the kernel alone. -/
theorem HeapList.kmallocAll_untouched (lens : List Word)
    (heap : HeapList (· = false) im F m pages tables l) (pool : KernelFrames im F)
    (used : ∀ c ∈ l, c.used = true)
    (room : after l + (lens.map fun len => len.toNat + 12).sum < 2 ^ 32) :
    WP (SimpleKernel.kmallocAll im lens) (fun _ _ => True) (fun _ t => Untouched im m t) m := by
  induction lens generalizing m pages tables l with
  | nil => exact Untouched.refl im m
  | cons len lens ih =>
    rw [List.map_cons, List.sum_cons] at room
    have none : NoneFits (len.toNat + 12) l := fun c hc free => by
      rw [used c hc] at free
      exact absurd free (by decide)
    simp only [SimpleKernel.kmallocAll, wp_bind]
    refine ((heap.kmalloc_exact pool none (by omega) rfl).and
      (heap.kmalloc_kept pool (by omega) fun _ => by omega)).weaken (fun _ _ _ => trivial) ?_
    rintro p t ⟨⟨-, pages', tables', heap', -⟩, same, -⟩
    refine (ih heap' (fun c hc => ?_) ?_).mono fun _ u same' => same.trans same'
    · rcases List.mem_append.1 hc with hc | hc
      · exact used c hc
      · rw [List.mem_singleton.1 hc]
    · rw [after_appended]
      omega

section Drain

variable {live : List Live}

theorem Draining.kfree_untouched (draining : Draining im F m tables live) (pool : KernelFrames im F)
    {b : Live} (has : b ∈ live) :
    WP (kfree im b.1) (fun _ _ => True) (fun _ t => Untouched im m t) m := by
  obtain ⟨pages, l, bs, heap, perm, matching⟩ := draining
  obtain ⟨⟨a, n⟩, bs', related, perm', rest⟩ := forall₂_erase matching has
  have mem : (a, n) ∈ blocks 0xE0000000 l :=
    perm.subset (perm'.symm.subset (List.mem_cons_self ..))
  obtain ⟨pre, c, post, rfl, used, rfl, rfl⟩ := mem_blocks_iff.1 mem
  have place : b.1 = addr (after pre + 12) := by
    rw [← addr_ofToNat b.1, related.1, after]
  obtain ⟨before, back, behind⟩ := backs_append.1 heap.tidy.backs
  rw [place]
  have spares := heap.listed.kfree_spares pool (backs_append.2 ⟨before.weaken fun _ _ => trivial,
    fun _ => back trivial, behind.weaken fun _ _ => trivial⟩)
  exact spares.mono fun _ t spared => spared.toUntouched

theorem Draining.kfreeAll_untouched {order rest : List Live} (draining : Draining im F m tables live)
    (pool : KernelFrames im F) (perm : (order ++ rest).Perm live) :
    WP (SimpleKernel.kfreeAll im (order.map Prod.fst)) (fun _ _ => True)
      (fun _ t => Untouched im m t) m := by
  induction order generalizing m live with
  | nil => exact Untouched.refl im m
  | cons b order ih =>
    have has : b ∈ live := perm.subset (List.mem_cons_self ..)
    have next := Served.kfree (E := fun _ _ => True) draining pool trivial (fun b q h => h.1) has
      fun pages pre c post heap _ _ => (backs_append.1 heap.tidy.backs).2.1 trivial
    rw [List.map_cons, SimpleKernel.kfreeAll, wp_bind]
    refine (next.and (draining.kfree_untouched pool has)).weaken (fun _ _ _ => trivial) ?_
    rintro _ t ⟨draining', same⟩
    exact (ih draining' (List.cons_perm_iff_perm_erase.1 perm).2).mono fun _ u same' =>
      same.trans same'

end Drain

/-- `test_heap` leaves an empty heap with one table behind, and stops exactly without 15 frames. -/
theorem HeapList.testHeap (heap : HeapList (fun _ => True) im F m [] [] [])
    (pool : KernelFrames im F) :
    WP (SimpleKernel.testHeap im) (fun e _ => e = outOfMemory ∧ F.length < 15) (fun _ t =>
      15 ≤ F.length ∧ Untouched im m t ∧
      ∃ tables', tables'.length = 1 ∧ HeapList (fun _ => True) im F t [] tables' []) m := by
  have sizes : after [] + (testSizes.map fun len => len.toNat + 12).sum =
      0xE000D92E := by decide
  have pages : 14 = pagesTo m (after [] + (testSizes.map fun len => len.toNat + 12).sum) := by
    rw [sizes, pagesTo, heap.listed.own.heapPages_eq]
    decide
  have structured := heap.kmallocAll testSizes pool (by simp) (by rw [sizes]; decide) pages
  have kept := (heap.weaken (· = false) fun _ _ => trivial).kmallocAll_untouched testSizes pool
    (by simp) (by rw [sizes]; decide)
  have one : max ([] : List Word).length (tablesFor 14) = 1 := rfl
  rw [one] at structured
  rw [testHeap_eq, wp_bind]
  refine (structured.and kept).weaken (fun e _ h => h.1) ?_
  rintro ptrs u ⟨⟨length, pages', tables', l, heap', size, count, matching⟩, same⟩
  have balance := heap'.listed.own.balance
  have draining : Draining im F u tables' (ptrs.zip testSizes) :=
    ⟨pages', _, _, heap', List.Perm.refl _, matching⟩
  have all : (ptrs.zip testSizes ++ []).Perm (ptrs.zip testSizes) := by
    rw [List.append_nil]
  have freed := draining.kfreeAll (E := fun e _ => e = outOfMemory ∧ F.length < 15) pool all
  rw [List.map_fst_zip length.le] at freed
  have untouched := Draining.kfreeAll_untouched draining pool all
  rw [List.map_fst_zip length.le] at untouched
  refine (freed.and untouched).weaken (fun _ _ h => h.1) ?_
  rintro _ t ⟨⟨live, none, draining'⟩, same'⟩
  rw [List.nil_perm] at none
  subst none
  exact ⟨by omega, same.trans same', tables', by omega, Served.empty draining'⟩

end Test

/-! ## The first task -/

theorem store8_frames (va : Word) (b : Byte) (fs : List Word) :
    Keeps (fun m => frames m = fs) (store8 va b) := by
  intro m hm
  unfold store8
  rw [wp_bind, wp_get]
  cases translate m va with
  | some pa => exact hm
  | none => trivial

theorem store32_frames (va v : Word) (fs : List Word) :
    Keeps (fun m => frames m = fs) (store32 va v) := by
  unfold store32
  apply Keeps.bind (store8_frames _ _ _)
  intro _
  apply Keeps.bind (store8_frames _ _ _)
  intro _
  apply Keeps.bind (store8_frames _ _ _)
  intro _
  exact store8_frames _ _ _

namespace System

theorem storeTask_frames (f : TaskField) (a v : Word) (fs : List Word) :
    Keeps (fun s => frames s.machine = fs) (pagedTasks.storeTask f a v) := by
  intro s hs
  exact wp_focus.2 (store32_frames _ v fs s.machine hs)

/-- `init_sched` leaves the frame stack alone. -/
theorem initSched_frames (fs : List Word) : Keeps (fun s => frames s.machine = fs) initSched := by
  have keepsPid : Keeps (fun s : System => frames s.machine = fs) pagedTasks.takePid := fun _ hs => hs
  have change (k : System → System) (same : ∀ s, (k s).machine = s.machine) :
      Keeps (fun s : System => frames s.machine = fs) (modify k : Tasking Unit) := by
    intro s hs
    rw [wp_modify, same]
    exact hs
  unfold initSched TaskOps.initSched
  apply Keeps.bind (change (fun s => s.setCurrent (s.machine.kernStackTop - stackSize)) fun _ => rfl)
  intro _
  apply Keeps.get_bind
  intro s _
  apply Keeps.bind (storeTask_frames _ _ _ fs)
  intro _
  apply Keeps.get_bind
  intro s _
  apply Keeps.bind keepsPid
  intro pid
  apply Keeps.bind (storeTask_frames _ _ _ fs)
  intro _
  apply Keeps.get_bind
  intro s _
  apply Keeps.get_bind
  intro s' _
  apply Keeps.bind (storeTask_frames _ _ _ fs)
  intro _
  apply Keeps.get_bind
  intro s _
  apply Keeps.bind (storeTask_frames _ _ _ fs)
  intro _
  apply Keeps.get_bind
  intro s _
  apply Keeps.get_bind
  intro s' _
  apply Keeps.bind (storeTask_frames _ _ _ fs)
  intro _
  exact change (fun s => s.setHead s.current) fun _ => rfl

end System

/-- Next to the boot task, on an empty heap, `kernel_thread` makes the first chunk for its thread. -/
theorem SystemSafe.firstThread {E : Stop → System → Prop} {im : Image} {F : List Word} {w : System}
    (ok : SystemSafe im F ⟨w, [], [im.kernStack]⟩) (pool : KernelFrames im F) (stack : StackApart im)
    (count : (frames w.machine).length + 1 = F.length) (enough : 4 ≤ F.length)
    (kthreadExit thread : Word) : WP (System.kernelThread im kthreadExit thread 0) E (fun pid t =>
      HeapSafe t.machine [(0xE000000C, stackSize)] ∧
        WellFormed im F t.machine [⟨8204, true, 0⟩] ∧
        Ordered im t.flat [im.kernStack, 0xE000000C] ∧
        Started 0xE000000C kthreadExit thread 0 pid t) w := by
  obtain ⟨tables, heap⟩ : ∃ tables, HeapList (· = false) im F w.machine [] tables [] :=
    ok.safe.heapList
  have balance := heap.listed.own.balance
  rw [List.length_nil] at balance
  have room : after [] + (stackSize.toNat + 12) < 2 ^ 32 := by decide
  have size : pagesTo w.machine (after [] + (stackSize.toNat + 12)) = 3 := by
    rw [pagesTo, heapPages, heap.reached]
    decide
  have given : ∃ x, Returns (kmalloc im stackSize) w.machine 0xE000000C x ∧
      WellFormed im F x [⟨8204, true, 0⟩] := by
    rcases (heap.kmalloc_exact pool (by simp [NoneFits]) room rfl).outcome with
      ⟨p, x, run, rfl, pages', tables', heap', -⟩ | ⟨e, x, -, -, few⟩
    · exact ⟨x, run, pages', tables', heap'.listed, heap'.first, heap'.reached,
        ⟨fun _ => rfl, trivial⟩, heap'.tidy.spaced, heap'.tidy.last⟩
    · have one : tablesFor 3 = 1 := rfl
      rw [size, one] at few
      omega
  obtain ⟨x, given, formed⟩ := given
  refine (ok.kernelThread pool stack kthreadExit thread 0).weaken ?_ ?_
  · rintro e t ⟨-, y, stop⟩
    exact absurd stop given.not_stops
  · rintro pid t ⟨p, y, run, ok', -, new, chunks⟩
    have same : (Except.ok p, y) = (Except.ok 0xE000000C, x) := run.symm.trans given
    obtain ⟨⟨⟩, rfl⟩ := Prod.mk.inj same
    exact ⟨ok'.safe.heapSafe pool, chunks _ _ formed, ok'.queue.ordered ok'.boot, new⟩

/-! ## Main result -/

/-- What `kern_entry` writes to `kern_stack_top`. -/
theorem kernEntry_top {im : Image} {b m : Machine} (off : b.cr0 &&& 0x80000000 = 0)
    (entered : Returns (kernEntry im) b () m) : m.kernStackTop = kernStackTop im.kernStack := by
  have spec : WP (kernEntry im) (fun _ _ => True)
      (fun _ t => t.kernStackTop = kernStackTop im.kernStack) b := by
    simp only [kernEntry, wp_bind, wp_modify]
    refine (fillTemporaryTables_spec off).mono ?_
    rintro _ t -
    rfl
  exact spec.returned entered

/-- From `kern_entry` to `kernel_thread`, where `init_pmm` pushes frames below 512 MB: the kernel comes
to the end of `kern_init` exactly if these are 15 or more, and stops in `test_heap` otherwise.  At the
end the boot task and the new thread form the run queue, and the heap consists of the chunk of the
thread alone. -/
theorem kernInit_of_frames (im : Image) (stack : StackApart im) (b m : Machine) (s₀ : System)
    (kthreadExit thread : Word) (off : b.cr0 &&& 0x80000000 = 0)
    (zeroed : ∀ a ∈ im.tablePages, b.mem a = 0) (fresh : b.pmmStackTop = 0)
    (empty : b.heapMax = heapStart) (entered : Returns (kernEntry im) b () s₀.machine)
    (pid : s₀.nowPid = 0) (scan : Returns (initPmm im) s₀.machine () m)
    (pool : KernelFrames im (frames m)) :
    (15 ≤ (frames m).length → ∃ t pid, Returns (System.kernInit im kthreadExit thread) s₀ () t ∧
      HeapSafe t.machine [(0xE000000C, stackSize)] ∧
      WellFormed im (frames m) t.machine [⟨8204, true, 0⟩] ∧
      Ordered im t.flat [im.kernStack, 0xE000000C] ∧
      Started 0xE000000C kthreadExit thread 0 pid t) ∧
    ((frames m).length < 15 →
      ∃ t, Stops (System.kernInit im kthreadExit thread) s₀ outOfMemory t) := by
  have spec := kernEntry_spec (E := fun _ _ => True) im off (Q := fun _ t => TemporaryPaging t ∧
    (∀ a ∉ temporaryPages, t.mem a = b.mem a) ∧ t.pmmStackTop = b.pmmStackTop ∧
    t.heapMax = b.heapMax) fun t temp outside _ top _ heapMax => ⟨temp, outside, top, heapMax⟩
  obtain ⟨temp, outside, pushed, heapMax⟩ := spec.returned entered
  have none : frames s₀.machine = [] := by
    rw [frames, pushed, fresh]
    rfl
  have only : FramesOnly s₀.machine m :=
    ((initPmm_spec im s₀.machine (by rw [none]; exact Nat.zero_le _)).returned scan).1
  have top := kernEntry_top off entered
  obtain ⟨temp', zeroed', empty', top'⟩ : TemporaryPaging m ∧ (∀ a ∈ im.tablePages, m.mem a = 0) ∧
      m.heapMax = heapStart ∧ m.kernStackTop = kernStackTop im.kernStack := by
    obtain ⟨_, _, _, rfl⟩ := only
    refine ⟨temp.of_agree rfl rfl fun _ _ => rfl, fun a ha => ?_, heapMax.trans empty, top⟩
    exact (outside a (tablePages_high ha)).trans (zeroed a ha)
  obtain ⟨⟨⟩, v, boot, topV⟩ := (initVmm_spec (E := fun _ _ => False) im temp'
    (Q := fun _ v => v.kernStackTop = kernStackTop im.kernStack) top').returns
  have init : Returns initHeap v () (v.setHeapFirst 0) := rfl
  have heap := heapList_of_initHeap im temp' zeroed' empty' boot init fun _ => True
  have whole : WP (System.kernInit im kthreadExit thread)
      (fun e _ => e = outOfMemory ∧ (frames m).length < 15)
      (fun _ t => 15 ≤ (frames m).length ∧ ∃ pid, HeapSafe t.machine [(0xE000000C, stackSize)] ∧
        WellFormed im (frames m) t.machine [⟨8204, true, 0⟩] ∧
        Ordered im t.flat [im.kernStack, 0xE000000C] ∧ Started 0xE000000C kthreadExit thread 0 pid t)
      s₀ := by
    unfold System.kernInit
    simp only [System.onMachine, wp_bind, wp_focus]
    refine scan.wp (boot.wp (init.wp ?_))
    refine (heap.testHeap pool).mono ?_
    rintro _ u ⟨enough, same, tables, one, heap'⟩
    have safe : SafeState im (frames m) u [] :=
      ⟨tables, [], [], [], heap'.weaken (· = false) fun _ _ => trivial, List.Perm.refl _, .nil⟩
    have started := systemSafe_of_initSched (E := fun _ _ => False) (s := s₀.setMachine u) pool stack
      safe ((kernStackTop_of_globals same.globals).trans topV) pid
    have kept := System.initSched_frames (frames u) (s₀.setMachine u) rfl
    refine (started.and kept).weaken (fun _ _ h => h.1.elim) ?_
    rintro _ w ⟨⟨ok, -⟩, kept⟩
    have count : (frames w.machine).length + 1 = (frames m).length := by
      have balance := heap'.listed.own.balance
      rw [List.length_nil] at balance
      rw [kept]
      omega
    exact (ok.firstThread pool stack count (by omega) kthreadExit thread).mono
      fun pid t done => ⟨enough, pid, done⟩
  rcases whole.outcome with ⟨⟨⟩, t, run, enough, pid, rest⟩ | ⟨e, t, stop, rfl, few⟩
  · exact ⟨fun _ => ⟨t, pid, run, rest⟩, fun few => absurd enough (by omega)⟩
  · exact ⟨fun enough => absurd enough (by omega), fun _ => ⟨t, stop⟩⟩

/-- With 128 MB of memory it comes to its end. -/
theorem kernInit_of_frames_128M : ∃ (m₀ : Machine) (t : System) (pid : Word),
    Returns (kernEntry smallImage) ((bootMachine 0x10000).setMem (bootInformation 0x7F00000)) () m₀ ∧
    Returns (System.kernInit smallImage 0xC0100100 0xC0100200) ⟨m₀, 0, 0, 0⟩ () t ∧
    (∃ F, WellFormed smallImage F t.machine [⟨8204, true, 0⟩]) ∧
    Started 0xE000000C 0xC0100100 0xC0100200 0 pid t := by
  obtain ⟨m₀, m, entered, -, -, -, -, -, scan, -, pushed⟩ := bootInformation_scanned 0x7F00000
  have off : ((bootMachine 0x10000).setMem (bootInformation 0x7F00000)).cr0 &&& 0x80000000 = 0 :=
    (by decide : (0x11 : Word) &&& 0x80000000 = 0)
  have zeroed : ∀ a ∈ smallImage.tablePages,
      ((bootMachine 0x10000).setMem (bootInformation 0x7F00000)).mem a = 0 := by
    intro a ha
    refine bootInformation_zero _ ?_
    rcases ha with ha | ha <;> exact le_trans (by decide) ha.1
  have pool : KernelFrames smallImage (frames m) := by
    rw [pushed]
    exact kernelFrames_regionFrames smallImage (by decide)
  have enough : 15 ≤ (frames m).length := by
    rw [pushed, regionFrames, List.length_map, List.length_range]
    decide
  obtain ⟨t, pid, run, -, formed, -, started⟩ := (kernInit_of_frames smallImage stackApart_smallImage _ m
    ⟨m₀, 0, 0, 0⟩ 0xC0100100 0xC0100200 off zeroed rfl rfl entered rfl scan pool).1 enough
  exact ⟨m₀, t, pid, entered, run, ⟨_, formed⟩, started⟩

end SimpleKernel
