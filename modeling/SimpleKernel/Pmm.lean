import SimpleKernel.Layout

/-!
# The frame allocator

`pmm.c`: the stack of free frames and its loading from the boot loader's memory map.  `frames` is
the list of the stack's entries, bottom first; allocation takes its last element and freeing
appends.
-/

namespace SimpleKernel

open ByteStore ProgramLogic

def pmmMaxSize : Word := 0x20000000

def pmmPageSize : Word := 0x1000

def pageMaxSize : Word := pmmMaxSize / pmmPageSize

/-- `assert` of `debug.h`. -/
def assert (x : Prop) [Decidable x] (info : String) : Kernel Unit :=
  if x then pure () else throw (.panic info)

def outOfMemory : Stop := .panic "out of memory"

def pmmAllocPage : Kernel Word := do
  assert ((← get).pmmStackTop ≠ 0) "out of memory"
  let page := (← get).pmmStack (← get).pmmStackTop.toNat
  modify fun m => { m with pmmStackTop := m.pmmStackTop - 1 }
  return page

def pmmFreePage (page : Word) : Kernel Unit := do
  assert ((← get).pmmStackTop ≠ pageMaxSize) "out of pmm_stack stack"
  modify fun m => { m with pmmStackTop := m.pmmStackTop + 1 }
  modify fun m => { m with pmmStack := Function.update m.pmmStack m.pmmStackTop.toNat page }

/-- The inner loop of `init_pmm`: push the frames from `page_addr` on. -/
def pushRegion (pageAddr length : Word) : Kernel Word :=
  whileM .hang (fun pageAddr => return decide (pageAddr < length ∧ pageAddr ≤ pmmMaxSize))
    (fun pageAddr => do
      pmmFreePage pageAddr
      modify fun m => { m with phyPageCount := m.phyPageCount + 1 }
      return pageAddr + pmmPageSize) roundLimit pageAddr

/-- The body of the outer loop of `init_pmm` in a kernel that ends at `kernEnd`; `&&` looks at the
base address of usable entries only. -/
def scanEntryAt (kernEnd mapEntry : Word) : Kernel Word := do
  if (← load32 (mapEntry + MmapField.type.offset)) = 1 then
    let baseAddrLow ← load32 (mapEntry + MmapField.baseAddrLow.offset)
    if baseAddrLow = 0x100000 then
      let pageAddr := baseAddrLow + (kernEnd - kernStart)
      let length := baseAddrLow + (← load32 (mapEntry + MmapField.lengthLow.offset))
      let _ ← pushRegion pageAddr length
  return mapEntry + sizeofMmapEntry

def initPmmAt (kernEnd : Word) : Kernel Unit := do
  let mb := (← get).glbMbootPtr
  let mmapStartAddr ← load32 (mb + MutilbootField.mmapAddr.offset)
  let mmapEndAddr := (← load32 (mb + MutilbootField.mmapAddr.offset)) +
    (← load32 (mb + MutilbootField.mmapLength.offset))
  let _ ← whileM .hang (fun mapEntry => return decide (mapEntry < mmapEndAddr))
    (scanEntryAt kernEnd) roundLimit mmapStartAddr
  return ()

/-- `init_pmm` of the kernel image. -/
def initPmm (im : Image) : Kernel Unit := initPmmAt im.kernEnd

/-! ## The stack as a list -/

/-- `pmm_stack[1 .. pmm_stack_top]`. -/
def frames (m : Machine) : List Word :=
  (List.range m.pmmStackTop.toNat).map fun i => m.pmmStack (i + 1)

@[simp] theorem frames_setMem (m : Machine) (mem : Store 32) : frames (m.setMem mem) = frames m :=
  rfl

@[simp] theorem frames_setHeapMax (m : Machine) (heapMax : Word) :
    frames (m.setHeapMax heapMax) = frames m := rfl

theorem frames_length (m : Machine) : (frames m).length = m.pmmStackTop.toNat := by
  simp [frames]

theorem frames_eq_nil_iff (m : Machine) : frames m = [] ↔ m.pmmStackTop = 0 := by
  rw [← List.length_eq_zero_iff, frames_length, ← BitVec.toNat_inj]
  rfl

section Specs

variable {E : Stop → Machine → Prop} {m : Machine}

theorem assert_spec {x : Prop} [Decidable x] {info : String} {Q : Unit → Machine → Prop}
    (yes : x → Q () m) (no : ¬ x → E (.panic info) m) : WP (assert x info) E Q m := by
  unfold assert
  rw [wp_ite]
  exact ⟨yes, no⟩

/-- Taking a frame: either none is left, or the last one of the list is handed out. -/
theorem pmmAllocPage_spec {Q : Word → Machine → Prop} (oom : frames m = [] → E outOfMemory m)
    (hQ : ∀ f fs top, frames m = fs ++ [f] →
      frames (m.setFrames m.pmmStack top m.phyPageCount) = fs →
      Q f (m.setFrames m.pmmStack top m.phyPageCount)) : WP pmmAllocPage E Q m := by
  simp only [pmmAllocPage, wp_bind, wp_get, wp_modify, wp_pure]
  refine assert_spec (fun nonempty => ?_) fun empty => ?_
  · have pos : m.pmmStackTop.toNat ≠ 0 := fun h => nonempty (BitVec.eq_of_toNat_eq h)
    have low : (m.pmmStackTop - 1).toNat = m.pmmStackTop.toNat - 1 := by bv_omega
    have split : frames m =
        frames (m.setFrames m.pmmStack (m.pmmStackTop - 1) m.phyPageCount) ++
          [m.pmmStack m.pmmStackTop.toNat] := by
      obtain ⟨k, hk⟩ := Nat.exists_eq_succ_of_ne_zero pos
      simp only [frames, Machine.setFrames_pmmStackTop, Machine.setFrames_pmmStack, low, hk,
        Nat.succ_sub_one, List.range_succ, List.map_append, List.map_singleton,
        Nat.succ_eq_add_one]
    exact hQ _ _ _ split rfl
  · exact oom ((frames_eq_nil_iff m).2 (not_not.1 empty))

/-- Giving a frame back appends it, unless the stack is full. -/
theorem pmmFreePage_spec {Q : Unit → Machine → Prop} {page : Word}
    (bound : (frames m).length ≤ pageMaxSize.toNat)
    (full : (frames m).length = pageMaxSize.toNat → E (.panic "out of pmm_stack stack") m)
    (hQ : (frames m).length < pageMaxSize.toNat → ∀ stack top,
      frames (m.setFrames stack top m.phyPageCount) = frames m ++ [page] →
        Q () (m.setFrames stack top m.phyPageCount)) :
    WP (pmmFreePage page) E Q m := by
  rw [frames_length] at bound full
  have limit : pageMaxSize.toNat = 131072 := by decide
  simp only [pmmFreePage, wp_bind, wp_get, wp_modify]
  refine assert_spec (fun free => ?_) fun reached => full (by rw [not_not.1 reached])
  have room : m.pmmStackTop.toNat ≠ pageMaxSize.toNat := fun h => free (BitVec.eq_of_toNat_eq h)
  have high : (m.pmmStackTop + 1).toNat = m.pmmStackTop.toNat + 1 := by bv_omega
  refine hQ (by rw [frames_length]; omega) _ _ ?_
  simp only [frames, Machine.setFrames_pmmStackTop, Machine.setFrames_pmmStack, high,
    List.range_succ, List.map_append, List.map_singleton, Function.update_self]
  congr 1
  refine List.map_congr_left fun i hi => Function.update_of_ne ?_ _ _
  have := List.mem_range.1 hi
  omega

end Specs

end SimpleKernel
