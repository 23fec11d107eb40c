import SimpleKernel.Machine

/-!
# The kernel image and the boot information

What the linker script fixes about the kernel image, the boot loader's `struct mutilboot` and
`struct mmap_entry`, and the statements of `kern_entry` that install the temporary page tables and
move the boot information pointer.
-/

namespace SimpleKernel

open ByteStore ProgramLogic

/-- The physical address at which the boot loader puts the image, and `kern_start` above it. -/
def kernLoad : Word := 0x100000

def kernStart : Word := 0xC0100000

/-- `HEAP_START` of `heap.h`. -/
def heapStart : Word := 0xE0000000

/-- Link addresses.  The image occupies `kern_start` up to the page-aligned `kern_end` inside the
4 MB that the temporary tables map, and the two page-aligned table arrays of `vmm.c` lie in it. -/
structure Image where
  kernEnd : Word
  pgdKern : Word
  pteKern : Word
  pageFault : Word
  kernStack : Word
  kernEnd_aligned : kernEnd.toNat % 4096 = 0
  kernEnd_mapped : kernEnd.toNat ≤ 0xC0400000
  pgdKern_aligned : pgdKern.toNat % 4096 = 0
  pgdKern_start : 0xC0100000 ≤ pgdKern.toNat
  pgdKern_end : pgdKern.toNat + 4096 ≤ kernEnd.toNat
  pteKern_aligned : pteKern.toNat % 4096 = 0
  pteKern_start : 0xC0100000 ≤ pteKern.toNat
  pteKern_end : pteKern.toNat + 128 * 4096 ≤ kernEnd.toNat
  tables_apart : pgdKern.toNat + 4096 ≤ pteKern.toNat ∨
    pteKern.toNat + 128 * 4096 ≤ pgdKern.toNat

namespace Image

variable (im : Image)

/-- The physical addresses of the two table arrays. -/
def pgdPhys : Word := im.pgdKern - pageOffset

def ptePhys : Word := im.pteKern - pageOffset

theorem pgdPhys_toNat : im.pgdPhys.toNat + 0xC0000000 = im.pgdKern.toNat := by
  have := im.pgdKern_start
  unfold pgdPhys pageOffset
  bv_omega

theorem ptePhys_toNat : im.ptePhys.toNat + 0xC0000000 = im.pteKern.toNat := by
  have := im.pteKern_start
  unfold ptePhys pageOffset
  bv_omega

/-- The physical bytes of the page directory and the page tables of the direct map. -/
def tables : Set Word :=
  {a | im.pgdPhys.toNat ≤ a.toNat ∧ a.toNat < im.pgdPhys.toNat + 3584 ∨
    im.ptePhys.toNat ≤ a.toNat ∧ a.toNat < im.ptePhys.toNat + 128 * 4096}

end Image

/-- An image of 1 MB with its table arrays in the middle, for concrete runs. -/
def smallImage : Image where
  kernEnd := 0xC0200000
  pgdKern := 0xC0140000
  pteKern := 0xC0150000
  pageFault := 0xC0101000
  kernStack := 0xC0130000
  kernEnd_aligned := by decide
  kernEnd_mapped := by decide
  pgdKern_aligned := by decide
  pgdKern_start := by decide
  pgdKern_end := by decide
  pteKern_aligned := by decide
  pteKern_start := by decide
  pteKern_end := by decide
  tables_apart := by decide

/-- A machine with zeroed memory as the boot loader hands it over: protected mode without paging,
and the boot information at `mboot`. -/
def bootMachine (mboot : Word) : Machine where
  mem := fun _ => 0
  cr0 := 0x11
  cr3 := 0
  interruptHandlers := fun _ => 0
  kernStackTop := 0
  mbootPtrTmp := mboot
  glbMbootPtr := 0
  pmmStack := fun _ => 0
  pmmStackTop := 0
  phyPageCount := 0
  heapMax := heapStart
  heapFirst := 0

/-! ## `mutilboot.h` -/

/-- The members of `struct mutilboot`, in order; each is a `uint32_t` and the struct is packed. -/
inductive MutilbootField where
  | flags | memLower | memUpper | bootDevice | cmdline | modsCount | modsAddr
  | num | size | addr | shndx | mmapLength | mmapAddr
  | driversLength | driversAddr | configTable | bootLoaderName | apmTable
  | vbeControlInfo | vbeModeInfo | vbeMode | vbeInterfaceSeg | vbeInterfaceOff | vbeInterfaceLen
  deriving DecidableEq, Repr

namespace MutilbootField

def offset (f : MutilbootField) : Word := BitVec.ofNat 32 (4 * f.ctorIdx)

end MutilbootField

/-- `sizeof(mutilboot_t)`: the packed struct ends behind its last member. -/
def sizeofMutilboot : Word := MutilbootField.vbeInterfaceLen.offset + 4

example : sizeofMutilboot = 96 := by decide

/-- The members of `struct mmap_entry`, in order; each is a `uint32_t` and the struct is packed. -/
inductive MmapField where
  | size | baseAddrLow | baseAddrHigh | lengthLow | lengthHigh | type
  deriving DecidableEq, Repr

namespace MmapField

def offset (f : MmapField) : Word := BitVec.ofNat 32 (4 * f.ctorIdx)

end MmapField

/-- `sizeof(mmap_entry_t)`. -/
def sizeofMmapEntry : Word := MmapField.type.offset + 4

/-! ## `kern_entry` -/

def stackSize : Word := 8192

def pgdTmp : Word := 0x1000

def pteLow : Word := 0x2000

def pteHigh : Word := 0x3000

/-- The statements of `kern_entry` that fill the temporary tables. -/
def fillTemporaryTables : Kernel Unit := do
  store32 (pgdTmp + 4 * 0) (entry pteLow)
  store32 (pgdTmp + 4 * pgdIndex pageOffset) (entry pteHigh)
  (List.range pteSize).forM fun i => do
    store32 (pteLow + 4 * BitVec.ofNat 32 i) (entry (BitVec.ofNat 32 i <<< 12))
    store32 (pteHigh + 4 * BitVec.ofNat 32 i) (entry (BitVec.ofNat 32 i <<< 12))

/-- `kern_entry` up to the call of `kern_init`.  `mboot_ptr_tmp` is a `mutilboot_t *`, so adding
`PAGE_OFFSET` to it adds `PAGE_OFFSET * sizeof(mutilboot_t)`. -/
def kernEntry (im : Image) : Kernel Unit := do
  fillTemporaryTables
  modify fun m => { m with cr3 := pgdTmp }
  modify fun m => { m with cr0 := m.cr0 ||| 0x80000000 }
  modify fun m => { m with kernStackTop := (im.kernStack + stackSize) &&& 0xfffffff0 }
  modify fun m => { m with glbMbootPtr := m.mbootPtrTmp + pageOffset * sizeofMutilboot }

end SimpleKernel
