import SimpleKernel.Pmm

/-!
# Page tables

`vmm.c`: the kernel's page directory, and mapping, unmapping and looking up single pages.  Table
addresses in directory entries are physical; the code adds `PAGE_OFFSET` and goes through the
direct map.
-/

namespace SimpleKernel

open ByteStore ProgramLogic

def registerInterruptHandler (num : Byte) (func : Word) : Kernel Unit :=
  modify fun m => { m with interruptHandlers := Function.update m.interruptHandlers num func }

def switchPgd (pd : Word) : Kernel Unit :=
  modify fun m => { m with cr3 := pd }

def initVmm (im : Image) : Kernel Unit := do
  let kernPteFirstIdx := pgdIndex pageOffset
  (List.range pteCount).forM fun j =>
    store32 (im.pgdKern + 4 * (kernPteFirstIdx + BitVec.ofNat 32 j))
      (entry (im.pteKern + BitVec.ofNat 32 (4096 * j) - pageOffset))
  -- `for (i = 1; ...)`: page 0 stays unmapped
  (List.range (pteCount * pteSize - 1)).forM fun k =>
    store32 (im.pteKern + 4 * BitVec.ofNat 32 (k + 1)) (entry (BitVec.ofNat 32 (k + 1) <<< 12))
  registerInterruptHandler 14 im.pageFault
  switchPgd (im.pgdKern - pageOffset)

def map (pgdNow va pa flags : Word) : Kernel Unit := do
  let pte := (← load32 (pgdNow + 4 * pgdIndex va)) &&& pageMask
  let pte ←
    if pte = 0 then do
      let pte ← pmmAllocPage
      store32 (pgdNow + 4 * pgdIndex va) (entry pte)
      bzero (pte + pageOffset) 4096
      pure (pte + pageOffset)
    else
      pure (pte + pageOffset)
  store32 (pte + 4 * pteIndex va) ((pa &&& pageMask) ||| flags)

def unmap (pgdNow va : Word) : Kernel Unit := do
  let pte := (← load32 (pgdNow + 4 * pgdIndex va)) &&& pageMask
  if pte = 0 then
    return ()
  let pte := pte + pageOffset
  store32 (pte + 4 * pteIndex va) 0

/-- `get_mapping`: the returned number, `none` where the function ends without one, and what it
writes through `pa`, where `none` means that it writes nothing. -/
def getMapping (pgdNow va : Word) (paNonNull : Bool) : Kernel (Option Word × Option Word) := do
  let pte := (← load32 (pgdNow + 4 * pgdIndex va)) &&& pageMask
  if pte = 0 then
    return (none, none)
  let pte := pte + pageOffset
  if (← load32 (pte + 4 * pteIndex va)) ≠ 0 ∧ paNonNull then
    return (some 1, some ((← load32 (pte + 4 * pteIndex va)) &&& pageMask))
  return (some 0, none)

end SimpleKernel
