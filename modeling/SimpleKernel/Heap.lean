import SimpleKernel.Vmm

/-!
# The kernel heap

`heap.c`.  The heap is a doubly linked list of chunks, each headed by a `header_t` in the chunk
itself; pages are mapped at the end of the heap when a chunk is appended and released when the last
chunks are freed.
-/

namespace SimpleKernel

open ByteStore ProgramLogic

/-! ## `header_t` -/

/-- The words of `header_t`; the bit-fields `allocated` and `length` share the third. -/
inductive HeaderField where
  | prev | next | info
  deriving DecidableEq, Repr

namespace HeaderField

def offset (f : HeaderField) : Word := BitVec.ofNat 32 (4 * f.ctorIdx)

end HeaderField

/-- `sizeof(header_t)`. -/
def sizeofHeader : Word := HeaderField.info.offset + 4

def loadField (f : HeaderField) (chunk : Word) : Kernel Word := load32 (chunk + f.offset)

def storeField (f : HeaderField) (chunk v : Word) : Kernel Unit := store32 (chunk + f.offset) v

/-- `chunk->prev`. -/
def headerPrev (chunk : Word) : Kernel Word := loadField .prev chunk

/-- `chunk->next`. -/
def headerNext (chunk : Word) : Kernel Word := loadField .next chunk

/-- `chunk->allocated`, the lowest bit of the third word. -/
def headerAllocated (chunk : Word) : Kernel Word := return (← loadField .info chunk) &&& (1 : Word)

/-- `chunk->length`, the other 31 bits of the third word. -/
def headerLength (chunk : Word) : Kernel Word := return (← loadField .info chunk) >>> 1

def setPrev (chunk v : Word) : Kernel Unit := storeField .prev chunk v

def setNext (chunk v : Word) : Kernel Unit := storeField .next chunk v

/-- `chunk->allocated = v` for a single bit `v`. -/
def setAllocated (chunk v : Word) : Kernel Unit := do
  storeField .info chunk (((← loadField .info chunk) &&& (0xfffffffe : Word)) ||| v)

/-- `chunk->length = v`, which drops the top bit of `v`. -/
def setLength (chunk v : Word) : Kernel Unit := do
  storeField .info chunk (((← loadField .info chunk) &&& (1 : Word)) ||| (v <<< 1))

/-! ## Pages -/

/-- The loop body of `alloc_chunk`. -/
def growPage (im : Image) : Kernel Unit := do
  let page ← pmmAllocPage
  map im.pgdKern (← get).heapMax page (pagePresent ||| pageWrite)
  modify fun m => m.setHeapMax (m.heapMax + pageSize)

def allocChunk (im : Image) (start len : Word) : Kernel Unit :=
  whileM .hang (fun _ => return decide (start + len > (← get).heapMax)) (fun _ => growPage im)
    roundLimit ()

/-- The loop body of `free_chunk`.  The local variable `page` is only set by `get_mapping`. -/
def shrinkPage (im : Image) : Kernel Unit := do
  modify fun m => m.setHeapMax (m.heapMax - pageSize)
  let (_, page) ← getMapping im.pgdKern (← get).heapMax true
  unmap im.pgdKern (← get).heapMax
  match page with
  | some page => pmmFreePage page
  | none => throw .uninitialised

/-- The page loop of `free_chunk`. -/
def freePages (im : Image) (chunk : Word) : Kernel Unit :=
  whileM .hang (fun _ => return decide ((← get).heapMax - pageSize ≥ chunk))
    (fun _ => shrinkPage im) roundLimit ()

def freeChunk (im : Image) (chunk : Word) : Kernel Unit := do
  if (← headerPrev chunk) = 0 then
    modify fun m => m.setHeapFirst 0
  else
    setNext (← headerPrev chunk) 0
  freePages im chunk

/-! ## Chunks -/

def initHeap : Kernel Unit := modify fun m => m.setHeapFirst 0

def splitChunk (chunk len : Word) : Kernel Unit := do
  if (← headerLength chunk) - len > sizeofHeader then
    let newChunk := chunk + len
    setPrev newChunk chunk
    setNext newChunk (← headerNext chunk)
    setAllocated newChunk 0
    setLength newChunk ((← headerLength chunk) - len)
    setNext chunk newChunk
    setLength chunk len

/-- The first `if` of `glue_chunk`. -/
def glueNext (chunk : Word) : Kernel Unit := do
  if (← headerNext chunk) ≠ 0 then
    if (← headerAllocated (← headerNext chunk)) = 0 then
      setLength chunk ((← headerLength chunk) + (← headerLength (← headerNext chunk)))
      if (← headerNext (← headerNext chunk)) ≠ 0 then
        setPrev (← headerNext (← headerNext chunk)) chunk
      setNext chunk (← headerNext (← headerNext chunk))

/-- The second `if` of `glue_chunk`; it gives the chunk with which the function goes on. -/
def gluePrev (chunk : Word) : Kernel Word := do
  if (← headerPrev chunk) ≠ 0 then
    if (← headerAllocated (← headerPrev chunk)) = 0 then
      setLength (← headerPrev chunk)
        ((← headerLength (← headerPrev chunk)) + (← headerLength chunk))
      setNext (← headerPrev chunk) (← headerNext chunk)
      if (← headerNext chunk) ≠ 0 then
        setPrev (← headerNext chunk) (← headerPrev chunk)
      return (← headerPrev chunk)
  return chunk

def glueChunk (im : Image) (chunk : Word) : Kernel Unit := do
  glueNext chunk
  let chunk ← gluePrev chunk
  if (← headerNext chunk) = 0 then
    freeChunk im chunk

/-- The search loop of `kmalloc`: the first free chunk with room for `len` bytes, 0 if there is none,
and the chunk before it. -/
def findChunk (len : Word) : Kernel (Word × Word) := do
  whileM .hang
    (fun (cur, _) => do
      if cur = 0 then
        return false
      else
        return ¬ ((← headerAllocated cur) = 0 ∧ (← headerLength cur) ≥ len))
    (fun (cur, _) => return (← headerNext cur, cur)) roundLimit ((← get).heapFirst, 0)

/-- Where `kmalloc` puts a new chunk behind `prev`. -/
def chunkStart (prev : Word) : Kernel Word := do
  if prev ≠ 0 then
    return prev + (← headerLength prev)
  else
    return heapStart

/-- The header that `kmalloc` gives to a new chunk at `start`, linked behind `prev`. -/
def linkChunk (start prev len : Word) : Kernel Unit := do
  setPrev start prev
  setNext start 0
  setAllocated start 1
  setLength start len
  if prev ≠ 0 then
    setNext prev start

/-- `kmalloc` appends a chunk. -/
def appendChunk (im : Image) (start prev len : Word) : Kernel Unit := do
  allocChunk im start len
  linkChunk start prev len

def kmalloc (im : Image) (len : Word) : Kernel Word := do
  let len := len + sizeofHeader
  let (cur, prev) ← findChunk len
  if cur ≠ 0 then
    splitChunk cur len
    setAllocated cur 1
    return cur + sizeofHeader
  else
    let start ← chunkStart prev
    if prev = 0 then
      modify fun m => m.setHeapFirst start
    appendChunk im start prev len
    return start + sizeofHeader

def kfree (im : Image) (p : Word) : Kernel Unit := do
  let header := p - sizeofHeader
  setAllocated header 0
  glueChunk im header

end SimpleKernel
