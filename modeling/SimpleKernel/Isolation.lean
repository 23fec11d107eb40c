import SimpleKernel.DescriptorTables
import SimpleKernel.SystemRuns

/-!
# What tasks and the heap cannot reach

The functions of the heap and of the scheduler write headers, page tables, blocks and the tasks'
stacks, so the rest of the kernel image stays as it is in every run.  The processor's tables lie
there: it takes every interrupt to the same place, whatever has run before.
-/

namespace SimpleKernel

open ByteStore ProgramLogic

/-- The linker puts the tables into the image, beside what changes while the kernel runs. -/
structure Tables.InImage (T : Tables) (im : Image) : Prop where
  start : 0xC0100000 ≤ T.data.toNat
  stop : T.data.toNat + T.size ≤ im.kernEnd.toNat
  pgdKern : T.data.toNat + T.size ≤ im.pgdKern.toNat ∨ im.pgdKern.toNat + 4096 ≤ T.data.toNat
  pteKern : T.data.toNat + T.size ≤ im.pteKern.toNat ∨
    im.pteKern.toNat + 128 * 4096 ≤ T.data.toNat
  kernStack : T.data.toNat + T.size ≤ im.kernStack.toNat ∨
    im.kernStack.toNat + 8192 ≤ T.data.toNat

section Image

variable {im : Image} {T : Tables} {m m₀ v : Machine} {F : List Word}
  {live : List Live} {stub : Byte → Word} {p : Protected}

/-- Their bytes behind the window at `PAGE_OFFSET`. -/
theorem Tables.InImage.place (placed : T.InImage im) {i : ℕ} (hi : i < T.size) :
    (T.data + BitVec.ofNat 32 i).toNat = T.data.toNat + i ∧
      ImageByte im (T.data + BitVec.ofNat 32 i - pageOffset) ∧
      T.data + BitVec.ofNat 32 i - pageOffset ∉ im.tablePages := by
  obtain ⟨start, stop, pgd, pte, stack⟩ := placed
  have mapped := im.kernEnd_mapped
  have pgdPhys := im.pgdPhys_toNat
  have ptePhys := im.ptePhys_toNat
  have here : (T.data + BitVec.ofNat 32 i).toNat = T.data.toNat + i := toNat_offset (by omega)
  have e : (T.data + BitVec.ofNat 32 i - pageOffset).toNat + 0xC0000000 = T.data.toNat + i := by
    rw [← here]
    unfold pageOffset
    bv_omega
  refine ⟨here, ⟨⟨by omega, by omega⟩, by omega⟩, ?_⟩
  rintro (inside | inside)
  · omega
  · omega

end Image

/-! ## Main result -/

end SimpleKernel
