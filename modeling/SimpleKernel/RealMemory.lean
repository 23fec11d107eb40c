import SimpleKernel.FrameStack
import SimpleKernel.MemoryMap

/-!
# Frames and available memory

`init_pmm` looks at the low halves of bases and lengths and at the first byte of each frame only.  So
a region from 4 GB on, or a last frame that the region cuts short, can put frames on the stack that
are no available memory; no other frame can.
-/

namespace SimpleKernel

open ByteStore ProgramLogic

namespace MmapEntry

variable (e : MmapEntry)

/-- `base_addr`, all 64 bits of it. -/
def baseAddr : ℕ := (e.word .baseAddrLow).toNat + 2 ^ 32 * (e.word .baseAddrHigh).toNat

def length : ℕ := (e.word .lengthLow).toNat + 2 ^ 32 * (e.word .lengthHigh).toNat

/-- The entry is available memory, and all of the frame `f` lies in it. -/
def Contains (f : Word) : Prop :=
  e.word .type = 1 ∧ e.baseAddr ≤ f.toNat ∧ f.toNat + 4096 ≤ e.baseAddr + e.length

/-- Available memory that begins at 1 MB, as far as the low half of the base can tell. -/
def Usable : Prop := e.word .type = 1 ∧ e.word .baseAddrLow = 0x100000

instance : Decidable e.Usable := inferInstanceAs (Decidable (_ ∧ _))

/-- Where the region ends, as far as the low halves can tell. -/
def regionEnd : Word := 0x100000 + e.word .lengthLow

/-- Where the last page ends that begins in the region and not above 512 MB. -/
def lastPageEnd : ℕ := (min e.regionEnd.toNat (pmmMaxSize.toNat + 1) + 4095) / 4096 * 4096

/-- The frames that the entry contributes. -/
def frames (kernEnd : Word) : List Word :=
  if e.Usable then regionFrames (frameAfter kernEnd) e.regionEnd else []

end MmapEntry

/-- Where the kernel image ends in physical memory. -/
def imageEnd (kernEnd : Word) : ℕ := 0x100000 + (kernEnd.toNat - kernStart.toNat)

/-- The frame `f` is available memory and no part of the kernel image. -/
structure RealMemory (kernEnd : Word) (es : List MmapEntry) (f : Word) : Prop where
  available : ∃ e ∈ es, e.Contains f
  apart : f.toNat + 4096 ≤ 0x100000 ∨ imageEnd kernEnd ≤ f.toNat

/-- If the entry is usable, then its region has no page behind the kernel, or it begins below 4 GB
and does not cut its last page short. -/
def RegionSound (kernEnd : Word) (e : MmapEntry) : Prop :=
  e.Usable → e.lastPageEnd ≤ imageEnd kernEnd ∨
    e.word .baseAddrHigh = 0 ∧ e.lastPageEnd ≤ 0x100000 + e.length

/-- No other available memory reaches into the pages of a usable entry behind the kernel. -/
def Uncontested (kernEnd : Word) (es : List MmapEntry) : Prop :=
  ∀ e ∈ es, e.Usable → ∀ e' ∈ es, e'.word .type = 1 → e' ≠ e →
    e'.baseAddr + e'.length ≤ imageEnd kernEnd ∨ e.lastPageEnd ≤ e'.baseAddr

section Sound

variable {kernEnd f : Word} {m : Machine} {e : MmapEntry} {es : List MmapEntry}

theorem frameAfter_eq_imageEnd (above : kernStart.toNat ≤ kernEnd.toNat) :
    (frameAfter kernEnd).toNat = imageEnd kernEnd := by
  have start : kernStart.toNat = 0xC0100000 := rfl
  have first := frameAfter_toNat kernEnd (by omega)
  unfold imageEnd
  omega

theorem MmapEntry.mem_frames :
    f ∈ e.frames kernEnd ↔ e.Usable ∧ f ∈ regionFrames (frameAfter kernEnd) e.regionEnd := by
  unfold MmapEntry.frames
  split_ifs with usable
  · exact (and_iff_right usable).symm
  · exact iff_of_false List.not_mem_nil fun h => usable h.1

/-- The frames of the memory map come from its entries. -/
theorem DescribesMap.framesFrom_eq (map : DescribesMap m es)
    (sizes : ∀ e ∈ es, e.word .size = 20) :
    framesFrom kernEnd m = es.flatMap fun e => e.frames kernEnd := by
  rw [framesFrom, List.flatMap_def, List.flatMap_def]
  refine congrArg List.flatten (map.map_eq sizes fun b e words => ?_)
  refine if_congr ?_ ?_ rfl
  · rw [Usable, words, words, MmapEntry.Usable]
  · rw [regionEnd, words, MmapEntry.regionEnd]

/-- The frames of an entry are pages behind the kernel and end with its last page. -/
theorem MmapEntry.frames_between (above : kernStart.toNat ≤ kernEnd.toNat)
    (aligned : kernEnd.toNat % 4096 = 0) (hf : f ∈ e.frames kernEnd) :
    imageEnd kernEnd ≤ f.toNat ∧ f.toNat + 4096 ≤ e.lastPageEnd := by
  have limit : pmmMaxSize.toNat = 0x20000000 := rfl
  have start : kernStart.toNat = 0xC0100000 := rfl
  have first := frameAfter_eq_imageEnd above
  obtain ⟨-, region⟩ := mem_frames.1 hf
  obtain ⟨below, low, behind, step⟩ := mem_regionFrames.1 region
  have page : f.toNat % 4096 = 0 := by
    unfold imageEnd at first
    omega
  unfold MmapEntry.lastPageEnd
  omega

/-- The last page of a usable entry is one of its frames, if it lies behind the kernel. -/
theorem MmapEntry.exists_lastPage (above : kernStart.toNat ≤ kernEnd.toNat)
    (aligned : kernEnd.toNat % 4096 = 0) (usable : e.Usable)
    (behind : imageEnd kernEnd < e.lastPageEnd) :
    ∃ f ∈ e.frames kernEnd, f.toNat + 4096 = e.lastPageEnd := by
  have limit : pmmMaxSize.toNat = 0x20000000 := rfl
  have start : kernStart.toNat = 0xC0100000 := rfl
  have first := frameAfter_eq_imageEnd above
  have image : 0x100000 ≤ imageEnd kernEnd := Nat.le_add_right _ _
  have page : imageEnd kernEnd % 4096 = 0 := by
    unfold imageEnd
    omega
  have small : e.lastPageEnd ≤ 0x20001000 := by
    unfold MmapEntry.lastPageEnd
    omega
  have place : (BitVec.ofNat 32 (e.lastPageEnd - 4096)).toNat = e.lastPageEnd - 4096 := by
    rw [BitVec.toNat_ofNat, Nat.mod_eq_of_lt (by omega)]
  refine ⟨BitVec.ofNat 32 (e.lastPageEnd - 4096), mem_frames.2 ⟨usable, mem_regionFrames.2 ?_⟩, ?_⟩
  · rw [place, first]
    unfold MmapEntry.lastPageEnd at *
    omega
  · rw [place]
    omega

/-- A sound region contributes available memory only. -/
theorem RegionSound.contains (sound : RegionSound kernEnd e)
    (above : kernStart.toNat ≤ kernEnd.toNat) (aligned : kernEnd.toNat % 4096 = 0)
    (hf : f ∈ e.frames kernEnd) : e.Contains f := by
  obtain ⟨usable, -⟩ := MmapEntry.mem_frames.1 hf
  obtain ⟨behind, inside⟩ := MmapEntry.frames_between above aligned hf
  rcases sound usable with none | ⟨high, whole⟩
  · omega
  · have base : e.baseAddr = 0x100000 := by
      rw [MmapEntry.baseAddr, high, usable.2]
      rfl
    have image : 0x100000 ≤ imageEnd kernEnd := Nat.le_add_right _ _
    exact ⟨usable.1, by omega, by omega⟩

/-- An entry that contains its last page is sound. -/
theorem RegionSound.of_contains (last : f.toNat + 4096 = e.lastPageEnd) (contains : e.Contains f) :
    RegionSound kernEnd e := by
  intro usable
  obtain ⟨-, base, inside⟩ := contains
  have low : (e.word .baseAddrHigh).toNat = 0 := by
    have := f.isLt
    unfold MmapEntry.baseAddr at base
    omega
  have high : e.word .baseAddrHigh = 0 := BitVec.eq_of_toNat_eq low
  have start : e.baseAddr = 0x100000 := by
    rw [MmapEntry.baseAddr, high, usable.2]
    rfl
  exact .inr ⟨high, by omega⟩

/-- Sound regions have available memory only behind the kernel. -/
theorem realMemory_of_sound (sound : ∀ e ∈ es, RegionSound kernEnd e)
    (above : kernStart.toNat ≤ kernEnd.toNat) (aligned : kernEnd.toNat % 4096 = 0)
    (hf : f ∈ es.flatMap fun e => e.frames kernEnd) : RealMemory kernEnd es f := by
  obtain ⟨e, he, hf⟩ := List.mem_flatMap.1 hf
  exact ⟨⟨e, he, (sound e he).contains above aligned hf⟩,
    .inr (MmapEntry.frames_between above aligned hf).1⟩

/-- Without other available memory in its place an unsound region is no real memory. -/
theorem sound_of_realMemory (alone : Uncontested kernEnd es)
    (above : kernStart.toNat ≤ kernEnd.toNat) (aligned : kernEnd.toNat % 4096 = 0)
    (real : ∀ f ∈ es.flatMap fun e => e.frames kernEnd, RealMemory kernEnd es f) :
    ∀ e ∈ es, RegionSound kernEnd e := by
  intro e he usable
  by_cases none : e.lastPageEnd ≤ imageEnd kernEnd
  · exact .inl none
  · obtain ⟨f, hf, last⟩ := MmapEntry.exists_lastPage above aligned usable (not_le.1 none)
    have behind := (MmapEntry.frames_between above aligned hf).1
    obtain ⟨e', he', contains⟩ := (real f (List.mem_flatMap.2 ⟨e, he, hf⟩)).available
    by_cases self : e' = e
    · subst self
      exact RegionSound.of_contains last contains usable
    · obtain ⟨available, base, inside⟩ := contains
      rcases alone e he usable e' he' available self with before | after
      · omega
      · omega

end Sound

/-- If every region is sound, then all that `init_pmm` pushes is available memory, also in a run that
stops early; and where no other available memory lies in their place, only then. -/
theorem initPmm_realMemory (kernEnd : Word) (m : Machine) (es : List MmapEntry)
    (above : kernStart.toNat ≤ kernEnd.toNat) (aligned : kernEnd.toNat % 4096 = 0)
    (map : DescribesMap m es) (sizes : ∀ e ∈ es, e.word .size = 20) (empty : frames m = []) :
    ((∀ e ∈ es, RegionSound kernEnd e) →
      (∀ t, Returns (initPmmAt kernEnd) m () t → ∀ f ∈ frames t, RealMemory kernEnd es f) ∧
      ∀ s t, Stops (initPmmAt kernEnd) m s t → ∀ f ∈ frames t, RealMemory kernEnd es f) ∧
    (Uncontested kernEnd es → ∀ t, Returns (initPmmAt kernEnd) m () t →
      ((∀ f ∈ frames t, RealMemory kernEnd es f) ↔ ∀ e ∈ es, RegionSound kernEnd e)) := by
  have spec := initPmmAt_spec kernEnd m (by rw [empty]; exact Nat.zero_le _)
  rw [empty, List.nil_append, map.framesFrom_eq sizes] at spec
  have real (sound : ∀ e ∈ es, RegionSound kernEnd e) (f : Word)
      (hf : f ∈ es.flatMap fun e => e.frames kernEnd) : RealMemory kernEnd es f :=
    realMemory_of_sound sound above aligned hf
  refine ⟨fun sound => ⟨fun t run f hf => ?_, fun s t stop f hf => ?_⟩, fun alone t run => ?_⟩
  · obtain ⟨-, pushed⟩ := spec.returned run
    exact real sound f (pushed ▸ hf)
  · obtain ⟨-, part, -⟩ := spec.stopped stop
    exact real sound f (part.subset hf)
  · obtain ⟨-, pushed⟩ := spec.returned run
    rw [pushed]
    exact ⟨sound_of_realMemory alone above aligned, real⟩

/-! ## Concrete memory maps -/

/-- The entry of `bootInformation`. -/
def regionEntry (lengthLow : Word) : MmapEntry where
  word := fun f => match f with
    | .size => 20
    | .baseAddrLow => 0x100000
    | .lengthLow => lengthLow
    | .type => 1
    | _ => 0
  size_ge := le_rfl

section Concrete

variable {m : Machine} {lengthLow : Word}

theorem bootInformation_word (lengthLow : Word) (f : MmapField) :
    readWord (bootInformation lengthLow) (0x11000 + f.offset) = (regionEntry lengthLow).word f := by
  cases f with
  | baseAddrHigh | lengthHigh =>
    simp (disch := decide) only [bootInformation, readWord_writeWord_disjoint]
    exact readWord_zero (by decide) fun _ _ _ => rfl
  | _ => simp (disch := decide) only [bootInformation, readWord_writeWord_disjoint,
      readWord_writeWord_self, regionEntry]

theorem Booted.describesRegion (booted : Booted (bootInformation lengthLow) m) :
    DescribesMap m [regionEntry lengthLow] :=
  booted.describesMap (bootInformation_mmapAddr _)
    (congrArg BitVec.toNat (bootInformation_mmapLength lengthLow)) (bootInformation_word lengthLow)
    (show 20 + 4 < 0x200000 by decide)

/-- `init_pmm` of the small image returns with the frames of the region. -/
theorem Booted.scanned {mem : Store 32} (booted : Booted mem m)
    (region : SingleRegion mem lengthLow) :
    ∃ t, Returns (initPmmAt smallImage.kernEnd) m () t ∧
      frames t = regionFrames 0x200000 (0x100000 + lengthLow) := by
  have memory := booted.framesFrom_eq region smallImage.kernEnd
  have few := regionCount_le smallImage.kernEnd (0x100000 + lengthLow) (by decide)
  obtain ⟨t, run, -, pushed⟩ := initPmm_returns smallImage booted.temp booted.frames_eq_nil
    (booted.lookedAt_low region) (by rw [booted.examinedEntries_eq region]; decide) (by
      rw [memoryFrames, memory, regionFrames, List.length_map, List.length_range]
      exact few)
  exact ⟨t, run, pushed.trans memory⟩

end Concrete

/-- With memory up to 128 MB and 2 KB the frame at 128 MB is pushed, of which only 2 KB exist. -/
theorem frame_cut_short_at_128M : ∃ m t, Booted (bootInformation 0x7F00800) m ∧
    DescribesMap m [regionEntry 0x7F00800] ∧
    Returns (initPmmAt smallImage.kernEnd) m () t ∧ 0x8000000 ∈ frames t ∧
    ¬ RealMemory smallImage.kernEnd [regionEntry 0x7F00800] 0x8000000 := by
  obtain ⟨m, booted⟩ := exists_booted (bootInformation 0x7F00800)
  obtain ⟨t, run, pushed⟩ := booted.scanned (bootInformation_singleRegion _)
  refine ⟨m, t, booted, booted.describesRegion, run, ?_, fun real => ?_⟩
  · rw [pushed]
    exact mem_regionFrames.2 (by decide)
  · obtain ⟨e, he, -, -, short⟩ := real.available
    rw [List.mem_singleton.1 he] at short
    exact absurd short (by decide)

theorem initPmm_realMemory_128M : ∃ m t, Booted (bootInformation 0x7F00000) m ∧
    DescribesMap m [regionEntry 0x7F00000] ∧
    Returns (initPmmAt smallImage.kernEnd) m () t ∧
    ∀ f ∈ frames t, RealMemory smallImage.kernEnd [regionEntry 0x7F00000] f := by
  obtain ⟨m, booted⟩ := exists_booted (bootInformation 0x7F00000)
  obtain ⟨t, run, -⟩ := booted.scanned (bootInformation_singleRegion _)
  have sizes : ∀ e ∈ [regionEntry 0x7F00000], e.word .size = 20 := fun e he => by
    rw [List.mem_singleton.1 he]
    rfl
  have sound : ∀ e ∈ [regionEntry 0x7F00000], RegionSound smallImage.kernEnd e := fun e he _ => by
    rw [List.mem_singleton.1 he]
    exact .inr ⟨rfl, by decide⟩
  exact ⟨m, t, booted, booted.describesRegion, run, ((initPmm_realMemory smallImage.kernEnd m _
    (by decide) (by decide) booted.describesRegion sizes booted.frames_eq_nil).1 sound).1 t run⟩

end SimpleKernel
