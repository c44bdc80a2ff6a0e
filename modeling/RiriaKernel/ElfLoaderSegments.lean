import RiriaKernel.ElfLoaderSteps

/-!
# Loading one segment

A `PT_LOAD` header whose addresses stay in the lower half and whose file part is not
larger than its memory part is loaded into frames of its own.
-/

namespace RiriaKernel.ElfLoaderSegments

open ByteMemory HaltingPrograms KernelState PhysicalAllocator PageTables
open PageTableForests Pagemaps ElfLoader ElfLoaderSteps

structure Phdr where
  type : Nat
  flags : Nat
  offset : Nat
  vaddr : Nat
  filesz : Nat
  memsz : Nat
  deriving DecidableEq, Repr

def phdrAt (image : Image) (phStart : Nat) : Phdr where
  type := imageWord image phStart 4
  flags := imageWord image (phStart + 4) 4
  offset := imageWord image (phStart + 8) 8
  vaddr := imageWord image (phStart + 16) 8
  filesz := imageWord image (phStart + 32) 8
  memsz := imageWord image (phStart + 40) 8

namespace Phdr

def first (phdr : Phdr) : Nat := phdr.vaddr / pageSize

def count (phdr : Phdr) : Nat :=
  (phdr.vaddr + phdr.memsz + (pageSize - 1)) / pageSize - phdr.vaddr / pageSize

structure Contained (phdr : Phdr) : Prop where
  fileBounds : phdr.offset + phdr.filesz < 2 ^ 64
  fileInMemory : phdr.filesz ≤ phdr.memsz
  lowerHalf : phdr.vaddr + phdr.memsz ≤ 2 ^ 47

/-- What the loader asserts about a segment before it copies. -/
structure Accepted (phdr : Phdr) (elfData file : Nat) : Prop where
  someFile : 0 < phdr.filesz
  inFile : phdr.offset + phdr.filesz ≤ file
  sum : SumFits elfData phdr.offset
  source : add64 elfData phdr.offset ≠ 0
  notFirstPage : pageSize ≤ phdr.vaddr

theorem Accepted.vaddr_ne_zero {phdr : Phdr} {elfData file : Nat}
    (accepted : phdr.Accepted elfData file) : phdr.vaddr ≠ 0 := by
  have high := accepted.notFirstPage
  unfold pageSize at high
  omega

def content (phdr : Phdr) (image : Image) (index : Nat) : UInt8 :=
  if index < phdr.filesz then imageByte image (phdr.offset + index) else 0

theorem Contained.pages {phdr : Phdr} (contained : phdr.Contained) :
    pageFloor phdr.vaddr = phdr.first * pageSize ∧ add64 phdr.vaddr phdr.memsz = phdr.vaddr + phdr.memsz ∧
      pageCeil (phdr.vaddr + phdr.memsz) = (phdr.first + phdr.count) * pageSize ∧
      phdr.first + phdr.count ≤ 2 ^ 35 := by
  have lower := contained.lowerHalf
  unfold pageFloor pageCeil add64 first count pageFloor pageSize
  omega

theorem Contained.range {phdr : Phdr} (contained : phdr.Contained) :
    Range phdr.first phdr.count phdr.vaddr phdr.memsz := by
  have lower := contained.lowerHalf
  constructor
  · exact Nat.div_mul_le_self _ _
  · unfold first count pageSize
    omega

end Phdr

theorem segment_flags_small (flags : Nat) : segmentFlags flags < 2 ^ 64 := by
  unfold segmentFlags
  simp only
  split <;> split <;> decide

/-! ## Filling the pages -/

theorem filled_append {frameOf : Nat → Nat} {virt left right : Nat} {source rest : Nat → UInt8}
    {before middle after : Memory} (first : Filled frameOf virt left source before middle)
    (second : Filled frameOf (virt + left) right rest middle after)
    (apart : ∀ index, index < left → ∀ later, later < right →
      place frameOf (virt + index) ≠ place frameOf (virt + left + later)) :
    Filled frameOf virt (left + right)
      (fun index => if index < left then source index else rest (index - left)) before after := by
  constructor
  · intro index inside
    by_cases early : index < left
    · rw [if_pos early, second.outside _ fun later small => apart index early later small]
      exact first.inside index early
    · have split : virt + index = virt + left + (index - left) := by omega
      rw [if_neg early, split]
      exact second.inside (index - left) (by omega)
  · intro address outside
    rw [second.outside, first.outside]
    · exact fun index inside => outside index (by omega)
    · intro later inside
      rw [Nat.add_assoc]
      exact outside (left + later) (by omega)

section Segment

variable {roots held : Set Nat} {root elfData file phStart : Nat} {image : Image} {phdr : Phdr}
  {frameOf : Nat → Nat} {machine : Machine}

theorem ends_copy_and_clear (contained : phdr.Contained)
    (tables : Tables roots held machine.pmm machine.phys) (isRoot : root ∈ roots)
    (backed : Backed held machine.phys root frameOf phdr.first phdr.count)
    (unlocked : machine.locked .vmm = false) {stopped : Stop → Machine → Prop} :
    Ends (do
        vmmMapCopy root phdr.vaddr image phdr.offset phdr.filesz
        if phdr.memsz > phdr.filesz then
          vmmMapZero root (add64 phdr.vaddr phdr.filesz) (sub64 phdr.memsz phdr.filesz)
        else pure ⟨⟩)
      (fun _ after => FillState frameOf phdr.vaddr phdr.memsz (phdr.content image) machine after)
      stopped machine := by
  have smaller := contained.fileInMemory
  have lower := contained.lowerHalf
  have range := contained.range
  have fileRange : Range phdr.first phdr.count phdr.vaddr phdr.filesz :=
    ⟨range.above, (Nat.add_le_add_left smaller _).trans range.below⟩
  rw [ends_bind]
  apply ends_mono (ends_vmmMapCopy tables isRoot backed fileRange unlocked) _
    fun _ _ => False.elim
  intro _ copied state
  rw [ends_ite]
  by_cases more : phdr.memsz > phdr.filesz
  · have kept := filled_kept tables backed fileRange (Nat.le_refl _) state.filled
    have samePmm : copied.pmm = machine.pmm := by rw [state.same]
    have sameLocks : copied.locked = machine.locked := by rw [state.same]
    have copiedTables : Tables roots held copied.pmm copied.phys := by
      rw [samePmm]
      exact tables.rewritten kept
    have clearRange : Range phdr.first phdr.count (phdr.vaddr + phdr.filesz)
        (phdr.memsz - phdr.filesz) :=
      ⟨range.above.trans (Nat.le_add_right _ _), by have below := range.below; omega⟩
    have virt : add64 phdr.vaddr phdr.filesz = phdr.vaddr + phdr.filesz :=
      Nat.mod_eq_of_lt (by omega)
    have rest : sub64 phdr.memsz phdr.filesz = phdr.memsz - phdr.filesz := by
      unfold sub64
      omega
    have clears : Ends (vmmMapZero root (phdr.vaddr + phdr.filesz) (phdr.memsz - phdr.filesz))
        (fun _ after => FillState frameOf (phdr.vaddr + phdr.filesz) (phdr.memsz - phdr.filesz)
          (fun _ => 0) copied after) (fun _ _ => False) copied :=
      ends_vmmMapZero copiedTables isRoot (backed.kept tables isRoot kept) clearRange
        (by rw [sameLocks]; exact unlocked)
    rw [if_pos more, virt, rest]
    apply ends_mono clears _ fun _ _ => False.elim
    intro _ after cleared
    refine ⟨?_, ?_⟩
    · rw [cleared.same, state.same]
    · have joined := filled_append state.filled cleared.filled (by
        intro index early later small same
        have left := range.page (show index < phdr.memsz by omega)
        have right := clearRange.page small
        have equal := backed.place_injective (fun address member =>
          (tables.heldFrames address member).aligned) left.1 left.2 right.1 right.2 same
        omega)
      rwa [Nat.add_sub_of_le smaller] at joined
  · have equal : phdr.filesz = phdr.memsz := by omega
    rw [if_neg more, ends_pure]
    refine ⟨state.same, ?_, ?_⟩
    · intro index inside
      rw [← equal] at inside
      rw [Phdr.content, if_pos inside]
      exact state.filled.inside index inside
    · rw [← equal]
      exact state.filled.outside

theorem ends_fillSegment (header : phdrAt image phStart = phdr) (contained : phdr.Contained)
    (accepted : phdr.Accepted elfData file) (tables : Tables roots held machine.pmm machine.phys)
    (isRoot : root ∈ roots) (backed : Backed held machine.phys root frameOf phdr.first phdr.count)
    (unlocked : machine.locked .vmm = false) {stopped : Stop → Machine → Prop} :
    Ends (fillSegment root elfData image file phStart phdr.vaddr phdr.memsz)
      (fun _ after => FillState frameOf phdr.vaddr phdr.memsz (phdr.content image) machine after)
      stopped machine := by
  have total : add64 phdr.offset phdr.filesz = phdr.offset + phdr.filesz :=
    Nat.mod_eq_of_lt contained.fileBounds
  have inFile : ¬phdr.offset + phdr.filesz > file := Nat.not_lt.mpr accepted.inFile
  have offsetField : imageWord image (phStart + 8) 8 = phdr.offset := by rw [← header, phdrAt]
  have fileszField : imageWord image (phStart + 32) 8 = phdr.filesz := by rw [← header, phdrAt]
  unfold fillSegment
  dsimp only
  rw [offsetField, fileszField, total, ends_bind, ends_require, if_pos inFile, ends_bind,
    ends_require, if_pos accepted.sum, ends_bind, ends_assertThat, if_pos accepted.source, ends_bind,
    ends_assertThat, if_pos accepted.vaddr_ne_zero, ends_bind, ends_assertThat,
    if_pos accepted.someFile]
  exact ends_copy_and_clear contained tables isRoot backed unlocked

structure SegmentLoaded (roots held : Set Nat) (root : Nat) (phdr : Phdr) (image : Image)
    (frameOf : Nat → Nat) (before after : Machine) : Prop where
  tables : Tables roots (held ∪ framesOf frameOf phdr.first phdr.count) after.pmm after.phys
  bytes : ∀ address, pageFloor address ∈ held → after.phys address = before.phys address
  fresh : ∀ page, phdr.first ≤ page → page < phdr.first + phdr.count → frameOf page ∉ held
  distinct : ∀ left right, phdr.first ≤ left → left < phdr.first + phdr.count →
    phdr.first ≤ right → right < phdr.first + phdr.count → frameOf left = frameOf right →
      left = right
  contents : ∀ index, index < phdr.memsz →
    after.phys (place frameOf (phdr.vaddr + index)) = phdr.content image index
  leaf : ∀ other, other ∈ roots → ∀ page, page < 512 ^ 4 → leafWord after.phys other page =
    if other = root ∧ phdr.first ≤ page ∧ page < phdr.first + phdr.count then
      frameOf page ||| segmentFlags phdr.flags ||| ptePresent
    else leafWord before.phys other page
  budget : (freeSet before.pmm).card ≤ (freeSet after.pmm).card + 4 * phdr.count
  beside : Beside before after

theorem segment_flags_disjoint (flags : Nat) : segmentFlags flags &&& pteAddrMask = 0 := by
  unfold segmentFlags
  simp only
  split <;> split <;> decide

theorem decode_segment_word {frame : Nat} (flags : Nat) (aligned : frame % pageSize = 0)
    (small : frame < 2 ^ 52) :
    decode (frame ||| segmentFlags flags ||| ptePresent) = some frame :=
  decode_mapped aligned small (segment_flags_disjoint flags)

theorem frame_small {pmm : Pmm} {frame : Nat} (taken : Frame pmm frame)
    (physical : pmm.highestPage < 2 ^ 40) : frame < 2 ^ 52 := by
  have tracked := taken.tracked
  unfold pageSize at tracked
  omega

variable {start : Machine}

theorem SegmentMapped.backed {first count flags : Nat} (isRoot : root ∈ roots)
    (lower : first + count ≤ 2 ^ 35)
    (mapped : SegmentMapped roots held root (segmentFlags flags) first count frameOf start machine) :
    Backed (held ∪ framesOf frameOf first count) machine.phys root frameOf first count where
  decoded := by
    intro page above below
    have frame := mapped.tables.heldFrames (frameOf page)
      (Set.mem_union_right _ ⟨page, above, below, rfl⟩)
    rw [mapped.leaf root isRoot page (by omega), if_pos ⟨rfl, above, below⟩]
    exact decode_segment_word flags frame.aligned (frame_small frame mapped.tables.physical)
  owned := fun page above below => Set.mem_union_right _ ⟨page, above, below, rfl⟩
  distinct := mapped.distinct
  lower := lower

theorem segment_loaded (isRoot : root ∈ roots) (contained : phdr.Contained)
    (mapped : SegmentMapped roots held root (segmentFlags phdr.flags) phdr.first phdr.count frameOf
      start machine) {after : Machine}
    (state : FillState frameOf phdr.vaddr phdr.memsz (phdr.content image) machine after) :
    SegmentLoaded roots held root phdr image frameOf start after := by
  have lower := contained.pages.2.2.2
  have backed := SegmentMapped.backed isRoot lower mapped
  have kept := filled_kept mapped.tables backed contained.range (Nat.le_refl _) state.filled
  have samePmm : after.pmm = machine.pmm := by rw [state.same]
  have filledBeside : Beside machine after := by
    rw [state.same]
    exact ⟨rfl, rfl, rfl, rfl, rfl⟩
  refine ⟨?_, ?_, mapped.fresh, mapped.distinct, state.filled.inside, ?_, ?_,
    mapped.beside.trans filledBeside⟩
  · rw [samePmm]
    exact mapped.tables.rewritten kept
  · intro address owned
    rw [state.filled.outside address, mapped.bytes address owned]
    intro index inside same
    obtain ⟨above, below⟩ := contained.range.page inside
    have frame := mapped.tables.heldFrames _ (backed.owned _ above below)
    rw [same, place_floor frame.aligned] at owned
    exact mapped.fresh _ above below owned
  · intro other otherRoot page bounded
    rw [mapped.tables.leaf_kept kept otherRoot bounded]
    exact mapped.leaf other otherRoot page bounded
  · rw [samePmm]
    exact mapped.budget

theorem Phdr.Accepted.nonempty (accepted : phdr.Accepted elfData file) (contained : phdr.Contained) :
    phdr.first * pageSize < (phdr.first + phdr.count) * pageSize ∧ phdr.first * pageSize ≠ 0 := by
  have some := accepted.someFile
  have high := accepted.notFirstPage
  have smaller := contained.fileInMemory
  unfold Phdr.first Phdr.count pageSize at *
  omega

theorem ends_loadSegment (header : phdrAt image phStart = phdr) (contained : phdr.Contained)
    (accepted : phdr.Accepted elfData file) (tables : Tables roots held machine.pmm machine.phys)
    (isRoot : root ∈ roots) (unlockedPmm : machine.locked .pmm = false)
    (unlockedVmm : machine.locked .vmm = false) :
    Ends (loadSegment root elfData image file phStart)
      (fun bounds after => bounds = (phdr.vaddr, phdr.vaddr + phdr.memsz) ∧ ∃ frameOf,
        SegmentLoaded roots held root phdr image frameOf machine after)
      (fun _ _ => Interrupted root phdr.first phdr.count machine) machine := by
  obtain ⟨floor, total, ceil, lower⟩ := contained.pages
  obtain ⟨some, high⟩ := accepted.nonempty contained
  have flagsField : imageWord image (phStart + 4) 4 = phdr.flags := by rw [← header, phdrAt]
  have vaddrField : imageWord image (phStart + 16) 8 = phdr.vaddr := by rw [← header, phdrAt]
  have memszField : imageWord image (phStart + 40) 8 = phdr.memsz := by rw [← header, phdrAt]
  unfold loadSegment
  dsimp only
  rw [flagsField, vaddrField, memszField, floor, total, ceil]
  simp only [ends_bind, ends_assertThat, Nat.mul_mod_left, if_true]
  rw [if_pos some, if_pos some, if_pos high]
  have none : SegmentMapped roots held root (segmentFlags phdr.flags) phdr.first 0 (fun _ => 0) machine
      machine := segment_mapped_none _ tables
  have fuel : phdr.count < 0 + pageLoopBound := by
    unfold pageLoopBound
    omega
  have loop := ends_mapSegment isRoot unlockedPmm unlockedVmm (segment_flags_small phdr.flags) lower
    pageLoopBound 0 (Nat.zero_le _) fuel none
  rw [show phdr.first + 0 = phdr.first from rfl] at loop
  apply ends_mono loop _ fun _ _ => id
  rintro _ mappedMachine ⟨frameOf, mapped⟩
  rw [ends_bind]
  apply ends_mono (ends_fillSegment header contained accepted mapped.tables isRoot
    (SegmentMapped.backed isRoot lower mapped) (mapped.beside.locked ▸ unlockedVmm)) _ fun _ _ => id
  intro _ after state
  rw [ends_pure]
  exact ⟨rfl, frameOf, segment_loaded isRoot contained mapped state⟩

end Segment

end RiriaKernel.ElfLoaderSegments
