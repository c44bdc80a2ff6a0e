import Mathlib.Order.Bounds.Basic
import RiriaKernel.ElfLoaderImages

/-!
# ELF images

What `elf64_load` makes of a file. A well-formed file is loaded as it describes itself. A
file whose program headers neither wrap around nor leave the lower half does no harm,
loaded or refused; a header that wraps around is read outside the file.
-/

namespace RiriaKernel.ElfImages

open HaltingPrograms KernelState PhysicalAllocator PageTables
open PageTableForests PageTableOperations KernelHeapTables ElfLoader
open ElfLoaderSteps ElfLoaderSegments ElfLoaderImages

/-! ## Bounds of an image -/

theorem is_least_foldl_min {α : Type} [LinearOrder α] (values : List α) (first : α) :
    IsLeast {value | value = first ∨ value ∈ values} (values.foldl min first) := by
  induction values generalizing first with
  | nil => exact ⟨Or.inl rfl, fun value member => (member.resolve_right List.not_mem_nil).ge⟩
  | cons head values induction =>
    obtain ⟨reached, least⟩ := induction (min first head)
    rw [List.foldl_cons]
    constructor
    · rcases reached with same | member
      · rcases min_choice first head with left | right
        · exact Or.inl (same.trans left)
        · exact Or.inr (List.mem_cons.mpr (Or.inl (same.trans right)))
      · exact Or.inr (List.mem_cons_of_mem _ member)
    · have low := least (Or.inl rfl)
      rintro value (rfl | member)
      · exact low.trans (min_le_left _ _)
      · rcases List.mem_cons.mp member with rfl | later
        · exact low.trans (min_le_right _ _)
        · exact least (Or.inr later)

theorem is_greatest_foldl_max {α : Type} [LinearOrder α] (values : List α) (first : α) :
    IsGreatest {value | value = first ∨ value ∈ values} (values.foldl max first) :=
  is_least_foldl_min (α := αᵒᵈ) values first

theorem bounds_of_base (parts : List Phdr) (bounds : Bounds) :
    (boundsOf parts bounds).base = (parts.map Phdr.vaddr).foldl min bounds.base := by
  induction parts generalizing bounds with
  | nil => rfl
  | cons phdr parts induction =>
    have smaller : (bounds.extend phdr.vaddr (phdr.vaddr + phdr.memsz)).base =
        min bounds.base phdr.vaddr := by
      unfold Bounds.extend
      simp only
      split <;> omega
    rw [boundsOf, List.foldl_cons, ← boundsOf, induction, smaller, List.map_cons, List.foldl_cons]

theorem bounds_of_stop (parts : List Phdr) (bounds : Bounds) :
    (boundsOf parts bounds).stop =
      (parts.map fun phdr => phdr.vaddr + phdr.memsz).foldl max bounds.stop := by
  induction parts generalizing bounds with
  | nil => rfl
  | cons phdr parts induction =>
    have larger : (bounds.extend phdr.vaddr (phdr.vaddr + phdr.memsz)).stop =
        max bounds.stop (phdr.vaddr + phdr.memsz) := by
      unfold Bounds.extend
      simp only
      split <;> omega
    rw [boundsOf, List.foldl_cons, ← boundsOf, induction, larger, List.map_cons, List.foldl_cons]

/-! ## Well-formed images -/

structure HeaderValid (image : Image) (len : Nat) : Prop where
  header : headerBytes ≤ len
  magic : image 0 = 0x7F ∧ image 1 = 0x45 ∧ image 2 = 0x4C ∧ image 3 = 0x46
  elf64 : image 4 = 2
  amd64 : imageWord image 18 2 = 0x3E
  phentsize : imageWord image 54 2 = phdrBytes

/-- A file whose segments lie in the file and in the lower half, on pages of their own. -/
structure WellFormed (image : Image) (len : Nat) : Prop extends HeaderValid image len where
  table : imageWord image 32 8 + imageWord image 56 2 * phdrBytes ≤ len
  nonempty : segments image ≠ []
  someFile : ∀ phdr ∈ segments image, 0 < phdr.filesz
  fileInMemory : ∀ phdr ∈ segments image, phdr.filesz ≤ phdr.memsz
  inFile : ∀ phdr ∈ segments image, phdr.offset + phdr.filesz ≤ len
  notFirstPage : ∀ phdr ∈ segments image, pageSize ≤ phdr.vaddr
  lowerHalf : ∀ phdr ∈ segments image, phdr.vaddr + phdr.memsz ≤ 2 ^ 47
  apart : (segments image).Pairwise Apart

/-- A file in a buffer, with its program headers where the compiler may expect a structure. -/
structure Placed (image : Image) (elfData len : Nat) : Prop where
  pointer : StructPointer elfData
  fits : elfData + len ≤ 2 ^ 64
  size : len ≤ 2 ^ 63
  table : imageWord image 32 8 % 8 = 0

theorem Placed.small {image : Image} {elfData len : Nat} (placed : Placed image elfData len) :
    len < 2 ^ 64 :=
  Nat.lt_of_le_of_lt placed.size (by decide)

section Loading

variable {roots held : Set Nat} {root elfData len : Nat} {image : Image} {machine : Machine}

theorem WellFormed.contained (wellFormed : WellFormed image len) (small : len < 2 ^ 64) {phdr : Phdr}
    (member : phdr ∈ segments image) : phdr.Contained :=
  ⟨Nat.lt_of_le_of_lt (wellFormed.inFile phdr member) small, wellFormed.fileInMemory phdr member,
    wellFormed.lowerHalf phdr member⟩

theorem WellFormed.accepted (wellFormed : WellFormed image len) (placed : Placed image elfData len)
    {phdr : Phdr} (member : phdr ∈ segments image) : phdr.Contained ∧ phdr.Accepted elfData len := by
  have inFile := wellFormed.inFile phdr member
  have some := wellFormed.someFile phdr member
  have fits := placed.fits
  have size := placed.size
  refine ⟨wellFormed.contained placed.small member, some, inFile, ?_, ?_,
    wellFormed.notFirstPage phdr member⟩
  · rw [SumFits, if_pos (by omega)]
    omega
  · have nonzero := placed.pointer.1
    unfold add64
    omega

theorem ends_elf64Load {returned : ElfInfo → Machine → Prop} {stopped : Stop → Machine → Prop}
    (refused : ¬(StructPointer elfData ∧ HeaderValid image len) →
      ∀ message, stopped (.panic message) machine)
    (loop : HeaderValid image len → Ends (loadHeaders root elfData image len (imageWord image 32 8)
        (imageWord image 56 2) 0 { base := 2 ^ 64 - 1, stop := 0 })
      (fun bounds after => returned
        ⟨imageWord image 24 8, sub64 bounds.stop bounds.base, bounds.base⟩ after) stopped machine) :
    Ends (elf64Load root elfData image len) returned stopped machine := by
  simp only [elf64Load, ends_bind, ends_require]
  by_cases short : len < headerBytes
  · rw [if_neg fun enough => enough short]
    exact refused (fun valid => Nat.not_lt.mpr valid.2.header short) _
  rw [if_pos short]
  by_cases pointer : ¬StructPointer elfData
  · rw [if_neg pointer]
    exact refused (fun valid => pointer valid.1) _
  rw [if_pos (not_not.mp pointer)]
  by_cases magic : image 0 ≠ 0x7F ∨ image 1 ≠ 0x45 ∨ image 2 ≠ 0x4C ∨ image 3 ≠ 0x46
  · rw [if_neg fun right => right magic]
    refine refused (fun valid => ?_) _
    obtain ⟨first, second, third, fourth⟩ := valid.2.magic
    rcases magic with wrong | wrong | wrong | wrong
    · exact wrong first
    · exact wrong second
    · exact wrong third
    · exact wrong fourth
  rw [if_pos magic]
  by_cases elf64 : image 4 ≠ 2
  · rw [if_neg fun right => right elf64]
    exact refused (fun valid => elf64 valid.2.elf64) _
  rw [if_pos elf64]
  by_cases amd64 : imageWord image 18 2 ≠ 0x3E
  · rw [if_neg fun right => right amd64]
    exact refused (fun valid => amd64 valid.2.amd64) _
  rw [if_pos amd64]
  by_cases phentsize : imageWord image 54 2 ≠ phdrBytes
  · rw [if_neg fun right => right phentsize]
    exact refused (fun valid => phentsize valid.2.phentsize) _
  rw [if_pos phentsize]
  simp only [not_or, not_not] at magic elf64 amd64 phentsize
  apply ends_mono (loop ⟨Nat.le_of_not_lt short, magic, elf64, amd64, phentsize⟩) _
    fun _ _ => id
  intro bounds after held
  rw [ends_pure]
  exact held

theorem WellFormed.header_in_file (wellFormed : WellFormed image len) (small : len < 2 ^ 64)
    {position : Nat} (below : position < imageWord image 56 2) :
    headerStart (imageWord image 32 8) position = imageWord image 32 8 + position * phdrBytes ∧
      headerStart (imageWord image 32 8) position + phdrBytes ≤ len := by
  have table := wellFormed.table
  have last : (position + 1) * phdrBytes ≤ imageWord image 56 2 * phdrBytes :=
    Nat.mul_le_mul_right _ (by omega)
  rw [Nat.add_mul, Nat.one_mul] at last
  have whole : headerStart (imageWord image 32 8) position =
      imageWord image 32 8 + position * phdrBytes :=
    Nat.mod_eq_of_lt (by unfold phdrBytes at *; omega)
  exact ⟨whole, by omega⟩

theorem WellFormed.readable (wellFormed : WellFormed image len) (placed : Placed image elfData len)
    {position : Nat} (below : position < imageWord image 56 2) :
    Readable elfData (headerStart (imageWord image 32 8) position) := by
  obtain ⟨⟨nonzero, aligned⟩, fits, size, table⟩ := placed
  obtain ⟨start, inFile⟩ := wellFormed.header_in_file (by omega) below
  rw [start, phdrBytes] at *
  constructor
  · rw [SumFits, if_pos (by omega)]
    omega
  · unfold StructPointer add64
    omega

theorem WellFormed.loadable (wellFormed : WellFormed image len) (placed : Placed image elfData len)
    (enough : 4 * pageTotal (segments image) ≤ (freeSet machine.pmm).card) :
    Loadable image elfData len (imageWord image 32 8) (imageWord image 56 2) 0 [] machine where
  inFile := fun _ _ below =>
    ⟨(wellFormed.header_in_file placed.small (by omega)).2, wellFormed.readable placed (by omega)⟩
  accepted := fun _ member => wellFormed.accepted placed member
  apart := wellFormed.apart
  enough := enough

theorem WellFormed.bounds (wellFormed : WellFormed image len) :
    IsLeast {address | ∃ phdr ∈ segments image, phdr.vaddr = address}
        (boundsOf (segments image) { base := 2 ^ 64 - 1, stop := 0 }).base ∧
      IsGreatest {address | ∃ phdr ∈ segments image, phdr.vaddr + phdr.memsz = address}
        (boundsOf (segments image) { base := 2 ^ 64 - 1, stop := 0 }).stop := by
  obtain ⟨phdr, member⟩ := List.exists_mem_of_ne_nil _ wellFormed.nonempty
  have high := wellFormed.notFirstPage phdr member
  have low := wellFormed.lowerHalf phdr member
  obtain ⟨baseReached, baseLeast⟩ :=
    is_least_foldl_min ((segments image).map Phdr.vaddr) (2 ^ 64 - 1)
  obtain ⟨stopReached, stopGreatest⟩ :=
    is_greatest_foldl_max ((segments image).map fun phdr => phdr.vaddr + phdr.memsz) 0
  rw [bounds_of_base, bounds_of_stop]
  have base := baseLeast (Or.inr (List.mem_map_of_mem member))
  have stop := stopGreatest (Or.inr (List.mem_map_of_mem member))
  unfold pageSize at high
  constructor
  · constructor
    · exact List.mem_map.mp (baseReached.resolve_left (by omega))
    · rintro address ⟨other, otherMember, rfl⟩
      exact baseLeast (Or.inr (List.mem_map_of_mem otherMember))
  · constructor
    · exact List.mem_map.mp (stopReached.resolve_left (by omega))
    · rintro address ⟨other, otherMember, rfl⟩
      exact stopGreatest (Or.inr (List.mem_map.mpr ⟨other, otherMember, rfl⟩))

/-! ## The image in memory -/

theorem frame_and_flag {frame bit : Nat} (aligned : frame % pageSize = 0) (small : frame < 2 ^ 52)
    (outside : pteAddrMask &&& bit = 0) : frame &&& bit = 0 := by
  have whole := pte_get_addr_or aligned small (Nat.zero_and pteAddrMask)
  rw [Nat.or_zero, pteGetAddr] at whole
  rw [← whole, Nat.and_assoc, outside, Nat.and_zero]

structure Rights (phdrFlags word : Nat) : Prop where
  present : word &&& ptePresent ≠ 0
  user : word &&& pteUser ≠ 0
  writable : word &&& pteWritable ≠ 0 ↔ phdrFlags &&& pfW ≠ 0
  noExecute : word &&& pteNx ≠ 0 ↔ phdrFlags &&& pfX = 0

theorem segment_word_rights {frame : Nat} (flags : Nat) (aligned : frame % pageSize = 0)
    (small : frame < 2 ^ 52) : Rights flags (frame ||| segmentFlags flags ||| ptePresent) := by
  have clear : ∀ bit, pteAddrMask &&& bit = 0 → (frame ||| segmentFlags flags ||| ptePresent) &&& bit =
      (segmentFlags flags ||| ptePresent) &&& bit := by
    intro bit outside
    rw [Nat.or_assoc, Nat.and_or_distrib_right, frame_and_flag aligned small outside, Nat.zero_or]
  constructor <;> rw [clear _ (by decide)] <;> by_cases write : flags &&& pfW = 0 <;>
    by_cases execute : flags &&& pfX = 0 <;>
    simp only [segmentFlags, ne_eq, write, execute, eq_self, not_true_eq_false, not_false_eq_true,
      if_true, if_false] <;>
    decide

section Loaded

variable {parts : List Phdr} {frameOf : Nat → Nat} {start : Machine}

section

variable (loaded : ImageLoaded roots held root image parts frameOf start machine)

include loaded

theorem image_frame {page : Nat} (covered : Covered parts page) :
    frameOf page % pageSize = 0 ∧ frameOf page ≠ 0 ∧ frameOf page < 2 ^ 52 := by
  have frame := loaded.tables.heldFrames (frameOf page) (Set.mem_union_right _ ⟨page, covered, rfl⟩)
  exact ⟨frame.aligned, frame.nonzero, frame_small frame loaded.tables.physical⟩

theorem image_decoded {page : Nat} (covered : Covered parts page) :
    decode (leafWord machine.phys root page) = some (frameOf page) := by
  obtain ⟨aligned, -, small⟩ := image_frame loaded covered
  obtain ⟨phdr, member, covers⟩ := covered
  rw [loaded.leaf phdr member page covers]
  exact decode_segment_word phdr.flags aligned small

theorem image_uncovered
    (empty : ∀ page, page < 2 ^ 35 → decode (leafWord start.phys root page) = none) {page : Nat}
    (lower : page < 2 ^ 35) (uncovered : ¬Covered parts page) :
    decode (leafWord machine.phys root page) = none := by
  rw [loaded.vacant page (by omega) uncovered]
  exact empty page lower

theorem image_byte {phdr : Phdr} (member : phdr ∈ parts) (contained : phdr.Contained) {index : Nat}
    (inside : index < phdr.memsz) :
    ∃ address, vmmVirtToPhys root (phdr.vaddr + index) machine = .ok address machine ∧ address ≠ 0 ∧
      machine.phys address = phdr.content image index := by
  have covers := contained_covers contained inside
  have covered : Covered parts ((phdr.vaddr + index) / pageSize) := ⟨phdr, member, covers⟩
  have lower := contained.pages.2.2.2
  have translated : translate machine.phys root (phdr.vaddr + index) =
      place frameOf (phdr.vaddr + index) := by
    rw [PageTableForests.translate, page_of_lower (by have below := covers.2; omega),
      image_decoded loaded covered]
    rfl
  refine ⟨place frameOf (phdr.vaddr + index), ?_, ?_, loaded.contents phdr member index inside⟩
  · rw [vmm_virt_to_phys_ok, translated]
  · exact fun zero => (image_frame loaded covered).2.1 (Nat.eq_zero_of_add_eq_zero_right zero)

theorem image_frames_distinct
    (empty : ∀ page, page < 2 ^ 35 → decode (leafWord start.phys root page) = none)
    {left right frame : Nat} (leftLower : left < 2 ^ 35) (rightLower : right < 2 ^ 35)
    (leftLeaf : decode (leafWord machine.phys root left) = some frame)
    (rightLeaf : decode (leafWord machine.phys root right) = some frame) : left = right := by
  have covered : ∀ page, page < 2 ^ 35 → decode (leafWord machine.phys root page) = some frame →
      Covered parts page := by
    intro page lower leaf
    by_contra uncovered
    rw [image_uncovered loaded empty lower uncovered] at leaf
    cases leaf
  have leftCovered := covered left leftLower leftLeaf
  have rightCovered := covered right rightLower rightLeaf
  rw [image_decoded loaded leftCovered, Option.some_inj] at leftLeaf
  rw [image_decoded loaded rightCovered, Option.some_inj] at rightLeaf
  exact loaded.distinct left right leftCovered rightCovered (leftLeaf.trans rightLeaf.symm)

end

end Loaded

variable {frames : Set Nat} (tables : Tables roots frames machine.pmm machine.phys)
  (isRoot : root ∈ roots) (unlockedPmm : machine.locked .pmm = false)
  (unlockedVmm : machine.locked .vmm = false)
  (empty : ∀ page, page < 2 ^ 35 → decode (leafWord machine.phys root page) = none)
  (placed : Placed image elfData len) (wellFormed : WellFormed image len)
  (enough : 4 * pageTotal (segments image) ≤ (freeSet machine.pmm).card)

include tables isRoot unlockedPmm unlockedVmm empty placed wellFormed enough

theorem ends_elf64Load_image :
    Ends (elf64Load root elfData image len)
      (fun info after =>
        info = ⟨imageWord image 24 8,
          sub64 (boundsOf (segments image) { base := 2 ^ 64 - 1, stop := 0 }).stop
            (boundsOf (segments image) { base := 2 ^ 64 - 1, stop := 0 }).base,
          (boundsOf (segments image) { base := 2 ^ 64 - 1, stop := 0 }).base⟩ ∧
        ∃ frameOf, ImageLoaded roots frames root image (segments image) frameOf machine after)
      (fun _ _ => False) machine := by
  apply ends_elf64Load
  · exact fun invalid => absurd ⟨placed.pointer, wellFormed.toHeaderValid⟩ invalid
  · intro _
    apply ends_mono (ends_loadHeaders_image placed.small isRoot unlockedPmm unlockedVmm empty
      (wellFormed.loadable placed enough) (image_loaded_none tables)) _ fun _ _ => id
    intro bounds after done
    obtain ⟨rfl, loaded⟩ := done
    exact ⟨rfl, loaded⟩

/-- `elf64_load` builds the image that a well-formed file describes, wherever it may read the headers. -/
theorem elf_load_builds_image :
    ∃ info after, elf64Load root elfData image len machine = .ok info after ∧
      (∀ phdr ∈ segments image, ∀ index, index < phdr.memsz →
        ∃ address, vmmVirtToPhys root (phdr.vaddr + index) after = .ok address after ∧ address ≠ 0 ∧
          after.phys address = if index < phdr.filesz then image (phdr.offset + index) else 0) ∧
      (∀ phdr ∈ segments image, ∀ page, Covers phdr page →
        Rights phdr.flags (leafWord after.phys root page)) ∧
      (∀ page, page < 2 ^ 35 → (∀ phdr ∈ segments image, ¬Covers phdr page) →
        decode (leafWord after.phys root page) = none) ∧
      (∀ left right frame, left < 2 ^ 35 → right < 2 ^ 35 →
        decode (leafWord after.phys root left) = some frame →
        decode (leafWord after.phys root right) = some frame → left = right) ∧
      info.entry = imageWord image 24 8 ∧
      IsLeast {address | ∃ phdr ∈ segments image, phdr.vaddr = address} info.base ∧
      ∃ top, IsGreatest {address | ∃ phdr ∈ segments image, phdr.vaddr + phdr.memsz = address} top ∧
        info.size = top - info.base := by
  have accepted : ∀ phdr ∈ segments image, phdr.Contained ∧ phdr.Accepted elfData len :=
    fun _ member => wellFormed.accepted placed member
  have size := placed.size
  obtain ⟨least, greatest⟩ := wellFormed.bounds
  obtain ⟨info, after, run, rfl, frameOf, loaded⟩ := (ends_elf64Load_image tables isRoot unlockedPmm
    unlockedVmm empty placed wellFormed enough).exists_ok
  refine ⟨_, after, run, ?_, ?_, ?_, ?_, rfl, least, _, greatest, ?_⟩
  · intro phdr member index inside
    obtain ⟨address, translated, nonzero, byte⟩ :=
      image_byte loaded member (accepted phdr member).1 inside
    refine ⟨address, translated, nonzero, ?_⟩
    rw [byte, Phdr.content]
    by_cases inFile : index < phdr.filesz
    · have bound := wellFormed.inFile phdr member
      rw [if_pos inFile, if_pos inFile, imageByte, Nat.mod_eq_of_lt (by omega)]
    · rw [if_neg inFile, if_neg inFile]
  · intro phdr member page covers
    obtain ⟨aligned, -, small⟩ := image_frame loaded ⟨phdr, member, covers⟩
    rw [loaded.leaf phdr member page covers]
    exact segment_word_rights phdr.flags aligned small
  · intro page lower uncovered
    apply image_uncovered loaded empty lower
    intro covered
    obtain ⟨phdr, member, covers⟩ := covered
    exact uncovered phdr member covers
  · exact fun left right frame leftLower rightLower =>
      image_frames_distinct loaded empty leftLower rightLower
  · obtain ⟨phdr, member, stop⟩ := greatest.1
    have low := wellFormed.lowerHalf phdr member
    have base := least.2 ⟨phdr, member, rfl⟩
    unfold sub64
    simp only
    omega

end Loading

/-- A file of 128 bytes with one segment: eight bytes of the file, then eight zeros, at
0x400000, writable and not executable. -/
def smallFile : List UInt8 :=
  [0x7F, 0x45, 0x4C, 0x46, 2, 1, 1, 0, 0, 0, 0, 0, 0, 0, 0, 0, 2, 0, 0x3E, 0, 1, 0, 0, 0,
    0, 0, 0x40, 0, 0, 0, 0, 0, 64, 0, 0, 0, 0, 0, 0, 0, 0, 0, 0, 0, 0, 0, 0, 0,
    0, 0, 0, 0, 64, 0, 56, 0, 1, 0, 0, 0, 0, 0, 0, 0,
    1, 0, 0, 0, 6, 0, 0, 0, 120, 0, 0, 0, 0, 0, 0, 0, 0, 0, 0x40, 0, 0, 0, 0, 0,
    0, 0, 0x40, 0, 0, 0, 0, 0, 8, 0, 0, 0, 0, 0, 0, 0, 16, 0, 0, 0, 0, 0, 0, 0,
    0, 0x10, 0, 0, 0, 0, 0, 0, 1, 2, 3, 4, 5, 6, 7, 8]

def smallImage : Image := fun index => smallFile.getD index 0

def smallPhdr : Phdr :=
  { type := 1, flags := 6, offset := 120, vaddr := 0x400000, filesz := 8, memsz := 16 }

theorem small_image_segments : segments smallImage = [smallPhdr] := by
  decide +kernel

theorem well_formed_of_small {image : Image} {len : Nat} (valid : HeaderValid image len)
    (table : imageWord image 32 8 + imageWord image 56 2 * phdrBytes ≤ len)
    (parts : segments image = [smallPhdr]) (long : 128 ≤ len) : WellFormed image len where
  toHeaderValid := valid
  table := table
  nonempty := by rw [parts]; exact List.cons_ne_nil _ _
  someFile := by rw [parts]; decide
  fileInMemory := by rw [parts]; decide
  inFile := by rw [parts, List.forall_mem_singleton]; exact long
  notFirstPage := by rw [parts]; decide
  lowerHalf := by rw [parts]; decide
  apart := by rw [parts]; exact List.pairwise_singleton _ _

theorem small_image_well_formed : WellFormed smallImage 128 :=
  well_formed_of_small ⟨by decide, by decide, by decide, by decide +kernel, by decide +kernel⟩
    (by decide +kernel) small_image_segments (Nat.le_refl _)

theorem small_image_placed : Placed smallImage 0x100000 128 :=
  ⟨by decide, by decide, by decide, by decide +kernel⟩

theorem small_machine_unmapped (page : Nat) :
    decode (leafWord smallMachine.phys 4096 page) = none := by
  rw [leaf_word_single (small_machine_blank 4096)]
  exact decode_zero

/-- The small file is loaded, and its segment ends with zeros. -/
theorem elf_load_builds_image_small : ∃ info after,
    elf64Load 4096 0x100000 smallImage 128 smallMachine = .ok info after ∧ info.base = 0x400000 ∧
      ∃ address, vmmVirtToPhys 4096 0x40000F after = .ok address after ∧ after.phys address = 0 := by
  have many := small_machine_free
  have pages : 4 * pageTotal (segments smallImage) ≤ (freeSet smallMachine.pmm).card := by
    rw [small_image_segments]
    exact le_trans (by decide) many
  obtain ⟨info, after, run, bytes, -, -, -, -, ⟨⟨phdr, member, base⟩, -⟩, -⟩ :=
    elf_load_builds_image small_machine_tables rfl rfl rfl (fun page _ => small_machine_unmapped page)
      small_image_placed small_image_well_formed pages
  rw [small_image_segments] at bytes member
  obtain ⟨address, translated, -, byte⟩ := bytes _ List.mem_cons_self 15 (by decide)
  rw [List.mem_singleton] at member
  subst member
  exact ⟨info, after, run, base.symm, address, translated, byte⟩

/-- The small file with its program header one byte further on. -/
def shiftedImage : Image := fun index =>
  (smallFile.take 32 ++ 65 :: (smallFile.drop 33).take 31 ++ 0 :: smallFile.drop 64).getD index 0

/-- That file is well formed, and refused: its program header is not aligned. -/
theorem elf_load_refuses_shifted : WellFormed shiftedImage 129 ∧ ∃ after,
    elf64Load 4096 0x100000 shiftedImage 129 smallMachine =
      .error (.panic "type mismatch detected") after := by
  have valid : HeaderValid shiftedImage 129 :=
    ⟨by decide, by decide, by decide, by decide +kernel, by decide +kernel⟩
  have offset : imageWord shiftedImage 32 8 = 65 := by decide +kernel
  have count : imageWord shiftedImage 56 2 = 1 := by decide +kernel
  have start : add64 65 (0 * phdrBytes) = 65 := by decide
  refine ⟨well_formed_of_small valid (by decide +kernel) (by decide +kernel) (by decide), ?_⟩
  have loads : Ends (elf64Load 4096 0x100000 shiftedImage 129) (fun _ _ => False)
      (fun stop _ => stop = .panic "type mismatch detected") smallMachine := by
    apply ends_elf64Load
    · exact fun invalid => absurd ⟨by decide, valid⟩ invalid
    · intro _
      rw [offset, count, loadHeaders, start, ends_bind, ends_require, if_pos (by decide), ends_bind,
        ends_require, if_pos (by decide), ends_bind, ends_require, if_neg (by decide)]
  cases run : elf64Load 4096 0x100000 shiftedImage 129 smallMachine with
  | ok info after => exact (loads.returns run).elim
  | error stop after =>
    cases loads.stops run
    exact ⟨after, rfl⟩

end RiriaKernel.ElfImages
