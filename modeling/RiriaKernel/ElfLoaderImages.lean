import RiriaKernel.ElfLoaderSegments

/-!
# Loading a whole image

The loop over the program headers. Loading one segment after another keeps what the
segments before it have built, because each takes frames that nobody holds and pages that
nothing maps.
-/

namespace RiriaKernel.ElfLoaderImages

open HaltingPrograms KernelState PhysicalAllocator PageTables
open PageTableForests ElfLoader ElfLoaderSteps
open ElfLoaderSegments

/-! ## The program headers of an image -/

def headerStart (phOffset index : Nat) : Nat := add64 phOffset (index * phdrBytes)

def headersFrom (image : Image) (phOffset count index : Nat) : List Phdr :=
  (List.range' index count).map fun position => phdrAt image (headerStart phOffset position)

def loads (headers : List Phdr) : List Phdr := headers.filter fun phdr => phdr.type = ptLoad

def segments (image : Image) : List Phdr :=
  loads (headersFrom image (imageWord image 32 8) (imageWord image 56 2) 0)

def pageTotal (parts : List Phdr) : Nat := (parts.map Phdr.count).sum

def Covers (phdr : Phdr) (page : Nat) : Prop :=
  phdr.first ≤ page ∧ page < phdr.first + phdr.count

instance (phdr : Phdr) (page : Nat) : Decidable (Covers phdr page) :=
  inferInstanceAs (Decidable (_ ∧ _))

def Covered (parts : List Phdr) (page : Nat) : Prop := ∃ phdr ∈ parts, Covers phdr page

def Apart (left right : Phdr) : Prop := ∀ page, Covers left page → ¬Covers right page

theorem headers_from_succ (image : Image) (phOffset count index : Nat) :
    headersFrom image phOffset (count + 1) index =
      phdrAt image (headerStart phOffset index) :: headersFrom image phOffset count (index + 1) := by
  rw [headersFrom, List.range'_succ, List.map_cons, headersFrom]

theorem loads_cons (phdr : Phdr) (headers : List Phdr) :
    loads (phdr :: headers) = if phdr.type = ptLoad then phdr :: loads headers else loads headers := by
  simp [loads, List.filter_cons]

section Loop

variable {roots held : Set Nat} {root elfData file phOffset index count : Nat} {image : Image}
  {bounds : Bounds} {start machine : Machine}

def Readable (elfData phStart : Nat) : Prop :=
  SumFits elfData phStart ∧ StructPointer (add64 elfData phStart)

theorem ends_loadHeaders_succ {returned : Bounds → Machine → Prop} {stopped : Stop → Machine → Prop}
    (inTable : headerStart phOffset index + phdrBytes ≤ file) (small : file < 2 ^ 64)
    (refused : ¬Readable elfData (headerStart phOffset index) →
      ∀ message, stopped (.panic message) machine)
    (loop : if (phdrAt image (headerStart phOffset index)).type = ptLoad then
        Ends (loadSegment root elfData image file (headerStart phOffset index))
          (fun ends after => Ends (loadHeaders root elfData image file phOffset count (index + 1)
            (bounds.extend ends.1 ends.2)) returned stopped after)
          stopped machine
      else Ends (loadHeaders root elfData image file phOffset count (index + 1) bounds) returned
        stopped machine) :
    Ends (loadHeaders root elfData image file phOffset (count + 1) index bounds) returned stopped
      machine := by
  have whole : add64 (headerStart phOffset index) phdrBytes = headerStart phOffset index + phdrBytes :=
    Nat.mod_eq_of_lt (by omega)
  have inside : ¬add64 (headerStart phOffset index) phdrBytes > file := by omega
  rw [loadHeaders, ← headerStart, ends_bind, ends_require, if_pos inside, ends_bind, ends_require]
  by_cases sum : SumFits elfData (headerStart phOffset index)
  · rw [if_pos sum, ends_bind, ends_require]
    by_cases pointer : StructPointer (add64 elfData (headerStart phOffset index))
    · rw [if_pos pointer, ends_ite]
      by_cases load : (phdrAt image (headerStart phOffset index)).type = ptLoad
      · have same : imageWord image (headerStart phOffset index) 4 = ptLoad := load
        rw [if_neg fun different => different same, ends_bind]
        rwa [if_pos load] at loop
      · have different : imageWord image (headerStart phOffset index) 4 ≠ ptLoad := load
        rw [if_pos different]
        rwa [if_neg load] at loop
    · rw [if_neg pointer]
      exact refused (fun readable => pointer readable.2) _
  · rw [if_neg sum]
    exact refused (fun readable => sum readable.1) _

/-! ## The loaded image -/

/-- The segments loaded so far are in memory, in frames of their own. -/
structure ImageLoaded (roots held : Set Nat) (root : Nat) (image : Image) (parts : List Phdr)
    (frameOf : Nat → Nat) (before after : Machine) : Prop where
  tables : Tables roots (held ∪ {frame | ∃ page, Covered parts page ∧ frameOf page = frame}) after.pmm
    after.phys
  distinct : ∀ left right, Covered parts left → Covered parts right →
    frameOf left = frameOf right → left = right
  contents : ∀ phdr ∈ parts, ∀ index, index < phdr.memsz →
    after.phys (place frameOf (phdr.vaddr + index)) = phdr.content image index
  leaf : ∀ phdr ∈ parts, ∀ page, Covers phdr page →
    leafWord after.phys root page = frameOf page ||| segmentFlags phdr.flags ||| ptePresent
  vacant : ∀ page, page < 512 ^ 4 → ¬Covered parts page →
    leafWord after.phys root page = leafWord before.phys root page
  budget : (freeSet before.pmm).card ≤ (freeSet after.pmm).card + 4 * pageTotal parts
  beside : Beside before after

theorem image_loaded_none (tables : Tables roots held machine.pmm machine.phys) :
    ImageLoaded roots held root image [] (fun _ => 0) machine machine := by
  have none : ∀ page, ¬Covered [] page := fun page covered =>
    covered.elim fun _ member => absurd member.1 List.not_mem_nil
  refine ⟨?_, fun left _ covered => (none left covered).elim,
    fun _ member => absurd member List.not_mem_nil, fun _ member => absurd member List.not_mem_nil,
    fun _ _ _ => rfl, Nat.le_add_right _ _, Beside.refl _⟩
  apply tables.mono
  rintro address (old | ⟨page, covered, -⟩)
  · exact old
  · exact (none page covered).elim

theorem covered_append {parts : List Phdr} {phdr : Phdr} {page : Nat} :
    Covered (parts ++ [phdr]) page ↔ Covered parts page ∨ Covers phdr page := by
  simp only [Covered, List.mem_append, List.mem_singleton, or_and_right, exists_or, exists_eq_left]

/-- The frames of the segments before, and those of the new one. -/
def withSegment (frameOf : Nat → Nat) (phdr : Phdr) (newFrameOf : Nat → Nat) : Nat → Nat :=
  fun page => if Covers phdr page then newFrameOf page else frameOf page

theorem with_segment_new {frameOf newFrameOf : Nat → Nat} {phdr : Phdr} {page : Nat}
    (covers : Covers phdr page) : withSegment frameOf phdr newFrameOf page = newFrameOf page :=
  if_pos covers

theorem with_segment_old {frameOf newFrameOf : Nat → Nat} {phdr : Phdr} {page : Nat}
    (apart : ¬Covers phdr page) : withSegment frameOf phdr newFrameOf page = frameOf page :=
  if_neg apart

theorem contained_covers {phdr : Phdr} (contained : phdr.Contained) {position : Nat}
    (inside : position < phdr.memsz) : Covers phdr ((phdr.vaddr + position) / pageSize) :=
  contained.range.page inside

section Next

variable {parts : List Phdr} {phdr : Phdr} {frameOf newFrameOf : Nat → Nat} {after : Machine}

theorem ImageLoaded.old_contents (earlier : ∀ part ∈ parts, part.Contained ∧ Apart part phdr)
    (loaded : ImageLoaded roots held root image parts frameOf start machine)
    (segment : SegmentLoaded roots
      (held ∪ {frame | ∃ page, Covered parts page ∧ frameOf page = frame}) root phdr image newFrameOf
      machine after) {part : Phdr} (member : part ∈ parts) {position : Nat}
    (inside : position < part.memsz) :
    after.phys (place (withSegment frameOf phdr newFrameOf) (part.vaddr + position)) =
      part.content image position := by
  obtain ⟨contained, apart⟩ := earlier part member
  have covers := contained_covers contained inside
  have owned : frameOf ((part.vaddr + position) / pageSize) ∈
      held ∪ {frame | ∃ page, Covered parts page ∧ frameOf page = frame} :=
    Set.mem_union_right _ ⟨_, ⟨part, member, covers⟩, rfl⟩
  have same : place (withSegment frameOf phdr newFrameOf) (part.vaddr + position) =
      place frameOf (part.vaddr + position) := by
    rw [place, with_segment_old (apart _ covers), place]
  rw [same, segment.bytes]
  · exact loaded.contents part member position inside
  · rw [place_floor (loaded.tables.heldFrames _ owned).aligned]
    exact owned

theorem ImageLoaded.next (isRoot : root ∈ roots)
    (earlier : ∀ part ∈ parts, part.Contained ∧ Apart part phdr) (contained : phdr.Contained)
    (loaded : ImageLoaded roots held root image parts frameOf start machine)
    (segment : SegmentLoaded roots
      (held ∪ {frame | ∃ page, Covered parts page ∧ frameOf page = frame}) root phdr image newFrameOf
      machine after) :
    ImageLoaded roots held root image (parts ++ [phdr]) (withSegment frameOf phdr newFrameOf) start
      after := by
  have lower := contained.pages.2.2.2
  have notNew : ∀ page, Covered parts page → ¬Covers phdr page := fun page covered =>
    covered.elim fun part hit => (earlier part hit.1).2 page hit.2
  have oldFrame : ∀ page, Covered parts page →
      frameOf page ∈ held ∪ {frame | ∃ page, Covered parts page ∧ frameOf page = frame} :=
    fun page covered => Set.mem_union_right _ ⟨page, covered, rfl⟩
  refine ⟨?_, ?_, ?_, ?_, ?_, ?_, loaded.beside.trans segment.beside⟩
  · apply segment.tables.mono
    rintro address (old | ⟨page, covered, rfl⟩)
    · exact Set.mem_union_left _ (Set.mem_union_left _ old)
    · rcases covered_append.mp covered with old | new
      · rw [with_segment_old (notNew page old)]
        exact Set.mem_union_left _ (oldFrame page old)
      · rw [with_segment_new new]
        exact Set.mem_union_right _ ⟨page, new.1, new.2, rfl⟩
  · intro left right leftCovered rightCovered same
    rcases covered_append.mp leftCovered with leftOld | leftNew <;>
      rcases covered_append.mp rightCovered with rightOld | rightNew
    · rw [with_segment_old (notNew left leftOld), with_segment_old (notNew right rightOld)] at same
      exact loaded.distinct left right leftOld rightOld same
    · rw [with_segment_old (notNew left leftOld), with_segment_new rightNew] at same
      exact (segment.fresh right rightNew.1 rightNew.2 (same ▸ oldFrame left leftOld)).elim
    · rw [with_segment_new leftNew, with_segment_old (notNew right rightOld)] at same
      exact (segment.fresh left leftNew.1 leftNew.2 (same ▸ oldFrame right rightOld)).elim
    · rw [with_segment_new leftNew, with_segment_new rightNew] at same
      exact segment.distinct left right leftNew.1 leftNew.2 rightNew.1 rightNew.2 same
  · intro part member position inside
    rcases List.mem_append.mp member with old | new
    · exact loaded.old_contents earlier segment old inside
    · rw [List.mem_singleton] at new
      subst new
      rw [place, with_segment_new (contained_covers contained inside)]
      exact segment.contents position inside
  · intro part member page covers
    rcases List.mem_append.mp member with old | new
    · have apart := notNew page ⟨part, old, covers⟩
      have bounded : page < 512 ^ 4 := by
        have limit := (earlier part old).1.pages.2.2.2
        have below := covers.2
        omega
      rw [segment.leaf root isRoot page bounded, if_neg fun hit => apart hit.2,
        with_segment_old apart]
      exact loaded.leaf part old page covers
    · rw [List.mem_singleton] at new
      subst new
      have bounded : page < 512 ^ 4 := by
        have below := covers.2
        omega
      rw [segment.leaf root isRoot page bounded, if_pos ⟨rfl, covers⟩, with_segment_new covers]
  · intro page bounded uncovered
    rw [covered_append, not_or] at uncovered
    rw [segment.leaf root isRoot page bounded, if_neg fun hit => uncovered.2 hit.2]
    exact loaded.vacant page bounded uncovered.1
  · have total : pageTotal (parts ++ [phdr]) = pageTotal parts + phdr.count := by
      simp [pageTotal]
    have before := loaded.budget
    have spent := segment.budget
    rw [total]
    omega

theorem ImageLoaded.not_interrupted
    (loaded : ImageLoaded roots held root image parts frameOf start machine)
    (apart : ∀ part ∈ parts, Apart part phdr) (contained : phdr.Contained)
    (empty : ∀ page, page < 2 ^ 35 → decode (leafWord start.phys root page) = none)
    (enough : 4 * (pageTotal parts + phdr.count) ≤ (freeSet start.pmm).card) :
    ¬Interrupted root phdr.first phdr.count machine := by
  rintro (⟨page, above, below, taken⟩ | few)
  · have lower := contained.pages.2.2.2
    have uncovered : ¬Covered parts page := fun covered =>
      covered.elim fun part hit => apart part hit.1 page hit.2 ⟨above, below⟩
    apply taken
    rw [loaded.vacant page (by omega) uncovered]
    exact empty page (by omega)
  · have budget := loaded.budget
    omega

def boundsOf (parts : List Phdr) (bounds : Bounds) : Bounds :=
  parts.foldl (fun bounds phdr => bounds.extend phdr.vaddr (phdr.vaddr + phdr.memsz)) bounds

structure Loadable (image : Image) (elfData file phOffset count index : Nat) (parts : List Phdr)
    (start : Machine) : Prop where
  inFile : ∀ position, index ≤ position → position < index + count →
    headerStart phOffset position + phdrBytes ≤ file ∧ Readable elfData (headerStart phOffset position)
  accepted : ∀ phdr ∈ parts ++ loads (headersFrom image phOffset count index),
    phdr.Contained ∧ phdr.Accepted elfData file
  apart : (parts ++ loads (headersFrom image phOffset count index)).Pairwise Apart
  enough : 4 * pageTotal (parts ++ loads (headersFrom image phOffset count index)) ≤
    (freeSet start.pmm).card

theorem Loadable.skip (loadable : Loadable image elfData file phOffset (count + 1) index parts start)
    (other : (phdrAt image (headerStart phOffset index)).type ≠ ptLoad) :
    Loadable image elfData file phOffset count (index + 1) parts start ∧
      loads (headersFrom image phOffset (count + 1) index) =
        loads (headersFrom image phOffset count (index + 1)) := by
  have same : loads (headersFrom image phOffset (count + 1) index) =
      loads (headersFrom image phOffset count (index + 1)) := by
    rw [headers_from_succ, loads_cons, if_neg other]
  obtain ⟨inFile, accepted, apart, enough⟩ := loadable
  rw [same] at accepted apart enough
  exact ⟨⟨fun position above below => inFile position (by omega) (by omega), accepted, apart,
    enough⟩, same⟩

theorem Loadable.load (loadable : Loadable image elfData file phOffset (count + 1) index parts start)
    (load : (phdrAt image (headerStart phOffset index)).type = ptLoad) :
    Loadable image elfData file phOffset count (index + 1)
        (parts ++ [phdrAt image (headerStart phOffset index)]) start ∧
      loads (headersFrom image phOffset (count + 1) index) =
        phdrAt image (headerStart phOffset index) ::
          loads (headersFrom image phOffset count (index + 1)) := by
  have same : loads (headersFrom image phOffset (count + 1) index) =
      phdrAt image (headerStart phOffset index) ::
        loads (headersFrom image phOffset count (index + 1)) := by
    rw [headers_from_succ, loads_cons, if_pos load]
  obtain ⟨inFile, accepted, apart, enough⟩ := loadable
  rw [same, List.append_cons] at accepted apart enough
  exact ⟨⟨fun position above below => inFile position (by omega) (by omega), accepted, apart,
    enough⟩, same⟩

theorem ends_loadHeaders_image (small : file < 2 ^ 64) (isRoot : root ∈ roots)
    (unlockedPmm : start.locked .pmm = false) (unlockedVmm : start.locked .vmm = false)
    (empty : ∀ page, page < 2 ^ 35 → decode (leafWord start.phys root page) = none)
    (loadable : Loadable image elfData file phOffset count index parts start)
    (loaded : ImageLoaded roots held root image parts frameOf start machine) :
    Ends (loadHeaders root elfData image file phOffset count index bounds)
      (fun result after =>
        result = boundsOf (loads (headersFrom image phOffset count index)) bounds ∧ ∃ frameOf,
          ImageLoaded roots held root image (parts ++ loads (headersFrom image phOffset count index))
            frameOf start after)
      (fun _ _ => False) machine := by
  induction count generalizing index bounds machine parts frameOf with
  | zero =>
    rw [loadHeaders, ends_pure]
    exact ⟨rfl, frameOf, by simpa [headersFrom, loads] using loaded⟩
  | succ count induction =>
    obtain ⟨inTable, readable⟩ := loadable.inFile index (Nat.le_refl _) (by omega)
    apply ends_loadHeaders_succ inTable small fun unreadable => absurd readable unreadable
    by_cases load : (phdrAt image (headerStart phOffset index)).type = ptLoad
    · obtain ⟨rest, same⟩ := loadable.load load
      obtain ⟨contained, accepted⟩ := rest.accepted _ (List.mem_append_left _ (List.mem_append_right
        parts List.mem_cons_self))
      have apart := rest.apart
      rw [List.append_assoc, List.pairwise_append] at apart
      have enough := rest.enough
      rw [pageTotal, List.map_append, List.map_append, List.sum_append, List.sum_append] at enough
      have earlier : ∀ part ∈ parts, part.Contained ∧
          Apart part (phdrAt image (headerStart phOffset index)) := fun part member =>
        ⟨(rest.accepted part (List.mem_append_left _ (List.mem_append_left _ member))).1,
          apart.2.2 part member _ (List.mem_append_left _ List.mem_cons_self)⟩
      rw [if_pos load, same]
      apply ends_mono (ends_loadSegment rfl contained accepted loaded.tables isRoot
        (loaded.beside.locked ▸ unlockedPmm) (loaded.beside.locked ▸ unlockedVmm))
      · rintro ends middle ⟨rfl, newFrameOf, loadedSegment⟩
        have grown := loaded.next isRoot earlier contained loadedSegment
        rw [List.append_cons]
        exact induction rest grown
      · intro stop after interrupted
        refine (loaded.not_interrupted (fun part member => (earlier part member).2) contained empty ?_
          interrupted).elim
        unfold pageTotal
        simp only [List.map_cons, List.map_nil, List.sum_cons, List.sum_nil] at enough
        omega
    · obtain ⟨rest, same⟩ := loadable.skip load
      rw [if_neg load, same]
      exact induction rest loaded

end Next

end Loop

end RiriaKernel.ElfLoaderImages
