import RiriaKernel.ProcessStarts
import RiriaKernel.UserEvents

/-!
# Anonymous memory

`mmap` without a descriptor takes a frame for every page and maps it at `user_heap_position`. The
address goes back through an `int` and the number of pages through a `uint32_t`, so the call
delivers what it returns only to processes whose heap lies below `2 ^ 31` and that ask for less
than `2 ^ 32` pages.
-/

namespace RiriaKernel.AnonymousMappings

open ByteMemory HaltingPrograms ConfinedPrograms KernelState PhysicalAllocator PageTables
open PageTableForests PageTableOperations PageTableWords Pagemaps PagemapRoundTrips PagePermissions
open AddressSpaces KernelHeapTables UserProcesses UserEvents DeviceMappings
open ElfLoaderSegments (frame_small)
open ProcessSpawning (lower_index)
open KernelHeap ElfImages ProcessStarts UserMemory

/-! ## One page -/

def anonymousFlags : Nat := userFlags ||| pteNx

def anonymousWord (frame : Nat) : Nat := pageFloor frame ||| anonymousFlags ||| ptePresent

/-- The tables of the pagemap are sound, and nobody is in the middle of a change to them. -/
structure Mappable (root : Nat) (roots held : Set Nat) (machine : Machine) : Prop where
  tables : Tables roots held machine.pmm machine.phys
  isRoot : root ∈ roots
  unlatched : Unlatched machine

/-- The free frame `index` is behind `page` now, and the tables that were missing are made. -/
structure Placed (roots held : Set Nat) (root page index : Nat) (before after : Machine) : Prop where
  free : index ∈ freeSet before.pmm
  ready : Mappable root roots (insert (index * pageSize) held) after
  mapped : Mapped roots (insert (index * pageSize) held) root page (anonymousWord (index * pageSize))
    (takePage before index) after
  links : LinksAdded roots page anonymousFlags (takePage before index).phys after.phys

section Round

variable {roots held : Set Nat} {caller : Caller} {machine : Machine} {root index : Nat}

/-- A turn of the loop gets a frame behind the page at the position, or frames have run out. -/
theorem ends_mapAnonymousPage_places
    (ready : Mappable caller.process.pagemap roots held caller.machine)
    (lower : pml4Index caller.process.userHeapPosition < 256) (turn : Nat) :
    Ends (mapAnonymousPage turn)
      (fun _ after => ∃ machine index, after = caller.advance machine ∧
        Placed roots held caller.process.pagemap (pageOf caller.process.userHeapPosition) index
          caller.machine machine)
      (fun _ _ => (freeSet caller.machine.pmm).card < 4) caller := by
  rw [mapAnonymousPage, ends_bind, ends_kernel]
  apply ends_pmmAllocate ready.unlatched.pmm
  · intro index least
    have taken := ready.tables.take least.1
    have frame := taken.heldFrames _ (Set.mem_insert _ _)
    have small : index * pageSize < 2 ^ 64 :=
      (ready.tables.free_page_small least.1).trans (by decide)
    have cost := Finset.card_erase_add_one least.1
    rw [ends_bind, ends_kernel, ends_assertThat, if_pos frame.nonzero, ends_mapAtPosition]
    apply ends_mono (ends_vmmMapPage_walks taken ready.isRoot ready.unlatched.pmm
      ready.unlatched.vmm (lower_ready lower) small (show anonymousFlags < 2 ^ 64 by decide))
    · rintro _ machine ⟨-, mapped, -, -, links⟩
      exact ⟨machine, index, rfl, least.1, ⟨mapped.grown.tables, ready.isRoot,
        ready.unlatched.of_same mapped.locked⟩, mapped, links⟩
    · rintro _ _ ⟨-, few, -⟩
      have most := few.trans_le (missing_tables_le ..)
      rw [freeSet_takePage] at most
      omega
  · intro empty
    rw [empty]
    decide

end Round

/-! ## The pages of a request -/

/-- `count` pages have been asked for at the position of the heap. -/
def Advanced (start : Caller) (count : Nat) (now : Caller) : Prop :=
  now.process = { start.process with
    userHeapPosition := add64 start.process.userHeapPosition (count * pageSize) }

def Shows (start : Caller) (phys : Memory) (index frame : Nat) : Prop :=
  leafWord phys start.process.pagemap (heapPage start.process.userHeapPosition index) =
    anonymousWord frame

/-- The first `count` pages of the request show frames of their own, which were free and are
cleared. -/
structure Delivering (roots held : Set Nat) (start : Caller) (count : Nat) (more : Set Nat)
    (now : Caller) : Prop where
  advanced : Advanced start count now
  ready : Mappable start.process.pagemap roots more now.machine
  wider : held ⊆ more
  free : freeSet now.machine.pmm ⊆ freeSet start.machine.pmm
  budget : (freeSet start.machine.pmm).card ≤ (freeSet now.machine.pmm).card + 4 * count
  shown : ∀ index < count, ∃ frame, Shows start now.machine.phys index (frame * pageSize) ∧
    frame ∈ freeSet start.machine.pmm ∧ frame * pageSize ∈ more ∧
      ∀ offset < pageSize, now.machine.phys (frame * pageSize + offset) = 0
  distinct : ∀ left < count, ∀ right < count, ∀ frame, Shows start now.machine.phys left frame →
    Shows start now.machine.phys right frame → left = right

section Request

variable {roots held more : Set Nat} {start now : Caller} {machine : Machine}
  {count index frame : Nat}

theorem Advanced.next (advanced : Advanced start count now) (machine : Machine) :
    Advanced start (count + 1) (now.advance machine) := by
  have moved : add64 (add64 start.process.userHeapPosition (count * pageSize)) pageSize =
      add64 start.process.userHeapPosition ((count + 1) * pageSize) := by
    unfold add64 pageSize
    omega
  rw [Advanced, Caller.advance, advanced, moved]

theorem decode_anonymous (aligned : frame % pageSize = 0) (small : frame < 2 ^ 52) :
    decode (anonymousWord frame) = some frame := by
  rw [anonymousWord, page_floor_of_aligned aligned, Nat.or_assoc]
  exact decode_or aligned small (by decide) (by decide)

/-- One more page. -/
theorem Delivering.next (delivering : Delivering roots held start count more now)
    (few : count < 2 ^ 32)
    (placed : Placed roots more start.process.pagemap (heapPage start.process.userHeapPosition count)
      index now.machine machine) :
    Delivering roots held start (count + 1) (insert (index * pageSize) more) (now.advance machine) := by
  have tables := delivering.ready.tables
  have leaf : ∀ page, page < 512 ^ 4 → leafWord machine.phys start.process.pagemap page =
      if page = heapPage start.process.userHeapPosition count then anonymousWord (index * pageSize)
      else leafWord now.machine.phys start.process.pagemap page := by
    intro page bounded
    rw [placed.mapped.leaf _ placed.ready.isRoot page bounded,
      tables.leaf_kept (tables.take_kept placed.free) placed.ready.isRoot bounded]
    simp only [true_or, and_true]
  have last : Shows start machine.phys count (index * pageSize) := by
    rw [Shows, leaf _ (heap_page_lt _ _), if_pos rfl]
  have earlier : ∀ turn < count, ∀ frame, Shows start machine.phys turn frame ↔
      Shows start now.machine.phys turn frame := by
    intro turn below frame
    rw [Shows, leaf _ (heap_page_lt _ _), if_neg fun same =>
      absurd (heap_page_injective (below.trans few) few same) (Nat.ne_of_lt below)]
    rfl
  -- the new frame was free, so it is none of those that are shown already
  have fresh : ∀ turn < count, ¬Shows start machine.phys turn (index * pageSize) := by
    intro turn below same
    obtain ⟨frame, shows, -, member, -⟩ := delivering.shown turn below
    have found := ((earlier turn below _).mp same).symm.trans shows
    have owned := tables.heldFrames _ member
    have equal := congrArg decode found
    rw [decode_anonymous (Nat.mul_mod_left index pageSize) (tables.free_page_small placed.free),
      decode_anonymous owned.aligned (frame_small owned tables.physical), Option.some.injEq] at equal
    rw [← equal] at member
    exact tables.free_not_held placed.free member
  refine ⟨delivering.advanced.next machine, placed.ready, ?_, ?_, ?_, ?_, ?_⟩
  · exact delivering.wider.trans (Set.subset_insert _ _)
  · refine (placed.mapped.grown.free.trans ?_).trans delivering.free
    rw [freeSet_takePage]
    exact Finset.erase_subset _ _
  · have spent := placed.mapped.grown.budget
    have before := delivering.budget
    have cost := Finset.card_erase_add_one placed.free
    rw [freeSet_takePage] at spent
    rw [Caller.advance_machine]
    omega
  · intro turn below
    rcases Nat.lt_succ_iff_lt_or_eq.mp below with before | rfl
    · obtain ⟨frame, shows, free, member, zero⟩ := delivering.shown turn before
      refine ⟨frame, (earlier turn before _).mpr shows, free, Set.mem_insert_of_mem _ member, ?_⟩
      intro offset inside
      have floor : pageFloor (frame * pageSize + offset) = frame * pageSize := page_floor_inside inside
      have other : frame * pageSize ≠ index * pageSize := fun same =>
        tables.free_not_held placed.free (same ▸ member)
      rw [Caller.advance_machine, placed.mapped.grown.bytes _ (by
        rw [floor]
        exact Set.mem_insert_of_mem _ member), take_page_phys_other (by rwa [floor])]
      exact zero offset inside
    · refine ⟨index, last, delivering.free placed.free, Set.mem_insert _ _, ?_⟩
      intro offset inside
      rw [Caller.advance_machine, placed.mapped.grown.bytes _ (by
        rw [page_floor_inside inside]
        exact Set.mem_insert _ _)]
      exact take_page_cleared inside
  · intro left leftBelow right rightBelow frame onLeft onRight
    rcases Nat.lt_succ_iff_lt_or_eq.mp leftBelow with leftBefore | rfl <;>
      rcases Nat.lt_succ_iff_lt_or_eq.mp rightBelow with rightBefore | rfl
    · exact delivering.distinct left leftBefore right rightBefore frame
        ((earlier left leftBefore _).mp onLeft) ((earlier right rightBefore _).mp onRight)
    · exact absurd (onLeft.trans (onRight.symm.trans last)) (fresh left leftBefore)
    · exact absurd (onRight.trans (onLeft.symm.trans last)) (fresh right rightBefore)
    · rfl

theorem Delivering.found (delivering : Delivering roots held start count more now)
    (shows : Shows start now.machine.phys index frame) (member : frame ∈ more) :
    spacesOf now.machine.phys start.process.pagemap
      (heapPage start.process.userHeapPosition index) = some frame := by
  have owned := delivering.ready.tables.heldFrames _ member
  rw [spacesOf, shows, decode_anonymous owned.aligned
    (frame_small owned delivering.ready.tables.physical)]

theorem Delivering.spaces_injective (delivering : Delivering roots held start count more now)
    {left right : Nat} (leftInside : left < count) (rightInside : right < count)
    (same : spacesOf now.machine.phys start.process.pagemap
        (heapPage start.process.userHeapPosition left) =
      spacesOf now.machine.phys start.process.pagemap
        (heapPage start.process.userHeapPosition right)) : left = right := by
  obtain ⟨frame, shows, -, member, -⟩ := delivering.shown left leftInside
  obtain ⟨other, showsOther, -, otherMember, -⟩ := delivering.shown right rightInside
  rw [delivering.found shows member, delivering.found showsOther otherMember, Option.some.injEq] at same
  rw [same] at shows
  exact delivering.distinct left leftInside right rightInside _ shows showsOther

/-- The loop of `syscall_mmap` without a descriptor, with whatever its turns keep. -/
theorem ends_mapAnonymousPages {kept : Nat → Machine → Prop}
    (ready : Mappable start.process.pagemap roots held start.machine) (few : count < 2 ^ 32)
    (lower : start.process.userHeapPosition + count * pageSize ≤ 2 ^ 47) (first : kept 0 start.machine)
    (step : ∀ turn more now index machine, turn < count →
      Delivering roots held start turn more now → kept turn now.machine →
      Placed roots more start.process.pagemap (heapPage start.process.userHeapPosition turn) index
        now.machine machine → kept (turn + 1) machine) :
    Ends (forCount mapAnonymousPage count 0)
      (fun _ after => (∃ more, Delivering roots held start count more after) ∧ kept count after.machine)
      (fun _ _ => (freeSet start.machine.pmm).card < 4 * count) start := by
  have begin : Delivering roots held start 0 held start := by
    refine ⟨?_, ready, Set.Subset.refl _, Finset.Subset.refl _, Nat.le_add_right _ _, ?_, ?_⟩
    · rw [Advanced, Nat.zero_mul, add64, Nat.add_zero, Nat.mod_eq_of_lt (by omega)]
    · exact fun _ none => absurd none (Nat.not_lt_zero _)
    · exact fun _ none => absurd none (Nat.not_lt_zero _)
  have turns : ∀ turn now, 0 ≤ turn → turn < 0 + count →
      (∃ more, Delivering roots held start turn more now) ∧ kept turn now.machine →
      Ends (mapAnonymousPage turn)
        (fun _ after => (∃ more, Delivering roots held start (turn + 1) more after) ∧
          kept (turn + 1) after.machine)
        (fun _ _ => (freeSet start.machine.pmm).card < 4 * count) now := by
    rintro turn now - inside ⟨⟨more, delivering⟩, here⟩
    rw [Nat.zero_add] at inside
    have process := delivering.advanced
    have readyNow := delivering.ready
    have place : pml4Index (add64 start.process.userHeapPosition (turn * pageSize)) < 256 := by
      apply lower_index
      unfold add64 pageSize at *
      omega
    rw [show start.process.pagemap = now.process.pagemap by rw [process]] at readyNow
    apply ends_mono (ends_mapAnonymousPage_places readyNow (by rwa [process]) turn)
    · rintro _ _ ⟨machine, index, rfl, placed⟩
      rw [process] at placed
      exact ⟨⟨_, delivering.next (inside.trans few) placed⟩,
        step turn more now index machine inside delivering here placed⟩
    · intro _ _ short
      have budget := delivering.budget
      omega
  have loop := ends_forCount _ count 0 turns ⟨⟨held, begin⟩, first⟩
  rwa [Nat.zero_add] at loop

end Request

/-! ## What the call promises -/

/-- The result of a system call in the register `rax`. -/
def signExtended (result : Int) : Nat := (result % 2 ^ 64).toNat

/-- The address returned is the old position, the position has moved behind the request, and every
page of the request is one that the process can write and not execute, with a cleared frame of its
own that was free. -/
structure Delivered (size : Nat) (before : Caller) (rax : Nat) (after : Caller) : Prop where
  address : rax = before.process.userHeapPosition
  position : after.process.userHeapPosition =
    before.process.userHeapPosition + pageSize * ((size + pageSize - 1) / pageSize)
  frames : ∀ virt, rax ≤ virt → virt < rax + size → ∃ frame,
    spacesOf after.machine.phys before.process.pagemap (pageOf virt) = some frame ∧
      frame / pageSize ∈ freeSet before.machine.pmm ∧ frame / pageSize ∉ freeSet after.machine.pmm ∧
      ∀ offset < pageSize, after.machine.phys (frame + offset) = 0
  distinct : ∀ virt other, rax ≤ virt → virt < rax + size → rax ≤ other → other < rax + size →
    spacesOf after.machine.phys before.process.pagemap (pageOf virt) =
      spacesOf after.machine.phys before.process.pagemap (pageOf other) → pageOf virt = pageOf other
  allowed : ∀ virt, rax ≤ virt → virt < rax + size →
    UserAccessible after.machine.phys before.process.pagemap (pageOf virt) ∧
      Writable after.machine.phys before.process.pagemap (pageOf virt) ∧
      NoExecute after.machine.phys before.process.pagemap (pageOf virt)

section Promise

variable {roots held more : Set Nat} {caller after now : Caller} {machine : Machine}
  {root page index size r8 : Nat} {files : Files} {result : Int}

theorem Placed.user_tables {after : Machine}
    (placed : Placed roots held root page index machine after)
    (before : Tables roots held machine.pmm machine.phys) (user : UserTables machine.phys root) :
    UserTables after.phys root :=
  (user.kept before (before.take_kept placed.free) placed.ready.isRoot).map placed.links
    placed.ready.isRoot (Or.inr (by decide))

/-- A page with the leaf entry of an anonymous page, below user tables. -/
theorem user_tables_allow {phys : Memory} {frame : Nat} (tables : UserTables phys root)
    (lower : ¬UpperHalf page) (leaf : leafWord phys root page = anonymousWord frame) :
    UserAccessible phys root page ∧ Writable phys root page ∧ NoExecute phys root page := by
  have last : wayWord phys root page 3 = pageFloor frame ||| anonymousFlags ||| ptePresent := by
    rw [wayWord, Nat.sub_self, pow_zero, Nat.div_one]
    exact leaf
  have present : ∀ level < 3, decode (wordAt phys root level (page / 512 ^ (3 - level))) ≠ none := by
    intro level inner
    apply way_present _ (by omega)
    rw [leaf]
    exact mapped_word_present frame anonymousFlags
  refine ⟨?_, ?_, 3, by decide, ?_⟩
  · intro level inner
    rcases Nat.lt_succ_iff_lt_or_eq.mp inner with upper | rfl
    · exact (tables level _ upper (lower_place_page lower inner) (present level upper)).1
    · rw [last, leaf_user]
      decide
  · intro level inner
    rcases Nat.lt_succ_iff_lt_or_eq.mp inner with upper | rfl
    · exact (tables level _ upper (lower_place_page lower inner) (present level upper)).2
    · rw [last, leaf_writable]
      decide
  · rw [last, leaf_no_execute]
    exact Or.inr (by decide)

theorem sign_extended_eq_iff {position : Nat} (low : position < 2 ^ 47) :
    signExtended (toInt position) = position ↔ position < 2 ^ 31 := by
  unfold signExtended toInt
  split <;> omega

theorem mmap_pages_eq_iff (word : size < 2 ^ 64) :
    mmapPages size = (size + pageSize - 1) / pageSize ↔ (size + pageSize - 1) / pageSize < 2 ^ 32 := by
  unfold mmapPages pageCeil pageFloor add64 pageSize
  omega

theorem ends_syscallMmap_anonymous {returned : Int → Caller → Prop} {stopped : Stop → Caller → Prop}
    (anonymous : toInt r8 = -1)
    (loop : Ends (forCount mapAnonymousPage (mmapPages size) 0)
      (fun _ after => returned (toInt caller.process.userHeapPosition) after) stopped caller) :
    Ends (syscallMmap files size r8) returned stopped caller := by
  simp only [syscallMmap, ends_bind, ends_get, if_neg (not_not.mpr anonymous)]
  apply ends_mono loop _ fun _ _ => id
  intro _ after done
  rwa [ends_pure]

theorem ends_mapAnonymousPages_advance (word : caller.process.userHeapPosition < 2 ^ 64) (count : Nat) :
    Ends (forCount mapAnonymousPage count 0) (fun _ after => Advanced caller count after)
      (fun _ _ => True) caller := by
  have first : Advanced caller 0 caller := by
    rw [Advanced, Nat.zero_mul, add64, Nat.add_zero, Nat.mod_eq_of_lt word]
  have turns : ∀ turn now, 0 ≤ turn → turn < 0 + count → Advanced caller turn now →
      Ends (mapAnonymousPage turn) (fun _ after => Advanced caller (turn + 1) after)
        (fun _ _ => True) now := by
    intro turn now _ _ advanced
    rw [mapAnonymousPage, ends_bind, ends_kernel]
    apply ends_of_forall _ fun _ _ => trivial
    intro frame machine
    rw [ends_bind, ends_kernel, ends_assertThat]
    split
    · rw [ends_mapAtPosition]
      exact ends_of_forall (fun _ after => advanced.next after) fun _ _ => trivial
    · trivial
  have loop := ends_forCount _ count 0 turns first
  rwa [Nat.zero_add] at loop

theorem Delivering.delivered {start : Caller} {count : Nat}
    (delivering : Delivering roots held start count more after)
    (tables : UserTables after.machine.phys start.process.pagemap)
    (aligned : start.process.userHeapPosition % pageSize = 0)
    (pages : count = (size + pageSize - 1) / pageSize) (few : count < 2 ^ 32)
    (lower : start.process.userHeapPosition < 2 ^ 31) :
    Delivered size start start.process.userHeapPosition after := by
  -- every address of the request lies on one of the pages that the loop has mapped
  have page : ∀ virt, start.process.userHeapPosition ≤ virt →
      virt < start.process.userHeapPosition + size → ∃ index < count,
        pageOf virt = heapPage start.process.userHeapPosition index ∧ ¬UpperHalf (pageOf virt) := by
    intro virt above below
    refine ⟨virt / pageSize - start.process.userHeapPosition / pageSize, ?_, ?_, ?_⟩
    · unfold pageSize at *
      omega
    · unfold heapPage pageOf add64 pageSize at *
      omega
    · unfold UpperHalf pageOf pageSize at *
      omega
  refine ⟨rfl, ?_, ?_, ?_, ?_⟩
  · rw [delivering.advanced, ← pages, Nat.mul_comm pageSize]
    exact Nat.mod_eq_of_lt (by unfold pageSize; omega)
  · intro virt above below
    obtain ⟨index, inside, same, -⟩ := page virt above below
    obtain ⟨frame, shows, free, member, zero⟩ := delivering.shown index inside
    refine ⟨frame * pageSize, ?_, ?_, (delivering.ready.tables.heldFrames _ member).not_free, zero⟩
    · rw [same]
      exact delivering.found shows member
    · rwa [page_address_div]
  · intro virt other above below otherAbove otherBelow equal
    obtain ⟨left, leftInside, onLeft, -⟩ := page virt above below
    obtain ⟨right, rightInside, onRight, -⟩ := page other otherAbove otherBelow
    rw [onLeft, onRight] at equal
    rw [onLeft, onRight, delivering.spaces_injective leftInside rightInside equal]
  · intro virt above below
    obtain ⟨index, inside, same, lowerHalf⟩ := page virt above below
    obtain ⟨frame, shows, -⟩ := delivering.shown index inside
    rw [Shows, ← same] at shows
    exact user_tables_allow tables lowerHalf shows

theorem ends_syscallMmap_delivers
    (ready : Mappable caller.process.pagemap roots held caller.machine)
    (tables : UserTables caller.machine.phys caller.process.pagemap)
    (aligned : caller.process.userHeapPosition % pageSize = 0) (anonymous : toInt r8 = -1)
    (low : caller.process.userHeapPosition < 2 ^ 31) (word : size < 2 ^ 64)
    (few : (size + pageSize - 1) / pageSize < 2 ^ 32) :
    Ends (syscallMmap files size r8)
      (fun result after => Delivered size caller (signExtended result) after)
      (fun _ _ => (freeSet caller.machine.pmm).card < 4 * mmapPages size) caller := by
  have pages := (mmap_pages_eq_iff word).mpr few
  apply ends_syscallMmap_anonymous anonymous
  apply ends_mono (@ends_mapAnonymousPages roots held caller (mmapPages size)
    (fun _ machine => UserTables machine.phys caller.process.pagemap) ready (mmap_pages_lt size)
    (by unfold pageSize at *; omega) tables ?_) _ fun _ _ => id
  · intro turn more now index machine _ delivering here placed
    exact placed.user_tables delivering.ready.tables here
  · rintro _ after ⟨⟨more, delivering⟩, here⟩
    rw [(sign_extended_eq_iff (low.trans (by decide))).mpr low]
    exact delivering.delivered here aligned pages (pages ▸ few) low

end Promise

/-- An anonymous `mmap` that returns delivers what it returns exactly if the heap of the process
lies below `2 ^ 31` and less than `2 ^ 32` pages are asked for. -/
theorem anonymous_mmap_delivers_iff {files : Files} {roots held : Set Nat} {size r8 : Nat}
    {caller after : Caller} {result : Int}
    (ready : Mappable caller.process.pagemap roots held caller.machine)
    (tables : UserTables caller.machine.phys caller.process.pagemap)
    (aligned : caller.process.userHeapPosition % pageSize = 0)
    (low : caller.process.userHeapPosition < 2 ^ 47) (word : size < 2 ^ 64)
    (anonymous : toInt r8 = -1) (run : syscallMmap files size r8 caller = .ok result after) :
    Delivered size caller (signExtended result) after ↔
      caller.process.userHeapPosition < 2 ^ 31 ∧ (size + pageSize - 1) / pageSize < 2 ^ 32 := by
  constructor
  · intro delivered
    have spec : Ends (syscallMmap files size r8)
        (fun result after => result = toInt caller.process.userHeapPosition ∧
          Advanced caller (mmapPages size) after) (fun _ _ => True) caller :=
      ends_syscallMmap_anonymous anonymous (ends_mono
        (ends_mapAnonymousPages_advance (low.trans (by decide)) (mmapPages size))
        (fun _ _ advanced => ⟨rfl, advanced⟩) fun _ _ _ => trivial)
    obtain ⟨rfl, advanced⟩ := spec.returns run
    have position := delivered.position
    have pages := mmap_pages_lt size
    rw [advanced] at position
    change (caller.process.userHeapPosition + mmapPages size * pageSize) % 2 ^ 64 = _ at position
    refine ⟨(sign_extended_eq_iff low).mp delivered.address, (mmap_pages_eq_iff word).mp ?_⟩
    unfold pageSize at *
    omega
  · intro fits
    exact (ends_syscallMmap_delivers ready tables aligned anonymous fits.1 word fits.2).returns run

def callerAt (position : Nat) : Caller :=
  { smallCaller with process := { smallCaller.process with userHeapPosition := position } }

theorem caller_at_maps {position : Nat} (low : position < 2 ^ 46) : ∃ result after,
    syscallMmap onePageScreen 4096 (2 ^ 64 - 1) (callerAt position) = .ok result after ∧
      result = toInt position := by
  have spec : Ends (syscallMmap onePageScreen 4096 (2 ^ 64 - 1)) (fun result _ => result = toInt position)
      (fun _ _ => False) (callerAt position) := by
    apply ends_syscallMmap_anonymous (by decide)
    apply ends_mono (@ends_mapAnonymousPages {4096} ∅ (callerAt position) (mmapPages 4096)
      (fun _ _ => True) ⟨small_machine_tables, rfl, rfl, rfl⟩ (by decide) ?_ trivial
      fun _ _ _ _ _ _ _ _ _ => trivial) (fun _ _ _ => rfl)
    · intro _ _ short
      have many : 2040 ≤ (freeSet smallMachine.pmm).card := small_machine_free
      have one : mmapPages 4096 = 1 := by decide
      rw [one] at short
      exact absurd (short.trans_le (by decide)) (Nat.not_lt.mpr many)
    · change position + 1 * 4096 ≤ 2 ^ 47
      omega
  exact spec.exists_ok

/-- The first page that a process asks for, which the idle process has spawned. -/
theorem first_page_delivered : ∃ installed idle machine process started result after,
    heapInstall roomyMachine = .ok ⟨⟩ installed ∧ processCreate 0 0 installed = .ok idle machine ∧
      processSpawnElf (some idle) 0x100000 smallImage 128 machine = .ok process started ∧
      syscallMmap onePageScreen 4096 (2 ^ 64 - 1) ⟨started, process⟩ = .ok result after ∧
      Delivered 4096 ⟨started, process⟩ (signExtended result) after := by
  obtain ⟨installed, idle, machine, boots, booted⟩ := roomy_machine_boots
  have many := booted.free
  obtain ⟨process, started, smaller, ledger, spawn, spawned, spent, -⟩ := small_process_starts
    (booted.serving ∅ fun _ none => none.elim) booted.settled booted.first (by decide) (by omega)
  have serving := spawned.serving
  have ready : Mappable process.pagemap _ ledger.held started :=
    ⟨serving.balanced.holdings.tables, Set.mem_insert _ _, serving.unlatched⟩
  have position : process.userHeapPosition = 0x401000 := spawned.heapPosition.trans small_image_heap
  have aligned : process.userHeapPosition % pageSize = 0 := by
    rw [position]
    decide
  have low : process.userHeapPosition < 2 ^ 31 := by
    rw [position]
    decide
  have one : mmapPages 4096 = 1 := by decide
  have ends := @ends_syscallMmap_delivers _ _ ⟨started, process⟩ 4096 (2 ^ 64 - 1) onePageScreen ready
    spawned.user aligned (by decide) low (by decide) (by decide)
  obtain ⟨result, after, run, -⟩ := (ends_mono ends (fun _ _ => id) fun _ _ few =>
    (by rw [one] at few; dsimp only at few; omega : False)).exists_ok
  have delivers := @anonymous_mmap_delivers_iff onePageScreen _ _ 4096 (2 ^ 64 - 1) ⟨started, process⟩
    after result ready spawned.user aligned (low.trans (by decide)) (by decide) (by decide) run
  exact ⟨installed, idle, machine, process, started, result, after, boots, booted.create, spawn, run,
    delivers.mpr ⟨low, by decide⟩⟩

/-- With the heap at `2 ^ 31` the process gets an address in the kernel half. -/
theorem high_page_misplaced : ∃ result after,
    syscallMmap onePageScreen 4096 (2 ^ 64 - 1) (callerAt 0x80000000) = .ok result after ∧
      signExtended result = 0xFFFFFFFF80000000 ∧
      ¬Delivered 4096 (callerAt 0x80000000) (signExtended result) after := by
  obtain ⟨result, after, run, rfl⟩ := caller_at_maps (show 0x80000000 < 2 ^ 46 by decide)
  refine ⟨_, after, run, by decide, fun delivered => ?_⟩
  exact absurd delivered.address (by decide)

end RiriaKernel.AnonymousMappings
