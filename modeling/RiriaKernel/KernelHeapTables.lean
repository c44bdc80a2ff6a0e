import RiriaKernel.KernelHeapLayouts
import RiriaKernel.PageTableWords

/-!
# The heap's pages in the page tables

Growing the heap maps fresh frames into one slot of the kernel's PML4. While that slot is
present, or while there is a single pagemap, growth keeps the forest of page tables; and
with enough free frames it returns.
-/

namespace RiriaKernel.KernelHeapTables

open ByteMemory HaltingPrograms KernelState PhysicalAllocator PageTables
open PageTableForests PageTableOperations PageTableWords KernelHeap KernelHeapLayouts

def heapSlot : Nat := 258

/-- The heap's slot exists, or nobody else could miss it. -/
def HeapReady (roots : Set Nat) (root : Nat) (phys : Memory) : Prop :=
  (∀ other, other ∈ roots → other = root) ∨ child phys root heapSlot ≠ none

theorem HeapReady.top_ready {roots : Set Nat} {root page : Nat} {phys : Memory}
    (ready : HeapReady roots root phys) (slot : page / 512 ^ 3 = heapSlot) :
    TopReady roots root page phys := by
  intro _
  rwa [slot]

theorem heap_page_slot {virt : Nat} (lower : kernelHeapStart ≤ virt)
    (upper : virt < kernelHeapStart + 2 ^ 39) : pageOf virt / 512 ^ 3 = heapSlot := by
  unfold pageOf heapSlot kernelHeapStart at *
  omega

def Visible (phys : Memory) (root page : Nat) : Prop :=
  ∃ frame, frame ≠ 0 ∧ decode (leafWord phys root page) = some frame

theorem Visible.top_entry {phys : Memory} {root virt : Nat} (seen : Visible phys root (pageOf virt)) :
    child phys root (pml4Index virt) ≠ none := by
  intro absent
  obtain ⟨frame, -, found⟩ := seen
  rw [leafWord, table_at_pt, absent, Option.bind_none, tableWord, decode_zero] at found
  cases found

/-- The page tables after growth that took at most `spent` frames. -/
structure Expanded (roots held : Set Nat) (root spent : Nat) (before after : Machine) : Prop where
  tables : Tables roots held after.pmm after.phys
  bytes : ∀ address, pageFloor address ∈ held → after.phys address = before.phys address
  lower : ∀ other, other ∈ roots → ∀ page, page < 512 ^ 4 → ¬UpperHalf page →
    leafWord after.phys other page = leafWord before.phys other page
  visible : ∀ other, other ∈ roots → ∀ page, page < 512 ^ 4 →
    Visible before.phys other page → Visible after.phys other page
  free : freeSet after.pmm ⊆ freeSet before.pmm
  budget : (freeSet before.pmm).card ≤ (freeSet after.pmm).card + spent
  slot : child before.phys root heapSlot ≠ none → child after.phys root heapSlot ≠ none
  locked : after.locked = before.locked
  hhdm : after.hhdm = before.hhdm
  kernelPagemap : after.kernelPagemap = before.kernelPagemap
  highestPage : after.pmm.highestPage = before.pmm.highestPage

/-! ## Frames in the order they are taken -/

/-- The free frames have lost some, and those are below all that are left. -/
structure TakesLowest (before after : Machine) : Prop where
  free : freeSet after.pmm ⊆ freeSet before.pmm
  below : ∀ taken ∈ freeSet before.pmm, taken ∉ freeSet after.pmm →
    ∀ left ∈ freeSet after.pmm, taken < left

section Lowest

variable {machine : Machine}

theorem TakesLowest.refl (machine : Machine) : TakesLowest machine machine :=
  ⟨Finset.Subset.refl _, fun _ member gone => absurd member gone⟩

theorem TakesLowest.trans {first second third : Machine} (left : TakesLowest first second)
    (right : TakesLowest second third) : TakesLowest first third := by
  refine ⟨right.free.trans left.free, ?_⟩
  intro taken member gone rest still
  by_cases kept : taken ∈ freeSet second.pmm
  · exact right.below taken kept gone rest still
  · exact left.below taken member kept rest (right.free still)

theorem TakesLowest.of_pmm {before after later : Machine} (takes : TakesLowest before after)
    (same : later.pmm = after.pmm) : TakesLowest before later := by
  obtain ⟨free, below⟩ := takes
  rw [← same] at free below
  exact ⟨free, below⟩

theorem takes_lowest_page {page : Nat} (least : IsLeast (freeSet machine.pmm : Set Nat) page) :
    TakesLowest machine (takePage machine page) := by
  have erased := freeSet_takePage machine page
  constructor
  · rw [erased]
    exact Finset.erase_subset _ _
  · intro taken member gone left still
    rw [erased] at gone still
    have same : taken = page := by
      by_contra other
      exact gone (Finset.mem_erase.mpr ⟨other, member⟩)
    rw [same]
    have lower := least.2 (Finset.mem_coe.mpr (Finset.mem_of_mem_erase still))
    have different := Finset.ne_of_mem_erase still
    omega

theorem ends_vmmMapPage_lowest (unlocked : machine.locked .pmm = false)
    (pagemap virt phys flags : Nat) :
    Ends (vmmMapPage pagemap virt phys flags) (fun _ after => TakesLowest machine after)
      (fun _ _ => True) machine := by
  let holds : Nat → Machine → Prop := fun _ after =>
    TakesLowest machine after ∧ after.locked .pmm = false
  have relock : ∀ (value : Bool) (after : Machine), holds 0 after →
      holds 0 { after with locked := Function.update after.locked .vmm value } :=
    fun value after here => ⟨here.1.of_pmm rfl, here.2⟩
  apply ends_mono (@typed_vmmMapPage Nat holds (fun _ _ => True) id 0 0 pagemap virt phys flags ?_ ?_ ?_
    ?_ ?_ machine ⟨TakesLowest.refl machine, unlocked⟩) (fun _ _ done => done.1) fun _ _ _ => trivial
  · intro after here
    rw [ends_spinLock]
    split
    · trivial
    · exact relock true after here
  · intro count _ after here
    refine ⟨here, ends_pmmAllocate here.2 (fun page least => ?_) fun _ => trivial⟩
    exact ⟨⟨here.1.trans (takes_lowest_page least), here.2⟩, fun _ _ => trivial⟩
  · exact fun _ after phys here => ⟨here.1.of_pmm rfl, here.2⟩
  · intro _ after _
    simp only [mapFailure, ends_bind, ends_spinUnlock, ends_panicWith]
  · intro after here
    rw [ends_spinUnlock]
    exact relock false after here

end Lowest

/-- One page of growth, with the frame it gets and the frames its tables get. -/
structure PageGrown (roots : Set Nat) (root virt : Nat) (before : Machine) (frame : Nat)
    (after : Machine) : Prop where
  least : IsLeast (freeSet before.pmm : Set Nat) frame
  small : frame * pageSize < 2 ^ 52
  leaf : LeafSet roots root (pageOf virt) (frame * pageSize ||| heapFlags ||| ptePresent)
    before.phys after.phys
  tables : TablesAdded roots root (pageOf virt) before.phys after.phys
  lowest : TakesLowest before after
  taken : (freeSet after.pmm).card + 1 + missingTables before.phys root (pageOf virt) =
    (freeSet before.pmm).card

section PageGrown

variable {roots : Set Nat} {root virt frame : Nat} {machine after : Machine}

section

variable (grown : PageGrown roots root virt machine frame after)

include grown

theorem PageGrown.decoded {other : Nat} (isRoot : other ∈ roots)
    (shared : other = root ∨ UpperHalf (pageOf virt)) :
    decode (leafWord after.phys other (pageOf virt)) = some (frame * pageSize) := by
  rw [grown.leaf other isRoot _ (page_of_lt _), if_pos ⟨rfl, shared⟩, Nat.or_assoc]
  exact decode_or (Nat.mul_mod_left frame pageSize) grown.small (by decide) (by decide)

theorem PageGrown.frame_taken : frame ∉ freeSet after.pmm := by
  intro still
  have fewer := grown.taken
  have proper : freeSet after.pmm ≠ freeSet machine.pmm := by
    intro same
    rw [same] at fewer
    omega
  obtain ⟨taken, member, gone⟩ :=
    Finset.exists_of_ssubset (Finset.ssubset_iff_subset_ne.mpr ⟨grown.lowest.free, proper⟩)
  have below := grown.lowest.below taken member gone frame still
  have lower := grown.least.2 (Finset.mem_coe.mpr member)
  omega

theorem PageGrown.free_rest : freeSet after.pmm ⊆ (freeSet machine.pmm).erase frame := by
  intro page still
  exact Finset.mem_erase.mpr
    ⟨fun same => grown.frame_taken (same ▸ still), grown.lowest.free still⟩

theorem PageGrown.free_complete (complete : missingTables machine.phys root (pageOf virt) = 0) :
    freeSet after.pmm = (freeSet machine.pmm).erase frame := by
  have member : frame ∈ freeSet machine.pmm := grown.least.1
  have erased := Finset.card_erase_add_one member
  have count := grown.taken
  exact Finset.eq_of_subset_of_card_le grown.free_rest (by omega)

/-- The next page gets the neighbouring frame exactly when that one is free and no table comes
in between. -/
theorem PageGrown.next_frame_iff {next : Nat} (least : IsLeast (freeSet after.pmm : Set Nat) next) :
    next = frame + 1 ↔
      missingTables machine.phys root (pageOf virt) = 0 ∧ frame + 1 ∈ freeSet machine.pmm := by
  have nextFree : next ∈ freeSet after.pmm := least.1
  have nextBefore := grown.lowest.free nextFree
  constructor
  · intro neighbour
    rw [neighbour] at nextBefore nextFree
    refine ⟨?_, nextBefore⟩
    by_contra missing
    have frameFree : frame ∈ freeSet machine.pmm := grown.least.1
    have erased := Finset.card_erase_add_one frameFree
    have count := grown.taken
    have proper : freeSet after.pmm ≠ (freeSet machine.pmm).erase frame := by
      intro same
      rw [same] at count
      omega
    obtain ⟨table, member, gone⟩ :=
      Finset.exists_of_ssubset (Finset.ssubset_iff_subset_ne.mpr ⟨grown.free_rest, proper⟩)
    have tableFree := Finset.mem_of_mem_erase member
    have below := grown.lowest.below table tableFree gone _ nextFree
    have lower := grown.least.2 (Finset.mem_coe.mpr tableFree)
    have apart := Finset.ne_of_mem_erase member
    omega
  · rintro ⟨complete, neighbour⟩
    have same := grown.free_complete complete
    have still : frame + 1 ∈ freeSet after.pmm := by
      rw [same]
      exact Finset.mem_erase.mpr ⟨by omega, neighbour⟩
    have upper := least.2 (Finset.mem_coe.mpr still)
    have above := grown.least.2 (Finset.mem_coe.mpr nextBefore)
    have different : next ≠ frame := fun same => grown.frame_taken (same ▸ nextFree)
    omega

theorem PageGrown.missing_kept (isRoot : root ∈ roots)
    (complete : missingTables machine.phys root (pageOf virt) = 0) {page : Nat}
    (bounded : page < 512 ^ 4) :
    missingTables after.phys root page = missingTables machine.phys root page := by
  have same : ∀ level key, level ≤ 3 → key < 512 ^ level →
      tableAt after.phys root level key = tableAt machine.phys root level key := by
    intro level key shallow small
    rcases grown.tables root isRoot level key shallow small with kept | ⟨none, positive, rfl, -⟩
    · exact kept
    · exfalso
      unfold missingTables at complete
      obtain rfl | rfl | rfl : level = 1 ∨ level = 2 ∨ level = 3 := by omega
      · rw [if_pos none] at complete
        omega
      · rw [if_pos none] at complete
        omega
      · rw [show 4 - 3 = 1 by decide, pow_one] at none
        rw [if_pos none] at complete
        omega
  have first := same 1 (page / 512 ^ 3) (by decide) (page_prefix_lt bounded (show 1 ≤ 4 by decide))
  have second := same 2 (page / 512 ^ 2) (by decide) (page_prefix_lt bounded (show 2 ≤ 4 by decide))
  have third := same 3 (page / 512) (by decide) (page_table_key_lt bounded)
  rw [missingTables, missingTables, first, second, third]

end

end PageGrown

section Expansion

variable {roots held : Set Nat} {root : Nat} {machine : Machine}

theorem Expanded.ready {spent : Nat} {before after : Machine}
    (expanded : Expanded roots held root spent before after)
    (ready : HeapReady roots root before.phys) : HeapReady roots root after.phys :=
  ready.imp_right expanded.slot

theorem Expanded.refl (tables : Tables roots held machine.pmm machine.phys) :
    Expanded roots held root 0 machine machine :=
  ⟨tables, fun _ _ => rfl, fun _ _ _ _ _ => rfl, fun _ _ _ _ seen => seen, Finset.Subset.refl _,
    Nat.le_refl _, fun present => present, rfl, rfl, rfl, rfl⟩

theorem Expanded.trans {spent more : Nat} {first second third : Machine}
    (left : Expanded roots held root spent first second)
    (right : Expanded roots held root more second third) :
    Expanded roots held root (spent + more) first third where
  tables := right.tables
  bytes := fun address owned => (right.bytes address owned).trans (left.bytes address owned)
  lower := fun other isRoot page bounded own =>
    (right.lower other isRoot page bounded own).trans (left.lower other isRoot page bounded own)
  visible := fun other isRoot page bounded seen =>
    right.visible other isRoot page bounded (left.visible other isRoot page bounded seen)
  free := right.free.trans left.free
  budget := by
    have leftBudget := left.budget
    have rightBudget := right.budget
    omega
  slot := fun present => right.slot (left.slot present)
  locked := right.locked.trans left.locked
  hhdm := right.hhdm.trans left.hhdm
  kernelPagemap := right.kernelPagemap.trans left.kernelPagemap
  highestPage := right.highestPage.trans left.highestPage

theorem heap_flags_small : heapFlags < 2 ^ 64 := by decide

theorem upper_half_of_slot {page : Nat} (slot : page / 512 ^ 3 = heapSlot) : UpperHalf page := by
  unfold heapSlot at slot
  unfold UpperHalf
  omega

section Page

variable {virt page word : Nat} {after : Machine}
  (tables : Tables roots held machine.pmm machine.phys)

include tables

theorem PageGrown.visible (grown : PageGrown roots root virt machine page after)
    (slot : pageOf virt / 512 ^ 3 = heapSlot) {other : Nat} (otherRoot : other ∈ roots) :
    Visible after.phys other (pageOf virt) :=
  ⟨page * pageSize, ((tables.take grown.least.1).heldFrames _ (Set.mem_insert _ _)).nonzero,
    grown.decoded otherRoot (Or.inr (upper_half_of_slot slot))⟩

variable (isRoot : root ∈ roots)

include isRoot

theorem page_grown_of_mapped (least : IsLeast (freeSet machine.pmm : Set Nat) page)
    (mapped : Mapped roots (insert (page * pageSize) held) root (pageOf virt)
      (pageFloor (page * pageSize) ||| heapFlags ||| ptePresent) (takePage machine page) after)
    (added : TablesAdded roots root (pageOf virt) (takePage machine page).phys after.phys)
    (count : (freeSet after.pmm).card + missingTables (takePage machine page).phys root (pageOf virt) =
      (freeSet (takePage machine page).pmm).card)
    (lowest : TakesLowest (takePage machine page) after) :
    PageGrown roots root virt machine page after := by
  have member : page ∈ freeSet machine.pmm := least.1
  have kept := tables.take_kept member
  have erased := Finset.card_erase_add_one member
  refine ⟨least, tables.free_page_small member, ?_, ?_, (takes_lowest_page least).trans lowest, ?_⟩
  · intro other otherRoot key bounded
    rw [mapped.leaf other otherRoot key bounded, tables.leaf_kept kept otherRoot bounded,
      page_floor_of_aligned (Nat.mul_mod_left page pageSize)]
  · intro other otherRoot level key shallow bounded
    have same : tableAt (takePage machine page).phys other level key =
        tableAt machine.phys other level key :=
      (tables.agrees kept).walk otherRoot (show level ≤ 4 by omega) bounded
    have cases := added other otherRoot level key shallow bounded
    rwa [same] at cases
  · rw [freeSet_takePage, missing_tables_kept tables isRoot (page_of_lt _) kept] at count
    omega

theorem heap_slot_take (member : page ∈ freeSet machine.pmm) :
    child (takePage machine page).phys root heapSlot = child machine.phys root heapSlot :=
  tables.agrees (tables.take_kept member) root heapSlot (isTable_of_root isRoot)
    (show heapSlot < 512 by decide)

theorem PageGrown.expanded (grown : PageGrown roots root virt machine page after)
    (mapped : Mapped roots (insert (page * pageSize) held) root (pageOf virt) word
      (takePage machine page) after)
    (slot : pageOf virt / 512 ^ 3 = heapSlot) : Expanded roots held root 4 machine after where
  tables := mapped.grown.tables.mono (Set.subset_insert _ _)
  bytes := by
    intro address owned
    rw [mapped.grown.bytes address (Set.mem_insert_of_mem _ owned), take_page_phys_other]
    intro same
    rw [same] at owned
    exact tables.free_not_held grown.least.1 owned
  lower := by
    intro other otherRoot index bounded own
    rw [grown.leaf other otherRoot index bounded, if_neg]
    rintro ⟨rfl, -⟩
    exact own (upper_half_of_slot slot)
  visible := by
    intro other otherRoot seenPage bounded seen
    by_cases hit : seenPage = pageOf virt
    · rw [hit]
      exact grown.visible tables slot otherRoot
    · unfold Visible
      rw [grown.leaf other otherRoot seenPage bounded, if_neg fun both => hit both.1]
      exact seen
  free := grown.lowest.free
  budget := by
    have count := grown.taken
    have most := missing_tables_le machine.phys root (pageOf virt)
    omega
  slot := by
    intro present
    rw [← heap_slot_take tables isRoot grown.least.1] at present
    have upper := mapped.upper (Or.inr (by rwa [slot]))
    rw [child, upper root isRoot heapSlot (by decide) (by decide)]
    exact present
  locked := mapped.locked
  hhdm := mapped.grown.elsewhere.hhdm
  kernelPagemap := mapped.grown.elsewhere.kernelPagemap
  highestPage := mapped.grown.elsewhere.highestPage

end Page

theorem ends_expandPage_tables {base index : Nat}
    (tables : Tables roots held machine.pmm machine.phys) (isRoot : root ∈ roots)
    (unlockedPmm : machine.locked .pmm = false) (unlockedVmm : machine.locked .vmm = false)
    (ready : HeapReady roots root machine.phys)
    (slot : pageOf (add64 base (index * pageSize)) / 512 ^ 3 = heapSlot) :
    Ends (expandPage root base index)
      (fun _ after => Expanded roots held root 4 machine after ∧
        (∀ other, other ∈ roots →
          Visible after.phys other (pageOf (add64 base (index * pageSize)))) ∧
        after.heap = machine.heap ∧
        ∃ frame, PageGrown roots root (add64 base (index * pageSize)) machine frame after)
      (fun stop _ => stop = .panic "out of memory in pmm_allocate!" ∧
        (freeSet machine.pmm).card < 4) machine := by
  rw [expandPage, ends_bind]
  apply ends_pmmAllocate unlockedPmm
  · intro page least
    have member : page ∈ freeSet machine.pmm := least.1
    have small := tables.free_page_small member
    have taken := tables.take member
    have erased := Finset.card_erase_add_one member
    have nonzero : page * pageSize ≠ 0 := (taken.heldFrames _ (Set.mem_insert _ _)).nonzero
    have readyTaken : HeapReady roots root (takePage machine page).phys := by
      unfold HeapReady
      rwa [heap_slot_take tables isRoot member]
    rw [ends_bind, ends_require, if_pos nonzero, ends_bind]
    apply ends_mono (ends_and
      (ends_vmmMapPage_walks taken isRoot unlockedPmm unlockedVmm (readyTaken.top_ready slot)
        (Nat.lt_trans small (by decide)) heap_flags_small)
      (@ends_vmmMapPage_lowest (takePage machine page) unlockedPmm _ _ _ _))
    · rintro _ after ⟨⟨rfl, mapped, added, count, -⟩, lowest⟩
      rw [ends_require, if_pos rfl]
      have grown := page_grown_of_mapped tables isRoot least mapped added count lowest
      exact ⟨grown.expanded tables isRoot mapped slot,
        fun other otherRoot => grown.visible tables slot otherRoot,
        mapped.grown.elsewhere.heap, page, grown⟩
    · rintro stop after ⟨⟨rfl, few, -⟩, -⟩
      have most := missing_tables_le (takePage machine page).phys root
        (pageOf (add64 base (index * pageSize)))
      rw [freeSet_takePage] at few
      exact ⟨rfl, by omega⟩
  · intro empty
    rw [empty]
    exact ⟨rfl, by decide⟩

def RegionVisible (roots : Set Nat) (base pages : Nat) (phys : Memory) : Prop :=
  ∀ index, index < pages → ∀ other, other ∈ roots →
    Visible phys other (pageOf (base + index * pageSize))

/-- A growth step: the loop over its pages keeps an invariant, and the new region is linked in. -/
theorem ends_heapExpandPages_of {pages : Nat} (invariant : Nat → Machine → Prop)
    {returned : Nat → Machine → Prop} {stopped : Stop → Machine → Prop} (some : pages ≠ 0)
    (start : machine.heap.start = kernelHeapStart)
    (inside : machine.heap.size + pages * pageSize ≤ 2 ^ 39)
    (aligned : machine.heap.size % pageSize = 0 ∨ ∀ message, stopped (.panic message) machine)
    (initial : invariant 0 machine)
    (step : ∀ index state, index < pages → pageOf (add64 (kernelHeapStart + machine.heap.size)
        (index * pageSize)) / 512 ^ 3 = heapSlot → invariant index state →
      Ends (expandPage machine.kernelPagemap (kernelHeapStart + machine.heap.size) index)
        (fun _ after => invariant (index + 1) after) stopped state)
    (link : ∀ first, invariant pages first →
      Ends (addRegion (kernelHeapStart + machine.heap.size) (pages * pageSize))
        (fun _ after => returned 1 after) stopped first) :
    Ends (heapExpandPages pages) returned stopped machine := by
  have base : add64 machine.heap.start machine.heap.size = kernelHeapStart + machine.heap.size := by
    rw [start, add64, Nat.mod_eq_of_lt]
    unfold kernelHeapStart
    omega
  have region : pages * pageSize % 2 ^ 64 = pages * pageSize := Nat.mod_eq_of_lt (by omega)
  have startAligned : machine.heap.start % pageSize = 0 := by
    rw [start]
    decide
  have loop := @ends_forCount _ _ (expandPage machine.kernelPagemap (kernelHeapStart + machine.heap.size))
    invariant stopped pages 0 (fun index state _ below => ?_) machine initial
  · rw [Nat.zero_add] at loop
    simp only [heapExpandPages, if_neg some, ends_bind, ends_get, base, region, ends_assertThat,
      if_pos startAligned]
    split
    · apply ends_mono loop _ fun _ _ => id
      intro _ first reached
      rw [ends_bind]
      apply ends_mono (link first reached) _ fun _ _ => id
      intro _ after linked
      rwa [ends_pure]
    · next misaligned => exact aligned.resolve_left misaligned _
  · rw [Nat.zero_add] at below
    apply step index state below
    apply heap_page_slot
    · unfold add64 kernelHeapStart pageSize at *
      omega
    · unfold add64 kernelHeapStart pageSize at *
      omega

/-- Growth while the heap stays inside its slot. It stops for want of frames, or where the
list code would not end. -/
theorem ends_heapExpandPages_tables {pages : Nat}
    (tables : Tables roots held machine.pmm machine.phys) (isRoot : machine.kernelPagemap ∈ roots)
    (unlockedPmm : machine.locked .pmm = false) (unlockedVmm : machine.locked .vmm = false)
    (ready : HeapReady roots machine.kernelPagemap machine.phys)
    (start : machine.heap.start = kernelHeapStart) (aligned : machine.heap.size % pageSize = 0)
    (inside : machine.heap.size + pages * pageSize ≤ 2 ^ 39) :
    Ends (heapExpandPages pages)
      (fun grown after => Expanded roots held machine.kernelPagemap (4 * pages) machine after ∧
        after.heap.start = machine.heap.start ∧
        after.heap.size = machine.heap.size + pages * pageSize ∧
        (grown = 0 ↔ pages = 0) ∧
        RegionVisible roots (kernelHeapStart + machine.heap.size) pages after.phys)
      (fun stop _ => stop = .panic "out of memory in pmm_allocate!" ∧
        (freeSet machine.pmm).card < 4 * pages ∨ stop = .unbounded) machine := by
  by_cases none : pages = 0
  · rw [heapExpandPages, if_pos none, ends_pure, none, Nat.zero_mul, Nat.add_zero]
    exact ⟨Expanded.refl tables, rfl, rfl, Iff.rfl,
      fun _ none => absurd none (Nat.not_lt_zero _)⟩
  · apply ends_heapExpandPages_of (fun index after =>
      Expanded roots held machine.kernelPagemap (4 * index) machine after ∧
      RegionVisible roots (kernelHeapStart + machine.heap.size) index after.phys ∧
      after.heap = machine.heap) none start inside
      (Or.inl aligned)
    · exact ⟨Expanded.refl tables, fun _ none => absurd none (Nat.not_lt_zero _), rfl⟩
    · rintro index state below slot ⟨expanded, seen, sameHeap⟩
      have virt : add64 (kernelHeapStart + machine.heap.size) (index * pageSize) =
          kernelHeapStart + machine.heap.size + index * pageSize := by
        apply Nat.mod_eq_of_lt
        unfold kernelHeapStart pageSize at *
        omega
      apply ends_mono (ends_expandPage_tables expanded.tables isRoot
        (by rw [expanded.locked]; exact unlockedPmm) (by rw [expanded.locked]; exact unlockedVmm)
        (expanded.ready ready) slot)
      · rintro _ after ⟨more, shown, heapMore, -⟩
        rw [virt] at shown
        refine ⟨expanded.trans more, ?_, heapMore.trans sameHeap⟩
        intro earlier before other otherRoot
        rcases Nat.lt_succ_iff_lt_or_eq.mp before with old | rfl
        · exact more.visible other otherRoot _ (page_of_lt _) (seen earlier old other otherRoot)
        · exact shown other otherRoot
      · rintro stop after ⟨rfl, few⟩
        have budget := expanded.budget
        exact Or.inl ⟨rfl, by omega⟩
    · rintro first ⟨expanded, shown, sameHeap⟩
      apply ends_mono (ends_addRegion_only _ _)
      · rintro _ _ ⟨head, memory, rfl⟩
        refine ⟨⟨expanded.tables, expanded.bytes, expanded.lower, expanded.visible, expanded.free,
          expanded.budget, expanded.slot, expanded.locked, expanded.hhdm, expanded.kernelPagemap,
          expanded.highestPage⟩, ?_, ?_, iff_of_false one_ne_zero none, shown⟩
        · change first.heap.start = machine.heap.start
          rw [sameHeap]
        · change add64 first.heap.size (pages * pageSize) = _
          rw [sameHeap, add64, Nat.mod_eq_of_lt (by omega)]
      · exact fun _ _ unbounded => Or.inr unbounded.1

theorem ends_heapInstall_tables (untouched : machine.heap.start = 0)
    (tables : Tables roots held machine.pmm machine.phys) (isRoot : machine.kernelPagemap ∈ roots)
    (unlockedPmm : machine.locked .pmm = false) (unlockedVmm : machine.locked .vmm = false)
    (ready : HeapReady roots machine.kernelPagemap machine.phys) :
    Ends heapInstall
      (fun _ after => Expanded roots held machine.kernelPagemap (4 * 256) machine after ∧
        after.heap.start = kernelHeapStart ∧ after.heap.size = 256 * pageSize ∧
        child after.phys machine.kernelPagemap heapSlot ≠ none)
      (fun stop _ => stop = .panic "out of memory in pmm_allocate!" ∧
        (freeSet machine.pmm).card < 4 * 256 ∨ stop = .unbounded) machine := by
  rw [heapInstall, ends_bind, ends_get, ends_bind, ends_require, if_pos untouched, ends_bind,
    ends_set, ends_bind]
  let opened : Machine :=
    { machine with heap := { machine.heap with start := kernelHeapStart, size := 0 } }
  have openedTables : Tables roots held opened.pmm opened.phys := tables
  have inside : opened.heap.size + kernelInitialPages * pageSize ≤ 2 ^ 39 :=
    (by decide : 0 + 256 * 4096 ≤ 2 ^ 39)
  apply ends_mono (ends_heapExpandPages_tables openedTables isRoot unlockedPmm unlockedVmm ready rfl
    rfl inside) _ fun _ _ => id
  rintro grown after ⟨expanded, start, size, zero, shown⟩
  have nonzero : grown ≠ 0 := fun same => absurd (zero.mp same) (by decide)
  have first : kernelHeapStart + opened.heap.size + 0 * pageSize = kernelHeapStart := rfl
  have slot := (shown 0 (by decide) machine.kernelPagemap isRoot).top_entry
  rw [first, show pml4Index kernelHeapStart = heapSlot by decide] at slot
  rw [ends_require, if_pos nonzero]
  exact ⟨⟨expanded.tables, expanded.bytes, expanded.lower, expanded.visible, expanded.free,
    expanded.budget, expanded.slot, expanded.locked, expanded.hhdm, expanded.kernelPagemap,
    expanded.highestPage⟩, start, size.trans (Nat.zero_add _),
    slot⟩

end Expansion

/-! ## A machine on which the heap can be installed -/

/-- Eight mebibytes of memory: page 0 is reserved and page 1 holds an empty kernel pagemap. -/
def smallMachine : Machine where
  pmm :=
    { bitmap := fun index => if index = 0 then 3 else 0, highestPage := 2047, usedPages := 2,
      freePages := 2046, totalRamPages := 2048 }
  phys := fun _ => 0
  hhdm := 0xFFFF800000000000
  kernelPagemap := 4096
  heap := { start := 0, size := 0, head := 0, memory := fun _ => 0 }
  interrupts := { syncDepth := 0, syncWasEnabled := true, enabled := true }
  locked := fun _ => false

/-- All pages but the first two are free. -/
theorem small_bitmap_free {pmm : Pmm} (same : pmm.bitmap = smallMachine.pmm.bitmap) :
    freeSet pmm = Finset.Icc 2 pmm.highestPage := by
  ext page
  rw [mem_freeSet, Finset.mem_Icc, and_comm, same]
  refine and_congr_left fun _ => ?_
  by_cases first : page < 8
  · interval_cases page <;> decide
  · have clear : smallMachine.pmm.bitmap (page / 8) = 0 := if_neg (by omega)
    rw [bitmapGet, clear, UInt8.zero_and]
    exact iff_of_true rfl (by omega)

theorem small_machine_free : 2040 ≤ (freeSet smallMachine.pmm).card := by
  rw [small_bitmap_free rfl, Nat.card_Icc]
  decide

theorem small_machine_blank (table : Nat) : BlankTable smallMachine.phys table := fun _ _ =>
  load64_eq_zero fun _ _ _ => rfl

theorem small_machine_tables : Tables {4096} ∅ smallMachine.pmm smallMachine.phys :=
  tables_single ⟨by decide, by decide, by decide, by decide⟩ (small_machine_blank _)
    (by rw [mem_freeSet]; decide) (by decide)

end RiriaKernel.KernelHeapTables
