import RiriaKernel.KernelHeapRuns

/-!
# Buffers for devices

`kmalloc_phys` translates the first byte of a block and hands that out as the address of the
whole buffer. The heap's pages are taken from the page allocator one at a time, with the page
tables they need in between, so neighbouring pages of the heap need not be neighbouring frames.
-/

namespace RiriaKernel.PhysicalBuffers

open ByteMemory HaltingPrograms KernelState PhysicalAllocator PageTables PageTableForests
open PageTableOperations PageTableWords RegionLayouts KernelHeap KernelHeapLayouts KernelHeapTables
open KernelHeapRuns

/-- Every byte of the buffer is where a device that knows only `phys` looks for it. -/
def Contiguous (machine : Machine) (virt phys size : Nat) : Prop :=
  ∀ i, i < size → vmmVirtToPhys machine.kernelPagemap (virt + i) machine = .ok (phys + i) machine

/-- The pages under a range of addresses are backed by consecutive frames. -/
def Consecutive (phys : Memory) (root virt size : Nat) : Prop :=
  ∃ frame, ∀ k, virt / pageSize + k ≤ (virt + size - 1) / pageSize →
    decode (leafWord phys root (pageOf ((virt / pageSize + k) * pageSize))) =
      some ((frame + k) * pageSize)

/-- `curr` is the first block of the free list of `ready` that is large enough, and `ready` is the
machine after `count` calls of `heap_expand_pages(16)`, each made because no block was. -/
inductive Served (total : Nat) : Nat → Machine → Machine → Nat → Prop
  | fits {machine : Machine} {prev curr : Nat}
      (found : findFit machine.heap.memory total (walkBound machine.heap) 0 machine.heap.head =
        .fits prev curr) : Served total 0 machine machine curr
  | grows {count : Nat} {machine grown ready : Machine} {curr : Nat}
      (none : findFit machine.heap.memory total (walkBound machine.heap) 0 machine.heap.head =
        .exhausted) (run : heapExpandPages 16 machine = .ok 1 grown)
      (later : Served total count grown ready curr) : Served total (count + 1) machine ready curr

theorem Served.of_fits {total count prev found curr : Nat} {machine ready : Machine}
    (served : Served total count machine ready curr)
    (fits : findFit machine.heap.memory total (walkBound machine.heap) 0 machine.heap.head =
      .fits prev found) : count = 0 ∧ ready = machine ∧ curr = found := by
  cases served with
  | fits again =>
    rw [fits] at again
    exact ⟨rfl, rfl, (Search.fits.inj again).2.symm⟩
  | grows none =>
    rw [fits] at none
    cases none

/-! ## Bytes and pages -/

section Pages

variable {phys : Memory} {root virt size : Nat}

theorem page_of_page (address : Nat) : pageOf (address / pageSize * pageSize) = pageOf address := by
  unfold pageOf pageSize
  rw [Nat.mul_div_cancel _ (by decide)]

theorem translate_of_frame {address frame : Nat}
    (mapped : decode (leafWord phys root (pageOf address)) = some frame) :
    translate phys root address = frame + address % pageSize := by
  rw [PageTableForests.translate, mapped]

theorem frame_of_translate {address value : Nat} (mapped : translate phys root address = value)
    (nonzero : value ≠ 0) : ∃ frame, decode (leafWord phys root (pageOf address)) = some frame ∧
      value = frame + address % pageSize := by
  cases found : decode (leafWord phys root (pageOf address)) with
  | none =>
    rw [PageTableForests.translate, found] at mapped
    exact absurd mapped.symm nonzero
  | some frame => exact ⟨frame, rfl, mapped.symm.trans (translate_of_frame found)⟩

theorem translates_along_iff (mapped : translate phys root virt ≠ 0) :
    (∀ i, i < size → translate phys root (virt + i) = translate phys root virt + i) ↔
      Consecutive phys root virt size := by
  obtain ⟨first, found, start⟩ := frame_of_translate rfl mapped
  have aligned := decode_aligned found
  rw [start]
  constructor
  · intro along
    refine ⟨first / pageSize, fun k inside => ?_⟩
    by_cases here : k = 0
    · rw [here, Nat.add_zero, Nat.add_zero, page_of_page, found,
        Nat.div_mul_cancel (Nat.dvd_of_mod_eq_zero aligned)]
    · -- the first byte of the page is a byte of the buffer
      have place : virt ≤ (virt / pageSize + k) * pageSize ∧
          (virt / pageSize + k) * pageSize - virt < size := by
        unfold pageSize at *
        omega
      have byte := along ((virt / pageSize + k) * pageSize - virt) place.2
      rw [Nat.add_sub_cancel' place.1] at byte
      obtain ⟨frame, decoded, value⟩ := frame_of_translate byte (by unfold pageSize at *; omega)
      rw [decoded]
      rw [Nat.mul_mod_left] at value
      congr 1
      unfold pageSize at *
      omega
  · intro consecutive i inside
    obtain ⟨frame, pages⟩ := consecutive
    have atStart := pages 0 (Nat.div_le_div_right (by omega))
    rw [Nat.add_zero, page_of_page, found, Nat.add_zero, Option.some_inj] at atStart
    have split : virt / pageSize + ((virt + i) / pageSize - virt / pageSize) =
        (virt + i) / pageSize := by
      have := Nat.div_le_div_right (show virt ≤ virt + i by omega) (c := pageSize)
      omega
    have here := pages ((virt + i) / pageSize - virt / pageSize) (by
      rw [split]
      exact Nat.div_le_div_right (by omega))
    rw [split, page_of_page] at here
    rw [translate_of_frame here, atStart]
    unfold pageSize at *
    omega

end Pages

/-! ## The block that is handed out -/

structure Delivers (total : Nat) (segments : List Segment) (ready after : Machine) (curr : Nat) :
    Prop where
  delivered : ∃ segments' segments'' block, HeapLayout ready.heap segments' ∧
    blocks true kernelHeapStart segments' = blocks true kernelHeapStart segments ∧
    Allocates total segments' ready after segments'' block ∧ block.start = curr
  size : after.heap.size = ready.heap.size
  word : load64 after.heap.memory curr = total
  phys : after.phys = ready.phys
  kernelPagemap : after.kernelPagemap = ready.kernelPagemap

section Serving

variable {machine : Machine} {segments : List Segment} {total : Nat}

theorem ends_takeBlock_delivers {size : Nat} {front back : List Segment}
    (layout : HeapLayout machine.heap (front ++ ⟨false, size⟩ :: back))
    (multiple : 16 ≤ total ∧ total % 16 = 0) (fits : total ≤ size) :
    Ends (takeBlock total (lastFree kernelHeapStart front 0) (kernelHeapStart + span front))
      (fun pointer after => pointer = kernelHeapStart + span front + 16 ∧
        Delivers total (front ++ ⟨false, size⟩ :: back) machine after (kernelHeapStart + span front))
      (fun _ _ => False) machine := by
  have bounded := layout.bounded
  have window : Window kernelHeapStart (front ++ ⟨false, size⟩ :: back) := by
    apply heap_window
    rw [← layout.size]
    omega
  have taken : Ends (takeBlock total (lastFree kernelHeapStart front 0) (kernelHeapStart + span front))
      (fun pointer after => pointer = kernelHeapStart + span front + 16 ∧
        after.heap.size = machine.heap.size ∧
        load64 after.heap.memory (kernelHeapStart + span front) = total ∧
        after.phys = machine.phys ∧ after.kernelPagemap = machine.kernelPagemap)
      (fun _ _ => False) machine := by
    change Ends _ _ _ (withHeap machine machine.heap.head machine.heap.memory)
    apply ends_mono (ends_takeBlock window layout.sized multiple.1 fits layout.holds) _
      fun _ _ => id
    rintro pointer after ⟨place, taken, rest, head', memory', carves, holds, rfl⟩
    obtain ⟨-, sizeWord, -⟩ := encodes_append.mp holds.encodes
    refine ⟨place, rfl, sizeWord.trans ?_, rfl, rfl⟩
    -- a block taken whole is too small to split, and both sizes are multiples of sixteen
    have units := (layout.sized _ (List.mem_append_right _ List.mem_cons_self)).2
    dsimp only at units ⊢
    rcases carves with ⟨rfl, -, -⟩ | ⟨rfl, -, short⟩
    · rfl
    · omega
  apply ends_mono (ends_and taken (ends_takeBlock_allocates layout multiple fits)) _
    fun _ _ impossible => impossible.1
  rintro pointer after ⟨⟨place, size, word, phys, root⟩, segments', block, own, allocates⟩
  exact ⟨place, ⟨_, segments', block, layout, rfl, allocates, by omega⟩, size, word, phys, root⟩

theorem ends_takeBlock_found {prev curr : Nat} (layout : HeapLayout machine.heap segments)
    (multiple : 16 ≤ total ∧ total % 16 = 0)
    (found : findFit machine.heap.memory total (walkBound machine.heap) 0 machine.heap.head =
      .fits prev curr) :
    Ends (takeBlock total prev curr)
      (fun pointer after => pointer = curr + 16 ∧ Delivers total segments machine after curr)
      (fun _ _ => False) machine := by
  have cases := @find_fit_cases _ _ _ total _ 0 (by decide) layout.holds.encodes
    (walk_bound_enough layout)
  rw [← layout.holds.head] at cases
  rcases cases with ⟨front, size, back, rfl, fits, place⟩ | exhausted
  · obtain ⟨rfl, rfl⟩ := Search.fits.inj (found.symm.trans place)
    exact ends_takeBlock_delivers layout multiple fits
  · exact absurd (found.symm.trans exhausted) Search.noConfusion

/-- The retry loop hands out the block that `Served` names, and leaves the page tables as the last
growth step left them. -/
theorem ends_tryAllocate_delivers {fuel : Nat} (layout : HeapLayout machine.heap segments)
    (multiple : 16 ≤ total ∧ total % 16 = 0)
    (room : machine.heap.size + (freeSet machine.pmm).card * pageSize ≤ 2 ^ 35) :
    Ends (tryAllocate total fuel machine.heap.head)
      (fun pointer after => ∃ count ready curr, Served total count machine ready curr ∧
        pointer = curr + 16 ∧ Delivers total segments ready after curr)
      (fun _ _ => True) machine := by
  induction fuel generalizing machine segments with
  | zero =>
    rw [tryAllocate, ends_throw]
    trivial
  | succ fuel induction =>
    have cases := @find_fit_cases _ _ _ total _ 0 (by decide) layout.holds.encodes
      (walk_bound_enough layout)
    rw [← layout.holds.head] at cases
    rw [tryAllocate, ends_bind, ends_get]
    rcases cases with ⟨front, size, back, rfl, large, found⟩ | exhausted
    · rw [found]
      apply ends_mono (ends_takeBlock_delivers layout multiple large) _
        fun _ _ => False.elim
      intro pointer after taken
      obtain ⟨place, delivers⟩ := taken
      exact ⟨0, machine, _, .fits found, place, delivers⟩
    · rw [exhausted]
      dsimp only
      rw [ends_bind, growForRequest, ends_bind]
      cases run : heapExpandPages 16 machine with
      | error stop after =>
        rw [ends_of_error run]
        trivial
      | ok value grown =>
        obtain ⟨rfl, segments', grows⟩ :=
          (ends_heapExpandPages layout room (by decide) (by decide)).returns run
        have roomAfter := grows.size
        rw [ends_of_ok run, if_neg (by decide), ends_pure, ends_bind, ends_get]
        apply ends_mono (induction grows.layout (by omega)) _ fun _ _ _ => trivial
        rintro pointer after ⟨count, ready, curr, later, place, delivers⟩
        refine ⟨count + 1, ready, curr, .grows exhausted run later, place,
          { delivers with delivered := ?_ }⟩
        obtain ⟨between, final, block, readyLayout, live, rest⟩ := delivers.delivered
        exact ⟨between, final, block, readyLayout, live.trans grows.live, rest⟩

def heapLatched (machine : Machine) : Machine :=
  { machine with locked := Function.update machine.locked .heap true }

theorem ends_kmalloc_delivers {size : Nat} (layout : HeapLayout machine.heap segments)
    (room : machine.heap.size + (freeSet machine.pmm).card * pageSize ≤ 2 ^ 35)
    (unlocked : machine.locked .heap = false) (some : size ≠ 0) :
    Ends (kmalloc size)
      (fun pointer after => ∃ count ready curr,
        Served (requestSize size) count (heapLatched machine) ready curr ∧
        pointer = curr + 16 ∧ Delivers (requestSize size) segments ready after curr)
      (fun _ _ => True) machine := by
  rw [kmalloc, if_neg some, ends_bind, ends_get, ends_bind, ends_spinLock, unlocked,
    if_neg (by decide)]
  have latched : HeapLayout (heapLatched machine).heap segments := layout
  exact ends_tryAllocate_delivers latched (request_size_sized size) room

end Serving

/-- A buffer is contiguous exactly when the block it is cut from lies on consecutive frames at the
time it is found. -/
theorem kmalloc_phys_served {machine : Machine} {live : List Block} {frames : Finset Nat}
    (run : HeapRun machine live frames) {size virt phys : Nat} {after : Machine} (some : size ≠ 0)
    (returned : kmallocPhys size true machine = .ok (virt, Option.some phys) after) :
    ∃ count ready curr, Served (requestSize size) count (heapLatched machine) ready curr ∧
      virt = curr + 16 ∧
      (Contiguous after virt phys size ↔
        Consecutive ready.phys ready.kernelPagemap (curr + 16) size) := by
  obtain ⟨segments, sound⟩ := sound_of_run run
  have spec : Ends (kmallocPhys size true)
      (fun result after => ∃ count ready curr,
        Served (requestSize size) count (heapLatched machine) ready curr ∧
        result = (curr + 16, Option.some (translate ready.phys ready.kernelPagemap (curr + 16))) ∧
        translate ready.phys ready.kernelPagemap (curr + 16) ≠ 0 ∧ after.phys = ready.phys ∧
        after.kernelPagemap = ready.kernelPagemap)
      (fun _ _ => True) machine := by
    rw [kmallocPhys, if_neg some, ends_bind]
    apply ends_mono (ends_kmalloc_delivers sound.layout sound.room sound.unlocked some) _
      fun _ _ _ => trivial
    rintro pointer later ⟨count, ready, curr, served, rfl, -, -, -, physSame, rootSame⟩
    rw [ends_bind, ends_assertThat]
    split
    · rw [if_pos rfl, ends_bind, ends_get, ends_bind, ends_vmmVirtToPhys, ends_bind,
        ends_assertThat, physSame, rootSame]
      split
      · next nonzero =>
          rw [ends_pure]
          exact ⟨count, ready, curr, served, rfl, nonzero, physSame, rootSame⟩
      · trivial
    · trivial
  obtain ⟨count, ready, curr, served, result, mapped, physSame, rootSame⟩ := spec.returns returned
  obtain ⟨rfl, shared⟩ := Prod.mk.inj result
  obtain rfl := Option.some.inj shared
  refine ⟨count, ready, curr, served, rfl, ?_⟩
  rw [← translates_along_iff mapped]
  unfold Contiguous
  simp only [vmm_virt_to_phys_ok, physSame, rootSame]
  constructor
  · intro along i inside
    exact (EStateM.Result.ok.inj (along i inside)).1
  · intro along i inside
    rw [along i inside]

/-! ## Growing under a buffer -/

/-- The pages `first` to `last` are on the frames from `frame` on, or will be. Those below
`border` are mapped there; the frames for the others are the lowest free ones, and no table has
to be made before the last of them is mapped. -/
structure Lined (root border : Nat) (machine : Machine) (first last frame : Nat) : Prop where
  mapped : ∀ k, first + k ≤ last → first + k < border →
    decode (leafWord machine.phys root (pageOf ((first + k) * pageSize))) =
      some ((frame + k) * pageSize)
  free : ∀ k, first + k ≤ last → border ≤ first + k → frame + k ∈ freeSet machine.pmm
  lowest : border ≤ last → IsLeast (freeSet machine.pmm : Set Nat) (frame + (border - first))
  tables : ∀ page, border ≤ page → page < last →
    missingTables machine.phys root (pageOf (page * pageSize)) = 0

section Lined

variable {roots : Set Nat} {root border taken first last frame : Nat} {machine after : Machine}

theorem page_below_apart {page : Nat} (below : page < border) (near : border < page + 512 ^ 4) :
    pageOf (page * pageSize) ≠ pageOf (border * pageSize) := by
  unfold pageOf pageSize
  rw [Nat.mul_div_cancel _ (by decide), Nat.mul_div_cancel _ (by decide)]
  omega

theorem lined_grown_iff (grown : PageGrown roots root (border * pageSize) machine taken after)
    (isRoot : root ∈ roots) (start : first ≤ border) (near : border < first + 512 ^ 4) :
    Lined root border machine first last frame ↔ Lined root (border + 1) after first last frame := by
  have older : ∀ k, first + k < border →
      leafWord after.phys root (pageOf ((first + k) * pageSize)) =
        leafWord machine.phys root (pageOf ((first + k) * pageSize)) := by
    intro k below
    rw [grown.leaf root isRoot _ (page_of_lt _),
      if_neg fun both => page_below_apart below (by omega) both.1]
  have here := grown.decoded isRoot (Or.inl rfl)
  have whole : first + (border - first) = border := by omega
  constructor
  · rintro ⟨mapped, free, lowest, tables⟩
    constructor
    · intro k inside below
      by_cases old : first + k < border
      · rw [older k old]
        exact mapped k inside old
      · obtain rfl : k = border - first := by omega
        rw [whole, here, grown.least.unique (lowest (by omega))]
    · intro k inside beyond
      rw [grown.free_complete (tables border (Nat.le_refl _) (by omega))]
      have least := grown.least.unique (lowest (by omega))
      exact Finset.mem_erase.mpr ⟨by omega, free k inside (by omega)⟩
    · intro inside
      have least := grown.least.unique (lowest (by omega))
      rw [grown.free_complete (tables border (Nat.le_refl _) (by omega))]
      refine ⟨Finset.mem_coe.mpr (Finset.mem_erase.mpr
        ⟨by omega, free (border + 1 - first) (by omega) (by omega)⟩), ?_⟩
      intro other member
      obtain ⟨different, still⟩ := Finset.mem_erase.mp (Finset.mem_coe.mp member)
      have lower := grown.least.2 (Finset.mem_coe.mpr still)
      omega
    · intro page beyond inside
      rw [grown.missing_kept isRoot (tables border (Nat.le_refl _) (by omega)) (page_of_lt _)]
      exact tables page (by omega) inside
  · rintro ⟨mapped, free, lowest, tables⟩
    have least : border ≤ last → frame + (border - first) = taken := by
      intro inside
      have placed := mapped (border - first) (by omega) (by omega)
      rw [whole, here, Option.some_inj] at placed
      exact (Nat.eq_of_mul_eq_mul_right (by decide) placed).symm
    constructor
    · intro k inside below
      rw [← older k below]
      exact mapped k inside (by omega)
    · intro k inside beyond
      by_cases more : border < first + k
      · exact grown.lowest.free (free k inside more)
      · have same := least (by omega)
        obtain rfl : k = border - first := by omega
        rw [same]
        exact grown.least.1
    · intro inside
      rw [least inside]
      exact grown.least
    · intro page beyond inside
      have next := lowest (by omega)
      have neighbour : frame + (border + 1 - first) = taken + 1 := by
        have same := least (by omega)
        omega
      have complete := ((grown.next_frame_iff next).mp neighbour).1
      by_cases more : border < page
      · rw [← grown.missing_kept isRoot complete (page_of_lt _)]
        exact tables page more inside
      · obtain rfl : page = border := by omega
        exact complete

theorem lined_congr (phys : after.phys = machine.phys) (pmm : after.pmm = machine.pmm) :
    Lined root border machine first last frame ↔ Lined root border after first last frame := by
  constructor
  · rintro ⟨mapped, free, lowest, tables⟩
    rw [← phys] at mapped tables
    rw [← pmm] at free lowest
    exact ⟨mapped, free, lowest, tables⟩
  · rintro ⟨mapped, free, lowest, tables⟩
    rw [phys] at mapped tables
    rw [pmm] at free lowest
    exact ⟨mapped, free, lowest, tables⟩

theorem lined_from_border (least : IsLeast (freeSet machine.pmm : Set Nat) frame)
    (free : ∀ k, border + k ≤ last → frame + k ∈ freeSet machine.pmm)
    (tables : ∀ page, border ≤ page → page < last →
      missingTables machine.phys root (pageOf (page * pageSize)) = 0) :
    Lined root border machine border last frame := by
  refine ⟨fun k _ below => absurd below (by omega), fun k inside _ => free k inside, fun _ => ?_,
    tables⟩
  rwa [Nat.sub_self, Nat.add_zero]

theorem lined_iff_consecutive {virt size : Nat} (below : (virt + size - 1) / pageSize < border) :
    (∃ frame, Lined root border machine (virt / pageSize) ((virt + size - 1) / pageSize) frame) ↔
      Consecutive machine.phys root virt size := by
  constructor
  · rintro ⟨frame, lined⟩
    exact ⟨frame, fun k inside => lined.mapped k inside (by omega)⟩
  · rintro ⟨frame, pages⟩
    refine ⟨frame, fun k inside _ => pages k inside, ?_, ?_, ?_⟩ <;> intros <;> omega

end Lined

/-! ## The pages of a growth step -/

section Growth

variable {roots held : Set Nat} {root base : Nat} {machine : Machine}

/-- What the loop over the pages of a growth step needs of the machine. -/
structure Growing (roots held : Set Nat) (root : Nat) (machine : Machine) : Prop where
  tables : Tables roots held machine.pmm machine.phys
  isRoot : root ∈ roots
  unlockedPmm : machine.locked .pmm = false
  unlockedVmm : machine.locked .vmm = false
  ready : HeapReady roots root machine.phys

theorem ends_expandPage_growing {index : Nat} (growing : Growing roots held root machine)
    (slot : pageOf (add64 base (index * pageSize)) / 512 ^ 3 = heapSlot) :
    Ends (expandPage root base index)
      (fun _ after => (Growing roots held root after ∧ after.heap = machine.heap ∧
        after.kernelPagemap = machine.kernelPagemap) ∧
        ∃ frame, PageGrown roots root (add64 base (index * pageSize)) machine frame after)
      (fun _ _ => True) machine := by
  obtain ⟨tables, isRoot, unlockedPmm, unlockedVmm, ready⟩ := growing
  apply ends_mono (ends_expandPage_tables tables isRoot unlockedPmm unlockedVmm ready slot) _
    fun _ _ _ => trivial
  rintro _ after ⟨expanded, -, heap, grown⟩
  refine ⟨⟨⟨expanded.tables, isRoot, ?_, ?_, expanded.ready ready⟩, heap, expanded.kernelPagemap⟩,
    grown⟩
  · rw [expanded.locked]
    exact unlockedPmm
  · rw [expanded.locked]
    exact unlockedVmm

/-- Whether a range of pages is, or will be, on a line of frames does not change while the heap
grows. -/
def SameLines (root border : Nat) (machine : Machine) (border' : Nat) (after : Machine) : Prop :=
  ∀ first last frame, kernelHeapStart ≤ first * pageSize → first ≤ border →
    (Lined root border machine first last frame ↔ Lined root border' after first last frame)

def heapBorder (heap : Heap) : Nat := (heap.start + heap.size) / pageSize

/-- What a growth step does for the pages behind the heap. -/
structure GrowsLined (roots held : Set Nat) (before after : Machine) : Prop where
  growing : Growing roots held before.kernelPagemap after
  kernelPagemap : after.kernelPagemap = before.kernelPagemap
  border : heapBorder before.heap ≤ heapBorder after.heap
  lines : SameLines before.kernelPagemap (heapBorder before.heap) before (heapBorder after.heap) after

theorem ends_heapExpandPages_lined {pages : Nat}
    (growing : Growing roots held machine.kernelPagemap machine)
    (start : machine.heap.start = kernelHeapStart) (aligned : machine.heap.size % pageSize = 0)
    (inside : machine.heap.size + pages * pageSize ≤ 2 ^ 39) (some : pages ≠ 0) :
    Ends (heapExpandPages pages)
      (fun grown after => grown = 1 ∧ GrowsLined roots held machine after)
      (fun _ _ => True) machine := by
  have borderBefore : heapBorder machine.heap = (kernelHeapStart + machine.heap.size) / pageSize := by
    rw [heapBorder, start]
  apply ends_heapExpandPages_of (fun index after =>
    (Growing roots held machine.kernelPagemap after ∧ after.heap = machine.heap ∧
      after.kernelPagemap = machine.kernelPagemap) ∧
    SameLines machine.kernelPagemap (heapBorder machine.heap) machine
      (heapBorder machine.heap + index) after) some start inside (Or.inl aligned)
  · exact ⟨⟨growing, rfl, rfl⟩, fun _ _ _ _ _ => Iff.rfl⟩
  · rintro index state below slot ⟨⟨growing, heap, kernelPagemap⟩, same⟩
    have place : add64 (kernelHeapStart + machine.heap.size) (index * pageSize) =
        (heapBorder machine.heap + index) * pageSize := by
      rw [borderBefore]
      unfold add64 kernelHeapStart pageSize at *
      omega
    apply ends_mono (ends_expandPage_growing growing slot) _ fun _ _ _ => trivial
    rintro _ after ⟨⟨growingAfter, heapAfter, pagemapAfter⟩, frame, grown⟩
    rw [place] at grown
    refine ⟨⟨growingAfter, heapAfter.trans heap, pagemapAfter.trans kernelPagemap⟩,
      fun first last frame inHeap inside => (same first last frame inHeap inside).trans ?_⟩
    apply lined_grown_iff grown growing.isRoot (by omega)
    rw [borderBefore] at inside ⊢
    unfold pageSize kernelHeapStart at *
    omega
  · rintro first ⟨⟨growingAfter, sameHeap, kernelPagemap⟩, lines⟩
    apply ends_mono (ends_addRegion_only _ _) _ fun _ _ _ => trivial
    rintro _ _ ⟨head, memory, rfl⟩
    have borderAfter : (first.heap.start + add64 first.heap.size (pages * pageSize)) / pageSize =
        heapBorder machine.heap + pages := by
      rw [sameHeap, borderBefore, start, add64, Nat.mod_eq_of_lt (by omega), ← Nat.add_assoc,
        Nat.add_mul_div_right _ _ (by decide)]
    refine ⟨rfl, ⟨growingAfter.tables, growingAfter.isRoot, growingAfter.unlockedPmm,
      growingAfter.unlockedVmm, growingAfter.ready⟩, kernelPagemap, ?_, ?_⟩
    · exact Nat.le_trans (Nat.le_add_right _ _) borderAfter.ge
    intro firstPage last frame inHeap behind
    have same := lines firstPage last frame inHeap behind
    rw [← borderAfter] at same
    exact same.trans (lined_congr rfl rfl)

end Growth

/-! ## The block after growth -/

section Open

variable {machine : Machine}

def LatchesOpen (machine : Machine) : Prop :=
  machine.locked .pmm = false ∧ machine.locked .vmm = false

theorem ends_expandPage_open (pagemap base index : Nat) :
    Ends (expandPage pagemap base index) (fun _ _ => LatchesOpen machine) (fun _ _ => True)
      machine := by
  cases pmm : machine.locked .pmm with
  | true =>
    simp only [expandPage, pmmAllocate, ends_bind, ends_irqOff, ends_spinLock, pmm, if_true]
  | false =>
    rw [expandPage, ends_bind]
    apply ends_pmmAllocate pmm _ fun _ => trivial
    intro page _
    rw [ends_bind, ends_require]
    split
    · cases vmm : machine.locked .vmm with
      | true =>
        have busy : (takePage machine page).locked .vmm = true := vmm
        simp only [vmmMapPage, ends_bind, ends_spinLock, busy, if_true]
      | false => exact ends_of_forall (fun _ _ => ⟨pmm, vmm⟩) fun _ _ => trivial
    · trivial

theorem ends_heapExpandPages_open :
    Ends (heapExpandPages 16) (fun _ _ => LatchesOpen machine) (fun _ _ => True) machine := by
  rw [heapExpandPages, if_neg (by decide), ends_bind, ends_get, ends_bind, ends_assertThat]
  split
  · rw [ends_bind, ends_assertThat]
    split
    · rw [ends_bind, forCount, ends_bind]
      apply ends_mono (ends_expandPage_open _ _ _) _ fun _ _ _ => trivial
      intro _ first free
      apply ends_of_forall _ fun _ _ => trivial
      intro _ second
      exact ends_of_forall (fun _ _ => free) fun _ _ => trivial
    · trivial
  · trivial

end Open

section Served

variable {roots held : Set Nat} {machine ready : Machine} {segments : List Segment} {total curr : Nat}

/-- After a growth step only the block behind the last live one can have become large enough. -/
theorem fits_behind_live {grown : Machine} {segments' : List Segment} {prev : Nat}
    (layout : HeapLayout machine.heap segments) (layout' : HeapLayout grown.heap segments')
    (live : blocks true kernelHeapStart segments' = blocks true kernelHeapStart segments)
    (none : findFit machine.heap.memory total (walkBound machine.heap) 0 machine.heap.head =
      .exhausted)
    (found : findFit grown.heap.memory total (walkBound grown.heap) 0 grown.heap.head =
      .fits prev curr) :
    curr = lastStop kernelHeapStart (blocks true kernelHeapStart segments) ∧
      curr + total ≤ grown.heap.start + grown.heap.size := by
  have positive : 0 < kernelHeapStart := by decide
  have sizes : ∀ {list : List Segment}, Sized list → ∀ segment ∈ list, 0 < segment.size :=
    fun sized segment member => Nat.lt_of_lt_of_le (by decide) (sized.roomy segment member)
  obtain ⟨core, tail, tail', rfl, rfl, -, free', stop⟩ := coalesced_core (sizes layout.sized)
    (sizes layout'.sized) layout.coalesced layout'.coalesced live.symm
  rw [layout.holds.head] at none
  have small := find_fit_exhausted positive layout.holds.encodes (walk_bound_enough layout) none
  rcases find_fit_cases positive layout'.holds.encodes (walk_bound_enough layout') with
    ⟨front, size, back, split, large, place⟩ | exhausted
  · rw [← layout'.holds.head, found, Search.fits.injEq] at place
    rw [place.2]
    -- the block is not one that was there before
    have fresh : (⟨false, size⟩ : Segment) ∉ core := by
      intro old
      have tooSmall := small _ (List.mem_append_left _ old) rfl
      dsimp only at tooSmall
      omega
    have member : (⟨false, size⟩ : Segment) ∈ core ++ tail' := by
      rw [split]
      exact List.mem_append_right _ List.mem_cons_self
    obtain rfl := free' _ ((List.mem_append.mp member).resolve_left fresh)
    have same : front = core := by
      rcases List.append_eq_append_iff.mp split with ⟨rest, rfl, only⟩ | ⟨rest, rfl, only⟩
      · rcases List.append_eq_singleton_iff.mp only.symm with ⟨rfl, -⟩ | ⟨-, none⟩
        · exact List.append_nil _
        · cases none
      · cases rest with
        | nil => exact (List.append_nil _).symm
        | cons head rest =>
          obtain rfl := (List.cons.inj only).1
          exact absurd (List.mem_append_right _ List.mem_cons_self) fresh
    have whole := layout'.size
    rw [span_append, span, span] at whole
    dsimp only at whole
    rw [layout'.start, same, stop, live]
    refine ⟨rfl, ?_⟩
    rw [← live, ← stop]
    omega
  · rw [layout'.holds.head, exhausted] at found
    cases found

theorem SameLines.trans {root border border' border'' : Nat} {first second third : Machine}
    (left : SameLines root border first border' second)
    (right : SameLines root border' second border'' third) (below : border ≤ border') :
    SameLines root border first border'' third :=
  fun page last frame inHeap behind => (left page last frame inHeap behind).trans
    (right page last frame inHeap (Nat.le_trans behind below))

/-- What the growth of the heap for a request leads to. -/
structure ServedGrown (total : Nat) (segments : List Segment) (before ready : Machine)
    (curr : Nat) : Prop where
  place : curr = lastStop kernelHeapStart (blocks true kernelHeapStart segments)
  inside : curr + total ≤ ready.heap.start + ready.heap.size
  pages : (ready.heap.start + ready.heap.size) % pageSize = 0
  kernelPagemap : ready.kernelPagemap = before.kernelPagemap
  lines : SameLines before.kernelPagemap (heapBorder before.heap) before (heapBorder ready.heap) ready

structure PagingSound (roots held : Set Nat) (machine : Machine) : Prop where
  tables : Tables roots held machine.pmm machine.phys
  isKernel : machine.kernelPagemap ∈ roots
  ready : HeapReady roots machine.kernelPagemap machine.phys

theorem Served.lined {count : Nat} (served : Served total count machine ready curr)
    (layout : HeapLayout machine.heap segments)
    (room : machine.heap.size + (freeSet machine.pmm).card * pageSize ≤ 2 ^ 35)
    (paging : PagingSound roots held machine)
    (none : findFit machine.heap.memory total (walkBound machine.heap) 0 machine.heap.head =
      .exhausted) : ServedGrown total segments machine ready curr := by
  induction served generalizing segments with
  | fits found =>
    rw [none] at found
    cases found
  | @grows count machine grown ready curr _ run later induction =>
    obtain ⟨-, segments', grows⟩ :=
      (ends_heapExpandPages layout room (by decide) (by decide)).returns run
    obtain ⟨unlockedPmm, unlockedVmm⟩ := ends_heapExpandPages_open.returns run
    have bounded := layout.bounded
    obtain ⟨-, lined⟩ := (ends_heapExpandPages_lined ⟨paging.tables, paging.isKernel, unlockedPmm,
      unlockedVmm, paging.ready⟩ layout.start layout.pages (by unfold pageSize; omega)
      (by decide)).returns run
    have fewer := grows.size
    have paging' : PagingSound roots held grown := by
      obtain ⟨tables, isRoot, -, -, ready⟩ := lined.growing
      rw [← lined.kernelPagemap] at isRoot ready
      exact ⟨tables, isRoot, ready⟩
    cases later with
    | fits found =>
      obtain ⟨place, inside⟩ := fits_behind_live layout grows.layout grows.live none found
      refine ⟨place, inside, ?_, lined.kernelPagemap, lined.lines⟩
      have aligned := grows.layout.pages
      rw [grows.layout.start]
      unfold kernelHeapStart pageSize at *
      omega
    | grows none' run' later' =>
      obtain ⟨place, inside, pages, sameRoot, lines⟩ :=
        induction grows.layout (by omega) paging' none'
      rw [grows.live] at place
      rw [lined.kernelPagemap] at sameRoot lines
      exact ⟨place, inside, pages, sameRoot, lined.lines.trans lines lined.border⟩

end Served

/-! ## Contiguity of a buffer -/

/-- Where a request is served from, and whether that is, or will be, on a line of frames: the
first free block that is large enough, or the space behind the last live block. -/
def InLine (machine : Machine) (live : List Block) (size : Nat) : Prop :=
  match findFit machine.heap.memory (requestSize size) (walkBound machine.heap) 0
    machine.heap.head with
  | .fits _ curr => Consecutive machine.phys machine.kernelPagemap (curr + 16) size
  | _ => ∃ frame, Lined machine.kernelPagemap (heapBorder machine.heap) machine
      ((lastStop kernelHeapStart live + 16) / pageSize)
      ((lastStop kernelHeapStart live + 16 + size - 1) / pageSize) frame

section Contiguity

variable {machine : Machine} {live : List Block} {frames : Finset Nat} {roots held : Set Nat}

theorem request_size_covers (size : Nat) : size + 16 ≤ requestSize size ∨ 2 ^ 64 ≤ size + 31 := by
  rw [request_size_eq_max]
  omega

theorem not_consecutive {phys : Memory} {root virt size : Nat} (huge : 2 ^ 49 ≤ size) :
    ¬Consecutive phys root virt size := by
  rintro ⟨frame, pages⟩
  have first := pages 0 (by unfold pageSize; omega)
  have second := pages (512 ^ 4) (by unfold pageSize; omega)
  have same : pageOf ((virt / pageSize + 512 ^ 4) * pageSize) =
      pageOf ((virt / pageSize + 0) * pageSize) := by
    unfold pageOf pageSize
    rw [Nat.mul_div_cancel _ (by decide), Nat.mul_div_cancel _ (by decide)]
    omega
  rw [same, first, Option.some_inj] at second
  unfold pageSize at second
  omega

theorem not_lined {root border first last frame : Nat}
    (tracked : machine.pmm.highestPage < pmmBitmapSize * 8) (start : first ≤ border)
    (huge : border + pmmBitmapSize * 8 ≤ last) :
    ¬Lined root border machine first last frame := by
  intro lined
  have member := lined.free (border - first + pmmBitmapSize * 8) (by omega) (by omega)
  have small := (mem_freeSet.mp member).1
  omega

theorem live_end_before_border {heap : Heap} {segments : List Segment}
    (layout : HeapLayout heap segments) :
    (lastStop kernelHeapStart (blocks true kernelHeapStart segments) + 16) / pageSize ≤
      heapBorder heap := by
  have sizes : ∀ segment ∈ segments, 0 < segment.size :=
    fun segment member => Nat.lt_of_lt_of_le (by decide) (layout.sized.roomy segment member)
  obtain ⟨core, tail, -, split, -, -, -, stop⟩ :=
    coalesced_core sizes sizes layout.coalesced layout.coalesced rfl
  have whole := layout.size
  have aligned := layout.pages
  rw [← stop, heapBorder, layout.start]
  rw [split, span_append] at whole
  cases tail with
  | nil =>
    rw [span] at whole
    unfold kernelHeapStart pageSize at *
    omega
  | cons segment rest =>
    have room := layout.sized.roomy segment
      (by rw [split]; exact List.mem_append_right _ List.mem_cons_self)
    rw [span] at whole
    exact Nat.div_le_div_right (by omega)

theorem in_line_fits {size prev curr : Nat}
    (found : findFit machine.heap.memory (requestSize size) (walkBound machine.heap) 0
      machine.heap.head = .fits prev curr) :
    InLine machine live size ↔
      Consecutive machine.phys machine.kernelPagemap (curr + 16) size := by
  rw [InLine, found]

theorem in_line_exhausted {size : Nat}
    (none : findFit machine.heap.memory (requestSize size) (walkBound machine.heap) 0
      machine.heap.head = .exhausted) :
    InLine machine live size ↔ ∃ frame, Lined machine.kernelPagemap (heapBorder machine.heap) machine
      ((lastStop kernelHeapStart live + 16) / pageSize)
      ((lastStop kernelHeapStart live + 16 + size - 1) / pageSize) frame := by
  rw [InLine, none]

end Contiguity

/-- A buffer is contiguous exactly when the space it is cut from is on a line of frames: mapped
there already, or next to be taken from the page allocator with no table in between. -/
theorem kmalloc_phys_contiguous_iff {machine : Machine} {live : List Block} {frames : Finset Nat}
    {roots held : Set Nat} (run : HeapRun machine live frames)
    (paging : PagingSound roots held machine) {size virt phys : Nat} {after : Machine}
    (some : size ≠ 0)
    (returned : kmallocPhys size true machine = .ok (virt, Option.some phys) after) :
    Contiguous after virt phys size ↔ InLine machine live size := by
  obtain ⟨segments, sound⟩ := sound_of_run run
  obtain ⟨count, ready, curr, served, rfl, contiguous⟩ := kmalloc_phys_served run some returned
  rw [contiguous]
  have layout : HeapLayout (heapLatched machine).heap segments := sound.layout
  have cases := @find_fit_cases _ _ _ (requestSize size) _ 0 (by decide) layout.holds.encodes
    (walk_bound_enough layout)
  rw [← layout.holds.head] at cases
  rcases cases with ⟨front, room, back, -, -, found⟩ | exhausted
  · obtain ⟨-, rfl, rfl⟩ := served.of_fits found
    exact (@in_line_fits machine live _ _ _ found).symm
  · obtain ⟨place, inside, pages, sameRoot, lines⟩ := served.lined layout sound.room
      ⟨paging.tables, paging.isKernel, paging.ready⟩ exhausted
    have sameStop := last_stop_perm kernelHeapStart sound.live
    have behind := live_end_before_border sound.layout
    have low := le_last_stop kernelHeapStart live
    have bounded := sound.layout.bounded
    rw [@in_line_exhausted machine live _ exhausted, ← sameStop, ← place]
    rw [← place] at behind sameStop
    rcases request_size_covers size with covers | wraps
    · have below : (curr + 16 + size - 1) / pageSize < heapBorder ready.heap := by
        unfold heapBorder pageSize at *
        omega
      have inHeap : kernelHeapStart ≤ (curr + 16) / pageSize * pageSize := by
        unfold kernelHeapStart pageSize at *
        omega
      rw [← lined_iff_consecutive below, sameRoot]
      exact exists_congr fun frame =>
        ((lines _ _ frame inHeap behind).symm.trans (lined_congr rfl rfl))
    · have far : heapBorder machine.heap + pmmBitmapSize * 8 ≤ (curr + 16 + size - 1) / pageSize := by
        rw [heapBorder, sound.layout.start]
        unfold kernelHeapStart pmmBitmapSize pageSize at *
        omega
      exact iff_of_false (not_consecutive (by omega))
        fun ⟨_, lined⟩ => not_lined sound.tracked behind far lined

/-! ## A fresh heap -/

section Fresh

variable {roots held : Set Nat} {machine : Machine}

theorem ends_heapInstall_lined (untouched : machine.heap.start = 0)
    (growing : Growing roots held machine.kernelPagemap machine) :
    Ends heapInstall (fun _ after => GrowsLined roots held (opened machine) after)
      (fun _ _ => True) machine := by
  have openGrowing : Growing roots held (opened machine).kernelPagemap (opened machine) :=
    ⟨growing.tables, growing.isRoot, growing.unlockedPmm, growing.unlockedVmm, growing.ready⟩
  have inside : (opened machine).heap.size + kernelInitialPages * pageSize ≤ 2 ^ 39 :=
    (by decide : 0 + 256 * 4096 ≤ 2 ^ 39)
  rw [heapInstall, ends_bind, ends_get, ends_bind, ends_require, if_pos untouched, ends_bind,
    ends_set, ends_bind]
  apply ends_mono (ends_heapExpandPages_lined openGrowing rfl rfl inside (by decide)) _
    fun _ _ _ => trivial
  rintro _ after ⟨rfl, grows⟩
  rw [ends_require, if_pos (by decide)]
  exact grows

theorem ends_kmalloc_fits {segments : List Segment} {size prev curr : Nat}
    (layout : HeapLayout machine.heap segments) (unlocked : machine.locked .heap = false)
    (some : size ≠ 0)
    (found : findFit machine.heap.memory (requestSize size) (walkBound machine.heap) 0
      machine.heap.head = .fits prev curr) :
    Ends (kmalloc size)
      (fun pointer after => pointer = curr + 16 ∧ after.phys = machine.phys ∧
        after.kernelPagemap = machine.kernelPagemap)
      (fun _ _ => False) machine := by
  have latched : HeapLayout (heapLatched machine).heap segments := layout
  rw [kmalloc, if_neg some, ends_bind, ends_get, ends_bind, ends_spinLock, unlocked,
    if_neg (by decide)]
  change Ends (tryAllocate _ (machine.pmm.highestPage + 1 + 1) _) _ _ (heapLatched machine)
  refine @ends_tryAllocate_round (heapLatched machine) _ _ _ _ _ _ found ?_ Search.noConfusion
    Search.noConfusion
  rintro _ _ ⟨rfl, rfl⟩
  exact ends_mono (ends_takeBlock_found latched (request_size_sized size) found)
    (fun _ _ taken => ⟨taken.1, taken.2.phys, taken.2.kernelPagemap⟩) fun _ _ => id

end Fresh

/-! ## Buffers of a fresh heap -/

section Buffers

variable {start machine : Machine} {size : Nat}

theorem before_heap_growing (before : BeforeHeap start) :
    Growing {start.kernelPagemap} ∅ start.kernelPagemap start :=
  ⟨before.tables, rfl, congrFun before.unlocked _, congrFun before.unlocked _,
    Or.inl fun _ same => same⟩

section

variable (before : BeforeHeap start) (run : heapInstall start = .ok ⟨⟩ machine)

include before run

theorem fresh_paging :
    machine.kernelPagemap = start.kernelPagemap ∧ PagingSound {start.kernelPagemap} ∅ machine := by
  obtain ⟨⟨tables, -, -, -, ready⟩, sameRoot, -, -⟩ :=
    (ends_heapInstall_lined before.untouched (before_heap_growing before)).returns run
  have kernel : machine.kernelPagemap = start.kernelPagemap := sameRoot
  refine ⟨kernel, tables, ?_, ?_⟩
  · rw [kernel]
    rfl
  · rw [kernel]
    exact ready

/-- Whether the first buffer is on consecutive frames is settled before the heap is installed. -/
theorem fresh_consecutive_iff (inside : size + 16 ≤ 2 ^ 20) :
    Consecutive machine.phys start.kernelPagemap (kernelHeapStart + 16) size ↔
      ∃ frame, Lined start.kernelPagemap (kernelHeapStart / pageSize) start
        (kernelHeapStart / pageSize) ((kernelHeapStart + 16 + size - 1) / pageSize) frame := by
  obtain ⟨-, -, -, lines⟩ :=
    (ends_heapInstall_lined before.untouched (before_heap_growing before)).returns run
  obtain ⟨-, -, -, heapStart, heapSize, -⟩ := fresh_heap before run
  have below : (kernelHeapStart + 16 + size - 1) / pageSize < heapBorder machine.heap := by
    rw [heapBorder, heapStart, heapSize]
    unfold kernelHeapStart pageSize
    omega
  rw [← lined_iff_consecutive below]
  refine exists_congr fun frame => ((@lined_congr _ _ _ _ _ start (opened start) rfl rfl).trans ?_).symm
  exact lines (kernelHeapStart / pageSize) _ frame (by decide) (Nat.le_refl _)

theorem fresh_fits (fits : requestSize size ≤ 2 ^ 20) :
    findFit machine.heap.memory (requestSize size) (walkBound machine.heap) 0 machine.heap.head =
      .fits 0 kernelHeapStart := by
  obtain ⟨-, -, -, -, -, head, first, -⟩ := fresh_heap before run
  have block := first.block
  rw [head] at block
  rw [walkBound, head, findFit, if_neg (by decide), blockSize, block, if_pos fits]

theorem fresh_buffer (frames : (freeSet start.pmm).Nonempty) (some : size ≠ 0)
    (fits : requestSize size ≤ 2 ^ 20) :
    ∃ phys after, kmallocPhys size true machine =
      .ok (kernelHeapStart + 16, Option.some phys) after := by
  obtain ⟨heap, -, -, -, -, -, first, -⟩ := fresh_heap before run
  obtain ⟨segments, sound⟩ := sound_of_run heap
  obtain ⟨sameRoot, -⟩ := fresh_paging before run
  obtain ⟨least, isLeast⟩ := exists_least_free frames
  obtain ⟨frame, pages⟩ := (fresh_consecutive_iff before run (show 8 + 16 ≤ 2 ^ 20 by decide)).mpr
    ⟨least, lined_from_border isLeast
      (fun k inside => by
        obtain rfl : k = 0 := by unfold kernelHeapStart pageSize at inside; omega
        exact isLeast.1)
      fun page lower upper => by unfold kernelHeapStart pageSize at lower upper; omega⟩
  have mapped : PageTableForests.translate machine.phys start.kernelPagemap (kernelHeapStart + 16) ≠
      0 := by
    have shown := pages 0 (by decide)
    rw [Nat.add_zero, page_of_page] at shown
    rw [translate_of_frame shown, show (kernelHeapStart + 16) % pageSize = 16 by decide]
    omega
  have serves : Ends (kmallocPhys size true)
      (fun result _ => result = (kernelHeapStart + 16, Option.some
        (PageTableForests.translate machine.phys start.kernelPagemap (kernelHeapStart + 16))))
      (fun _ _ => False) machine := by
    rw [kmallocPhys, if_neg some, ends_bind]
    apply ends_mono (ends_kmalloc_fits sound.layout first.unlocked some (fresh_fits before run fits)) _
      fun _ _ => id
    rintro _ after ⟨rfl, samePhys, sameMap⟩
    rw [ends_bind, ends_assertThat, if_pos (by decide), if_pos rfl, ends_bind, ends_get, ends_bind,
      ends_vmmVirtToPhys, ends_bind, ends_assertThat, samePhys, sameMap, sameRoot, if_pos mapped,
      ends_pure]
  obtain ⟨_, after, returned, rfl⟩ := serves.exists_ok
  exact ⟨_, after, returned⟩

end

theorem missing_tables_neighbour {phys : Memory} {root page other frame : Nat}
    (shown : decode (leafWord phys root page) = some frame) (near : other / 512 = page / 512) :
    missingTables phys root other = 0 := by
  have last : tableAt phys root 3 (page / 512) ≠ none := by
    intro none
    rw [leafWord, none, tableWord, decode_zero] at shown
    cases shown
  have middle : tableAt phys root 2 (page / 512 ^ 2) ≠ none := by
    intro none
    apply last
    rw [tableAt_succ, Nat.div_div_eq_div_mul, ← pow_two, none, Option.bind_none]
  have top : tableAt phys root 1 (page / 512 ^ 3) ≠ none := by
    intro none
    apply middle
    rw [tableAt_succ, Nat.div_div_eq_div_mul, ← pow_succ, none, Option.bind_none]
  have second : other / 512 ^ 2 = page / 512 ^ 2 := by omega
  have first : other / 512 ^ 3 = page / 512 ^ 3 := by omega
  rw [missingTables, first, second, near, if_neg top, if_neg middle, if_neg last]

/-- Once some page of the heap's first table is mapped, no table separates the pages before it. -/
theorem table_made : ∃ start, expandPage 4096 kernelHeapStart 511 smallMachine = .ok ⟨⟩ start ∧
    BeforeHeap start ∧ start.kernelPagemap = 4096 ∧ 1024 ≤ (freeSet start.pmm).card ∧
    ∃ frame, Lined 4096 (kernelHeapStart / pageSize) start (kernelHeapStart / pageSize)
      (kernelHeapStart / pageSize + 4) frame := by
  have many := small_machine_free
  have slot : pageOf (add64 kernelHeapStart (511 * pageSize)) / 512 ^ 3 = heapSlot := by decide
  have ready : HeapReady {4096} 4096 smallMachine.phys := Or.inl fun _ same => same
  obtain ⟨_, start, run, expanded, -, heap, taken, grown⟩ := (ends_mono
    (ends_expandPage_tables small_machine_tables rfl rfl rfl ready slot) (fun _ _ => id)
    fun _ _ out => absurd out.2 (by omega)).exists_ok
  have left : 2036 ≤ (freeSet start.pmm).card := by
    have budget := expanded.budget
    omega
  have some : (freeSet start.pmm).Nonempty := Finset.card_pos.mp (by omega)
  obtain ⟨frame, least⟩ := exists_least_free some
  have kernel : start.kernelPagemap = 4096 := expanded.kernelPagemap
  refine ⟨start, run, ⟨?_, ?_, ?_, ?_, expanded.locked⟩, kernel, by omega, frame,
    lined_from_border least ?_ ?_⟩
  · rw [heap]
    rfl
  · rw [heap]
    rfl
  · rw [expanded.highestPage]
    decide
  · rw [kernel]
    exact expanded.tables
  · -- the frames of the small machine are taken from the lowest on
    intro k inside
    have whole : freeSet smallMachine.pmm = Finset.Icc 2 2047 := small_bitmap_free rfl
    have above : freeSet start.pmm ⊆ Finset.Icc frame 2047 := by
      intro page member
      have old := expanded.free member
      rw [whole, Finset.mem_Icc] at old
      exact Finset.mem_Icc.mpr ⟨least.2 member, old.2⟩
    have few := Finset.card_le_card above
    have old := expanded.free least.1
    rw [Nat.card_Icc] at few
    rw [whole, Finset.mem_Icc] at old
    by_contra gone
    have lower := grown.lowest.below (frame + k)
      (by rw [whole, Finset.mem_Icc]; omega) gone frame least.1
    omega
  · intro page lower upper
    apply missing_tables_neighbour (grown.decoded rfl (Or.inl rfl))
    unfold pageOf add64 kernelHeapStart pageSize at *
    omega

end Buffers

/-- A buffer on five pages whose table is there before the heap is contiguous. -/
theorem kmalloc_phys_contiguous_five_pages :
    ∃ start machine phys after, expandPage 4096 kernelHeapStart 511 smallMachine = .ok ⟨⟩ start ∧
      heapInstall start = .ok ⟨⟩ machine ∧
      kmallocPhys 16384 true machine = .ok (kernelHeapStart + 16, some phys) after ∧
      Contiguous after (kernelHeapStart + 16) phys 16384 := by
  obtain ⟨start, mapped, bare, kernel, many, lined⟩ := table_made
  obtain ⟨machine, run⟩ := heap_install_returns bare many
  obtain ⟨heap, -⟩ := fresh_heap bare run
  obtain ⟨sameRoot, paging⟩ := fresh_paging bare run
  obtain ⟨phys, after, returned⟩ := fresh_buffer bare run (Finset.card_pos.mp (by omega))
    (show 16384 ≠ 0 by decide) (by decide)
  refine ⟨start, machine, phys, after, mapped, run, returned, ?_⟩
  rw [kmalloc_phys_contiguous_iff heap paging (by decide) returned,
    in_line_fits (fresh_fits bare run (by decide)), sameRoot,
    fresh_consecutive_iff bare run (by decide), kernel]
  exact lined

/-- After boot, a buffer of 5000 bytes is not contiguous: the tables for the first page of the heap
are between its frame and the frame of the second. -/
theorem kmalloc_phys_not_contiguous :
    ∃ machine owned phys after, heapInstall smallMachine = .ok ⟨⟩ machine ∧
      HeapRun machine [] owned ∧
      kmallocPhys 5000 true machine = .ok (kernelHeapStart + 16, some phys) after ∧
      ¬Contiguous after (kernelHeapStart + 16) phys 5000 := by
  obtain ⟨machine, run⟩ := small_heap_installs
  obtain ⟨heap, -⟩ := fresh_heap small_machine_bare run
  obtain ⟨sameRoot, -⟩ := fresh_paging small_machine_bare run
  have many := small_machine_free
  obtain ⟨phys, after, returned⟩ := fresh_buffer small_machine_bare run
    (Finset.card_pos.mp (by omega)) (show 5000 ≠ 0 by decide) (by decide)
  refine ⟨machine, _, phys, after, run, heap, returned, ?_⟩
  obtain ⟨count, ready, curr, served, place, contiguous⟩ :=
    kmalloc_phys_served heap (show 5000 ≠ 0 by decide) returned
  have found := fresh_fits small_machine_bare run (show requestSize 5000 ≤ 2 ^ 20 by decide)
  obtain ⟨-, rfl, rfl⟩ := served.of_fits found
  rw [contiguous]
  change ¬Consecutive machine.phys machine.kernelPagemap _ _
  rw [sameRoot, fresh_consecutive_iff small_machine_bare run (by decide)]
  rintro ⟨frame, lined⟩
  have complete := lined.tables _ (Nat.le_refl _) (by decide)
  have top : tableAt smallMachine.phys smallMachine.kernelPagemap 1
      (pageOf kernelHeapStart / 512 ^ 3) = none := by
    rw [table_at_one]
    exact blank_childless (small_machine_blank _) (Nat.mod_lt _ (by decide))
  rw [missingTables, Nat.div_mul_cancel (by decide), if_pos top] at complete
  omega

end RiriaKernel.PhysicalBuffers
