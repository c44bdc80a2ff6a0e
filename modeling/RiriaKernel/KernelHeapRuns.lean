import RiriaKernel.KernelHeapTables

/-!
# Runs of the kernel heap

What `heap_install`, `kmalloc` and `kfree` do to the description of the heap, and what
therefore holds in every state that any sequence of calls reaches. The frames the heap's
own code has taken are carried along: they are never free again, so the heap cannot
outgrow the page allocator, and no address in it wraps.
-/

namespace RiriaKernel.KernelHeapRuns

open ByteMemory HaltingPrograms KernelState PhysicalAllocator PageTables KernelHeap
open RegionLayouts KernelHeapLayouts KernelHeapTables PageTableForests

/-! ## Growing takes frames -/

structure Takes (count : Nat) (before after : Machine) : Prop where
  kernelPagemap : after.kernelPagemap = before.kernelPagemap
  highestPage : after.pmm.highestPage = before.pmm.highestPage
  free : freeSet after.pmm ⊆ freeSet before.pmm
  taken : (freeSet after.pmm).card + count ≤ (freeSet before.pmm).card

/-- Frames were taken, and the heap's own state was left alone. -/
structure Draws (count : Nat) (before after : Machine) : Prop extends Takes count before after where
  heap : after.heap = before.heap
  heapLock : after.locked .heap = before.locked .heap

theorem Takes.trans {count more : Nat} {first second third : Machine}
    (left : Takes count first second) (right : Takes more second third) :
    Takes (count + more) first third where
  kernelPagemap := right.kernelPagemap.trans left.kernelPagemap
  highestPage := right.highestPage.trans left.highestPage
  free := right.free.trans left.free
  taken := by
    have leftTaken := left.taken
    have rightTaken := right.taken
    omega

theorem Draws.refl (machine : Machine) : Draws 0 machine machine :=
  ⟨⟨rfl, rfl, Finset.Subset.refl _, Nat.le_refl _⟩, rfl, rfl⟩

theorem Draws.trans {count more : Nat} {first second third : Machine}
    (left : Draws count first second) (right : Draws more second third) :
    Draws (count + more) first third :=
  ⟨left.toTakes.trans right.toTakes, right.heap.trans left.heap,
    right.heapLock.trans left.heapLock⟩

theorem Draws.fewer {count less : Nat} {before after : Machine} (draws : Draws count before after)
    (le : less ≤ count) : Draws less before after :=
  { draws with taken := (Nat.add_le_add_left le _).trans draws.taken }

section Drawing

variable {machine : Machine}

theorem ends_pmmAllocate_draws :
    Ends pmmAllocate (fun _ after => Draws 1 machine after) (fun stop _ => stop ≠ .unbounded)
      machine := by
  cases unlocked : machine.locked .pmm with
  | true =>
    simp only [pmmAllocate, ends_bind, ends_irqOff, ends_spinLock, unlocked, if_true]
    decide
  | false =>
    apply ends_pmmAllocate unlocked
    · intro page least
      refine ⟨⟨rfl, rfl, ?_, ?_⟩, rfl, rfl⟩
      · rw [freeSet_takePage]
        exact Finset.erase_subset _ _
      · rw [freeSet_takePage, Finset.card_erase_add_one least.1]
    · intro _
      decide

theorem ends_vmmMapPage_draws (pagemap virt phys flags : Nat) :
    Ends (vmmMapPage pagemap virt phys flags) (fun _ after => Draws 0 machine after)
      (fun stop _ => stop ≠ .unbounded) machine := by
  let holds : Nat → Machine → Prop := fun _ after => Draws 0 machine after
  have relock : ∀ (value : Bool) (after : Machine), Draws 0 machine after →
      Draws 0 machine { after with locked := Function.update after.locked .vmm value } :=
    fun value after draws => ⟨⟨draws.kernelPagemap, draws.highestPage, draws.free, draws.taken⟩,
      draws.heap,
      (Function.update_of_ne (show Lock.heap ≠ .vmm by decide) value _).trans draws.heapLock⟩
  refine @PageTableOperations.typed_vmmMapPage Nat holds _ id 0 0 pagemap virt phys flags
    ?_ ?_ ?_ ?_ ?_ machine (Draws.refl machine)
  · intro after draws
    rw [ends_spinLock]
    split
    · decide
    · exact relock true after draws
  · intro count _ after draws
    refine ⟨draws, ends_mono ends_pmmAllocate_draws (fun page taken more => ?_) fun _ _ => id⟩
    exact ⟨draws.trans (more.fewer (Nat.zero_le 1)), fun _ _ => Stop.noConfusion⟩
  · exact fun _ after phys draws =>
      ⟨⟨draws.kernelPagemap, draws.highestPage, draws.free, draws.taken⟩, draws.heap, draws.heapLock⟩
  · intro _ after _
    simp only [mapFailure, ends_bind, ends_spinUnlock, ends_panicWith]
    decide
  · intro after draws
    rw [ends_spinUnlock]
    exact relock false after draws

theorem ends_expandPage_draws (pagemap base index : Nat) :
    Ends (expandPage pagemap base index) (fun _ after => Draws 1 machine after)
      (fun stop _ => stop ≠ .unbounded) machine := by
  rw [expandPage, ends_bind]
  apply ends_mono ends_pmmAllocate_draws
  · intro frame after drawsFrame
    rw [ends_bind, ends_require]
    split
    · rw [ends_bind]
      apply ends_mono (ends_vmmMapPage_draws _ _ _ _)
      · intro mapped final drawsTables
        rw [ends_require]
        split
        · exact drawsFrame.trans drawsTables
        · decide
      · exact fun _ _ => id
    · decide
  · exact fun _ _ => id

end Drawing

/-! ## The heap's description -/

/-- The heap's variables and bytes hold a coalesced description of its window. -/
structure HeapLayout (heap : Heap) (segments : List Segment) : Prop where
  start : heap.start = kernelHeapStart
  size : heap.size = span segments
  pages : heap.size % pageSize = 0
  bounded : heap.size ≤ 2 ^ 35
  sized : Sized segments
  coalesced : Coalesced segments
  holds : Holds kernelHeapStart segments heap.head heap.memory

theorem heap_window {segments : List Segment} (bounded : span segments ≤ 2 ^ 36) :
    Window kernelHeapStart segments := by
  refine ⟨by decide, ?_⟩
  unfold kernelHeapStart
  omega

theorem all_live_of_no_head {start : Nat} {segments : List Segment} (positive : 0 < start)
    (none : nextFree start segments 0 = 0) : ∀ segment ∈ segments, segment.live = true := by
  induction segments generalizing start with
  | nil => simp
  | cons segment rest induction =>
    rw [nextFree] at none
    split at none
    · next live =>
        intro other member
        cases List.mem_cons.mp member with
        | inl first => rw [first, live]
        | inr later => exact induction (by omega) none other later
    · omega

section Growing

variable {machine : Machine} {segments : List Segment}

def regionHeader (memory : Memory) (base size : Nat) : Memory :=
  store64 (store64 memory base size) (base + 8) 0

theorem region_header_other {memory : Memory} {base size address : Nat}
    (outside : address < base ∨ base + 16 ≤ address) :
    regionHeader memory base size address = memory address := by
  unfold regionHeader
  rw [store64_apply_other (by omega), store64_apply_other (by omega)]

theorem region_header_size {memory : Memory} {base size : Nat} (small : size < 2 ^ 64) :
    load64 (regionHeader memory base size) base = size := by
  unfold regionHeader
  rw [load64_store64_other (by omega), load64_store64 small]

theorem region_header_next (memory : Memory) (base size : Nat) :
    load64 (regionHeader memory base size) (base + 8) = 0 :=
  load64_store64 (by decide)

theorem holds_first_free {start size : Nat} {memory : Memory} (live : ∀ segment ∈ segments,
    segment.live = true) (encodes : Encodes memory start segments 0)
    (sizeWord : load64 memory (start + span segments) = size)
    (nextWord : load64 memory (start + span segments + 8) = 0) :
    Holds start (segments ++ [⟨false, size⟩]) (start + span segments) memory := by
  refine ⟨?_, ?_⟩
  · rw [next_free_append, next_free_live live]
    rfl
  · rw [encodes_append]
    exact ⟨encodes_live live encodes, sizeWord, fun _ => nextWord, trivial⟩

theorem merged_first_free {start size : Nat} (live : ∀ segment ∈ segments, segment.live = true)
    (sized : Sized (segments ++ [⟨false, size⟩])) :
    Merged start segments size [] (segments ++ [⟨false, size⟩]) := by
  apply merged_of_absorbs sized (Or.inr ⟨rfl, rfl, by simp⟩)
  refine Or.inr ⟨rfl, rfl, ?_⟩
  intro segment last
  exact live segment (List.mem_of_getLast? last)

theorem ends_linkRegion {size head : Nat} {memory : Memory}
    (window : Window kernelHeapStart (segments ++ [⟨false, size⟩]))
    (sized : Sized (segments ++ [⟨false, size⟩])) (holds : Holds kernelHeapStart segments head memory)
    (sizeWord : load64 memory (kernelHeapStart + span segments) = size)
    (nextWord : load64 memory (kernelHeapStart + span segments + 8) = 0)
    (heapSize : machine.heap.size = span segments) :
    Ends (linkRegion (kernelHeapStart + span segments))
      (fun _ after => ∃ segments' head' memory', after = withHeap machine head' memory' ∧
        Holds kernelHeapStart segments' head' memory' ∧
        Merged kernelHeapStart segments size [] segments')
      (fun _ _ => False) (withHeap machine head memory) := by
  have segmentsSized := (sized_append.mp sized).1
  rw [linkRegion, ends_bind, ends_get, ends_ite]
  by_cases empty : head = 0
  · rw [if_pos (show (withHeap machine head memory).heap.head = 0 from empty)]
    have live := all_live_of_no_head window.positive (holds.head.symm.trans empty)
    refine (ends_modify _).mpr ⟨_, _, _, rfl, holds_first_free live holds.encodes sizeWord nextWord,
      merged_first_free live sized⟩
  · rw [if_neg (show ¬(withHeap machine head memory).heap.head = 0 from empty)]
    have walked : walkBelow memory (kernelHeapStart + span segments) (walkBound machine.heap) 0
        head = some (lastFree kernelHeapStart segments 0) := by
      rw [holds.head]
      apply walk_below_front window.positive segmentsSized.roomy holds.encodes (Nat.le_refl _)
        (Or.inl rfl)
      have count : (blocks false kernelHeapStart segments).length * 16 ≤ span segments :=
        free_count_le segmentsSized.roomy
      unfold walkBound minAllocSize
      omega
    change walkBelow (withHeap machine head memory).heap.memory _
      (walkBound (withHeap machine head memory).heap) 0 (withHeap machine head memory).heap.head = _
      at walked
    rw [walked]
    exact ends_insertBlock window sized ⟨holds.encodes, trivial, holds.head, sizeWord⟩

theorem ends_addRegion {size : Nat} (layout : HeapLayout machine.heap segments)
    (large : 16 ≤ size) (aligned : size % 16 = 0) (small : size ≤ 2 ^ 35) :
    Ends (addRegion (kernelHeapStart + span segments) size)
      (fun _ after => ∃ segments' head' memory',
        after = { machine with heap :=
          { machine.heap with head := head', memory := memory', size := machine.heap.size + size } } ∧
        Holds kernelHeapStart segments' head' memory' ∧
        Merged kernelHeapStart segments size [] segments')
      (fun _ _ => False) machine := by
  have bounded := layout.bounded
  have sizeEq := layout.size
  have room : span (segments ++ [⟨false, size⟩]) = span segments + size := by
    simp [span]
  have window : Window kernelHeapStart (segments ++ [⟨false, size⟩]) :=
    heap_window (by omega)
  have sized : Sized (segments ++ [⟨false, size⟩]) :=
    sized_append.mpr ⟨layout.sized, sized_cons.mpr ⟨⟨large, aligned⟩, List.forall_mem_nil _⟩⟩
  have grown : add64 machine.heap.size size = machine.heap.size + size :=
    Nat.mod_eq_of_lt (by omega)
  have kept : Holds kernelHeapStart segments machine.heap.head
      (regionHeader machine.heap.memory (kernelHeapStart + span segments) size) := by
    refine ⟨layout.holds.head, encodes_congr layout.sized.roomy ?_ layout.holds.encodes⟩
    exact fun address _ upper => region_header_other (Or.inl upper)
  have sizeWord : load64 (regionHeader machine.heap.memory (kernelHeapStart + span segments) size)
      (kernelHeapStart + span segments) = size := region_header_size (by omega)
  have nextWord := region_header_next machine.heap.memory (kernelHeapStart + span segments) size
  have linked := ends_linkRegion window sized kept sizeWord nextWord sizeEq
  have marked : Ends (setBlockSize (kernelHeapStart + span segments) size) (fun _ =>
      Ends (setBlockNext (kernelHeapStart + span segments) 0)
        (fun _ after => after = withHeap machine machine.heap.head
          (regionHeader machine.heap.memory (kernelHeapStart + span segments) size))
        fun _ _ => False) (fun _ _ => False) (withHeap machine machine.heap.head machine.heap.memory) := by
    rw [ends_setBlockSize, ends_setBlockNext]
    rfl
  rw [withHeap_self] at marked
  rw [addRegion, ends_bind]
  apply ends_mono marked _ fun _ _ => id
  intro _ first written
  rw [ends_bind]
  apply ends_mono written _ fun _ _ => id
  rintro _ _ rfl
  rw [ends_bind]
  apply ends_mono linked _ fun _ _ => id
  rintro _ _ ⟨segments', head', memory', rfl, holds, merged⟩
  rw [ends_modify]
  refine ⟨segments', head', memory', ?_, holds, merged⟩
  simp only [withHeap, grown]

structure Grows (count : Nat) (segments : List Segment) (before after : Machine)
    (segments' : List Segment) : Prop extends Takes count before after where
  layout : HeapLayout after.heap segments'
  live : blocks true kernelHeapStart segments' = blocks true kernelHeapStart segments
  size : after.heap.size + (freeSet after.pmm).card * pageSize ≤
    before.heap.size + (freeSet before.pmm).card * pageSize
  heapLock : after.locked .heap = before.locked .heap

theorem ends_heapExpandPages {pages : Nat} (layout : HeapLayout machine.heap segments)
    (room : machine.heap.size + (freeSet machine.pmm).card * pageSize ≤ 2 ^ 35)
    (some : 0 < pages) (few : pages ≤ 256) :
    Ends (heapExpandPages pages)
      (fun grown after => grown = 1 ∧ ∃ segments', Grows pages segments machine after segments')
      (fun stop _ => stop ≠ .unbounded) machine := by
  have product : pages * pageSize = pages * 4096 := rfl
  have freeBytes : (freeSet machine.pmm).card * pageSize = (freeSet machine.pmm).card * 4096 := rfl
  have bounded := layout.bounded
  apply ends_heapExpandPages_of (fun index after => Draws index machine after) (by omega) layout.start
    (by omega) (Or.inl layout.pages) (Draws.refl machine)
  · intro index state _ _ draws
    exact ends_mono (ends_expandPage_draws _ _ _) (fun _ _ more => draws.trans more) fun _ _ => id
  · intro first draws
    have taken := draws.taken
    have freeBytesAfter : (freeSet first.pmm).card * pageSize = (freeSet first.pmm).card * 4096 := rfl
    have firstLayout : HeapLayout first.heap segments := by
      rw [draws.heap]
      exact layout
    rw [layout.size]
    apply ends_mono (ends_addRegion firstLayout (by omega) (by omega) (by omega)) _
      fun _ _ => False.elim
    rintro _ _ ⟨segments', head', memory', rfl, holds, merged⟩
    have mergedSpan := merged.span
    have firstSize := firstLayout.size
    rw [span, Nat.add_zero] at mergedSpan
    refine ⟨rfl, segments', ⟨draws.kernelPagemap, draws.highestPage, draws.free, draws.taken⟩,
      ⟨?_, ?_, ?_, ?_, merged.sized, ?_, holds⟩, ?_, ?_, draws.heapLock⟩
    · exact firstLayout.start
    · change first.heap.size + pages * pageSize = span segments'
      omega
    · have aligned := firstLayout.pages
      change (first.heap.size + pages * pageSize) % pageSize = 0
      rw [Nat.add_mul_mod_self_right, aligned]
    · change first.heap.size + pages * pageSize ≤ 2 ^ 35
      rw [draws.heap]
      omega
    · exact merged.coalesced layout.coalesced List.isChain_nil
    · rw [merged.live]
      exact List.append_nil _
    · change first.heap.size + pages * pageSize + (freeSet first.pmm).card * pageSize ≤ _
      rw [draws.heap]
      omega

end Growing

/-! ## Allocation -/

theorem request_size_eq_max (size : Nat) :
    requestSize size = max 16 (((size + 15) % 2 ^ 64 / 16 * 16 + 16) % 2 ^ 64) := by
  unfold requestSize alignUpHeap heapAlignment minAllocSize
  rw [header_size_eq]
  unfold add64
  dsimp only
  split <;> omega

theorem request_size_sized (size : Nat) : 16 ≤ requestSize size ∧ requestSize size % 16 = 0 := by
  rw [request_size_eq_max]
  omega

structure Allocates (total : Nat) (segments : List Segment) (before after : Machine)
    (segments' : List Segment) (block : Block) : Prop extends Takes 0 before after where
  layout : HeapLayout after.heap segments'
  live : (blocks true kernelHeapStart segments').Perm
    (block :: blocks true kernelHeapStart segments)
  large : total ≤ block.size
  size : after.heap.size + (freeSet after.pmm).card * pageSize ≤
    before.heap.size + (freeSet before.pmm).card * pageSize
  unlocked : after.locked .heap = false

section Allocating

variable {machine : Machine} {segments : List Segment} {total : Nat}

theorem carved_layout {heap : Heap} {size taken head' : Nat} {front rest back : List Segment}
    {memory' : Memory} (layout : HeapLayout heap (front ++ ⟨false, size⟩ :: back))
    (multiple : 16 ≤ total ∧ total % 16 = 0) (fits : total ≤ size)
    (carves : Carves total size taken rest)
    (holds : Holds kernelHeapStart (front ++ ⟨true, taken⟩ :: (rest ++ back)) head' memory') :
    HeapLayout { heap with head := head', memory := memory' }
      (front ++ ⟨true, taken⟩ :: (rest ++ back)) := by
  have spanEq := carves.span_eq
  obtain ⟨frontSized, blockSized⟩ := sized_append.mp layout.sized
  obtain ⟨sizeSized, backSized⟩ := sized_cons.mp blockSized
  obtain ⟨frontCoalesced, blockCoalesced, -⟩ := List.isChain_append.mp layout.coalesced
  obtain ⟨seam, backCoalesced⟩ := List.isChain_cons.mp blockCoalesced
  have takenSized : (16 ≤ taken ∧ taken % 16 = 0) ∧ Sized rest := by
    dsimp only at sizeSized
    rcases carves with ⟨rfl, rfl, room⟩ | ⟨rfl, rfl, -⟩
    · exact ⟨multiple, sized_cons.mpr ⟨⟨by dsimp only; omega, by dsimp only; omega⟩,
        List.forall_mem_nil _⟩⟩
    · exact ⟨sizeSized, List.forall_mem_nil _⟩
  have restCoalesced : Coalesced (rest ++ back) := by
    rcases carves with ⟨rfl, rfl, -⟩ | ⟨rfl, rfl, -⟩
    · exact List.isChain_cons.mpr ⟨seam, backCoalesced⟩
    · exact backCoalesced
  refine ⟨layout.start, ?_, layout.pages, layout.bounded, ?_, ?_, holds⟩
  · have whole := layout.size
    rw [span_append, span] at whole ⊢
    rw [span_append]
    dsimp only at whole ⊢
    omega
  · exact sized_append.mpr ⟨frontSized, sized_cons.mpr
      ⟨takenSized.1, sized_append.mpr ⟨takenSized.2, backSized⟩⟩⟩
  · apply List.isChain_append.mpr
    refine ⟨frontCoalesced, List.isChain_cons.mpr ⟨fun _ _ => Or.inl rfl, restCoalesced⟩, ?_⟩
    intro left _ right first
    obtain rfl := Option.some.inj first
    exact Or.inr rfl

theorem ends_takeBlock_allocates {size : Nat} {front back : List Segment}
    (layout : HeapLayout machine.heap (front ++ ⟨false, size⟩ :: back))
    (multiple : 16 ≤ total ∧ total % 16 = 0) (fits : total ≤ size) :
    Ends (takeBlock total (lastFree kernelHeapStart front 0) (kernelHeapStart + span front))
      (fun pointer after => ∃ segments' block, pointer = block.start + 16 ∧
        Allocates total (front ++ ⟨false, size⟩ :: back) machine after segments' block)
      (fun _ _ => False) machine := by
  have bounded := layout.bounded
  have window : Window kernelHeapStart (front ++ ⟨false, size⟩ :: back) := by
    apply heap_window
    rw [← layout.size]
    omega
  change Ends _ _ _ (withHeap machine machine.heap.head machine.heap.memory)
  apply ends_mono (ends_takeBlock window layout.sized multiple.1 fits layout.holds) _
    fun _ _ => id
  rintro pointer after ⟨rfl, taken, rest, head', memory', carves, holds, rfl⟩
  refine ⟨_, ⟨kernelHeapStart + span front, taken⟩, rfl,
    ⟨rfl, rfl, Finset.Subset.refl _, Nat.le_refl _⟩,
    carved_layout layout multiple fits carves holds, ?_, ?_, Nat.le_refl _, ?_⟩
  · rw [blocks_append, blocks_append, blocks, if_pos rfl, blocks_append, carves.free_rest,
      List.nil_append, blocks, if_neg Bool.false_ne_true, Nat.add_assoc _ taken, carves.span_eq]
    exact List.perm_middle
  · rcases carves with ⟨rfl, -, -⟩ | ⟨rfl, -, -⟩
    · exact Nat.le_refl _
    · exact fits
  · simp

theorem ends_growForRequest (layout : HeapLayout machine.heap segments)
    (room : machine.heap.size + (freeSet machine.pmm).card * pageSize ≤ 2 ^ 35) :
    Ends growForRequest (fun _ after => ∃ segments', Grows 16 segments machine after segments')
      (fun stop _ => stop ≠ .unbounded) machine := by
  rw [growForRequest, ends_bind]
  apply ends_mono (ends_heapExpandPages layout room (by decide) (by decide)) _
    fun _ _ => id
  rintro _ after ⟨rfl, segments', grows⟩
  rw [if_neg (by decide), ends_pure]
  exact ⟨segments', grows⟩

theorem walk_bound_enough {heap : Heap} (layout : HeapLayout heap segments) :
    (blocks false kernelHeapStart segments).length < walkBound heap := by
  have count : (blocks false kernelHeapStart segments).length * 16 ≤ span segments :=
    free_count_le layout.sized.roomy
  have size := layout.size
  unfold walkBound minAllocSize
  omega

theorem Grows.allocates {pages : Nat} {after final : Machine} {segments' segments'' : List Segment}
    {block : Block} (grows : Grows pages segments machine after segments')
    (allocates : Allocates total segments' after final segments'' block) :
    Allocates total segments machine final segments'' block := by
  have taken := grows.toTakes.trans allocates.toTakes
  refine ⟨⟨taken.kernelPagemap, taken.highestPage, taken.free, ?_⟩, allocates.layout, ?_,
    allocates.large, allocates.size.trans grows.size, allocates.unlocked⟩
  · have both := taken.taken
    omega
  · rw [← grows.live]
    exact allocates.live

/-- The retry loop returns a block or runs out of frames; its bound is never reached. -/
theorem ends_tryAllocate {fuel : Nat} (layout : HeapLayout machine.heap segments)
    (multiple : 16 ≤ total ∧ total % 16 = 0)
    (room : machine.heap.size + (freeSet machine.pmm).card * pageSize ≤ 2 ^ 35)
    (enough : (freeSet machine.pmm).card < fuel) :
    Ends (tryAllocate total fuel machine.heap.head)
      (fun pointer after => ∃ segments' block, pointer = block.start + 16 ∧
        Allocates total segments machine after segments' block)
      (fun stop _ => stop ≠ .unbounded) machine := by
  induction fuel generalizing machine segments with
  | zero => exact absurd enough (Nat.not_lt_zero _)
  | succ fuel induction =>
    rw [tryAllocate, ends_bind, ends_get, layout.holds.head]
    have positive : 0 < kernelHeapStart := by decide
    rcases find_fit_cases positive layout.holds.encodes (walk_bound_enough layout) with
      ⟨front, size, back, rfl, large, found⟩ | exhausted
    · rw [found]
      exact ends_mono (ends_takeBlock_allocates layout multiple large) (fun _ _ => id)
        fun _ _ => False.elim
    · rw [exhausted, ends_bind]
      apply ends_mono (ends_growForRequest layout room) _ fun _ _ => id
      rintro _ after ⟨segments', grows⟩
      rw [ends_bind, ends_get]
      have fewer := grows.taken
      have roomAfter := grows.size
      apply ends_mono (induction grows.layout (by omega) (by omega)) _ fun _ _ => id
      rintro pointer final ⟨segments'', block, rfl, allocates⟩
      exact ⟨segments'', block, rfl, grows.allocates allocates⟩

theorem free_card_le (pmm : Pmm) : (freeSet pmm).card ≤ pmm.highestPage + 1 := by
  have subset := Finset.card_filter_le (Finset.range (pmm.highestPage + 1))
    fun index => bitmapGet pmm.bitmap index = false
  rwa [Finset.card_range] at subset

theorem ends_kmalloc {size : Nat} (layout : HeapLayout machine.heap segments)
    (room : machine.heap.size + (freeSet machine.pmm).card * pageSize ≤ 2 ^ 35)
    (unlocked : machine.locked .heap = false) (some : size ≠ 0) :
    Ends (kmalloc size)
      (fun pointer after => ∃ segments' block, pointer = block.start + 16 ∧
        Allocates (requestSize size) segments machine after segments' block)
      (fun stop _ => stop ≠ .unbounded) machine := by
  have few := free_card_le machine.pmm
  rw [kmalloc, if_neg some, ends_bind, ends_get, ends_bind, ends_spinLock, unlocked,
    if_neg (by decide)]
  let locked : Machine := { machine with locked := Function.update machine.locked .heap true }
  have lockedLayout : HeapLayout locked.heap segments := layout
  have enough : (freeSet locked.pmm).card < retryBound machine.pmm := by
    change (freeSet machine.pmm).card < machine.pmm.highestPage + 2
    omega
  apply ends_mono (ends_tryAllocate lockedLayout (request_size_sized size) room enough) _
    fun _ _ => id
  rintro pointer after ⟨segments', block, rfl, allocates⟩
  exact ⟨segments', block, rfl, ⟨allocates.kernelPagemap, allocates.highestPage, allocates.free,
    allocates.taken⟩, allocates.layout, allocates.live, allocates.large, allocates.size,
    allocates.unlocked⟩

end Allocating

/-! ## Release -/

section Releasing

variable {machine : Machine} {segments : List Segment}

theorem mem_blocks_split {live : Bool} {start : Nat} {block : Block}
    (member : block ∈ blocks live start segments) :
    ∃ front back, segments = front ++ ⟨live, block.size⟩ :: back ∧
      block.start = start + span front := by
  induction segments generalizing start with
  | nil => cases member
  | cons segment rest induction =>
    have later : block ∈ blocks live (start + segment.size) rest →
        ∃ front back, segment :: rest = front ++ ⟨live, block.size⟩ :: back ∧
          block.start = start + span front := by
      intro member
      obtain ⟨front, back, rfl, place⟩ := induction member
      exact ⟨segment :: front, back, rfl, by rw [place, span, Nat.add_assoc]⟩
    rw [blocks] at member
    split at member
    · next kind =>
        cases List.mem_cons.mp member with
        | inl first =>
          subst first
          exact ⟨[], rest, by rw [← kind, List.nil_append], rfl⟩
        | inr rest => exact later rest
    · exact later member

structure Releases (segments : List Segment) (block : Block) (before after : Machine)
    (segments' : List Segment) : Prop where
  layout : HeapLayout after.heap segments'
  live : (blocks true kernelHeapStart segments).Perm
    (block :: blocks true kernelHeapStart segments')
  same : after = { before with heap := after.heap }
  size : after.heap.size = before.heap.size

theorem sized_span {segments : List Segment} (sized : Sized segments) : span segments % 16 = 0 := by
  induction segments with
  | nil => rfl
  | cons segment rest induction =>
    obtain ⟨first, others⟩ := sized_cons.mp sized
    have restSpan := induction others
    rw [span]
    omega

theorem live_block_seam {block : Block} {front back : List Segment} {heap : Heap}
    (layout : HeapLayout heap (front ++ ⟨true, block.size⟩ :: back)) :
    Window kernelHeapStart (front ++ ⟨false, block.size⟩ :: back) ∧
      Sized (front ++ ⟨false, block.size⟩ :: back) ∧
      Seam kernelHeapStart front block.size back heap.head heap.memory ∧
      walkBelow heap.memory (kernelHeapStart + span front) (walkBound heap) 0 heap.head =
        some (lastFree kernelHeapStart front 0) := by
  have bounded := layout.bounded
  have sizeEq := layout.size
  have room : span (front ++ ⟨true, block.size⟩ :: back) =
      span (front ++ ⟨false, block.size⟩ :: back) := by
    simp only [span_append, span]
  have window : Window kernelHeapStart (front ++ ⟨false, block.size⟩ :: back) :=
    heap_window (by omega)
  obtain ⟨frontSized, restSized⟩ := sized_append.mp layout.sized
  obtain ⟨frontEncodes, sizeWord, -, backEncodes⟩ := encodes_append.mp layout.holds.encodes
  have head := layout.holds.head
  rw [next_free_append] at head
  have seam : Seam kernelHeapStart front block.size back heap.head heap.memory :=
    ⟨frontEncodes, backEncodes, head, sizeWord⟩
  obtain ⟨blockSized, backSized⟩ := sized_cons.mp restSized
  refine ⟨window, sized_append.mpr ⟨frontSized, sized_cons.mpr ⟨blockSized, backSized⟩⟩, seam, ?_⟩
  have count := walk_bound_enough layout
  rw [blocks_append, List.length_append] at count
  rw [head]
  apply walk_below_front window.positive frontSized.roomy frontEncodes (Nat.le_refl _)
  · rcases next_free_zero_or back (kernelHeapStart + span front + block.size) with none | later
    · exact Or.inl none
    · exact Or.inr (Nat.le_of_add_right_le later)
  · omega

theorem ends_kfree {block : Block} (layout : HeapLayout machine.heap segments)
    (unlocked : machine.locked .heap = false)
    (owned : block ∈ blocks true kernelHeapStart segments) :
    Ends (kfree (block.start + 16))
      (fun _ after => ∃ segments', Releases segments block machine after segments')
      (fun _ _ => False) machine := by
  obtain ⟨front, back, rfl, place⟩ := mem_blocks_split owned
  obtain ⟨window, sized, seam, walked⟩ := live_block_seam layout
  have bounded := layout.bounded
  have sizeEq := layout.size
  have below := window.below
  rw [span_append, span] at sizeEq below
  dsimp only at sizeEq below
  obtain ⟨frontSized, restSized⟩ := sized_append.mp layout.sized
  have blockSized := (sized_cons.mp restSized).1
  dsimp only at blockSized
  have nonzero : ¬block.start + 16 = 0 := by omega
  have start : sub64 (block.start + 16) headerSize = kernelHeapStart + span front := by
    rw [header_size_eq, place, sub64]
    omega
  have sizeWord : blockSize machine.heap.memory (kernelHeapStart + span front) = block.size :=
    seam.sizeWord
  have inside : ¬(kernelHeapStart + span front < machine.heap.start ∨
      kernelHeapStart + span front ≥ add64 machine.heap.start machine.heap.size) := by
    rw [layout.start, add64, Nat.mod_eq_of_lt (by omega)]
    omega
  have large : ¬block.size < minAllocSize := by
    unfold minAllocSize
    omega
  have aligned : (kernelHeapStart + span front) % heapAlignment = 0 := by
    have frontSpan := sized_span frontSized
    unfold kernelHeapStart heapAlignment
    omega
  simp only [kfree, if_neg nonzero, ends_bind, ends_get, start, sizeWord, ends_require,
    if_pos inside, if_pos large, if_pos aligned, ends_spinLock, unlocked, Bool.false_eq_true, if_false]
  rw [walked]
  let locked : Machine := { machine with locked := Function.update machine.locked .heap true }
  change Ends _ _ _ (withHeap locked machine.heap.head machine.heap.memory)
  rw [ends_bind, ends_setBlockSize, ends_bind]
  apply ends_mono (ends_insertBlock window sized (seam.rewrite_size sized (by omega))) _
    fun _ _ => id
  rintro _ _ ⟨segments', head', memory', rfl, holds, merged⟩
  rw [ends_spinUnlock]
  have mergedSpan := merged.span
  obtain ⟨frontCoalesced, blockCoalesced, -⟩ := List.isChain_append.mp layout.coalesced
  have backCoalesced := (List.isChain_cons.mp blockCoalesced).2
  refine ⟨segments', ⟨layout.start, ?_, layout.pages, layout.bounded, merged.sized,
    merged.coalesced frontCoalesced backCoalesced, holds⟩, ?_, ?_, rfl⟩
  · change machine.heap.size = span segments'
    omega
  · rw [merged.live, blocks_append, blocks, if_pos rfl]
    have moved : (⟨kernelHeapStart + span front, block.size⟩ : Block) = block := by
      rw [← place]
    rw [moved]
    exact List.perm_middle
  · simp only [withHeap, locked, relock_unlocked unlocked]

end Releasing

/-! ## Installation -/

section Installing

variable {machine : Machine}

/-- The heap's variables as `heap_install` leaves them before it grows. -/
def opened (machine : Machine) : Machine :=
  { machine with heap := { machine.heap with start := kernelHeapStart, size := 0 } }

theorem opened_layout (noHead : machine.heap.head = 0) : HeapLayout (opened machine).heap [] :=
  ⟨rfl, rfl, rfl, Nat.zero_le _, List.forall_mem_nil _, List.isChain_nil, noHead, trivial⟩

theorem free_bytes_le {pmm : Pmm} (tracked : pmm.highestPage < pmmBitmapSize * 8) :
    (freeSet pmm).card * pageSize ≤ 2 ^ 35 := by
  have few := free_card_le pmm
  unfold pmmBitmapSize at tracked
  unfold pageSize
  omega

theorem ends_heapInstall (untouched : machine.heap.start = 0) (noHead : machine.heap.head = 0)
    (tracked : machine.pmm.highestPage < pmmBitmapSize * 8) :
    Ends heapInstall
      (fun _ after => ∃ segments, Grows 256 [] (opened machine) after segments)
      (fun stop _ => stop ≠ .unbounded) machine := by
  have room : (opened machine).heap.size + (freeSet (opened machine).pmm).card * pageSize ≤ 2 ^ 35 := by
    change 0 + (freeSet machine.pmm).card * pageSize ≤ 2 ^ 35
    rw [Nat.zero_add]
    exact free_bytes_le tracked
  rw [heapInstall, ends_bind, ends_get, ends_bind, ends_require, if_pos untouched, ends_bind,
    ends_set, ends_bind]
  apply ends_mono (ends_heapExpandPages (opened_layout noHead) room (by decide) (by decide)) _
    fun _ _ => id
  rintro _ after ⟨rfl, segments, grows⟩
  rw [ends_require, if_pos (by decide)]
  exact ⟨segments, grows⟩

end Installing

theorem sole_free_segment {heap : Heap} {segments : List Segment} (layout : HeapLayout heap segments)
    (noLive : blocks true kernelHeapStart segments = []) (positive : heap.size ≠ 0) :
    segments = [⟨false, heap.size⟩] := by
  have free : ∀ segment ∈ segments, segment.live = false := by
    intro segment member
    by_contra live
    obtain ⟨front, back, rfl⟩ := List.append_of_mem member
    rw [blocks_append, blocks, if_pos (Bool.not_eq_false _ ▸ live)] at noLive
    exact List.cons_ne_nil _ _ (List.append_eq_nil_iff.mp noLive).2
  have size := layout.size
  cases segments with
  | nil => exact absurd size positive
  | cons first rest =>
    cases rest with
    | nil =>
      have own := free first List.mem_cons_self
      have sized : heap.size = first.size := size
      rw [sized, ← own]
    | cons second rest =>
      rcases (List.isChain_cons_cons.mp layout.coalesced).1 with live | live
      · cases (free first (by simp)).symm.trans live
      · cases (free second (by simp)).symm.trans live

theorem sole_free_block {heap : Heap} {segments : List Segment} (layout : HeapLayout heap segments)
    (noLive : blocks true kernelHeapStart segments = []) (positive : heap.size ≠ 0) :
    heap.head = kernelHeapStart ∧ load64 heap.memory kernelHeapStart = heap.size ∧
      load64 heap.memory (kernelHeapStart + 8) = 0 := by
  have sole := sole_free_segment layout noLive positive
  rw [sole] at layout
  exact ⟨layout.holds.head, layout.holds.encodes.1, layout.holds.encodes.2.1 rfl⟩

/-! ## Runs -/

/-- The live blocks after a call of `kmalloc`: a block's size is the word in front of it. -/
def recordBlock (pointer : Nat) (memory : Memory) (live : List Block) : List Block :=
  if pointer = 0 then live else ⟨pointer - 16, load64 memory (pointer - 16)⟩ :: live

/-- Any sequence of calls after `heap_install`. `live` lists the blocks handed out and not
freed since, and `frames` the frames the heap's code has taken. Clients write to the
payload of live blocks; other code may do anything to the rest of the machine, except
return a frame of the heap. -/
inductive HeapRun : Machine → List Block → Finset Nat → Prop where
  | installed {before after : Machine} (untouched : before.heap.start = 0)
      (noHead : before.heap.head = 0) (tracked : before.pmm.highestPage < pmmBitmapSize * 8)
      (unlocked : before.locked .heap = false) (run : heapInstall before = .ok ⟨⟩ after) :
      HeapRun after [] (freeSet before.pmm \ freeSet after.pmm)
  | allocate {machine after : Machine} {live : List Block} {frames : Finset Nat}
      {size pointer : Nat} (prior : HeapRun machine live frames)
      (run : kmalloc size machine = .ok pointer after) :
      HeapRun after (recordBlock pointer after.heap.memory live)
        (frames ∪ freeSet machine.pmm \ freeSet after.pmm)
  | release {machine after : Machine} {live : List Block} {frames : Finset Nat} {block : Block}
      (prior : HeapRun machine live frames) (owned : block ∈ live)
      (run : kfree (block.start + 16) machine = .ok ⟨⟩ after) :
      HeapRun after (live.erase block) frames
  | releaseNull {machine after : Machine} {live : List Block} {frames : Finset Nat}
      (prior : HeapRun machine live frames) (run : kfree 0 machine = .ok ⟨⟩ after) :
      HeapRun after live frames
  | write {machine : Machine} {live : List Block} {frames : Finset Nat} {memory : Memory}
      (prior : HeapRun machine live frames)
      (inside : ∀ address, memory address ≠ machine.heap.memory address →
        ∃ block ∈ live, block.start + 16 ≤ address ∧ address < block.stop) :
      HeapRun (withHeap machine machine.heap.head memory) live frames
  | elsewhere {machine after : Machine} {live : List Block} {frames : Finset Nat}
      (prior : HeapRun machine live frames) (sameHeap : after.heap = machine.heap)
      (sameLock : after.locked .heap = machine.locked .heap)
      (samePages : after.pmm.highestPage = machine.pmm.highestPage)
      (keeps : Disjoint frames (freeSet after.pmm)) : HeapRun after live frames

structure HeapSound (machine : Machine) (live : List Block) (frames : Finset Nat)
    (segments : List Segment) : Prop where
  layout : HeapLayout machine.heap segments
  live : (blocks true kernelHeapStart segments).Perm live
  unlocked : machine.locked .heap = false
  tracked : machine.pmm.highestPage < pmmBitmapSize * 8
  owned : ∀ frame ∈ frames, frame ≤ machine.pmm.highestPage
  apart : Disjoint frames (freeSet machine.pmm)
  backed : machine.heap.size ≤ frames.card * pageSize

section Soundness

variable {machine after : Machine} {live : List Block} {frames : Finset Nat}
  {segments : List Segment}

theorem HeapSound.room (sound : HeapSound machine live frames segments) :
    machine.heap.size + (freeSet machine.pmm).card * pageSize ≤ 2 ^ 35 := by
  have together : (frames ∪ freeSet machine.pmm).card ≤ machine.pmm.highestPage + 1 := by
    have subset : frames ∪ freeSet machine.pmm ⊆ Finset.range (machine.pmm.highestPage + 1) := by
      intro frame member
      rw [Finset.mem_range, Nat.lt_succ_iff]
      cases Finset.mem_union.mp member with
      | inl owned => exact sound.owned frame owned
      | inr free => exact (mem_freeSet.mp free).1
    have card := Finset.card_le_card subset
    rwa [Finset.card_range] at card
  rw [Finset.card_union_of_disjoint sound.apart] at together
  have backed := sound.backed
  have tracked := sound.tracked
  unfold pmmBitmapSize at tracked
  unfold pageSize at backed ⊢
  omega

theorem HeapSound.frames_after (sound : HeapSound machine live frames segments)
    (takes : Takes 0 machine after)
    (size : after.heap.size + (freeSet after.pmm).card * pageSize ≤
      machine.heap.size + (freeSet machine.pmm).card * pageSize) :
    (∀ frame ∈ frames ∪ freeSet machine.pmm \ freeSet after.pmm, frame ≤ after.pmm.highestPage) ∧
      Disjoint (frames ∪ freeSet machine.pmm \ freeSet after.pmm) (freeSet after.pmm) ∧
      after.heap.size ≤ (frames ∪ freeSet machine.pmm \ freeSet after.pmm).card * pageSize := by
  refine ⟨?_, ?_, ?_⟩
  · intro frame member
    rw [takes.highestPage]
    cases Finset.mem_union.mp member with
    | inl owned => exact sound.owned frame owned
    | inr taken => exact (mem_freeSet.mp (Finset.mem_sdiff.mp taken).1).1
  · rw [Finset.disjoint_union_left]
    exact ⟨sound.apart.mono_right takes.free, Finset.sdiff_disjoint⟩
  · have fresh : Disjoint frames (freeSet machine.pmm \ freeSet after.pmm) :=
      sound.apart.mono_right Finset.sdiff_subset
    have taken := Finset.card_sdiff_add_card_eq_card takes.free
    have backed := sound.backed
    rw [Finset.card_union_of_disjoint fresh]
    unfold pageSize at size backed ⊢
    omega

theorem size_word_of_encodes {memory : Memory} {start : Nat} {kind : Bool} {block : Block}
    (encodes : Encodes memory start segments 0) (member : block ∈ blocks kind start segments) :
    load64 memory block.start = block.size := by
  obtain ⟨front, back, rfl, place⟩ := mem_blocks_split member
  obtain ⟨-, sizeWord, -⟩ := encodes_append.mp encodes
  rw [place]
  exact sizeWord

theorem header_outside_payload {start : Nat} {kind : Bool} {header block : Block} {address : Nat}
    (member : header ∈ blocks kind start segments) (owner : block ∈ blocks true start segments)
    (sized : Sized segments) (lower : header.start ≤ address) (upper : address < header.start + 16)
    (payload : block.start + 16 ≤ address) : block.stop ≤ address := by
  have listed : ∀ {kind : Bool} {block : Block}, block ∈ blocks kind start segments →
      block ∈ blocks false start segments ++ blocks true start segments := by
    intro kind block member
    cases kind with
    | false => exact List.mem_append_left _ member
    | true => exact List.mem_append_right _ member
  have distinct : header ≠ block := by
    rintro rfl
    omega
  obtain ⟨front, back, rfl, -⟩ := mem_blocks_split member
  have large : 16 ≤ header.size :=
    (sized ⟨kind, header.size⟩ (List.mem_append_right _ List.mem_cons_self)).1
  have symmetric : Std.Symm fun left right : Block =>
      left.stop ≤ right.start ∨ right.stop ≤ left.start := ⟨fun _ _ apart => apart.symm⟩
  rcases (blocks_tile start _).disjoint.forall (listed member) (listed owner) distinct with
    before | after
  · unfold Block.stop at before
    omega
  · omega

theorem HeapSound.size_word (sound : HeapSound machine live frames segments) {block : Block}
    (member : block ∈ live) : load64 machine.heap.memory block.start = block.size :=
  size_word_of_encodes sound.layout.holds.encodes (sound.live.mem_iff.mpr member)

theorem sound_installed {before : Machine} (untouched : before.heap.start = 0)
    (noHead : before.heap.head = 0) (tracked : before.pmm.highestPage < pmmBitmapSize * 8)
    (unlocked : before.locked .heap = false) (run : heapInstall before = .ok ⟨⟩ after) :
    ∃ segments, HeapSound after [] (freeSet before.pmm \ freeSet after.pmm) segments := by
  obtain ⟨segments, grows⟩ := (ends_heapInstall untouched noHead tracked).returns run
  have start : HeapSound (opened before) [] ∅ [] :=
    ⟨opened_layout noHead, List.Perm.nil, unlocked, tracked,
      fun _ owned => absurd owned (Finset.notMem_empty _), Finset.disjoint_empty_left _,
      Nat.zero_le _⟩
  have takes : Takes 0 (opened before) after :=
    { grows.toTakes with taken := (Nat.le_add_right _ _).trans grows.taken }
  obtain ⟨owned, apart, backed⟩ := start.frames_after takes grows.size
  rw [Finset.empty_union] at owned apart backed
  refine ⟨segments, grows.layout, ?_, grows.heapLock.trans unlocked, ?_, owned, apart, backed⟩
  · rw [grows.live]
    exact List.Perm.nil
  · rw [grows.highestPage]
    exact tracked

section

variable (sound : HeapSound machine live frames segments)

include sound

theorem HeapSound.allocated {total : Nat} {base segments' : List Segment} {block : Block}
    {others : List Block} (allocates : Allocates total base machine after segments' block)
    (kept : (blocks true kernelHeapStart base).Perm others) :
    HeapSound after (recordBlock (block.start + 16) after.heap.memory others)
      (frames ∪ freeSet machine.pmm \ freeSet after.pmm) segments' := by
  obtain ⟨owned, apart, backed⟩ := sound.frames_after allocates.toTakes allocates.size
  have member : block ∈ blocks true kernelHeapStart segments' :=
    allocates.live.mem_iff.mpr List.mem_cons_self
  have recorded : recordBlock (block.start + 16) after.heap.memory others = block :: others := by
    rw [recordBlock, if_neg (by omega), Nat.add_sub_cancel,
      size_word_of_encodes allocates.layout.holds.encodes member]
  rw [recorded]
  exact ⟨allocates.layout, allocates.live.trans (kept.cons block), allocates.unlocked,
    by rw [allocates.highestPage]; exact sound.tracked, owned, apart, backed⟩

theorem HeapSound.allocate {size pointer : Nat} (run : kmalloc size machine = .ok pointer after) :
    ∃ segments', HeapSound after (recordBlock pointer after.heap.memory live)
      (frames ∪ freeSet machine.pmm \ freeSet after.pmm) segments' := by
  by_cases none : size = 0
  · rw [none, kmalloc, if_pos rfl] at run
    cases run
    rw [sdiff_self, Finset.bot_eq_empty, Finset.union_empty]
    exact ⟨segments, sound⟩
  · obtain ⟨segments', block, rfl, allocates⟩ :=
      (ends_kmalloc sound.layout sound.room sound.unlocked none).returns run
    exact ⟨segments', sound.allocated allocates sound.live⟩

theorem HeapSound.release {block : Block} (owned : block ∈ live)
    (run : kfree (block.start + 16) machine = .ok ⟨⟩ after) :
    ∃ segments', HeapSound after (live.erase block) frames segments' := by
  have member := sound.live.mem_iff.mpr owned
  obtain ⟨segments', releases⟩ := (ends_kfree sound.layout sound.unlocked member).returns run
  have rest : (blocks true kernelHeapStart segments').Perm (live.erase block) := by
    apply List.Perm.cons_inv
    exact (releases.live.symm.trans sound.live).trans (List.perm_cons_erase owned)
  have samePmm : after.pmm = machine.pmm := by rw [releases.same]
  have sameLocks : after.locked = machine.locked := by rw [releases.same]
  refine ⟨segments', releases.layout, rest, ?_, ?_, ?_, ?_, ?_⟩
  · rw [sameLocks]
    exact sound.unlocked
  · rw [samePmm]
    exact sound.tracked
  · rw [samePmm]
    exact sound.owned
  · rw [samePmm]
    exact sound.apart
  · rw [releases.size]
    exact sound.backed

theorem HeapSound.write {memory : Memory}
    (inside : ∀ address, memory address ≠ machine.heap.memory address →
      ∃ block ∈ live, block.start + 16 ≤ address ∧ address < block.stop) :
    HeapSound (withHeap machine machine.heap.head memory) live frames segments := by
  have layout := sound.layout
  have encodes : Encodes memory kernelHeapStart segments 0 := by
    apply encodes_headers _ layout.holds.encodes
    intro kind header member address lower upper
    by_contra changed
    obtain ⟨block, owner, payload, within⟩ := inside address changed
    have beyond := header_outside_payload member (sound.live.mem_iff.mpr owner) layout.sized lower
      upper payload
    omega
  exact { sound with
    layout := { layout with holds := ⟨layout.holds.head, encodes⟩ } }

theorem HeapSound.elsewhere (sameHeap : after.heap = machine.heap)
    (sameLock : after.locked .heap = machine.locked .heap)
    (samePages : after.pmm.highestPage = machine.pmm.highestPage)
    (keeps : Disjoint frames (freeSet after.pmm)) : HeapSound after live frames segments := by
  refine ⟨?_, sound.live, sameLock.trans sound.unlocked, ?_, ?_, keeps, ?_⟩
  · rw [sameHeap]
    exact sound.layout
  · rw [samePages]
    exact sound.tracked
  · rw [samePages]
    exact sound.owned
  · rw [sameHeap]
    exact sound.backed

end

theorem sound_of_run (run : HeapRun machine live frames) :
    ∃ segments, HeapSound machine live frames segments := by
  induction run with
  | installed untouched noHead tracked unlocked run =>
    exact sound_installed untouched noHead tracked unlocked run
  | allocate _ run induction =>
    obtain ⟨segments, sound⟩ := induction
    exact sound.allocate run
  | release _ owned run induction =>
    obtain ⟨segments, sound⟩ := induction
    exact sound.release owned run
  | releaseNull _ run induction =>
    rw [kfree, if_pos rfl] at run
    cases run
    exact induction
  | write _ inside induction =>
    obtain ⟨segments, sound⟩ := induction
    exact ⟨segments, sound.write inside⟩
  | elsewhere _ sameHeap sameLock samePages keeps induction =>
    obtain ⟨segments, sound⟩ := induction
    exact ⟨segments, sound.elsewhere sameHeap sameLock samePages keeps⟩

theorem blocks_sized {start : Nat} {kind : Bool} {block : Block} (sized : Sized segments)
    (aligned : start % 16 = 0) (member : block ∈ blocks kind start segments) :
    block.start % 16 = 0 ∧ 0 < block.size ∧ block.size % 16 = 0 := by
  obtain ⟨front, back, rfl, place⟩ := mem_blocks_split member
  obtain ⟨frontSized, backSized⟩ := sized_append.mp sized
  have before := sized_span frontSized
  have own : 16 ≤ block.size ∧ block.size % 16 = 0 := (sized_cons.mp backSized).1
  omega

/-- What the heap looks like between two calls: the list from `head` is the free blocks in
increasing order with a gap after each, and with the live blocks they tile the heap. -/
structure Partitioned (heap : Heap) (free live : List Block) : Prop where
  chain : FreeChain heap.memory heap.head free
  increasing : free.Pairwise fun left right => left.start < right.start
  apart : free.Pairwise fun left right => left.stop < right.start
  aligned : ∀ block ∈ free ++ live, block.start % 16 = 0 ∧ 0 < block.size ∧ block.size % 16 = 0
  sizeWords : ∀ block ∈ live, load64 heap.memory block.start = block.size
  tiles : Tiles (free ++ live) heap.start (heap.start + heap.size)

theorem HeapSound.partitioned (sound : HeapSound machine live frames segments) :
    Partitioned machine.heap (blocks false kernelHeapStart segments) live where
  chain := by
    rw [sound.layout.holds.head]
    exact free_chain_of_encodes (by decide) sound.layout.holds.encodes
  increasing := by
    apply (free_blocks_apart sound.layout.coalesced _ _).imp
    · intro left right gap
      exact (Nat.le_add_right _ _).trans_lt gap
    · intro segment member
      have large := (sound.layout.sized segment member).1
      omega
  apart := by
    apply free_blocks_apart sound.layout.coalesced
    intro segment member
    have large := (sound.layout.sized segment member).1
    omega
  aligned := by
    intro block member
    cases List.mem_append.mp member with
    | inl free => exact blocks_sized sound.layout.sized (by decide) free
    | inr owned =>
      exact blocks_sized sound.layout.sized (by decide) (sound.live.mem_iff.mpr owned)
  sizeWords := fun _ owned => sound.size_word owned
  tiles := by
    rw [sound.layout.start, sound.layout.size]
    exact tiles_perm (sound.live.append_left _) (blocks_tile _ _)

/-- In every state of every run the free list and the live blocks partition the heap, the
next `kfree` of a live pointer returns, and the next `kmalloc` of any size returns or stops
for want of frames: no loop of either runs forever. -/
theorem heap_runs_keep_partition {machine : Machine} {live : List Block} {frames : Finset Nat}
    (run : HeapRun machine live frames) :
    (∃ free, Partitioned machine.heap free live) ∧
      (∀ block ∈ live, ∃ after, kfree (block.start + 16) machine = .ok ⟨⟩ after) ∧
      ∀ size after, kmalloc size machine ≠ .error .unbounded after := by
  obtain ⟨segments, sound⟩ := sound_of_run run
  refine ⟨⟨_, sound.partitioned⟩, ?_, ?_⟩
  · intro block owned
    obtain ⟨_, after, returned, -⟩ := (ends_kfree sound.layout sound.unlocked
      (sound.live.mem_iff.mpr owned)).exists_ok
    exact ⟨after, returned⟩
  · intro size after stopped
    by_cases none : size = 0
    · rw [none, kmalloc, if_pos rfl] at stopped
      cases stopped
    · exact (ends_kmalloc sound.layout sound.room sound.unlocked none).stops stopped rfl

/-- A kernel before `heap_install`. -/
structure BeforeHeap (machine : Machine) : Prop where
  untouched : machine.heap.start = 0
  noHead : machine.heap.head = 0
  tracked : machine.pmm.highestPage < pmmBitmapSize * 8
  tables : Tables {machine.kernelPagemap} ∅ machine.pmm machine.phys
  unlocked : machine.locked = fun _ => false

theorem heap_install_returns (before : BeforeHeap machine)
    (many : 1024 ≤ (freeSet machine.pmm).card) : ∃ after, heapInstall machine = .ok ⟨⟩ after := by
  obtain ⟨untouched, noHead, tracked, tables, unlocked⟩ := before
  have installs : Ends heapInstall (fun _ _ => True) (fun _ _ => False) machine := by
    apply ends_mono (ends_and (ends_heapInstall untouched noHead tracked)
      (ends_heapInstall_tables untouched tables rfl (congrFun unlocked _) (congrFun unlocked _)
        (Or.inl fun _ same => same)))
    · exact fun _ _ _ => trivial
    · rintro stop after ⟨bounded, few | unbounded⟩
      · exact absurd few.2 (Nat.not_lt.mpr many)
      · exact bounded unbounded
  obtain ⟨_, after, run, -⟩ := installs.exists_ok
  exact ⟨after, run⟩

end Soundness

/-! ## Blocks from the front of the heap -/

/-- The free list starts with a block of `size` bytes. -/
structure FirstBlock (size : Nat) (machine : Machine) : Prop where
  some : machine.heap.head ≠ 0
  block : load64 machine.heap.memory machine.heap.head = size
  below : machine.heap.head + size < 2 ^ 64
  unlocked : machine.locked .heap = false

section Heap

variable {size total : Nat} {machine : Machine}

theorem FirstBlock.of_same {after : Machine} (first : FirstBlock size machine)
    (heap : after.heap = machine.heap) (locked : after.locked = machine.locked) :
    FirstBlock size after := by
  refine ⟨?_, ?_, ?_, ?_⟩
  · rw [heap]
    exact first.some
  · rw [heap]
    exact first.block
  · rw [heap]
    exact first.below
  · rw [locked]
    exact first.unlocked

structure Cut (total size : Nat) (machine : Machine) (pointer : Nat) (after : Machine) : Prop where
  pointer : pointer = machine.heap.head + 16
  header : load64 after.heap.memory machine.heap.head = total
  rest : ∃ memory, after = withHeap machine (machine.heap.head + total) memory
  block : FirstBlock (size - total) after

theorem cut_of_memory (first : FirstBlock size machine) (fits : total + 16 ≤ size) {memory : Memory}
    (header : load64 memory machine.heap.head = total)
    (block : load64 memory (machine.heap.head + total) = size - total) :
    Cut total size machine (machine.heap.head + 16)
      { withHeap { machine with locked := Function.update machine.locked .heap true }
          (machine.heap.head + total) memory with
        locked := Function.update (Function.update machine.locked .heap true) .heap false } := by
  have below := first.below
  have same := relock_unlocked first.unlocked
  rw [same]
  exact ⟨rfl, header, ⟨memory, rfl⟩,
    Nat.ne_of_gt (by have some := first.some; change 0 < _ + _; omega), block,
    by change machine.heap.head + total + (size - total) < 2 ^ 64; omega, first.unlocked⟩

theorem ends_takeBlock_first {stopped : Stop → Machine → Prop} (first : FirstBlock size machine)
    (enough : 16 ≤ total) (fits : total + 16 ≤ size) :
    Ends (takeBlock total 0 machine.heap.head) (Cut total size machine) stopped
      { machine with locked := Function.update machine.locked .heap true } := by
  have below := first.below
  have sum : add64 total minAllocSize = total + 16 :=
    Nat.mod_eq_of_lt (show total + 16 < 2 ^ 64 by omega)
  have next : add64 machine.heap.head total = machine.heap.head + total :=
    Nat.mod_eq_of_lt (by omega)
  have left : sub64 size total = size - total := by
    unfold sub64
    omega
  have front : add64 machine.heap.head headerSize = machine.heap.head + 16 :=
    Nat.mod_eq_of_lt (show machine.heap.head + 16 < 2 ^ 64 by omega)
  let latched : Machine := { machine with locked := Function.update machine.locked .heap true }
  change Ends _ _ _ (withHeap latched machine.heap.head machine.heap.memory)
  simp only [takeBlock, ends_bind, ends_getSize, first.block, sum, ge_iff_le, if_pos fits,
    next, left, ends_getNext, ends_setBlockSize, ends_setBlockNext, ends_setLink, ends_spinUnlock,
    ends_pure, front, relinkHead, relink, if_true]
  apply cut_of_memory first fits
  · rw [load64_store64 (load64_lt _ _), load64_store64 (by omega)]
  -- the later stores go to the header in front and to the word behind
  · rw [load64_store64_other (by omega), load64_store64_other (by omega),
      load64_store64_other (by omega), load64_store64 (by omega)]

theorem ends_kmalloc_first_block {request : Nat} (first : FirstBlock size machine)
    (some : request ≠ 0) (fits : requestSize request + 16 ≤ size) :
    Ends (kmalloc request) (Cut (requestSize request) size machine) (fun _ _ => False) machine := by
  have covers : blockSize machine.heap.memory machine.heap.head ≥ requestSize request := by
    rw [blockSize, first.block]
    omega
  rw [kmalloc, if_neg some, ends_bind, ends_get, ends_bind, ends_spinLock, first.unlocked,
    if_neg Bool.false_ne_true, retryBound, tryAllocate, ends_bind, ends_get]
  simp only [walkBound, findFit, if_neg first.some, if_pos covers]
  exact ends_takeBlock_first first (request_size_sized request).1 fits

end Heap

/-- What `heap_install` leaves: one free block on pages of its own. -/
theorem fresh_heap {start machine : Machine} (before : BeforeHeap start)
    (run : heapInstall start = .ok ⟨⟩ machine) :
    HeapRun machine [] (freeSet start.pmm \ freeSet machine.pmm) ∧
      Expanded {start.kernelPagemap} ∅ start.kernelPagemap (4 * 256) start machine ∧
      child machine.phys start.kernelPagemap heapSlot ≠ none ∧
      machine.heap.start = kernelHeapStart ∧ machine.heap.size = 2 ^ 20 ∧
      machine.heap.head = kernelHeapStart ∧ FirstBlock (2 ^ 20) machine ∧
      load64 machine.heap.memory (kernelHeapStart + 8) = 0 := by
  obtain ⟨untouched, noHead, tracked, tables, unlocked⟩ := before
  have installed := HeapRun.installed untouched noHead tracked (congrFun unlocked _) run
  obtain ⟨expanded, heapStart, size, slot⟩ := (ends_heapInstall_tables untouched tables rfl
    (congrFun unlocked _) (congrFun unlocked _) (Or.inl fun _ same => same)).returns run
  obtain ⟨segments, sound⟩ := sound_of_run installed
  have noLive : blocks true kernelHeapStart segments = [] := sound.live.eq_nil
  have positive : machine.heap.size ≠ 0 := by
    rw [size]
    decide
  obtain ⟨head, block, next⟩ := sole_free_block sound.layout noLive positive
  have open_ : machine.locked .heap = false := by rw [expanded.locked, unlocked]
  rw [size] at block
  refine ⟨installed, expanded, slot, heapStart, size, head, ?_, next⟩
  exact ⟨by rw [head]; decide, by rw [head, block]; rfl, by rw [head]; decide, open_⟩

theorem small_machine_bare : BeforeHeap smallMachine :=
  ⟨rfl, rfl, by decide, small_machine_tables, rfl⟩

theorem small_heap {machine : Machine} (run : heapInstall smallMachine = .ok ⟨⟩ machine) :
    ∃ owned, HeapRun machine [] owned ∧ machine.locked = (fun _ => false) ∧
      0 ∉ freeSet machine.pmm ∧ 2 ≤ (freeSet machine.pmm).card ∧
      machine.heap.head = kernelHeapStart ∧ machine.heap.size = 2 ^ 20 ∧
      load64 machine.heap.memory kernelHeapStart = 2 ^ 20 ∧
      load64 machine.heap.memory (kernelHeapStart + 8) = 0 := by
  obtain ⟨installed, expanded, -, -, size, head, first, next⟩ := fresh_heap small_machine_bare run
  have budget := expanded.budget
  have many := small_machine_free
  refine ⟨_, installed, expanded.locked, expanded.tables.lowPage, by omega, head, size, ?_, next⟩
  rw [← head]
  exact first.block

theorem small_heap_installs : ∃ machine, heapInstall smallMachine = .ok ⟨⟩ machine :=
  heap_install_returns small_machine_bare (Nat.le_trans (by decide) small_machine_free)

theorem installed_first : ∃ machine owned, HeapRun machine [] owned ∧
    machine.heap.head = kernelHeapStart ∧ FirstBlock (2 ^ 20) machine := by
  obtain ⟨machine, run⟩ := small_heap_installs
  obtain ⟨installed, -, -, -, -, head, first, -⟩ := fresh_heap small_machine_bare run
  exact ⟨machine, _, installed, head, first⟩

end RiriaKernel.KernelHeapRuns
