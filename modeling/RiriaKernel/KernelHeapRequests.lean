import RiriaKernel.PhysicalBuffers

/-!
# Requests to the kernel heap

Where `kmalloc` finds a block, how often it grows the heap first, and what `kfree` gives back.
The scan takes the first block that is large enough. When there is none, each growth step
lengthens the free space behind the last live block, so the number of steps is determined by
the size of that space. The free list is a function of the live blocks and of the heap's size:
it lists the gaps between them. Freeing is therefore independent of the order, and a freed
allocation leaves no trace.
-/

namespace RiriaKernel.KernelHeapRequests

open ByteMemory HaltingPrograms KernelState PhysicalAllocator
open RegionLayouts KernelHeap KernelHeapLayouts KernelHeapTables KernelHeapRuns
open PhysicalBuffers

/-! ## The space behind the last live block -/

/-- The bytes from the end of the last live block to the end of the region. -/
def tailBytes (start : Nat) (segments : List Segment) : Nat :=
  start + span segments - lastStop start (blocks true start segments)

section Tail

variable {start : Nat} {segments : List Segment}

theorem coalesced_tail (sized : Sized segments) (coalesced : Coalesced segments) :
    ∃ core tail, segments = core ++ tail ∧ FreeTail tail ∧
      start + span core = lastStop start (blocks true start segments) ∧
      span tail = tailBytes start segments := by
  have sizes : ∀ segment ∈ segments, 0 < segment.size :=
    fun segment member => Nat.lt_of_lt_of_le (by decide) (sized.roomy segment member)
  obtain ⟨core, tail, other, left, right, free, -, stop⟩ :=
    @coalesced_core start _ _ sizes sizes coalesced coalesced rfl
  refine ⟨core, tail, left, free, stop, ?_⟩
  rw [tailBytes, ← stop, left, span_append]
  omega

theorem tail_bytes_lt {total : Nat} (sized : Sized segments) (coalesced : Coalesced segments)
    (small : AllSmall total segments) (positive : 0 < total) : tailBytes start segments < total := by
  obtain ⟨core, tail, split, free, -, size⟩ := @coalesced_tail start _ sized coalesced
  rw [← size]
  cases tail with
  | nil => exact positive
  | cons segment rest =>
    rw [free segment List.mem_cons_self] at split ⊢
    have inside : (⟨false, segment.size⟩ : Segment) ∈ segments := by
      rw [split]
      exact List.mem_append_right _ List.mem_cons_self
    exact small ⟨false, segment.size⟩ inside rfl

end Tail

/-! ## Growth steps -/

section Growing

variable {machine : Machine} {segments : List Segment}

theorem ends_heapExpandPages_size {pages : Nat} (layout : HeapLayout machine.heap segments)
    (some : pages ≠ 0) (few : pages ≤ 256) :
    Ends (heapExpandPages pages)
      (fun _ after => after.heap.size = machine.heap.size + pages * pageSize)
      (fun _ _ => True) machine := by
  have bounded := layout.bounded
  have product : pages * pageSize = pages * 4096 := rfl
  apply ends_heapExpandPages_of (fun index after => Draws index machine after) some layout.start
    (by omega) (Or.inl layout.pages) (Draws.refl machine)
  · intro index state _ _ draws
    exact ends_mono (ends_expandPage_draws _ _ _) (fun _ _ more => draws.trans more) fun _ _ _ => trivial
  · intro first draws
    apply ends_mono (ends_addRegion_only _ _) _ fun _ _ _ => trivial
    rintro _ _ ⟨head, memory, rfl⟩
    change add64 first.heap.size (pages * pageSize) = _
    rw [draws.heap, add64, Nat.mod_eq_of_lt (by omega)]

end Growing

/-! ## How often the heap grows -/

section Counting

variable {machine ready : Machine} {segments : List Segment} {total count curr : Nat}

theorem tail_bytes_grown {grown : Machine} {segments' : List Segment}
    (layout : HeapLayout machine.heap segments) (grows : Grows 16 segments machine grown segments')
    (size : grown.heap.size = machine.heap.size + 16 * pageSize) :
    tailBytes kernelHeapStart segments' = tailBytes kernelHeapStart segments + 65536 := by
  have sizes : span segments' = span segments + 65536 := by
    rw [← layout.size, ← grows.layout.size]
    exact size
  obtain ⟨core, tail, split, -, stop, -⟩ := @coalesced_tail kernelHeapStart _ layout.sized
    layout.coalesced
  have inside : span core ≤ span segments := by
    rw [split, span_append]
    omega
  rw [tailBytes, tailBytes, grows.live, sizes, ← stop]
  omega

/-- What growing for a request leads to: the block behind the last live one, after the least number
of steps that makes it large enough. -/
structure GrownFor (total count : Nat) (segments : List Segment) (before ready : Machine)
    (curr : Nat) : Prop where
  place : curr = lastStop kernelHeapStart (blocks true kernelHeapStart segments)
  enough : total ≤ tailBytes kernelHeapStart segments + count * 65536
  needed : tailBytes kernelHeapStart segments + (count - 1) * 65536 < total
  size : ready.heap.size = before.heap.size + count * 65536

theorem grown_of_served (served : Served total count machine ready curr)
    (layout : HeapLayout machine.heap segments)
    (room : machine.heap.size + (freeSet machine.pmm).card * pageSize ≤ 2 ^ 35)
    (positive : 0 < total) (small : AllSmall total segments) :
    GrownFor total count segments machine ready curr := by
  induction served generalizing segments with
  | fits found =>
    rw [layout.holds.head] at found
    rcases find_fit_first (by decide) layout.holds.encodes (walk_bound_enough layout) with
      ⟨front, size, back, rfl, large, -, -⟩ | ⟨-, exhausted⟩
    · have tooSmall := small _ (List.mem_append_right _ List.mem_cons_self) rfl
      exact absurd large (Nat.not_le.mpr tooSmall)
    · rw [exhausted] at found
      cases found
  | @grows count machine grown ready curr none run later induction =>
    obtain ⟨-, segments', grows⟩ :=
      (ends_heapExpandPages layout room (by decide) (by decide)).returns run
    have size := (ends_heapExpandPages_size layout (by decide) (by decide)).returns run
    have roomAfter := grows.size
    have before := @tail_bytes_lt kernelHeapStart _ _ layout.sized layout.coalesced small positive
    have longer := tail_bytes_grown layout grows size
    cases later with
    | fits found =>
      obtain ⟨place, inside⟩ := fits_behind_live layout grows.layout grows.live none found
      refine ⟨place, ?_, by rw [Nat.sub_self, Nat.zero_mul]; exact before, size⟩
      rw [Nat.one_mul, ← longer, tailBytes, grows.live, ← place]
      rw [grows.layout.start, grows.layout.size] at inside
      omega
    | @grows more _ _ _ _ none' run' later' =>
      rw [grows.layout.holds.head] at none'
      have small' := find_fit_exhausted (by decide) grows.layout.holds.encodes
        (walk_bound_enough grows.layout) none'
      obtain ⟨place, enough, needed, total⟩ := induction grows.layout (by omega) small'
      rw [grows.live] at place
      rw [longer] at enough needed
      refine ⟨place, by omega, by omega, ?_⟩
      rw [total, size]
      unfold pageSize
      omega

end Counting

/-! ## With enough frames every request is served -/

section Frames

variable {roots held : Set Nat} {machine : Machine} {segments : List Segment} {total : Nat}

section

variable (layout : HeapLayout machine.heap segments)

include layout

/-- A growth step takes at most 64 frames: sixteen pages, each with up to three tables. -/
theorem ends_heapExpandPages_frames
    (room : machine.heap.size + (freeSet machine.pmm).card * pageSize ≤ 2 ^ 35)
    (paging : PagingSound roots held machine) (latches : LatchesOpen machine) :
    Ends (heapExpandPages 16)
      (fun grown after => grown = 1 ∧ PagingSound roots held after ∧ LatchesOpen after ∧
        (freeSet machine.pmm).card ≤ (freeSet after.pmm).card + 64 ∧
        ∃ segments', Grows 16 segments machine after segments' ∧
          tailBytes kernelHeapStart segments' = tailBytes kernelHeapStart segments + 65536)
      (fun stop _ => stop = .panic "out of memory in pmm_allocate!" ∧ (freeSet machine.pmm).card < 64)
      machine := by
  have bounded := layout.bounded
  have inside : machine.heap.size + 16 * pageSize ≤ 2 ^ 39 := by
    unfold pageSize
    omega
  apply ends_mono (ends_and (ends_heapExpandPages layout room (by decide) (by decide))
    (ends_heapExpandPages_tables paging.tables paging.isKernel latches.1 latches.2 paging.ready
      layout.start layout.pages inside))
  · rintro _ after ⟨⟨rfl, segments', grows⟩, expanded, -, size, -⟩
    refine ⟨rfl, ⟨expanded.tables, ?_, ?_⟩, ⟨?_, ?_⟩, expanded.budget, segments', grows,
      tail_bytes_grown layout grows size⟩
    · rw [expanded.kernelPagemap]
      exact paging.isKernel
    · rw [expanded.kernelPagemap]
      exact expanded.ready paging.ready
    · rw [expanded.locked]
      exact latches.1
    · rw [expanded.locked]
      exact latches.2
  · rintro stop after ⟨bounded, few | unbounded⟩
    · exact few
    · exact absurd unbounded bounded

/-- If `count` steps make the space behind the last live block large enough, the loop stops only
where the page allocator has fewer frames than these can take. -/
theorem ends_tryAllocate_frames {fuel count : Nat} (multiple : 16 ≤ total ∧ total % 16 = 0)
    (room : machine.heap.size + (freeSet machine.pmm).card * pageSize ≤ 2 ^ 35)
    (paging : PagingSound roots held machine) (latches : LatchesOpen machine)
    (reach : AllSmall total segments → total ≤ tailBytes kernelHeapStart segments + count * 65536)
    (enough : (freeSet machine.pmm).card < fuel) :
    Ends (tryAllocate total fuel machine.heap.head) (fun _ _ => True)
      (fun stop _ => stop = .panic "out of memory in pmm_allocate!" ∧
        (freeSet machine.pmm).card < 64 * count) machine := by
  induction fuel generalizing machine segments count with
  | zero => exact absurd enough (Nat.not_lt_zero _)
  | succ fuel induction =>
    rw [tryAllocate, ends_bind, ends_get, layout.holds.head]
    rcases find_fit_first (by decide) layout.holds.encodes (walk_bound_enough layout) with
      ⟨front, size, back, rfl, large, -, found⟩ | ⟨small, exhausted⟩
    · rw [found]
      exact ends_mono (ends_takeBlock_allocates layout multiple large) (fun _ _ _ => trivial)
        fun _ _ => False.elim
    · have short := @tail_bytes_lt kernelHeapStart _ _ layout.sized layout.coalesced small
        (by omega)
      have reached := reach small
      obtain ⟨more, rfl⟩ : ∃ more, count = more + 1 := ⟨count - 1, by omega⟩
      rw [exhausted]
      dsimp only
      rw [ends_bind, growForRequest, ends_bind]
      apply ends_mono (ends_heapExpandPages_frames layout room paging latches)
      · rintro _ grown ⟨rfl, pagingAfter, latchesAfter, budget, segments', grows, longer⟩
        have roomAfter := grows.size
        have fewer := grows.taken
        rw [if_neg (by decide), ends_pure, ends_bind, ends_get]
        have reachAfter : AllSmall total segments' →
            total ≤ tailBytes kernelHeapStart segments' + more * 65536 := fun _ => by omega
        apply ends_mono (induction grows.layout (by omega) pagingAfter latchesAfter reachAfter
          (by omega)) (fun _ _ _ => trivial)
        rintro stop _ ⟨rfl, few⟩
        exact ⟨rfl, by omega⟩
      · rintro stop _ ⟨rfl, few⟩
        exact ⟨rfl, by omega⟩

theorem ends_kmalloc_frames {size count : Nat}
    (room : machine.heap.size + (freeSet machine.pmm).card * pageSize ≤ 2 ^ 35)
    (unlocked : machine.locked .heap = false) (paging : PagingSound roots held machine)
    (latches : LatchesOpen machine)
    (reach : AllSmall (requestSize size) segments →
      requestSize size ≤ tailBytes kernelHeapStart segments + count * 65536) :
    Ends (kmalloc size) (fun _ _ => True)
      (fun stop _ => stop = .panic "out of memory in pmm_allocate!" ∧
        (freeSet machine.pmm).card < 64 * count) machine := by
  rw [kmalloc]
  split
  · rw [ends_pure]
    trivial
  · have few := free_card_le machine.pmm
    have latched : HeapLayout (heapLatched machine).heap segments := layout
    have stillSound : PagingSound roots held (heapLatched machine) :=
      ⟨paging.tables, paging.isKernel, paging.ready⟩
    have stillOpen : LatchesOpen (heapLatched machine) := latches
    rw [ends_bind, ends_get, ends_bind, ends_spinLock, unlocked, if_neg (by decide)]
    apply ends_tryAllocate_frames latched (request_size_sized size) room stillSound stillOpen reach
    change (freeSet machine.pmm).card < machine.pmm.highestPage + 2
    omega

end

end Frames

/-! ## First fit and least growth -/

def FirstFit (free : List Block) (total : Nat) (block : Block) : Prop :=
  block ∈ free ∧ total ≤ block.size ∧ ∀ other ∈ free, total ≤ other.size → block.start ≤ other.start

instance (free : List Block) (total : Nat) (block : Block) : Decidable (FirstFit free total block) :=
  inferInstanceAs (Decidable (_ ∧ _ ∧ _))

/-- The size of the free block at the end of the heap, zero if there is none. -/
def TailSize (heap : Heap) (free : List Block) (tail : Nat) : Prop :=
  (∃ block ∈ free, block.stop = heap.start + heap.size ∧ tail = block.size) ∨
    (∀ block ∈ free, block.stop ≠ heap.start + heap.size) ∧ tail = 0

section Lists

variable {heap : Heap} {segments : List Segment} {free live : List Block} {total : Nat}

theorem partitioned_free_eq (partition : Partitioned heap free live)
    (layout : HeapLayout heap segments) : free = blocks false kernelHeapStart segments := by
  apply free_chain_unique partition.chain
  rw [layout.holds.head]
  exact free_chain_of_encodes (by decide) layout.holds.encodes

theorem first_fit_place {front back : List Segment} {size : Nat} {block : Block}
    (sized : Sized (front ++ ⟨false, size⟩ :: back)) (large : total ≤ size)
    (small : AllSmall total front)
    (first : FirstFit (blocks false kernelHeapStart (front ++ ⟨false, size⟩ :: back)) total block) :
    block.start = kernelHeapStart + span front := by
  obtain ⟨member, fits, lowest⟩ := first
  have split : blocks false kernelHeapStart (front ++ ⟨false, size⟩ :: back) =
      blocks false kernelHeapStart front ++ ⟨kernelHeapStart + span front, size⟩ ::
        blocks false (kernelHeapStart + span front + size) back := by
    rw [blocks_append, blocks, if_pos rfl]
  rw [split] at member lowest
  have below := lowest ⟨kernelHeapStart + span front, size⟩
    (List.mem_append_right _ List.mem_cons_self) large
  have room : 16 ≤ size := (sized _ (List.mem_append_right _ List.mem_cons_self)).1
  rcases List.mem_append.mp member with before | here
  · obtain ⟨_, _, rfl, -⟩ := mem_blocks_split before
    have tooSmall := small _ (List.mem_append_right _ List.mem_cons_self) rfl
    dsimp only at tooSmall
    omega
  · rcases List.mem_cons.mp here with rfl | behind
    · rfl
    · have later := (blocks_within _ _ _ behind).1
      dsimp only at below
      omega

theorem all_small_blocks {start : Nat} :
    AllSmall total segments ↔ ∀ block ∈ blocks false start segments, block.size < total := by
  constructor
  · intro small block member
    obtain ⟨front, back, rfl, -⟩ := mem_blocks_split member
    exact small ⟨false, block.size⟩ (List.mem_append_right _ List.mem_cons_self) rfl
  · intro small segment member free
    obtain ⟨front, back, rfl⟩ := List.append_of_mem member
    refine small ⟨start + span front, segment.size⟩ ?_
    rw [blocks_append, blocks, if_pos free]
    exact List.mem_append_right _ List.mem_cons_self

theorem last_stop_le {start bound : Nat} {blocks : List Block} (lower : start ≤ bound)
    (stops : ∀ block ∈ blocks, block.stop ≤ bound) : lastStop start blocks ≤ bound := by
  induction blocks with
  | nil => exact lower
  | cons block rest induction =>
    exact Nat.max_le.mpr ⟨stops block List.mem_cons_self,
      induction fun other member => stops other (List.mem_cons_of_mem _ member)⟩

theorem span_pos {segment : Segment} {rest : List Segment} (sized : Sized (segment :: rest)) :
    0 < span (segment :: rest) := by
  have room := (sized segment List.mem_cons_self).1
  rw [span]
  omega

/-- The free block at the end of the heap is the space behind the last live block. -/
theorem tail_size_eq {tail : Nat} (layout : HeapLayout heap segments)
    (tailSize : TailSize heap (blocks false kernelHeapStart segments) tail) :
    tail = tailBytes kernelHeapStart segments := by
  obtain ⟨core, last, split, freeTail, stop, size⟩ := @coalesced_tail kernelHeapStart _
    layout.sized layout.coalesced
  have whole := layout.size
  rw [← size]
  rcases tailSize with ⟨block, member, ends, rfl⟩ | ⟨none, rfl⟩
  · -- nothing lies behind the block, so it is the last segment
    obtain ⟨front, back, parts, place⟩ := mem_blocks_split member
    rw [Block.stop, layout.start, whole, parts, span_append, span, place] at ends
    cases back with
    | cons segment rest =>
      have positive := span_pos (sized_cons.mp (sized_append.mp (parts ▸ layout.sized)).2).2
      dsimp only at ends
      omega
    | nil =>
      cases last with
      | cons segment rest =>
        rw [freeTail segment List.mem_cons_self] at split ⊢
        have sameEnd := List.append_inj_right' (split.symm.trans parts) rfl
        exact (congrArg span sameEnd).symm
      | nil =>
        -- the live blocks all lie in front of it
        have live : blocks true kernelHeapStart segments = blocks true kernelHeapStart front := by
          rw [parts, blocks_append]
          exact List.append_nil _
        have bound : lastStop kernelHeapStart (blocks true kernelHeapStart front) ≤
            kernelHeapStart + span front :=
          last_stop_le (Nat.le_add_right _ _) fun _ owned => (blocks_within _ _ _ owned).2
        rw [live] at stop
        have same : span core = span front + (block.size + span []) := by
          rw [← List.append_nil core, ← split, parts, span_append]
          rfl
        have room := (sized_cons.mp (sized_append.mp (parts ▸ layout.sized)).2).1.1
        dsimp only at room
        omega
  · cases last with
    | nil => rfl
    | cons segment rest =>
      rw [freeTail segment List.mem_cons_self] at split
      have member : (⟨kernelHeapStart + span core, segment.size⟩ : Block) ∈
          blocks false kernelHeapStart segments := by
        rw [split, blocks_append]
        exact List.mem_append_right _ List.mem_cons_self
      apply absurd _ (none _ member)
      rw [Block.stop, layout.start, whole, split, span_append, ← Nat.add_assoc]
      rfl

theorem request_size_eq {size : Nat} (small : size + 32 ≤ 2 ^ 64) :
    requestSize size = (size + 15) / 16 * 16 + 16 := by
  rw [request_size_eq_max]
  omega

end Lists

theorem first_fit_taken {machine : Machine} {live : List Block} {frames : Finset Nat}
    {segments : List Segment} {size : Nat} {block : Block}
    (sound : HeapSound machine live frames segments) (some : size ≠ 0)
    (first : FirstFit (blocks false kernelHeapStart segments) (requestSize size) block) :
    ∃ after, kmalloc size machine = .ok (block.start + 16) after ∧
      Served (requestSize size) 0 (heapLatched machine) (heapLatched machine) block.start ∧
      after.heap.size = machine.heap.size ∧
      load64 after.heap.memory block.start = requestSize size := by
  have layout := sound.layout
  rcases find_fit_first (by decide) layout.holds.encodes (walk_bound_enough layout) with
    ⟨front, size, back, rfl, large, before, found⟩ | ⟨none, -⟩
  · rw [← layout.holds.head, ← first_fit_place layout.sized large before first] at found
    obtain ⟨pointer, after, returned, rfl, -⟩ :=
      (ends_kmalloc_fits layout sound.unlocked some found).exists_ok
    obtain ⟨count, ready, curr, served, -, delivered⟩ :=
      (ends_kmalloc_delivers layout sound.room sound.unlocked some).returns returned
    obtain ⟨rfl, rfl, rfl⟩ := served.of_fits found
    exact ⟨after, returned, served, delivered.size, delivered.word⟩
  · have tooSmall := all_small_blocks.mp none block first.1
    exact absurd first.2.1 (Nat.not_le.mpr tooSmall)

/-- `kmalloc` takes the lowest block that is large enough without growing the heap; if there is
none, it calls `heap_expand_pages(16)` the least number of times after which the block at the end
is, and takes that one. It stops only where that many steps can need more frames than are free. -/
theorem kmalloc_first_fit {machine : Machine} {live : List Block} {frames : Finset Nat}
    {roots held : Set Nat} {free : List Block} (run : HeapRun machine live frames)
    (paging : PagingSound roots held machine) (latches : LatchesOpen machine)
    (partition : Partitioned machine.heap free live) {size total : Nat} (some : 0 < size)
    (small : size + 32 ≤ 2 ^ 64) (sum : total = (size + 15) / 16 * 16 + 16) :
    (∀ block, FirstFit free total block →
      ∃ after, kmalloc size machine = .ok (block.start + 16) after ∧
        Served total 0 (heapLatched machine) (heapLatched machine) block.start ∧
        after.heap.size = machine.heap.size) ∧
      ((∀ block ∈ free, block.size < total) →
        ∀ tail count, TailSize machine.heap free tail →
          IsLeast {steps | total ≤ tail + steps * 65536} count →
          Ends (kmalloc size)
            (fun pointer after => ∃ ready curr,
              Served total count (heapLatched machine) ready curr ∧
              curr + tail = machine.heap.start + machine.heap.size ∧ pointer = curr + 16 ∧
              after.heap.size = machine.heap.size + count * 65536)
            (fun stop _ => stop = .panic "out of memory in pmm_allocate!" ∧
              (freeSet machine.pmm).card < 64 * count) machine) := by
  obtain ⟨segments, sound⟩ := sound_of_run run
  have layout := sound.layout
  have latched : HeapLayout (heapLatched machine).heap segments := layout
  rw [← request_size_eq small] at sum
  subst sum
  rw [partitioned_free_eq partition layout]
  have delivers := ends_kmalloc_delivers layout sound.room sound.unlocked (Nat.ne_of_gt some)
  constructor
  · intro block first
    obtain ⟨after, returned, served, grown, -⟩ := first_fit_taken sound (Nat.ne_of_gt some) first
    exact ⟨after, returned, served, grown⟩
  · intro tooSmall tail count tailSize least
    have none : AllSmall (requestSize size) segments := all_small_blocks.mpr tooSmall
    obtain rfl := tail_size_eq layout tailSize
    have positive := (request_size_sized size).1
    apply ends_mono (ends_and delivers (ends_kmalloc_frames layout sound.room sound.unlocked paging
      latches fun _ => least.1)) _ fun _ _ few => few.2
    rintro pointer after ⟨⟨steps, ready, curr, served, rfl, delivered⟩, -⟩
    obtain ⟨place, enough, needed, grown⟩ := grown_of_served served latched sound.room (by omega) none
    have upper : count ≤ steps := least.2 enough
    have lower : steps ≤ count := by
      by_contra more
      have reached : requestSize size ≤ tailBytes kernelHeapStart segments + count * 65536 := least.1
      omega
    obtain rfl : count = steps := Nat.le_antisymm upper lower
    refine ⟨ready, curr, served, ?_, rfl, delivered.size.trans grown⟩
    obtain ⟨core, last, split, -, stop, -⟩ := @coalesced_tail kernelHeapStart _ layout.sized
      layout.coalesced
    have inside : span core ≤ span segments := by
      rw [split, span_append]
      omega
    rw [layout.start, layout.size, tailBytes, ← place]
    omega

/-- A request one unit larger than the installed heap grows it once and starts at its first byte. -/
theorem kmalloc_grows_once :
    ∃ machine after, heapInstall smallMachine = .ok ⟨⟩ machine ∧
      kmalloc (2 ^ 20) machine = .ok (kernelHeapStart + 16) after ∧
      after.heap.size = 2 ^ 20 + 65536 := by
  obtain ⟨machine, run⟩ := small_heap_installs
  obtain ⟨owned, heap, unlocked, -, -, -, size, -⟩ := small_heap run
  obtain ⟨-, paging⟩ := fresh_paging small_machine_bare run
  obtain ⟨expanded, -⟩ := (ends_heapInstall_tables rfl small_machine_tables rfl rfl rfl
    (Or.inl fun _ same => same)).returns run
  obtain ⟨segments, sound⟩ := sound_of_run heap
  have sole := sole_free_segment sound.layout sound.live.eq_nil (by rw [size]; decide)
  have start := sound.layout.start
  have partition : Partitioned machine.heap [⟨kernelHeapStart, 2 ^ 20⟩] [] := by
    have partitioned := sound.partitioned
    rw [sole, size] at partitioned
    exact partitioned
  have tail : TailSize machine.heap [⟨kernelHeapStart, 2 ^ 20⟩] (2 ^ 20) := by
    refine Or.inl ⟨_, List.mem_singleton_self _, ?_, rfl⟩
    rw [start, size]
    rfl
  have least : IsLeast {steps | 1048592 ≤ 2 ^ 20 + steps * 65536} 1 := by
    refine ⟨by decide, fun steps reached => ?_⟩
    have reached : 1048592 ≤ 2 ^ 20 + steps * 65536 := reached
    omega
  have latches : LatchesOpen machine := ⟨congrFun unlocked _, congrFun unlocked _⟩
  have grows := (@kmalloc_first_fit _ _ _ _ _ _ heap paging latches partition (2 ^ 20) 1048592
    (by decide) (by decide) (by decide)).2 (by decide) _ _ tail least
  have returns : Ends (kmalloc (2 ^ 20))
      (fun pointer after => pointer = kernelHeapStart + 16 ∧ after.heap.size = 2 ^ 20 + 65536)
      (fun _ _ => False) machine := by
    apply ends_mono grows
    · rintro _ after ⟨ready, curr, -, place, rfl, grown⟩
      rw [start, size, Nat.add_right_cancel_iff] at place
      rw [place, grown, size]
      exact ⟨rfl, rfl⟩
    · rintro stop after ⟨-, few⟩
      have budget := expanded.budget
      have many := small_machine_free
      omega
  obtain ⟨_, after, returned, rfl, grown⟩ := returns.exists_ok
  exact ⟨machine, after, run, returned, grown⟩

/-! ## The size of a block -/

/-- Every address `kmalloc` returns is aligned, and its block holds the request exactly when the
size computation does not wrap; a call that does not return panics. -/
theorem kmalloc_covers_iff {machine : Machine} {live : List Block} {frames : Finset Nat}
    {roots held : Set Nat} (run : HeapRun machine live frames)
    (paging : PagingSound roots held machine) (latches : LatchesOpen machine) {size : Nat}
    (some : 0 < size) (word : size < 2 ^ 64) :
    (∀ pointer after, kmalloc size machine = .ok pointer after →
      pointer % 16 = 0 ∧
        (size + 16 ≤ load64 after.heap.memory (pointer - 16) ↔ size + 32 ≤ 2 ^ 64)) ∧
      ∀ stop after, kmalloc size machine = .error stop after → ∃ message, stop = .panic message := by
  obtain ⟨segments, sound⟩ := sound_of_run run
  constructor
  · intro pointer after returned
    obtain ⟨count, ready, curr, -, rfl, delivers⟩ := (ends_kmalloc_delivers sound.layout sound.room
      sound.unlocked (Nat.ne_of_gt some)).returns returned
    obtain ⟨between, final, block, -, -, allocates, rfl⟩ := delivers.delivered
    have aligned := (blocks_sized allocates.layout.sized (by decide)
      (allocates.live.mem_iff.mpr List.mem_cons_self)).1
    rw [Nat.add_sub_cancel, delivers.word]
    refine ⟨by omega, ?_⟩
    constructor
    · intro covers
      by_contra wraps
      -- the sum wraps to zero or to one unit, and is clamped
      have clamped : requestSize size = 16 := by
        rw [request_size_eq_max]
        omega
      omega
    · intro small
      rw [request_size_eq small]
      omega
  · intro stop after stopped
    have reach : AllSmall (requestSize size) segments →
        requestSize size ≤ tailBytes kernelHeapStart segments + requestSize size * 65536 :=
      fun _ => by omega
    exact ⟨_, ((ends_kmalloc_frames sound.layout sound.room sound.unlocked paging latches
      reach).stops stopped).1⟩

theorem kmalloc_covers_eight :
    ∃ machine after, kmalloc 8 machine = .ok (kernelHeapStart + 16) after ∧
      24 ≤ load64 after.heap.memory kernelHeapStart := by
  obtain ⟨machine, run⟩ := small_heap_installs
  obtain ⟨owned, heap, unlocked, -⟩ := small_heap run
  obtain ⟨-, paging⟩ := fresh_paging small_machine_bare run
  obtain ⟨segments, sound⟩ := sound_of_run heap
  obtain ⟨_, after, returned, rfl, -⟩ := (ends_kmalloc_fits sound.layout sound.unlocked (by decide)
    (fresh_fits small_machine_bare run (show requestSize 8 ≤ 2 ^ 20 by decide))).exists_ok
  exact ⟨machine, after, returned, (((kmalloc_covers_iff heap paging
    ⟨congrFun unlocked _, congrFun unlocked _⟩ (by decide) (by decide)).1 _ _ returned).2).mpr
    (by decide)⟩

/-- The largest size there is gets the smallest block there is. -/
theorem kmalloc_largest_size_short :
    ∃ machine owned after, HeapRun machine [] owned ∧
      kmalloc (2 ^ 64 - 1) machine = .ok (kernelHeapStart + 16) after ∧
      load64 after.heap.memory kernelHeapStart = 16 := by
  obtain ⟨machine, run⟩ := small_heap_installs
  obtain ⟨owned, heap, -⟩ := small_heap run
  obtain ⟨segments, sound⟩ := sound_of_run heap
  have found := fresh_fits small_machine_bare run (show requestSize (2 ^ 64 - 1) ≤ 2 ^ 20 by decide)
  obtain ⟨_, after, returned, rfl, -⟩ :=
    (ends_kmalloc_fits sound.layout sound.unlocked (by decide) found).exists_ok
  obtain ⟨count, ready, curr, served, -, delivers⟩ := (ends_kmalloc_delivers sound.layout sound.room
    sound.unlocked (by decide)).returns returned
  obtain ⟨-, -, rfl⟩ := served.of_fits found
  exact ⟨machine, owned, after, heap, returned, delivers.word.trans (by decide)⟩

/-! ## Freeing in any order -/

def releaseAll : List Block → Kernel PUnit
  | [] => return ⟨⟩
  | block :: rest => do
      kfree (block.start + 16)
      releaseAll rest

def FreeList (heap : Heap) (free : List Block) : Prop := FreeChain heap.memory heap.head free

section Freeing

variable {machine : Machine} {segments : List Segment}

theorem layout_free_list {heap : Heap} (layout : HeapLayout heap segments) :
    FreeList heap (blocks false kernelHeapStart segments) := by
  rw [FreeList, layout.holds.head]
  exact free_chain_of_encodes (by decide) layout.holds.encodes

theorem layout_unique {left right : Heap} {segments' : List Segment}
    (layout : HeapLayout left segments) (layout' : HeapLayout right segments')
    (live : (blocks true kernelHeapStart segments).Perm (blocks true kernelHeapStart segments'))
    (size : left.size = right.size) : segments = segments' := by
  have positive : ∀ {list : List Segment}, Sized list → ∀ segment ∈ list, 0 < segment.size :=
    fun sized segment member => Nat.lt_of_lt_of_le (by decide) (sized.roomy segment member)
  apply coalesced_unique (positive layout.sized) (positive layout'.sized) layout.coalesced
    layout'.coalesced live
  rw [← layout.size, ← layout'.size, size]

structure Freed (rest : List Block) (before after : Machine) (segments : List Segment) : Prop where
  layout : HeapLayout after.heap segments
  live : (blocks true kernelHeapStart segments).Perm rest
  size : after.heap.size = before.heap.size

theorem ends_releaseAll {order rest : List Block} (layout : HeapLayout machine.heap segments)
    (unlocked : machine.locked .heap = false)
    (owned : (blocks true kernelHeapStart segments).Perm (order ++ rest)) :
    Ends (releaseAll order) (fun _ after => ∃ segments', Freed rest machine after segments')
      (fun _ _ => False) machine := by
  induction order generalizing machine segments with
  | nil =>
    rw [releaseAll, ends_pure]
    exact ⟨segments, layout, owned, rfl⟩
  | cons block order induction =>
    have member : block ∈ blocks true kernelHeapStart segments :=
      owned.mem_iff.mpr List.mem_cons_self
    rw [releaseAll, ends_bind]
    apply ends_mono (ends_kfree layout unlocked member) _ fun _ _ => id
    rintro _ after ⟨segments', releases⟩
    have others : (blocks true kernelHeapStart segments').Perm (order ++ rest) :=
      (releases.live.symm.trans owned).cons_inv
    have stillUnlocked : after.locked .heap = false := by
      rw [releases.same]
      exact unlocked
    apply ends_mono (induction releases.layout stillUnlocked others) _
      fun _ _ => id
    rintro _ final ⟨segments'', freed⟩
    exact ⟨segments'', freed.layout, freed.live, freed.size.trans releases.size⟩

theorem release_orders {first second rest : List Block} (layout : HeapLayout machine.heap segments)
    (unlocked : machine.locked .heap = false) (same : first.Perm second)
    (owned : (blocks true kernelHeapStart segments).Perm (first ++ rest)) :
    ∃ left right free, releaseAll first machine = .ok ⟨⟩ left ∧
      releaseAll second machine = .ok ⟨⟩ right ∧ FreeList left.heap free ∧
      FreeList right.heap free := by
  obtain ⟨_, left, runLeft, leftSegments, leftFreed⟩ :=
    (ends_releaseAll layout unlocked owned).exists_ok
  obtain ⟨_, right, runRight, rightSegments, rightFreed⟩ :=
    (ends_releaseAll layout unlocked (owned.trans (same.append_right rest))).exists_ok
  have equal : leftSegments = rightSegments := layout_unique leftFreed.layout rightFreed.layout
    (leftFreed.live.trans rightFreed.live.symm) (leftFreed.size.trans rightFreed.size.symm)
  refine ⟨left, right, _, runLeft, runRight, layout_free_list leftFreed.layout, ?_⟩
  rw [equal]
  exact layout_free_list rightFreed.layout

theorem live_size_pos {heap : Heap} {block : Block} (layout : HeapLayout heap segments)
    (member : block ∈ blocks true kernelHeapStart segments) : heap.size ≠ 0 := by
  obtain ⟨front, back, rfl, -⟩ := mem_blocks_split member
  have room := (layout.sized _ (List.mem_append_right _ List.mem_cons_self)).1
  rw [layout.size, span_append, span]
  omega

theorem heap_run_size {live : List Block} {frames : Finset Nat} (run : HeapRun machine live frames) :
    machine.heap.size ≠ 0 := by
  induction run with
  | @installed before after untouched noHead tracked unlocked run =>
    have installs : Ends heapInstall (fun _ after => after.heap.size ≠ 0) (fun _ _ => True)
        before := by
      rw [heapInstall, ends_bind, ends_get, ends_bind, ends_require, if_pos untouched, ends_bind,
        ends_set, ends_bind]
      apply ends_mono (ends_heapExpandPages_size (opened_layout noHead) (by decide) (by decide)) _
        fun _ _ _ => trivial
      intro grown after size
      rw [ends_require]
      split
      · rw [size]
        exact Nat.succ_ne_zero _
      · trivial
    exact installs.returns run
  | @allocate machine after live frames size pointer prior run induction =>
    by_cases none : size = 0
    · rw [none, kmalloc, if_pos rfl] at run
      cases run
      exact induction
    · obtain ⟨segments, sound⟩ := sound_of_run prior
      obtain ⟨segments', block, -, allocates⟩ :=
        (ends_kmalloc sound.layout sound.room sound.unlocked none).returns run
      exact live_size_pos allocates.layout (allocates.live.mem_iff.mpr List.mem_cons_self)
  | release prior owned run induction =>
    obtain ⟨segments, sound⟩ := sound_of_run prior
    obtain ⟨segments', releases⟩ := (ends_kfree sound.layout sound.unlocked
      (sound.live.mem_iff.mpr owned)).returns run
    rw [releases.size]
    exact induction
  | releaseNull prior run induction =>
    rw [kfree, if_pos rfl] at run
    cases run
    exact induction
  | write prior inside induction => exact induction
  | elsewhere prior sameHeap sameLock samePages keeps induction =>
    rw [sameHeap]
    exact induction

end Freeing

/-- Freeing what a call of `kmalloc` returned leaves the free list the request was served from,
two live blocks can be freed in either order, and freeing all of them in any order leaves one
block. -/
theorem kfree_undoes_kmalloc {machine : Machine} {live : List Block} {frames : Finset Nat}
    (run : HeapRun machine live frames) :
    (∀ size pointer after, 0 < size → kmalloc size machine = .ok pointer after →
      ∃ count ready curr final free,
        Served (requestSize size) count (heapLatched machine) ready curr ∧
        kfree pointer after = .ok ⟨⟩ final ∧
        FreeList ready.heap free ∧ FreeList final.heap free) ∧
      (∀ first ∈ live, ∀ second ∈ live, first ≠ second →
        ∃ left right free, releaseAll [first, second] machine = .ok ⟨⟩ left ∧
          releaseAll [second, first] machine = .ok ⟨⟩ right ∧
          FreeList left.heap free ∧ FreeList right.heap free) ∧
      ∀ order, order.Perm live → ∃ final, releaseAll order machine = .ok ⟨⟩ final ∧
        FreeList final.heap [⟨machine.heap.start, machine.heap.size⟩] := by
  obtain ⟨segments, sound⟩ := sound_of_run run
  refine ⟨?_, ?_, ?_⟩
  · intro size pointer after some returned
    obtain ⟨count, ready, curr, served, rfl, delivers⟩ := (ends_kmalloc_delivers sound.layout
      sound.room sound.unlocked (Nat.ne_of_gt some)).returns returned
    obtain ⟨between, taken, block, readyLayout, -, allocates, rfl⟩ := delivers.delivered
    obtain ⟨_, final, freed, segments', releases⟩ := (ends_kfree allocates.layout allocates.unlocked
      (allocates.live.mem_iff.mpr List.mem_cons_self)).exists_ok
    have same : segments' = between := layout_unique releases.layout readyLayout
      (releases.live.symm.trans allocates.live).cons_inv (releases.size.trans delivers.size)
    refine ⟨count, ready, block.start, final, _, served, freed, layout_free_list readyLayout, ?_⟩
    rw [← same]
    exact layout_free_list releases.layout
  · intro first firstLive second secondLive distinct
    have later : second ∈ live.erase first := (List.mem_erase_of_ne distinct.symm).mpr secondLive
    have owned : (blocks true kernelHeapStart segments).Perm
        ([first, second] ++ (live.erase first).erase second) :=
      (sound.live.trans (List.perm_cons_erase firstLive)).trans
        ((List.perm_cons_erase later).cons first)
    exact release_orders sound.layout sound.unlocked (List.Perm.swap _ _ _) owned
  · intro order all
    have owned : (blocks true kernelHeapStart segments).Perm (order ++ []) := by
      rw [List.append_nil]
      exact sound.live.trans all.symm
    obtain ⟨_, final, released, segments', freed⟩ :=
      (ends_releaseAll sound.layout sound.unlocked owned).exists_ok
    have sole := sole_free_segment freed.layout freed.live.eq_nil
      (by rw [freed.size]; exact heap_run_size run)
    have list := layout_free_list freed.layout
    rw [sole, freed.size] at list
    rw [sound.layout.start]
    exact ⟨final, released, list⟩

theorem kfree_undoes_kmalloc_eight :
    ∃ machine after final free, kmalloc 8 machine = .ok (kernelHeapStart + 16) after ∧
      kfree (kernelHeapStart + 16) after = .ok ⟨⟩ final ∧ FreeList machine.heap free ∧
      FreeList final.heap free := by
  obtain ⟨machine, run⟩ := small_heap_installs
  obtain ⟨owned, heap, -⟩ := small_heap run
  obtain ⟨segments, sound⟩ := sound_of_run heap
  have found := fresh_fits small_machine_bare run (show requestSize 8 ≤ 2 ^ 20 by decide)
  obtain ⟨_, after, returned, rfl, -⟩ :=
    (ends_kmalloc_fits sound.layout sound.unlocked (by decide) found).exists_ok
  obtain ⟨count, ready, curr, final, free, served, freed, before, again⟩ :=
    (kfree_undoes_kmalloc heap).1 8 _ after (by decide) returned
  obtain ⟨-, rfl, -⟩ := served.of_fits found
  exact ⟨machine, after, final, free, returned, freed, before, again⟩

/-! ## A run that splits, takes an exact fit and merges -/

section Reuse

variable {machine : Machine} {live : List Block} {segments : List Segment}

/-- The live blocks are `live`, and `segments` is the one coalesced division of the first
megabyte in which they lie. -/
abbrev Divided (live : List Block) (segments : List Segment) : Prop :=
  (∀ segment ∈ segments, 0 < segment.size) ∧ Coalesced segments ∧
    (blocks true kernelHeapStart segments).Perm live ∧ span segments = 2 ^ 20

def RunAt (live : List Block) (machine : Machine) : Prop :=
  machine.heap.size = 2 ^ 20 ∧ ∃ frames, HeapRun machine live frames

theorem run_sound (divided : Divided live segments) (state : RunAt live machine) :
    ∃ frames, HeapRun machine live frames ∧ HeapSound machine live frames segments := by
  obtain ⟨sized, coalesced, listed, total⟩ := divided
  obtain ⟨size, frames, run⟩ := state
  obtain ⟨found, sound⟩ := sound_of_run run
  obtain rfl : found = segments := coalesced_unique
    (fun segment member => Nat.lt_of_lt_of_le (by decide) (sound.layout.sized segment member).1)
    sized sound.layout.coalesced coalesced (sound.live.trans listed.symm)
    (by rw [total, ← sound.layout.size, size])
  exact ⟨frames, run, sound⟩

theorem run_takes {size : Nat} {block : Block} (divided : Divided live segments)
    (state : RunAt live machine) (some : size ≠ 0)
    (first : FirstFit (blocks false kernelHeapStart segments) (requestSize size) block) :
    ∃ after, kmalloc size machine = .ok (block.start + 16) after ∧
      RunAt (⟨block.start, requestSize size⟩ :: live) after := by
  obtain ⟨frames, run, sound⟩ := run_sound divided state
  obtain ⟨after, returned, -, grown, word⟩ := first_fit_taken sound some first
  have taken := HeapRun.allocate run returned
  rw [recordBlock, if_neg (Nat.succ_ne_zero _), Nat.add_sub_cancel, word] at taken
  exact ⟨after, returned, grown.trans state.1, _, taken⟩

theorem run_gives {block : Block} (state : RunAt live machine) (owned : block ∈ live) :
    ∃ after, kfree (block.start + 16) machine = .ok ⟨⟩ after ∧
      RunAt (live.erase block) after := by
  obtain ⟨size, frames, run⟩ := state
  obtain ⟨segments, sound⟩ := sound_of_run run
  obtain ⟨_, after, returned, _, releases⟩ := (ends_kfree sound.layout sound.unlocked
    (sound.live.mem_iff.mpr owned)).exists_ok
  exact ⟨after, returned, releases.size.trans size, frames, .release run owned returned⟩

end Reuse

/-- Three blocks are split off, the first is given back and taken again whole, and the first
two are given back and merge. -/
def splitAndMerge : Kernel (List Nat) := do
  let first ← kmalloc 16
  let second ← kmalloc 32
  let third ← kmalloc 16
  kfree first
  let again ← kmalloc 16
  kfree second
  kfree again
  return [first, second, third, again]

theorem heap_runs_keep_partition_reused :
    ∃ machine after, heapInstall smallMachine = .ok ⟨⟩ machine ∧
      splitAndMerge machine = .ok [kernelHeapStart + 16, kernelHeapStart + 48,
        kernelHeapStart + 96, kernelHeapStart + 16] after ∧
      Partitioned after.heap
        [⟨kernelHeapStart, 80⟩, ⟨kernelHeapStart + 112, 2 ^ 20 - 112⟩]
        [⟨kernelHeapStart + 80, 32⟩] := by
  obtain ⟨machine, run⟩ := small_heap_installs
  obtain ⟨owned, heap, -, -, -, -, size, -⟩ := small_heap run
  have empty : RunAt [] machine := ⟨size, owned, heap⟩
  obtain ⟨one, first, oneRun⟩ := @run_takes _ _ [⟨false, 2 ^ 20⟩] 16
    ⟨kernelHeapStart, 2 ^ 20⟩ (by decide) empty (by decide) (by decide)
  obtain ⟨two, second, twoRun⟩ := @run_takes _ _ [⟨true, 32⟩, ⟨false, 2 ^ 20 - 32⟩] 32
    ⟨kernelHeapStart + 32, 2 ^ 20 - 32⟩ (by decide) oneRun (by decide) (by decide)
  obtain ⟨three, third, threeRun⟩ := @run_takes _ _
    [⟨true, 32⟩, ⟨true, 48⟩, ⟨false, 2 ^ 20 - 80⟩] 16 ⟨kernelHeapStart + 80, 2 ^ 20 - 80⟩
    (by decide) twoRun (by decide) (by decide)
  obtain ⟨four, freed, fourRun⟩ := @run_gives _ _ ⟨kernelHeapStart, 32⟩ threeRun (by decide)
  obtain ⟨five, again, fiveRun⟩ := @run_takes _ _
    [⟨false, 32⟩, ⟨true, 48⟩, ⟨true, 32⟩, ⟨false, 2 ^ 20 - 112⟩] 16 ⟨kernelHeapStart, 32⟩
    (by decide) fourRun (by decide) (by decide)
  obtain ⟨six, freedSecond, sixRun⟩ := @run_gives _ _ ⟨kernelHeapStart + 32, 48⟩ fiveRun
    (by decide)
  obtain ⟨seven, freedAgain, sevenRun⟩ := @run_gives _ _ ⟨kernelHeapStart, 32⟩ sixRun (by decide)
  refine ⟨machine, seven, run, ?_, ?_⟩
  · simp only [splitAndMerge, bind, EStateM.bind, first, second, third, freed, again, freedSecond,
      freedAgain]
    rfl
  · obtain ⟨frames, final, sound⟩ := @run_sound _ _
      [⟨false, 80⟩, ⟨true, 32⟩, ⟨false, 2 ^ 20 - 112⟩] (by decide) sevenRun
    obtain ⟨⟨free, partition⟩, -⟩ := heap_runs_keep_partition final
    obtain rfl := partitioned_free_eq partition sound.layout
    exact partition

end RiriaKernel.KernelHeapRequests
