import RiriaKernel.KernelHeapRuns

/-!
# The kernel heap shared by several contexts

`kmalloc` reads `heap_head` before it takes the latch, so another context may run in
between. A call is two steps here: the read, and the section under the latch, which is
entered with the address read before. An address that is still on the free list, though
no longer its head, loses the blocks in front of it and does no other harm. An address
that has left the list hands out a block twice.
-/

namespace RiriaKernel.KernelHeapContexts

open ByteMemory HaltingPrograms KernelState PhysicalAllocator KernelHeap
open RegionLayouts KernelHeapLayouts KernelHeapRuns

/-- The section of `kmalloc` under the latch, entered with the head `curr` read before. -/
def kmallocSection (size curr : Nat) : Kernel Nat := do
  let machine ← get
  spinLock .heap
  tryAllocate (requestSize size) (retryBound machine.pmm) curr

theorem kmalloc_eq_section {size : Nat} (some : size ≠ 0) (machine : Machine) :
    kmalloc size machine = kmallocSection size machine.heap.head machine := by
  rw [kmalloc, if_neg some]
  rfl

section Scanning

variable {machine : Machine} {segments : List Segment} {total : Nat}

/-- A block taken at the address the scan starts from: the head is not read. -/
theorem ends_takeBlock_head {returned : Nat → Machine → Prop} {stopped : Stop → Machine → Prop}
    (curr head other : Nat) (memory : Memory) :
    Ends (takeBlock total 0 curr) returned stopped (withHeap machine head memory) =
      Ends (takeBlock total 0 curr) returned stopped (withHeap machine other memory) := by
  simp only [takeBlock, ends_bind, ends_getSize, ends_ite, ends_getNext, ends_setBlockSize,
    ends_setBlockNext, ends_setLink, relinkHead, if_true]

/-- The heap whose list starts at a later free block: the blocks in front of it are lost. -/
theorem retired_layout {heap : Heap} {size : Nat} {front back : List Segment}
    (layout : HeapLayout heap (front ++ ⟨false, size⟩ :: back)) :
    HeapLayout { heap with head := kernelHeapStart + span front }
      (retire front ++ ⟨false, size⟩ :: back) := by
  obtain ⟨frontSized, restSized⟩ := sized_append.mp layout.sized
  obtain ⟨frontEncodes, restEncodes⟩ := encodes_append.mp layout.holds.encodes
  obtain ⟨-, restCoalesced, -⟩ := List.isChain_append.mp layout.coalesced
  have sameSpan := span_retire front
  refine ⟨layout.start, ?_, layout.pages, layout.bounded, ?_, ?_, ?_, ?_⟩
  · rw [span_append, sameSpan, ← span_append]
    exact layout.size
  · refine sized_append.mpr ⟨?_, restSized⟩
    intro segment member
    obtain ⟨original, listed, rfl⟩ := List.mem_map.mp member
    exact frontSized original listed
  · refine List.isChain_append.mpr ⟨?_, restCoalesced, ?_⟩
    · apply List.Pairwise.isChain
      apply List.pairwise_of_forall_mem_list
      intro left member _ _
      exact Or.inl (retire_live front left member)
    · intro left last _ _
      exact Or.inl (retire_live front left (List.mem_of_mem_getLast? last))
  · rw [next_free_append, next_free_live (retire_live front), sameSpan]
    rfl
  · refine encodes_append.mpr ⟨encodes_retire _ frontEncodes, ?_⟩
    rw [sameSpan]
    exact restEncodes

def Listed (free : List Block) (curr : Nat) : Prop := curr = 0 ∨ ∃ block ∈ free, block.start = curr

/-- A scan from a listed address finds a free segment, either behind the last free one in
front of it or at the address the scan started from, or it sees the rest of the list. -/
theorem scan_listed (total : Nat) {heap : Heap} {curr : Nat} (layout : HeapLayout heap segments)
    (listed : Listed (blocks false kernelHeapStart segments) curr) :
    (∃ front size back prev, segments = front ++ ⟨false, size⟩ :: back ∧ total ≤ size ∧
        (prev = lastFree kernelHeapStart front 0 ∨ prev = 0) ∧
        findFit heap.memory total (walkBound heap) 0 curr =
          .fits prev (kernelHeapStart + span front)) ∨
      findFit heap.memory total (walkBound heap) 0 curr = .exhausted := by
  rcases listed with rfl | ⟨block, member, rfl⟩
  · apply Or.inr
    rw [walkBound, findFit, if_pos rfl]
  · obtain ⟨front, back, rfl, place⟩ := mem_blocks_split member
    obtain ⟨-, encodes⟩ := encodes_append.mp layout.holds.encodes
    have count := walk_bound_enough layout
    rw [blocks_append, List.length_append] at count
    have enough := Nat.lt_of_add_left_lt count
    have positive : 0 < kernelHeapStart + span front := Nat.add_pos_left (by decide) _
    have here : block.start =
        nextFree (kernelHeapStart + span front) (⟨false, block.size⟩ :: back) 0 := place
    rw [here]
    rcases find_fit_cases positive encodes enough with
      ⟨between, size, rest, split, large, found⟩ | exhausted
    · refine Or.inl ⟨front ++ between, size, rest, lastFree (kernelHeapStart + span front) between 0,
        ?_, large, ?_, ?_⟩
      · rw [split, List.append_assoc]
      · cases between with
        | nil => exact Or.inr rfl
        | cons first others =>
          obtain ⟨rfl, -⟩ := List.cons.inj split
          rw [last_free_append]
          exact Or.inl rfl
      · rw [span_append, ← Nat.add_assoc]
        exact found
    · exact Or.inr exhausted

theorem ends_retry {fuel : Nat} (layout : HeapLayout machine.heap segments)
    (multiple : 16 ≤ total ∧ total % 16 = 0)
    (room : machine.heap.size + (freeSet machine.pmm).card * pageSize ≤ 2 ^ 35)
    (enough : (freeSet machine.pmm).card < fuel + 1) :
    Ends (do growForRequest; tryAllocate total fuel (← get).heap.head)
      (fun pointer after => ∃ segments' block, pointer = block.start + 16 ∧
        Allocates total segments machine after segments' block)
      (fun stop _ => stop ≠ .unbounded) machine := by
  rw [ends_bind]
  apply ends_mono (ends_growForRequest layout room) _ fun _ _ => id
  intro _ after grown
  obtain ⟨segments', grows⟩ := grown
  have fewer := grows.taken
  have roomAfter := grows.size
  rw [ends_bind, ends_get]
  apply ends_mono (ends_tryAllocate grows.layout multiple (by omega) (by omega)) _
    fun _ _ => id
  intro pointer final done
  obtain ⟨segments'', block, returned, allocates⟩ := done
  exact ⟨segments'', block, returned, grows.allocates allocates⟩

/-- A block is handed out, and `lost` blocks may have gone from the list with it. -/
def HandsOut (total : Nat) (segments : List Segment) (before : Machine) (pointer : Nat)
    (after : Machine) : Prop :=
  ∃ base lost segments' block, pointer = block.start + 16 ∧
    (blocks true kernelHeapStart base).Perm (blocks true kernelHeapStart segments ++ lost) ∧
    Allocates total base before after segments' block

theorem hands_out_of_allocates {segments' : List Segment} {block : Block} {after : Machine}
    (allocates : Allocates total segments machine after segments' block) :
    HandsOut total segments machine (block.start + 16) after :=
  ⟨segments, [], segments', block, rfl, by simp, allocates⟩

theorem ends_takeBlock_first {size : Nat} {front back : List Segment}
    (layout : HeapLayout machine.heap (front ++ ⟨false, size⟩ :: back))
    (multiple : 16 ≤ total ∧ total % 16 = 0) (fits : total ≤ size) :
    Ends (takeBlock total 0 (kernelHeapStart + span front))
      (HandsOut total (front ++ ⟨false, size⟩ :: back) machine) (fun _ _ => False) machine := by
  let moved := withHeap machine (kernelHeapStart + span front) machine.heap.memory
  have retired : HeapLayout moved.heap (retire front ++ ⟨false, size⟩ :: back) := retired_layout layout
  have take := ends_takeBlock_allocates retired multiple fits
  rw [last_free_live (retire_live front), span_retire] at take
  rw [← withHeap_self machine, ends_takeBlock_head _ _ (kernelHeapStart + span front)]
  apply ends_mono take _ fun _ _ => id
  intro pointer after done
  obtain ⟨segments', block, returned, allocates⟩ := done
  refine ⟨retire front ++ ⟨false, size⟩ :: back, blocks false kernelHeapStart front, segments', block,
    returned, ?_, ?_⟩
  · rw [blocks_append, blocks_append, span_retire, List.append_assoc]
    exact ((blocks_retire _ front).append_right _).trans (by
      rw [List.append_assoc]
      exact List.Perm.append_left _ List.perm_append_comm)
  · exact ⟨⟨allocates.kernelPagemap, allocates.highestPage, allocates.free, allocates.taken⟩,
      allocates.layout, allocates.live, allocates.large, allocates.size, allocates.unlocked⟩

theorem ends_kmallocSection {size curr : Nat} (layout : HeapLayout machine.heap segments)
    (room : machine.heap.size + (freeSet machine.pmm).card * pageSize ≤ 2 ^ 35)
    (unlocked : machine.locked .heap = false)
    (listed : Listed (blocks false kernelHeapStart segments) curr) :
    Ends (kmallocSection size curr) (HandsOut (requestSize size) segments machine)
      (fun stop _ => stop ≠ .unbounded) machine := by
  have few := free_card_le machine.pmm
  have multiple := request_size_sized size
  rw [kmallocSection, ends_bind, ends_get, ends_bind, ends_spinLock, unlocked,
    if_neg Bool.false_ne_true, retryBound, tryAllocate, ends_bind, ends_get]
  let locked : Machine := { machine with locked := Function.update machine.locked .heap true }
  have lockedLayout : HeapLayout locked.heap segments := layout
  have same : ∀ pointer after, HandsOut (requestSize size) segments locked pointer after →
      HandsOut (requestSize size) segments machine pointer after := by
    intro pointer after done
    obtain ⟨base, lost, segments', block, returned, kept, allocates⟩ := done
    exact ⟨base, lost, segments', block, returned, kept,
      ⟨allocates.kernelPagemap, allocates.highestPage, allocates.free, allocates.taken⟩,
      allocates.layout, allocates.live, allocates.large, allocates.size, allocates.unlocked⟩
  rcases scan_listed (requestSize size) lockedLayout listed with
    ⟨front, found, back, prev, rfl, large, place, fits⟩ | exhausted
  · rw [fits]
    rcases place with rfl | rfl
    · apply ends_mono (ends_takeBlock_allocates lockedLayout multiple large)
      · intro pointer after done
        obtain ⟨segments', block, rfl, allocates⟩ := done
        exact same _ _ (hands_out_of_allocates allocates)
      · exact fun _ _ => False.elim
    · exact ends_mono (ends_takeBlock_first lockedLayout multiple large) same
        fun _ _ => False.elim
  · rw [exhausted]
    have enough : (freeSet locked.pmm).card < machine.pmm.highestPage + 1 + 1 :=
      Nat.lt_succ_of_le few
    apply ends_mono (ends_retry lockedLayout multiple room enough) _ fun _ _ => id
    intro pointer after done
    obtain ⟨segments', block, rfl, allocates⟩ := done
    exact same _ _ (hands_out_of_allocates allocates)

end Scanning

/-! ## Interleavings -/

structure Request where
  size : Nat
  curr : Nat

/-- The steps of any number of contexts in any order. `waiting` holds the calls that have
read the head and not yet taken the latch. A call enters its section only where
`admits` holds of the machine and of the address it has read. -/
inductive ContextRun {Context : Type} [DecidableEq Context] (admits : Machine → Nat → Prop) :
    Machine → (Context → Option Request) → List Block → Finset Nat → Prop where
  | quiet {machine : Machine} {live : List Block} {frames : Finset Nat}
      (run : HeapRun machine live frames) : ContextRun admits machine (fun _ => none) live frames
  | read {machine : Machine} {waiting : Context → Option Request} {live : List Block}
      {frames : Finset Nat} (context : Context) {size : Nat}
      (prior : ContextRun admits machine waiting live frames) (idle : waiting context = none)
      (positive : size ≠ 0) :
      ContextRun admits machine
        (Function.update waiting context (some ⟨size, machine.heap.head⟩)) live frames
  | enter {machine after : Machine} {waiting : Context → Option Request} {live : List Block}
      {frames : Finset Nat} (context : Context) {request : Request} {pointer : Nat}
      (prior : ContextRun admits machine waiting live frames)
      (asked : waiting context = some request) (admitted : admits machine request.curr)
      (run : kmallocSection request.size request.curr machine = .ok pointer after) :
      ContextRun admits after (Function.update waiting context none)
        (recordBlock pointer after.heap.memory live)
        (frames ∪ freeSet machine.pmm \ freeSet after.pmm)
  | release {machine after : Machine} {waiting : Context → Option Request} {live : List Block}
      {frames : Finset Nat} {block : Block}
      (prior : ContextRun admits machine waiting live frames) (owned : block ∈ live)
      (run : kfree (block.start + 16) machine = .ok ⟨⟩ after) :
      ContextRun admits after waiting (live.erase block) frames
  | write {machine : Machine} {waiting : Context → Option Request} {live : List Block}
      {frames : Finset Nat} {memory : Memory}
      (prior : ContextRun admits machine waiting live frames)
      (inside : ∀ address, memory address ≠ machine.heap.memory address →
        ∃ block ∈ live, block.start + 16 ≤ address ∧ address < block.stop) :
      ContextRun admits (withHeap machine machine.heap.head memory) waiting live frames
  | elsewhere {machine after : Machine} {waiting : Context → Option Request} {live : List Block}
      {frames : Finset Nat} (prior : ContextRun admits machine waiting live frames)
      (sameHeap : after.heap = machine.heap)
      (sameLock : after.locked .heap = machine.locked .heap)
      (samePages : after.pmm.highestPage = machine.pmm.highestPage)
      (keeps : Disjoint frames (freeSet after.pmm)) : ContextRun admits after waiting live frames

/-- The address is null or still that of a block on the free list. -/
def StillListed (machine : Machine) (curr : Nat) : Prop :=
  ∃ free, FreeChain machine.heap.memory machine.heap.head free ∧ Listed free curr

/-- No two blocks of the free list and of `live` share a byte. -/
def BlocksApart (heap : Heap) (live : List Block) : Prop :=
  ∃ free, FreeChain heap.memory heap.head free ∧
    (free ++ live).Pairwise fun left right => left.stop ≤ right.start ∨ right.stop ≤ left.start

section Soundness

variable {machine after : Machine} {live lost : List Block} {frames : Finset Nat}
  {segments : List Segment}

theorem record_block_append (pointer : Nat) (memory : Memory) (live lost : List Block) :
    recordBlock pointer memory (live ++ lost) = recordBlock pointer memory live ++ lost := by
  unfold recordBlock
  split
  · rfl
  · rfl

theorem listed_of_still (sound : HeapSound machine live frames segments) {curr : Nat}
    (still : StillListed machine curr) : Listed (blocks false kernelHeapStart segments) curr := by
  obtain ⟨free, chain, listed⟩ := still
  rwa [free_chain_unique chain sound.partitioned.chain] at listed

/-- Blocks that have left the list unreturned count as live ones nobody will free. -/
theorem enter_sound (sound : HeapSound machine (live ++ lost) frames segments)
    {request : Request} {pointer : Nat} (still : StillListed machine request.curr)
    (run : kmallocSection request.size request.curr machine = .ok pointer after) :
    ∃ lost' segments', HeapSound after (recordBlock pointer after.heap.memory live ++ lost')
      (frames ∪ freeSet machine.pmm \ freeSet after.pmm) segments' := by
  obtain ⟨base, gone, segments', block, rfl, kept, allocates⟩ :=
    (ends_kmallocSection sound.layout sound.room sound.unlocked
      (listed_of_still sound still)).returns run
  have others : (blocks true kernelHeapStart base).Perm (live ++ (lost ++ gone)) := by
    rw [← List.append_assoc]
    exact kept.trans (sound.live.append_right gone)
  have handed := sound.allocated allocates others
  rw [record_block_append] at handed
  exact ⟨lost ++ gone, segments', handed⟩

theorem release_sound (sound : HeapSound machine (live ++ lost) frames segments) {block : Block}
    (owned : block ∈ live) (run : kfree (block.start + 16) machine = .ok ⟨⟩ after) :
    ∃ segments', HeapSound after (live.erase block ++ lost) frames segments' := by
  have released := sound.release (List.mem_append_left lost owned) run
  rwa [List.erase_append_left lost owned] at released

variable {Context : Type} [DecidableEq Context] {waiting : Context → Option Request}

theorem sound_of_context_run (run : ContextRun StillListed machine waiting live frames) :
    ∃ lost segments, HeapSound machine (live ++ lost) frames segments := by
  induction run with
  | quiet run =>
    obtain ⟨segments, sound⟩ := sound_of_run run
    refine ⟨[], segments, ?_⟩
    rwa [List.append_nil]
  | read _ _ _ _ induction => exact induction
  | enter _ _ _ admitted run induction =>
    obtain ⟨lost, segments, sound⟩ := induction
    exact enter_sound sound admitted run
  | release _ owned run induction =>
    obtain ⟨lost, segments, sound⟩ := induction
    exact ⟨lost, release_sound sound owned run⟩
  | write _ inside induction =>
    obtain ⟨lost, segments, sound⟩ := induction
    refine ⟨lost, segments, sound.write ?_⟩
    intro address changed
    obtain ⟨block, owned, payload⟩ := inside address changed
    exact ⟨block, List.mem_append_left lost owned, payload⟩
  | elsewhere _ sameHeap sameLock samePages keeps induction =>
    obtain ⟨lost, segments, sound⟩ := induction
    exact ⟨lost, segments, sound.elsewhere sameHeap sameLock samePages keeps⟩

/-- Where every call of `kmalloc` finds the address it has read still on the free list, or
has read null, the blocks handed out share no byte, neither with each other nor with the
free list. -/
theorem contexts_keep_blocks_apart
    (run : ContextRun StillListed machine waiting live frames) : BlocksApart machine.heap live := by
  obtain ⟨lost, segments, sound⟩ := sound_of_context_run run
  have partitioned := sound.partitioned
  refine ⟨_, partitioned.chain, ?_⟩
  have disjoint := partitioned.tiles.disjoint
  rw [← List.append_assoc] at disjoint
  exact disjoint.sublist (List.sublist_append_left _ _)

end Soundness

/-! ## Two contexts on a fresh heap -/

section TwoContexts

variable {machine : Machine}

theorem ends_section_fits {returned : Nat → Machine → Prop} {stopped : Stop → Machine → Prop}
    {size curr : Nat} (unlocked : machine.locked .heap = false) (nonzero : curr ≠ 0)
    (fits : requestSize size ≤ load64 machine.heap.memory curr) :
    Ends (kmallocSection size curr) returned stopped machine =
      Ends (takeBlock (requestSize size) 0 curr) returned stopped
        { machine with locked := Function.update machine.locked .heap true } := by
  have found : findFit machine.heap.memory (requestSize size) (walkBound machine.heap) 0 curr =
      .fits 0 curr := by
    rw [walkBound, findFit, if_neg nonzero, blockSize, if_pos fits]
  rw [kmallocSection, ends_bind, ends_get, ends_bind, ends_spinLock, unlocked,
    if_neg Bool.false_ne_true, retryBound, tryAllocate, ends_bind, ends_get, found]

theorem ends_section_first {size : Nat} (first : FirstBlock size machine) (fits : 48 ≤ size) :
    Ends (kmallocSection 8 machine.heap.head) (Cut 32 size machine) (fun _ _ => False) machine := by
  have total : requestSize 8 = 32 := by decide
  obtain ⟨pointer, after, run, cut⟩ := (ends_kmalloc_first_block first (show 8 ≠ 0 by decide)
    (by rw [total]; exact fits)).exists_ok
  rw [kmalloc_eq_section (by decide)] at run
  rw [total] at cut
  rwa [ends_of_ok run]

theorem ends_second_section (unlocked : machine.locked .heap = false)
    (size : load64 machine.heap.memory kernelHeapStart = 32) :
    Ends (kmallocSection 8 kernelHeapStart)
      (fun pointer after => pointer = kernelHeapStart + 16 ∧
        load64 after.heap.memory kernelHeapStart = 32)
      (fun _ _ => False) machine := by
  have nonzero : kernelHeapStart ≠ 0 := by decide
  have fits : requestSize 8 ≤ load64 machine.heap.memory kernelHeapStart := by
    rw [size]
    decide
  have total : requestSize 8 = 32 := by decide
  have whole : ¬32 ≥ add64 32 minAllocSize := by decide
  have pointer : add64 kernelHeapStart headerSize = kernelHeapStart + 16 := by decide
  rw [ends_section_fits unlocked nonzero fits, total]
  change Ends _ _ _ (withHeap { machine with
    locked := Function.update machine.locked .heap true } machine.heap.head machine.heap.memory)
  simp only [takeBlock, ends_bind, ends_getSize, size, if_neg whole, ends_setBlockSize,
    ends_getNext, ends_setLink, ends_spinUnlock, ends_pure, pointer, withHeap_memory, relink, if_true]
  exact ⟨trivial, load64_store64 (by decide)⟩

theorem record_cut {size pointer : Nat} {after : Machine} (cut : Cut 32 size machine pointer after)
    (live : List Block) :
    recordBlock pointer after.heap.memory live = ⟨machine.heap.head, 32⟩ :: live := by
  rw [cut.pointer, recordBlock, if_neg (Nat.succ_ne_zero _), Nat.add_sub_cancel, cut.header]

theorem head_listed {Context : Type} [DecidableEq Context] {waiting : Context → Option Request}
    {live : List Block} {frames : Finset Nat}
    (run : ContextRun StillListed machine waiting live frames) :
    StillListed machine machine.heap.head := by
  obtain ⟨lost, segments, sound⟩ := sound_of_context_run run
  refine ⟨_, sound.partitioned.chain, ?_⟩
  have chain := sound.partitioned.chain
  cases free : blocks false kernelHeapStart segments with
  | nil =>
    rw [free] at chain
    exact Or.inl chain
  | cons block rest =>
    rw [free] at chain
    exact Or.inr ⟨block, List.mem_cons_self, chain.1.symm⟩

/-- A context reads the head and takes a block, while no other one is waiting. -/
theorem context_takes {size : Nat} {live : List Block} {frames : Finset Nat} (context : Bool)
    (run : ContextRun StillListed machine (fun _ : Bool => none) live frames)
    (first : FirstBlock size machine) (fits : 48 ≤ size) :
    ∃ after frames', ContextRun StillListed after (fun _ : Bool => none)
        (⟨machine.heap.head, 32⟩ :: live) frames' ∧
      after.heap.head = machine.heap.head + 32 ∧ FirstBlock (size - 32) after := by
  obtain ⟨pointer, after, returned, cut⟩ := (ends_section_first first fits).exists_ok
  have entered := (run.read context rfl (show 8 ≠ 0 by decide)).enter context
    (Function.update_self ..) (head_listed run) returned
  rw [record_cut cut, Function.update_idem, Function.update_eq_self] at entered
  obtain ⟨memory, rest⟩ := cut.rest
  exact ⟨after, _, entered, congrArg (fun machine => machine.heap.head) rest, cut.block⟩

theorem contexts_keep_blocks_apart_first :
    ∃ machine frames, ContextRun StillListed machine (fun _ : Bool => none)
        [⟨kernelHeapStart + 32, 32⟩, ⟨kernelHeapStart, 32⟩] frames ∧
      BlocksApart machine.heap [⟨kernelHeapStart + 32, 32⟩, ⟨kernelHeapStart, 32⟩] := by
  obtain ⟨machine, frames, run, head, first⟩ := installed_first
  obtain ⟨one, framesOne, took, next, rest⟩ := context_takes false (.quiet run) first (by decide)
  obtain ⟨two, framesTwo, both, -⟩ := context_takes true took rest (by decide)
  rw [next, head] at both
  exact ⟨two, framesTwo, both, contexts_keep_blocks_apart both⟩

theorem two_readers : ∃ machine frames, ContextRun (fun _ _ => True) machine
    (fun _ : Bool => some ⟨8, kernelHeapStart⟩) [] frames ∧
      machine.heap.head = kernelHeapStart ∧ FirstBlock (2 ^ 20) machine := by
  obtain ⟨machine, frames, run, head, first⟩ := installed_first
  have quiet : ContextRun (fun _ _ => True) machine (fun _ : Bool => none) [] frames := .quiet run
  have second := (quiet.read false rfl (show 8 ≠ 0 by decide)).read true rfl (show 8 ≠ 0 by decide)
  have both : Function.update (Function.update (fun _ : Bool => none) false
      (some ⟨8, machine.heap.head⟩)) true (some ⟨8, machine.heap.head⟩) =
      fun _ => some (⟨8, kernelHeapStart⟩ : Request) := by
    funext context
    cases context <;> simp [head]
  rw [both] at second
  exact ⟨machine, frames, second, head, first⟩

/-- Two contexts read the head before either of them enters, and both are handed its block. -/
theorem contexts_share_block :
    ∃ machine frames, ContextRun (fun _ _ => True) machine (fun _ : Bool => none)
        [⟨kernelHeapStart, 32⟩, ⟨kernelHeapStart, 32⟩] frames ∧
      ¬BlocksApart machine.heap [⟨kernelHeapStart, 32⟩, ⟨kernelHeapStart, 32⟩] := by
  obtain ⟨start, frames, run, head, first⟩ := two_readers
  obtain ⟨pointer, machine, returned, cut⟩ := (ends_section_first first (by decide)).exists_ok
  have recorded := record_cut cut []
  have header := cut.header
  rw [head] at returned recorded header
  have took := run.enter false rfl trivial returned
  rw [recorded] at took
  obtain ⟨_, after, again, rfl, word⟩ := (ends_second_section cut.block.unlocked header).exists_ok
  have entered := took.enter true rfl trivial again
  have idle : Function.update (Function.update
      (fun _ : Bool => some (⟨8, kernelHeapStart⟩ : Request)) false none) true none =
      fun _ => none := by
    funext context
    cases context <;> simp
  rw [recordBlock, if_neg (Nat.succ_ne_zero _), Nat.add_sub_cancel, word, idle] at entered
  refine ⟨after, _, entered, ?_⟩
  intro apart
  obtain ⟨free, -, disjoint⟩ := apart
  have twice := (List.pairwise_append.mp disjoint).2.1
  have overlap := List.rel_of_pairwise_cons twice List.mem_cons_self
  simp [Block.stop] at overlap

end TwoContexts

end RiriaKernel.KernelHeapContexts
