import RiriaKernel.FreedPages

/-!
# What a process leaves behind

A process is spawned, runs, exits and is reaped, and nobody else allocates meanwhile. Its stack
and its heap are unmapped in the end, which returns page tables and no other frame: the frames
behind all pages that are still mapped when the process exits stay taken for good, and so does
its topmost page table.
-/

namespace RiriaKernel.ProcessLifetimes

open ByteMemory HaltingPrograms KernelState PhysicalAllocator PageTableForests
open AddressSpaces KernelHeap Pagemaps ElfLoader UserProcesses
open UserMemory UserOwnership KernelService ProcessSpawning PageFaults UserEvents EventOwnership
open ElfLoaderSteps PageCounters ProcessStarts FreedPages RegionLayouts
open KernelHeapRuns

/-! ## Release -/

section Release

variable {base : Finset Nat} {users device roots : Set Nat} {ledger : Ledger} {machine : Machine}
  {root : Nat}

section

variable (serving : Serving base users device roots ledger machine)

include serving

theorem ends_unmapRange_keeps (user : root ∈ users) {stop count fuel addr : Nat}
    (lower : stop ≤ 2 ^ 47) (aligned : addr % pageSize = 0) (pages : stop ≤ addr + count * pageSize)
    (enough : count < fuel) :
    Ends (unmapRange root stop fuel addr)
      (fun _ after => ∃ ledger', ledger'.held = ledger.held ∧
        Performed base users device roots machine ledger' after ∧ TablesReturned roots machine after)
      (fun _ _ => False) machine := by
  induction fuel generalizing machine ledger addr count with
  | zero => exact absurd enough (Nat.not_lt_zero _)
  | succ fuel induction =>
    rw [unmapRange, ends_ite]
    split
    · next inside =>
        have next : add64 addr pageSize = addr + pageSize :=
          Nat.mod_eq_of_lt (by unfold pageSize; omega)
        have page : pageOf addr = addr / pageSize := page_of_lower (by unfold pageSize; omega)
        have low : ¬UpperHalf (pageOf addr) := by
          rw [page]
          unfold UpperHalf pageSize
          omega
        obtain ⟨left, rfl⟩ : ∃ left, count = left + 1 :=
          ⟨count - 1, by unfold pageSize at pages; omega⟩
        rw [Nat.add_mul, Nat.one_mul] at pages
        rw [ends_bind]
        apply ends_mono (ends_vmmUnmapPage_lower serving.balanced.holdings serving.unlatched user low
          aligned) _ fun _ _ => id
        rintro _ middle ⟨holdings, only, returned⟩
        have cleared : Balanced base users device roots (ledger.write root (pageOf addr) none) middle :=
          ⟨holdings, serving.balanced.owned.clear, serving.balanced.outside⟩
        rw [next]
        apply ends_mono (induction (serving.lower cleared only) ((Nat.add_mod_right _ _).trans aligned)
          (show stop ≤ addr + pageSize + left * pageSize by omega) (by omega)) _
          fun _ _ => id
        rintro _ after ⟨ledger', held, performed, more⟩
        exact ⟨ledger', held, ⟨performed.balanced, only.trans performed.lower⟩, returned.trans more⟩
    · rw [ends_pure]
      exact ⟨ledger, rfl, ⟨serving.balanced, LowerOnly.of_phys rfl rfl rfl rfl rfl rfl⟩,
        Finset.Subset.refl _, Set.Subset.refl _⟩

theorem ends_reapMemory_unmaps {process : UserProcess} (user : process.pagemap ∈ users)
    (position : process.userHeapPosition ≤ 2 ^ 47) {returned : PUnit → Machine → Prop}
    {stopped : Stop → Machine → Prop}
    (freed : ∀ ledger' middle, ledger'.held = ledger.held →
      Performed base users device roots machine ledger' middle → TablesReturned roots machine middle →
        Ends (do
            kfree process.stack
            kfree process.process
            kfree process.node) returned stopped middle) :
    Ends (reapMemory process) returned stopped machine := by
  have aligned : pageCeil process.userHeapStart % pageSize = 0 := by
    unfold pageCeil pageFloor pageSize
    omega
  rw [reapMemory, ends_bind]
  apply ends_mono (ends_unmapRange_keeps serving user (by decide) (by decide)
    (show userStackTop ≤ userStackBase + 256 * pageSize by decide) (by decide)) _
    fun _ _ => False.elim
  rintro _ first ⟨ledgerOne, heldOne, one, returnedOne⟩
  rw [ends_ite]
  split
  · rw [ends_bind]
    apply ends_mono (ends_unmapRange_keeps (serving.lower one.balanced one.lower) user position aligned
      (show process.userHeapPosition ≤ pageCeil process.userHeapStart + 2 ^ 35 * pageSize by
        unfold pageSize
        omega) (by decide)) _ fun _ _ => False.elim
    rintro _ second ⟨ledgerTwo, heldTwo, two, returnedTwo⟩
    exact freed ledgerTwo second (heldTwo.trans heldOne) (one.trans two)
      (returnedOne.trans returnedTwo)
  · exact freed ledgerOne first heldOne one returnedOne

theorem ends_reapMemory_keeps {process : UserProcess} (user : process.pagemap ∈ users)
    (position : process.userHeapPosition ≤ 2 ^ 47) :
    Ends (reapMemory process)
      (fun _ after => ∃ ledger', ledger'.held = ledger.held ∧
        Serving base users device roots ledger' after ∧ after.heap.size ≤ machine.heap.size ∧
        TablesReturned roots machine after ∧ after.pmm.highestPage = machine.pmm.highestPage)
      (fun _ _ => True) machine := by
  apply ends_reapMemory_unmaps serving user position
  intro ledger' middle held performed returned
  have unmapped := serving.lower performed.balanced performed.lower
  rw [ends_bind]
  apply ends_mono (ends_kfree_only _) _ fun _ _ _ => trivial
  intro _ second one
  rw [ends_bind]
  apply ends_mono (ends_kfree_only _) _ fun _ _ _ => trivial
  intro _ third two
  apply ends_mono (ends_kfree_only _) _ fun _ _ _ => trivial
  intro _ after three
  have only := heap_only_trans (heap_only_trans one two) three
  have served := Served.of_heap_only unmapped only
  refine ⟨ledger', held, served.serving, ?_, ⟨?_, returned.others.trans served.extended.others⟩, ?_⟩
  · rw [only.heapSize, performed.lower.heap]
  · rw [only.pmm]
    exact returned.free
  · rw [only.pmm, performed.lower.highestPage]

end

end Release

/-! ## Accounting -/

section Accounting

variable {base : Finset Nat} {users device roots : Set Nat} {ledger : Ledger} {machine : Machine}
  {root : Nat}

theorem serving_alone (serving : Serving base users device roots ledger machine) :
    Serving (freeSet machine.pmm) ∅ device roots ⟨∅, spacesOf machine.phys⟩ machine where
  balanced := balanced_without_users serving.balanced.holdings.tables fun frame shown free =>
    serving.balanced.outside frame shown (serving.balanced.holdings.free free)
  unlatched := serving.unlatched
  isKernel := serving.isKernel
  slot := serving.slot
  heapStart := serving.heapStart
  room := (Nat.add_le_add_left (Nat.mul_le_mul_right _
    (Finset.card_le_card serving.balanced.holdings.free)) _).trans serving.room

theorem held_card_le (balanced : Balanced base users device roots ledger machine)
    (isRoot : root ∈ roots) (inBase : root / pageSize ∈ base) {frames : Finset Nat}
    (held : ∀ frame, frame ∈ frames → frame ∈ ledger.held) :
    (freeSet machine.pmm).card + 1 + frames.card ≤ base.card := by
  have tables := balanced.holdings.tables
  have isTable : IsTable roots machine.phys root := isTable_of_root isRoot
  have rootFrame := tables.frames root isTable
  have frame : ∀ address, address ∈ frames → Frame machine.pmm address :=
    fun address member => tables.heldFrames address (held address member)
  have distinct : Set.InjOn (fun address => address / pageSize) (frames : Set Nat) :=
    fun left first right second same => frame_page_injective (frame left first) (frame right second) same
  have others : root / pageSize ∉ frames.image fun address => address / pageSize := by
    intro member
    obtain ⟨address, inside, same⟩ := Finset.mem_image.mp member
    rw [← frame_page_injective (frame address inside) rootFrame same] at isTable
    exact tables.apart address (held address inside) isTable
  have taken : Disjoint (freeSet machine.pmm)
      (insert (root / pageSize) (frames.image fun address => address / pageSize)) := by
    refine Finset.disjoint_right.mpr fun page member => ?_
    rcases Finset.mem_insert.mp member with rfl | member
    · exact rootFrame.not_free
    · obtain ⟨address, inside, rfl⟩ := Finset.mem_image.mp member
      exact (frame address inside).not_free
  have subset : freeSet machine.pmm ∪
      insert (root / pageSize) (frames.image fun address => address / pageSize) ⊆ base := by
    refine Finset.union_subset balanced.holdings.free (Finset.insert_subset inBase fun page member => ?_)
    obtain ⟨address, inside, rfl⟩ := Finset.mem_image.mp member
    exact balanced.holdings.heldBase address (held address inside)
  have count := Finset.card_le_card subset
  rw [Finset.card_union_of_disjoint taken, Finset.card_insert_of_notMem others,
    Finset.card_image_of_injOn distinct] at count
  omega

/-- The page shows a frame that does not belong to a device. -/
def ShowsOwn (device : Set Nat) (machine : Machine) (root page : Nat) : Prop :=
  ¬UpperHalf page ∧ ∃ frame, frame ∉ device ∧ spacesOf machine.phys root page = some frame

theorem shown_frames_held (balanced : Balanced base users device roots ledger machine)
    (user : root ∈ users) {pages : Finset Nat}
    (shown : ∀ page, page ∈ pages → ShowsOwn device machine root page) :
    ∃ frames : Finset Nat, frames.card = pages.card ∧ ∀ frame, frame ∈ frames → frame ∈ ledger.held := by
  let frameOf := fun page => (spacesOf machine.phys root page).getD 0
  have backs : ∀ page, page ∈ pages → Backs users ledger.spaces (frameOf page) root page ∧
      frameOf page ∈ ledger.held := by
    intro page member
    obtain ⟨lower, frame, own, leaf⟩ := shown page member
    have same : frameOf page = frame := congrArg (fun found => found.getD 0) leaf
    have behind : Backs users ledger.spaces (frameOf page) root page := by
      refine ⟨user, lower, ?_⟩
      rw [same, ← balanced.holdings.view root (balanced.holdings.known user) page lower]
      exact leaf
    refine ⟨behind, (balanced.owned.frames _ root page behind).resolve_right ?_⟩
    rwa [same]
  refine ⟨pages.image frameOf, Finset.card_image_of_injOn ?_, ?_⟩
  · intro left first right second same
    obtain ⟨leftBacks, leftHeld⟩ := backs left first
    have rightBacks := (backs right second).1
    have same : frameOf left = frameOf right := same
    rw [← same] at rightBacks
    exact (balanced.owned.alone _ leftHeld root root left right leftBacks rightBacks).2
  · intro frame member
    obtain ⟨page, inside, rfl⟩ := Finset.mem_image.mp member
    exact (backs page inside).2

end Accounting

/-! ## Runs -/

/-- A process runs: each of its calls and faults is careful and is handled. -/
inductive Life (files : Files) (device : Set Nat) (start : Caller) : Caller → Prop
  | start : Life files device start start
  | event {before after : Caller} {event : UserEvent} (prior : Life files device start before)
      (careful : Careful files device before event)
      (run : event.perform files before = .ok .handled after) : Life files device start after

structure Idle (before after : Machine) : Prop where
  pmm : after.pmm = before.pmm
  phys : after.phys = before.phys
  kernelPagemap : after.kernelPagemap = before.kernelPagemap
  heap : after.heap = before.heap
  locked : after.locked = before.locked

structure Living (base : Finset Nat) (users device roots : Set Nat) (start caller : Caller) : Prop where
  serving : ∃ ledger, Serving base users device roots ledger caller.machine
  heap : caller.machine.heap = start.machine.heap
  pagemap : caller.process.pagemap = start.process.pagemap
  position : caller.process.userHeapPosition ≤ 2 ^ 47

section Runs

variable {base : Finset Nat} {users device roots : Set Nat} {ledger : Ledger}
  {machine after : Machine} {start caller last : Caller} {files : Files} {action : UserEvent}

theorem careful_position (careful : Careful files device caller action)
    (position : caller.process.userHeapPosition ≤ 2 ^ 47) :
    positionAfter caller.process action ≤ 2 ^ 47 := by
  cases action with
  | mmap rsi r8 => exact careful.1
  | munmap addr size => exact position
  | fault faultAddr cs =>
    rw [positionAfter, faultPosition]
    split
    · next moved =>
        have low : faultAddr < 2 ^ 47 := careful (Or.inl moved.1)
        unfold add64 pageFloor pageSize
        omega
    · exact position

theorem Living.event (frames : DeviceFrames device) (user : start.process.pagemap ∈ users)
    (living : Living base users device roots start caller)
    (careful : Careful files device caller action)
    (run : action.perform files caller = .ok .handled last) :
    Living base users device roots start last := by
  obtain ⟨ledger, serving⟩ := living.serving
  have isUser : caller.process.pagemap ∈ users := by rwa [living.pagemap]
  have handled := (ends_event_owned frames ⟨serving.balanced, serving.unlatched.pmm⟩ isUser
    careful).returns run
  obtain ⟨⟨ledger', performed⟩, same⟩ := handled
  refine ⟨⟨ledger', serving.lower performed.balanced performed.lower⟩,
    performed.lower.heap.trans living.heap, ?_, ?_⟩
  · rw [same]
    exact living.pagemap
  · rw [same]
    exact careful_position careful living.position

theorem Living.life (frames : DeviceFrames device) (user : start.process.pagemap ∈ users)
    (living : Living base users device roots start start) (life : Life files device start last) :
    Living base users device roots start last := by
  induction life with
  | start => exact living
  | event _ careful run induction => exact induction.event frames user careful run

theorem Life.counters (life : Life files device start last) :
    CountersKept start.machine last.machine := by
  induction life with
  | start => exact refl_of CountersKept _
  | @event before after action _ _ run induction =>
    have kept := (counters_kept_trading.confined_event files action before).returns run
    exact trans_of CountersKept induction kept

theorem serving_idle (serving : Serving base users device roots ledger machine)
    (idle : Idle machine after) : Serving base users device roots ledger after :=
  serving.of_same idle.pmm idle.phys idle.kernelPagemap (by rw [idle.heap]) (by rw [idle.heap])
    fun lock _ => by rw [idle.locked]

end Runs

/-! ## Lifetimes -/

/-- The process `current` spawns one, which runs, exits and is reaped. `last` is the state in which
it exits. -/
inductive Lifetime (files : Files) (device : Set Nat) (current : Option UserProcess) (image : Image)
    (elfData len : Nat) (before : Machine) : Caller → Machine → Prop
  | reaped {process : UserProcess} {started idle after : Machine} {last : Caller}
      (spawn : processSpawnElf current elfData image len before = .ok process started)
      (life : Life files device ⟨started, process⟩ last) (waits : Idle last.machine idle)
      (reap : reapMemory last.process idle = .ok ⟨⟩ after) :
      Lifetime files device current image elfData len before last after

/-- What is free again after the reap and was not free when the process had exited. -/
def returnedFrames (last : Caller) (after : Machine) : Finset Nat :=
  freeSet after.pmm \ freeSet last.machine.pmm

section Lifetimes

variable {base : Finset Nat} {users device roots : Set Nat} {ledger : Ledger}
  {before after : Machine} {last : Caller} {current : Option UserProcess} {files : Files}
  {image : Image} {elfData len : Nat}

theorem Lifetime.counters
    (lifetime : Lifetime files device current image elfData len before last after) :
    CountersKept before last.machine ∧ CountersKept before after := by
  cases lifetime with
  | @reaped process started idle _ _ spawn life waits reap =>
    have spawned := (counters_kept_trading.confined_processSpawnElf current elfData image len
      before).returns spawn
    have reaped := (counters_kept_trading.confined_reapMemory last.process idle).returns reap
    have idled : CountersKept last.machine idle := counters_kept_trading.same _ _ waits.pmm
    have exits := trans_of CountersKept spawned life.counters
    exact ⟨exits, trans_of CountersKept exits (trans_of CountersKept idled reaped)⟩

/-- What the heap does not account for is lost: the pagemap, and a frame for every page. The reap
returns tables only. -/
theorem Lifetime.loses (startable : Startable image len) (frames : DeviceFrames device)
    (serving : Serving base users device roots ledger before) (settled : Settled roots current before)
    (lifetime : Lifetime files device current image elfData len before last after) {pages : Finset Nat}
    (shown : ∀ page, page ∈ pages → ShowsOwn device last.machine last.process.pagemap page) :
    (freeSet after.pmm).card + (after.heap.size - before.heap.size) / pageSize + 1 + pages.card ≤
        (freeSet before.pmm).card ∧
      freeSet last.machine.pmm ⊆ freeSet after.pmm ∧
      ∀ page, page ∈ returnedFrames last after →
        IsTable (insert last.process.pagemap roots) last.machine.phys (page * pageSize) := by
  cases lifetime with
  | @reaped process started idle _ _ spawn life waits reap =>
    obtain ⟨smaller, ledgerOne, spawned⟩ :=
      (ends_processSpawnElf_spawns startable (serving_alone serving) settled).returns spawn
    have user : process.pagemap ∈ insert process.pagemap (∅ : Set Nat) := Set.mem_insert _ _
    have low : process.userHeapPosition ≤ 2 ^ 47 := by
      rw [spawned.heapPosition]
      exact startable.heapLower.le
    have living : Living smaller (insert process.pagemap ∅) device (insert process.pagemap roots)
        ⟨started, process⟩ last :=
      Living.life frames user ⟨⟨ledgerOne, spawned.serving⟩, rfl, rfl, low⟩ life
    obtain ⟨ledgerTwo, running⟩ := living.serving
    have pagemap : last.process.pagemap = process.pagemap := living.pagemap
    rw [pagemap] at shown ⊢
    obtain ⟨lost, count, held⟩ := shown_frames_held running.balanced user shown
    obtain ⟨ledgerThree, same, reaped, size, returned, highest⟩ := (ends_reapMemory_keeps
      (serving_idle running waits) (pagemap ▸ user) living.position).returns reap
    have few := held_card_le reaped.balanced (Set.mem_insert _ _) spawned.pagemap
      fun frame member => by rw [same]; exact held frame member
    have grown := spawned.grown
    have fewer := Finset.card_le_card spawned.inside
    have heap : idle.heap = started.heap := waits.heap.trans living.heap
    rw [heap] at size
    rw [count] at few
    refine ⟨by unfold pageSize at *; omega, ?_, ?_⟩
    · rw [← waits.pmm]
      exact returned.free
    · intro page member
      obtain ⟨free, taken⟩ := Finset.mem_sdiff.mp member
      rw [← waits.pmm] at taken
      rw [← waits.phys]
      exact returned.isTable highest reaped.balanced.holdings.tables.lowPage free taken

/-- The life of a process costs its pagemap and every frame that it has mapped when it exits, and
what the kernel heap grows by: of all that it has taken, the reap returns some tables. -/
theorem lifetime_loses_frames (startable : Startable image len) (frames : DeviceFrames device)
    (serving : Serving base users device roots ledger before) (settled : Settled roots current before)
    (counted : Counted before.pmm)
    (lifetime : Lifetime files device current image elfData len before last after) (pages : Finset Nat)
    (shown : ∀ page, page ∈ pages → ShowsOwn device last.machine last.process.pagemap page) :
    after.pmm.freePages + (after.heap.size - before.heap.size) / pageSize + 1 + pages.card ≤
        before.pmm.freePages ∧
      after.pmm.freePages = last.machine.pmm.freePages + (returnedFrames last after).card ∧
      ∀ page, page ∈ returnedFrames last after →
        IsTable (insert last.process.pagemap roots) last.machine.phys (page * pageSize) := by
  obtain ⟨lost, kept, tables⟩ := lifetime.loses startable frames serving settled shown
  rw [counted.freePages, (lifetime.counters.1.counted counted).freePages,
    (lifetime.counters.2.counted counted).freePages]
  refine ⟨lost, ?_, tables⟩
  rw [returnedFrames, Nat.add_comm, Finset.card_sdiff_add_card_eq_card kept]

end Lifetimes

/-! ## The blocks of a process -/

section Blocks

variable {size : Nat} {base : Finset Nat} {users device roots : Set Nat} {ledger : Ledger}
  {machine after : Machine} {live : List Block} {frames : Finset Nat} {root : Nat} {block : Block}

section

variable (run : HeapRun machine live frames)

include run

theorem ends_kmalloc_lives {request : Nat} (first : FirstBlock size machine) (some : request ≠ 0)
    (fits : requestSize request + 16 ≤ size) :
    Ends (kmalloc request)
      (fun pointer after => Cut (requestSize request) size machine pointer after ∧
        ∃ block, pointer = block.start + 16 ∧ requestSize request ≤ block.size ∧
          HeapRun after (block :: live) frames)
      (fun _ _ => False) machine := by
  obtain ⟨segments, sound⟩ := sound_of_run run
  obtain ⟨pointer, after, call, cut⟩ := (ends_kmalloc_first_block first some fits).exists_ok
  obtain ⟨segments', block, rfl, allocates⟩ :=
    (ends_kmalloc sound.layout sound.room sound.unlocked some).returns call
  have grown := HeapRun.allocate run call
  have recorded : recordBlock (block.start + 16) after.heap.memory live = block :: live := by
    rw [recordBlock, if_neg (by omega), Nat.add_sub_cancel, size_word_of_encodes
      allocates.layout.holds.encodes (allocates.live.mem_iff.mpr List.mem_cons_self)]
  have samePmm : after.pmm = machine.pmm := by
    obtain ⟨memory, rfl⟩ := cut.rest
    rfl
  rw [recorded, samePmm, sdiff_self, Finset.bot_eq_empty, Finset.union_empty] at grown
  rw [ends_of_ok call]
  exact ⟨cut, block, rfl, allocates.large, grown⟩

theorem ends_kfree_lives (owned : block ∈ live) :
    Ends (kfree (block.start + 16)) (fun _ after => HeapRun after (live.erase block) frames)
      (fun _ _ => False) machine := by
  obtain ⟨segments, sound⟩ := sound_of_run run
  obtain ⟨_, after, call, -⟩ := (ends_kfree sound.layout sound.unlocked
    (sound.live.mem_iff.mpr owned)).exists_ok
  rw [ends_of_ok call]
  exact HeapRun.release run owned call

theorem heap_run_taken (sameHeap : after.heap = machine.heap)
    (sameLock : after.locked .heap = machine.locked .heap)
    (samePages : after.pmm.highestPage = machine.pmm.highestPage)
    (fewer : freeSet after.pmm ⊆ freeSet machine.pmm) : HeapRun after live frames := by
  obtain ⟨segments, sound⟩ := sound_of_run run
  exact HeapRun.elsewhere run sameHeap sameLock samePages (Finset.disjoint_of_subset_right fewer
    sound.apart)

theorem ends_vmmNewPagemap_lives (lowPage : 0 ∉ freeSet machine.pmm) (unlatched : Unlatched machine)
    (first : FirstBlock size machine) (fits : 48 ≤ size) :
    Ends vmmNewPagemap (fun _ after => ∃ live', HeapRun after live' frames) (fun _ _ => True)
      machine := by
  apply ends_vmmNewPagemap_by lowPage unlatched.pmm unlatched.vmm fun _ _ => trivial
  intro page _
  have heapLock : (halfCreated machine page).locked .heap = machine.locked .heap :=
    half_created_lock (by decide)
  have halfFirst : FirstBlock size (halfCreated machine page) :=
    ⟨first.some, first.block, first.below, heapLock.trans first.unlocked⟩
  have halfRun : HeapRun (halfCreated machine page) live frames := by
    refine heap_run_taken run rfl heapLock rfl ?_
    change freeSet (takePage machine page).pmm ⊆ _
    rw [freeSet_takePage]
    exact Finset.erase_subset _ _
  apply ends_mono (ends_kmalloc_lives halfRun halfFirst (by decide)
    (by rw [request_size_pagemap]; exact fits)) _ fun _ _ => False.elim
  rintro _ after ⟨-, block, rfl, large, grown⟩
  rw [request_size_pagemap] at large
  have inside : ∀ address, store64 after.heap.memory (block.start + 16)
      (add64 (page * pageSize) after.hhdm) address ≠ after.heap.memory address →
        ∃ owner ∈ block :: live, owner.start + 16 ≤ address ∧ address < owner.stop := by
    intro address changed
    refine ⟨block, List.mem_cons_self, ?_⟩
    by_contra outside
    apply changed
    apply store64_apply_other
    unfold Block.stop at outside
    omega
  have written := HeapRun.write grown inside
  refine ⟨_, heap_run_taken written rfl ?_ rfl (Finset.Subset.refl _)⟩
  exact Function.update_of_ne (show Lock.heap ≠ .vmm by decide) false _

end

/-- The three blocks of a process are live and different. -/
structure Owns (process : UserProcess) (live : List Block) : Prop where
  blocks : ∃ node stack block rest, live = node :: stack :: block :: rest ∧
    process.node = node.start + 16 ∧ process.stack = stack.start + 16 ∧
    process.process = block.start + 16 ∧ node ≠ stack ∧ node ≠ block

theorem ends_newProcess_lives (run : HeapRun machine live frames)
    (first : FirstBlock size machine) (fits : 2 ^ 17 ≤ size) (entry pagemap top heap : Nat) :
    Ends (newProcess entry pagemap top heap)
      (fun process after => ∃ live', Owns process live' ∧ HeapRun after live' frames)
      (fun _ _ => True) machine := by
  have sizes : requestSize processBytes = 624 ∧ requestSize stackSize = 65552 ∧
      requestSize nodeBytes = 32 := by decide
  obtain ⟨processSize, stackBytes, nodeSize⟩ := sizes
  rw [newProcess, ends_bind]
  apply ends_mono (ends_kmalloc_lives run first (by decide) (by omega)) _ fun _ _ _ => trivial
  rintro _ second ⟨cutOne, block, rfl, -, one⟩
  apply ends_assert_bind (fun _ => trivial) fun _ => ?_
  rw [ends_bind]
  apply ends_mono (ends_kmalloc_lives one cutOne.block (by decide) (by omega)) _ fun _ _ _ => trivial
  rintro _ third ⟨cutTwo, stack, rfl, -, two⟩
  apply ends_assert_bind (fun _ => trivial) fun _ => ?_
  rw [ends_bind]
  apply ends_mono (ends_kmalloc_lives two cutTwo.block (by decide) (by omega)) _ fun _ _ _ => trivial
  rintro _ last ⟨cutThree, node, rfl, -, three⟩
  rw [ends_pure]
  -- the three blocks lie behind one another
  have heads : second.heap.head = machine.heap.head + 624 ∧
      third.heap.head = machine.heap.head + 624 + 65552 := by
    obtain ⟨memory, rfl⟩ := cutOne.rest
    obtain ⟨memory', rfl⟩ := cutTwo.rest
    rw [processSize, stackBytes]
    exact ⟨rfl, rfl⟩
  have blockStart := cutOne.pointer
  have stackStart := cutTwo.pointer
  have nodeStart := cutThree.pointer
  refine ⟨_, ⟨node, stack, block, live, rfl, rfl, rfl, rfl, ?_, ?_⟩, three⟩
  · rintro rfl
    omega
  · rintro rfl
    omega

theorem ends_processSpawnElf_lives {image : Image} {elfData len : Nat} {current : Option UserProcess}
    (startable : Startable image len) (serving : Serving base users device roots ledger machine)
    (settled : Settled roots current machine) (run : HeapRun machine live frames)
    (first : FirstBlock size machine) (fits : 2 ^ 18 ≤ size)
    (some : (freeSet machine.pmm).Nonempty) :
    Ends (processSpawnElf current elfData image len)
      (fun process after => ∃ live', Owns process live' ∧ HeapRun after live' frames)
      (fun _ _ => True) machine := by
  have lowPage := serving.balanced.holdings.tables.lowPage
  rw [processSpawnElf, ends_bind]
  apply ends_mono (ends_and (ends_vmmNewPagemap_joins serving) (ends_and
    (ends_vmmNewPagemap_first lowPage serving.unlatched first some (by omega))
    (ends_vmmNewPagemap_lives run lowPage serving.unlatched first (by omega)))) _ fun _ _ _ => trivial
  rintro new created ⟨joined, ⟨rest, -⟩, liveOne, one⟩
  apply ends_spawnInto_maps startable joined.serving (Set.mem_insert _ _)
    (settled.joined serving joined)
    (ends_elf64Load_gains startable joined.serving (Set.mem_insert _ _)) fun _ _ _ => trivial
  intro entry ledger' spent middle gained _ _ _
  have two : HeapRun middle liveOne frames :=
    heap_run_taken one gained.lower.heap (congrFun gained.lower.locked _) gained.lower.highestPage
      gained.free
  rw [processCreateUser]
  apply ends_assert_bind (fun _ => trivial) fun _ => ?_
  exact ends_newProcess_lives two (rest.of_same gained.lower.heap gained.lower.locked) (by omega)
    _ _ _ _

/-- A process whose blocks are live can be reaped, as long as no frame of the heap is left for
processes. -/
theorem ends_reapMemory_returns {process : UserProcess}
    (serving : Serving base users device roots ledger machine) (user : process.pagemap ∈ users)
    (position : process.userHeapPosition ≤ 2 ^ 47) (run : HeapRun machine live frames)
    (owns : Owns process live) (apart : Disjoint frames base) :
    Ends (reapMemory process) (fun _ _ => True) (fun _ _ => False) machine := by
  obtain ⟨node, stack, block, rest, rfl, nodeStart, stackStart, blockStart, first, second⟩ := owns
  apply ends_reapMemory_unmaps serving user position
  intro ledger' middle _ performed _
  have here : HeapRun middle (node :: stack :: block :: rest) frames :=
    HeapRun.elsewhere run performed.lower.heap (congrFun performed.lower.locked _)
      performed.lower.highestPage
      (Finset.disjoint_of_subset_right performed.balanced.holdings.free apart)
  rw [ends_bind, stackStart]
  apply ends_mono (ends_kfree_lives here (List.mem_cons_of_mem _ List.mem_cons_self)) _
    fun _ _ => id
  intro _ middle' one
  rw [List.erase_cons_tail (by simpa using first), List.erase_cons_head] at one
  rw [ends_bind, blockStart]
  apply ends_mono (ends_kfree_lives one (List.mem_cons_of_mem _ List.mem_cons_self)) _
    fun _ _ => id
  intro _ last two
  rw [List.erase_cons_tail (by simpa using second), List.erase_cons_head] at two
  rw [nodeStart]
  exact ends_mono (ends_kfree_lives two List.mem_cons_self) (fun _ _ _ => trivial)
    fun _ _ => id

end Blocks

/-! ## A process that does nothing -/

section Reaped

open PhysicalAllocatorRuns ElfImages

/-- The machine with the screen boots; the idle process spawns a small one, which exits at once and
is reaped. -/
structure ScreenReaped (installed machine : Machine) (idle process : UserProcess)
    (started after : Machine) : Prop where
  install : heapInstall screenMachine = .ok ⟨⟩ installed
  create : processCreate 0 0 installed = .ok idle machine
  spawn : processSpawnElf (some idle) 0x100000 smallImage 128 machine = .ok process started
  reap : reapMemory process started = .ok ⟨⟩ after

theorem screen_process_reaped : ∃ installed machine idle process started after,
    ScreenReaped installed machine idle process started after ∧ Booted installed idle machine ∧
      Counted machine.pmm ∧
      ∀ page, page ∈ Finset.Ico stackFirst stackStop → ShowsOwn ∅ started process.pagemap page := by
  have tracked : screenMachine.pmm.highestPage < pmmBitmapSize * 8 := by
    rw [show screenMachine.pmm.highestPage = 8191 from screen_highest_page]
    decide
  obtain ⟨installed, idle, machine, boots, booted, -, kept⟩ := screen_boots
  have serving := booted.serving ∅ fun _ none => none.elim
  have free := booted.free
  have create := booted.create
  have lives : Ends (processCreate 0 0)
      (fun process after => ∃ live, Owns process live ∧
        HeapRun after live (freeSet screenMachine.pmm \ freeSet installed.pmm))
      (fun _ _ => True) installed := by
    rw [processCreate, ends_bind, ends_get]
    exact ends_newProcess_lives (HeapRun.installed rfl rfl tracked rfl boots) booted.whole (by decide)
      _ _ _ _
  obtain ⟨lived, -, idles⟩ := lives.returns create
  obtain ⟨process, started, smaller, ledger, spawns, spawned, -⟩ := small_process_starts serving
    booted.settled booted.first (by decide) (by omega)
  obtain ⟨live, owns, run⟩ := (ends_processSpawnElf_lives small_image_startable serving booted.settled
    idles booted.first (by decide) (Finset.card_pos.mp (by omega))).returns spawns
  have low : process.userHeapPosition ≤ 2 ^ 47 := by
    rw [spawned.heapPosition]
    exact small_image_startable.heapLower.le
  have apart : Disjoint (freeSet screenMachine.pmm \ freeSet installed.pmm) smaller := by
    rw [← booted.pmm]
    exact Finset.disjoint_of_subset_right spawned.inside Finset.sdiff_disjoint
  obtain ⟨_, after, reaps, -⟩ := (ends_reapMemory_returns spawned.serving (Set.mem_insert _ _) low run
    owns apart).exists_ok
  refine ⟨installed, machine, idle, process, started, after, ⟨boots, create, spawns, reaps⟩, booted,
    kept.counted screen_counted, ?_⟩
  intro page inside
  obtain ⟨above, below⟩ := Finset.mem_Ico.mp inside
  have lower : ¬UpperHalf page := by
    have stop : stackStop ≤ 2 ^ 35 := by decide
    unfold UpperHalf
    omega
  obtain ⟨frame, -, leaf⟩ := spawned.stack page above below
  exact ⟨lower, frame, Set.notMem_empty _,
    (spawned.serving.balanced.holdings.view _ (Set.mem_insert _ _) page lower).trans leaf⟩

theorem ScreenReaped.lifetime {installed machine started after : Machine} {idle process : UserProcess}
    (reaped : ScreenReaped installed machine idle process started after) :
    Lifetime screenFiles ∅ (some idle) smallImage 0x100000 128 machine ⟨started, process⟩ after :=
  .reaped reaped.spawn .start ⟨rfl, rfl, rfl, rfl, rfl⟩ reaped.reap

theorem no_device_frames : DeviceFrames ∅ :=
  ⟨fun _ none => none.elim, fun _ none => none.elim, fun _ none => none.elim⟩

theorem lifetime_loses_frames_small : ∃ installed machine idle process started after,
    ScreenReaped installed machine idle process started after ∧
      after.pmm.freePages + (after.heap.size - machine.heap.size) / pageSize + 1 + 256 ≤
        machine.pmm.freePages ∧
      after.pmm.freePages =
        started.pmm.freePages + (returnedFrames ⟨started, process⟩ after).card ∧
      ∀ page, page ∈ returnedFrames ⟨started, process⟩ after →
        IsTable {process.pagemap, 4096} started.phys (page * pageSize) := by
  obtain ⟨installed, machine, idle, process, started, after, reaped, booted, counted, shown⟩ :=
    screen_process_reaped
  have costs := lifetime_loses_frames small_image_startable no_device_frames
    (booted.serving ∅ fun _ none => none.elim) booted.settled counted reaped.lifetime
    (Finset.Ico stackFirst stackStop) shown
  rw [Nat.card_Ico, show stackStop - stackFirst = 256 by decide] at costs
  exact ⟨installed, machine, idle, process, started, after, reaped, costs⟩

/-- Even a process that does nothing costs memory. -/
theorem small_process_loses_frames : ∃ installed machine idle process started after,
    ScreenReaped installed machine idle process started after ∧
      after.pmm.freePages ≠
        machine.pmm.freePages - (after.heap.size - machine.heap.size) / pageSize := by
  obtain ⟨installed, machine, idle, process, started, after, reaped, booted, counted, shown⟩ :=
    screen_process_reaped
  have lost := (reaped.lifetime.loses small_image_startable no_device_frames
    (booted.serving ∅ fun _ none => none.elim) booted.settled shown).1
  have freePages := (reaped.lifetime.counters.2.counted counted).freePages
  refine ⟨installed, machine, idle, process, started, after, reaped, ?_⟩
  rw [freePages, counted.freePages]
  omega

end Reaped

end RiriaKernel.ProcessLifetimes
