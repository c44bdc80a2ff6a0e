import RiriaKernel.ProcessStarts
import RiriaKernel.UserEvents

/-!
# Pages that are mapped twice

`syscall_mmap` maps at the position of the heap and `vmm_pagefault` at the address of the
fault, and neither looks at what is mapped there. A new process has a page at the position of
its heap and its whole stack, so the first page that it gets from either of them replaces one
that it had.
-/

namespace RiriaKernel.MappingReplacements

open HaltingPrograms KernelState PhysicalAllocator PageTables PageTableForests
open AddressSpaces KernelHeap ElfLoader ElfLoaderSteps ElfImages UserProcesses
open UserMemory UserOwnership KernelService ProcessSpawning PageFaults DeviceMappings UserEvents

/-! ## What the process does -/

/-- Anonymous `mmap`s, faults, and `munmap`s of pages that `mmap` gave to the process. -/
def Allowed (mapped : Set Nat) : UserEvent → Prop
  | .mmap _ r8 => toInt r8 = -1
  | .munmap addr size => unmapPages addr size ⊆ mapped
  | .fault _ _ => True

/-- The pages that `mmap` gave and `munmap` has not taken back. -/
def mappedAfter (process : UserProcess) (mapped : Set Nat) : UserEvent → Set Nat
  | .mmap rsi _ =>
      mapped ∪ {page | ∃ index, index < mmapPages rsi ∧
        page = heapPage process.userHeapPosition index}
  | .munmap addr size => mapped \ unmapPages addr size
  | .fault _ _ => mapped

/-- The events of a process, each with the state it starts from. The process goes on after every
event but the last one, which may end it. -/
inductive Trace (files : Files) : Set Nat → Caller → List (Caller × UserEvent) → Prop
  | done {mapped : Set Nat} {caller : Caller} : Trace files mapped caller []
  | last {mapped : Set Nat} {caller : Caller} {event : UserEvent} (allowed : Allowed mapped event) :
      Trace files mapped caller [(caller, event)]
  | next {mapped : Set Nat} {caller after : Caller} {event : UserEvent}
      {rest : List (Caller × UserEvent)} (allowed : Allowed mapped event)
      (handled : event.perform files caller = .ok .handled after)
      (later : Trace files (mappedAfter caller.process mapped event) after rest) :
      Trace files mapped caller ((caller, event) :: rest)

/-- While it serves the event, `syscall_mmap` or `vmm_pagefault` calls `vmm_map_page` for `virt`,
on `machine`. -/
inductive MapCall (caller : Caller) : UserEvent → Machine → Nat → Prop
  | mmap {rsi r8 index frame : Nat} {middle : Caller} {machine : Machine}
      (inside : index < mmapPages rsi)
      (earlier : forCount mapAnonymousPage index 0 caller = .ok ⟨⟩ middle)
      (allocated : pmmAllocate middle.machine = .ok frame machine) (nonzero : frame ≠ 0) :
      MapCall caller (.mmap rsi r8) machine middle.process.userHeapPosition
  | fault {faultAddr cs frame : Nat} {machine : Machine} (mapped : caller.process.pagemap ≠ 0)
      (inside : InWindow caller.process faultAddr)
      (allocated : pmmAllocate (quiet caller.machine) = .ok frame machine) :
      MapCall caller (.fault faultAddr cs) machine (pageFloor faultAddr)

/-- The page is in the lower half, and its leaf entry is present. -/
def Replaces (process : UserProcess) (machine : Machine) (virt : Nat) : Prop :=
  ¬UpperHalf (pageOf virt) ∧
    leafWord machine.phys process.pagemap (pageOf virt) &&& ptePresent ≠ 0

def MappingsKept (events : List (Caller × UserEvent)) : Prop :=
  ∀ step, step ∈ events → ∀ machine virt, MapCall step.1 step.2 machine virt →
    ¬Replaces step.1.process machine virt

def Harmless (caller : Caller) : UserEvent → Prop
  | .mmap rsi _ => mmapPages rsi = 0 ∨ freeSet caller.machine.pmm = ∅
  | .munmap _ _ => True
  | .fault faultAddr _ => ¬InWindow caller.process faultAddr ∨ freeSet caller.machine.pmm = ∅

/-! ## Events that map nothing -/

section Nothing

variable {caller after : Caller} {machine : Machine} {event : UserEvent} {virt : Nat}

theorem ends_pmmAllocate_empty (empty : freeSet machine.pmm = ∅) :
    Ends pmmAllocate (fun _ _ => False) (fun _ _ => True) machine := by
  cases latched : machine.locked .pmm with
  | true =>
    simp only [pmmAllocate, ends_bind, ends_irqOff, ends_spinLock, latched, if_true]
  | false =>
    apply ends_pmmAllocate latched
    · intro page least
      have member := least.1
      rw [empty] at member
      exact absurd member (Finset.notMem_empty page)
    · exact fun _ => trivial

theorem ends_mapAnonymousPages_empty (empty : freeSet caller.machine.pmm = ∅) (count : Nat) :
    Ends (forCount mapAnonymousPage (count + 1) 0) (fun _ _ => False) (fun _ _ => True) caller := by
  rw [forCount, ends_bind, mapAnonymousPage, ends_bind, ends_kernel]
  exact ends_mono (ends_pmmAllocate_empty empty) (fun _ _ => False.elim)
    fun _ _ _ => trivial

theorem ends_mapFaultPage_empty (empty : freeSet caller.machine.pmm = ∅) (pageAddr : Nat) :
    Ends (mapFaultPage pageAddr) (fun _ _ => False) (fun _ _ => True) caller := by
  rw [mapFaultPage, ends_bind, ends_kernel]
  exact ends_mono (ends_pmmAllocate_empty empty) (fun _ _ => False.elim)
    fun _ _ _ => trivial

theorem not_map_call_of_harmless (harmless : Harmless caller event) :
    ¬MapCall caller event machine virt := by
  intro call
  cases call with
  | @mmap rsi r8 index frame middle machine inside earlier allocated nonzero =>
    rcases harmless with none | empty
    · omega
    · cases index with
      | zero =>
        rw [forCount] at earlier
        cases earlier
        exact (ends_pmmAllocate_empty empty).returns allocated
      | succ index => exact (ends_mapAnonymousPages_empty empty index).returns earlier
  | fault mapped inside allocated =>
    rcases harmless with outside | empty
    · exact outside inside
    · have none : freeSet (quiet caller.machine).pmm = ∅ := empty
      exact (ends_pmmAllocate_empty none).returns allocated

theorem mappings_kept_of_harmless {events : List (Caller × UserEvent)}
    (harmless : ∀ step, step ∈ events → Harmless step.1 step.2) : MappingsKept events :=
  fun step member _ _ call => absurd call (not_map_call_of_harmless (harmless step member))

end Nothing

/-! ## The first page a new process gets -/

/-- A process as `process_spawn_elf` leaves it: there is a page at the position of its heap and at
every address of its stack. -/
structure NewProcess (base : Finset Nat) (users roots held : Set Nat) (spaces : Spaces)
    (caller : Caller) : Prop where
  holdings : Holdings base users roots held spaces caller.machine
  unlatched : Unlatched caller.machine
  isRoot : caller.process.pagemap ∈ roots
  pagemap : caller.process.pagemap ≠ 0
  aligned : caller.process.userHeapStart % pageSize = 0
  lower : caller.process.userHeapStart < 2 ^ 47
  position : caller.process.userHeapPosition = caller.process.userHeapStart
  heapPage : spaces caller.process.pagemap (caller.process.userHeapStart / pageSize) ≠ none
  stack : ∀ page, stackFirst ≤ page → page < stackStop →
    spaces caller.process.pagemap page ≠ none

section First

variable {base : Finset Nat} {users roots held : Set Nat} {spaces : Spaces}
  {caller after : Caller} {machine : Machine} {files : Files} {event : UserEvent} {virt frame : Nat}

section

variable (new : NewProcess base users roots held spaces caller)

include new

theorem NewProcess.allocates (some : freeSet caller.machine.pmm ≠ ∅) :
    ∃ frame machine, pmmAllocate caller.machine = .ok frame machine ∧
      Taken base users roots held spaces caller.machine frame machine := by
  have allocates : Ends pmmAllocate
      (fun frame machine => Taken base users roots held spaces caller.machine frame machine)
      (fun _ _ => False) caller.machine :=
    ends_mono (ends_pmmAllocate_taken new.holdings new.unlatched.pmm) (fun _ _ => id)
      fun _ _ out => some out.2.1
  exact allocates.exists_ok

theorem NewProcess.replaces
    (taken : Taken base users roots held spaces caller.machine frame machine) (low : virt < 2 ^ 47)
    (present : spaces caller.process.pagemap (virt / pageSize) ≠ none) :
    Replaces caller.process machine virt := by
  have page : pageOf virt = virt / pageSize := page_of_lower (by unfold pageSize; omega)
  have lower : ¬UpperHalf (pageOf virt) := by
    rw [page]
    unfold UpperHalf pageSize
    omega
  refine ⟨lower, fun absent => ?_⟩
  have view := taken.holdings.view _ new.isRoot (pageOf virt) lower
  rw [spacesOf, decode, if_neg fun some => some absent, page] at view
  exact present view.symm

theorem NewProcess.fault_page {faultAddr : Nat} (inside : InWindow caller.process faultAddr) :
    pageFloor faultAddr < 2 ^ 47 ∧
      spaces caller.process.pagemap (pageFloor faultAddr / pageSize) ≠ none := by
  have aligned := new.aligned
  have lower := new.lower
  rcases inside with ⟨above, below⟩ | ⟨above, below⟩
  · -- the window of a heap that has not moved is one page
    rw [new.position, add64, Nat.mod_eq_of_lt (by unfold pageSize; omega)] at below
    have same : pageFloor faultAddr = caller.process.userHeapStart := by
      unfold pageFloor pageSize at *
      omega
    rw [same]
    exact ⟨lower, new.heapPage⟩
  · have first : stackFirst ≤ pageFloor faultAddr / pageSize := by
      unfold stackFirst pageFloor userStackBase pageSize at *
      omega
    have last : pageFloor faultAddr / pageSize < stackStop := by
      unfold stackStop pageFloor userStackTop pageSize at *
      omega
    refine ⟨?_, new.stack _ first last⟩
    unfold pageFloor userStackTop at *
    omega

theorem NewProcess.mmap_replaces {rsi r8 : Nat} (harmful : ¬Harmless caller (.mmap rsi r8)) :
    ∃ machine, MapCall caller (.mmap rsi r8) machine caller.process.userHeapPosition ∧
      Replaces caller.process machine caller.process.userHeapPosition := by
  obtain ⟨pages, some⟩ := not_or.mp harmful
  obtain ⟨frame, machine, allocated, taken⟩ := new.allocates some
  have position := new.position
  refine ⟨machine, .mmap (Nat.pos_of_ne_zero pages) rfl allocated taken.nonzero, ?_⟩
  rw [position]
  exact new.replaces taken new.lower new.heapPage

theorem NewProcess.first_replaces (harmful : ¬Harmless caller event) :
    ∃ machine virt, MapCall caller event machine virt ∧ Replaces caller.process machine virt := by
  cases event with
  | mmap rsi r8 =>
    obtain ⟨machine, call, replaces⟩ := new.mmap_replaces harmful
    exact ⟨machine, _, call, replaces⟩
  | munmap addr size => exact absurd trivial harmful
  | fault faultAddr cs =>
    obtain ⟨inside, some⟩ := not_or.mp harmful
    have still : NewProcess base users roots held spaces
        { caller with machine := quiet caller.machine } :=
      { new with
        holdings := new.holdings.of_kept new.holdings.tables (fun _ _ => rfl) new.holdings.free
          new.holdings.heldBase
        unlatched := new.unlatched.of_same rfl }
    obtain ⟨frame, machine, allocated, taken⟩ := still.allocates some
    obtain ⟨low, present⟩ := new.fault_page (not_not.mp inside)
    exact ⟨machine, _, .fault new.pagemap (not_not.mp inside) allocated,
      still.replaces taken low present⟩

end

end First

/-! ## Whole runs -/

section Runs

variable {base : Finset Nat} {users device roots held : Set Nat} {spaces : Spaces}
  {ledger : Ledger} {caller after : Caller} {machine : Machine} {files : Files} {event : UserEvent}

theorem unmap_pages_empty {addr size : Nat} (none : unmapPages addr size ⊆ ∅) :
    pageCeil size / pageSize = 0 := by
  by_contra some
  exact none ⟨0, Nat.pos_of_ne_zero some, rfl⟩

theorem harmless_changes_nothing (harmless : Harmless caller event) (allowed : Allowed ∅ event)
    (mapped : caller.process.pagemap ≠ 0)
    (handled : event.perform files caller = .ok .handled after) :
    after = caller ∧ mappedAfter caller.process ∅ event = ∅ := by
  cases event with
  | mmap rsi r8 =>
    have pages : mmapPages rsi = 0 := by
      refine harmless.elim id fun empty => ?_
      by_contra some
      obtain ⟨count, succ⟩ := Nat.exists_eq_succ_of_ne_zero some
      have stops : Ends (UserEvent.perform files (.mmap rsi r8)) (fun _ _ => False)
          (fun _ _ => True) caller := by
        apply ends_anonymous allowed
        rw [succ]
        exact ends_mapAnonymousPages_empty empty count
      exact stops.returns handled
    have returns : Ends (UserEvent.perform files (.mmap rsi r8)) (fun _ after => after = caller)
        (fun _ _ => True) caller := by
      apply ends_anonymous allowed
      rw [pages, forCount, ends_pure]
    refine ⟨returns.returns handled, ?_⟩
    rw [mappedAfter, pages, Set.empty_union]
    exact Set.eq_empty_of_forall_notMem fun page some => Nat.not_lt_zero _ some.choose_spec.1
  | munmap addr size =>
    have returns : Ends (UserEvent.perform files (.munmap addr size))
        (fun _ after => after = caller) (fun _ _ => True) caller := by
      apply ends_munmap (fun _ _ => trivial) fun _ _ => ?_
      rw [unmap_pages_empty allowed, forCount, ends_pure]
    exact ⟨returns.returns handled, Set.empty_sdiff _⟩
  | fault faultAddr cs =>
    have inside := (ends_vmmPagefault.returns handled).1.mp rfl
    have empty := harmless.resolve_left fun outside => outside inside
    have stops : Ends (UserEvent.perform files (.fault faultAddr cs)) (fun _ _ => False)
        (fun _ _ => True) caller := by
      apply ends_vmmPagefault_inside mapped inside
      exact @ends_mapFaultPage_empty { caller with machine := quiet caller.machine } empty _
    exact (stops.returns handled).elim

theorem NewProcess.harmless_of_kept (new : NewProcess base users roots held spaces caller)
    {events : List (Caller × UserEvent)} (trace : Trace files ∅ caller events)
    (kept : MappingsKept events) : ∀ step, step ∈ events → Harmless step.1 step.2 := by
  induction events with
  | nil => exact fun _ none => absurd none List.not_mem_nil
  | cons step rest induction =>
    have first : Harmless step.1 step.2 := by
      by_contra harmful
      have same : step.1 = caller := by cases trace <;> rfl
      rw [same] at harmful
      obtain ⟨machine, virt, call, replaces⟩ := new.first_replaces harmful
      rw [← same] at call replaces
      exact kept step List.mem_cons_self machine virt call replaces
    have rest' : Trace files ∅ caller rest := by
      cases trace with
      | last allowed => exact .done
      | next allowed handled later =>
        obtain ⟨rfl, none⟩ := harmless_changes_nothing first allowed new.pagemap handled
        rwa [none] at later
    intro other member
    rcases List.mem_cons.mp member with rfl | behind
    · exact first
    · exact induction rest' (fun other inside => kept other (List.mem_cons_of_mem _ inside)) other
        behind

theorem new_process_of_spawned {image : Image} {before : Machine} {current : Option UserProcess}
    {process : UserProcess} {smaller : Finset Nat} {ledger' : Ledger}
    (spawned : Spawned base users device roots ledger current image before process smaller ledger'
      machine)
    (fresh : FreshProcess .user process) (lower : imageHeap image < 2 ^ 47) :
    NewProcess smaller (insert process.pagemap users) (insert process.pagemap roots) ledger'.held
      ledger'.spaces ⟨machine, process⟩ where
  holdings := spawned.serving.balanced.holdings
  unlatched := spawned.serving.unlatched
  isRoot := Set.mem_insert _ _
  pagemap := fresh.pagemap
  aligned := fresh.heap.2.1
  lower := by
    have start := spawned.heapStart
    change process.userHeapStart < _
    omega
  position := fresh.heap.1
  heapPage := by
    obtain ⟨frame, -, leaf⟩ := spawned.heapPage
    change ledger'.spaces process.pagemap (process.userHeapStart / pageSize) ≠ none
    rw [spawned.heapStart, leaf]
    exact Option.some_ne_none frame
  stack := by
    intro page above below
    obtain ⟨frame, -, leaf⟩ := spawned.stack page above below
    change ledger'.spaces process.pagemap page ≠ none
    rw [leaf]
    exact Option.some_ne_none frame

end Runs

/-- The events of a process keep its mappings if none of them gets a page. They keep them only then
if the process was started from a well-formed image whose heap is in the lower half. -/
theorem mappings_kept_iff_harmless {machine started : Machine} {current : Option UserProcess}
    {elfData len : Nat} {image : Image} {process : UserProcess} {files : Files}
    {events : List (Caller × UserEvent)}
    (run : processSpawnElf current elfData image len machine = .ok process started)
    (trace : Trace files ∅ ⟨started, process⟩ events) :
    ((∀ step, step ∈ events → Harmless step.1 step.2) → MappingsKept events) ∧
      ∀ {base : Finset Nat} {users device roots : Set Nat} {ledger : Ledger},
        WellFormed image len → len < 2 ^ 64 → imageHeap image < 2 ^ 47 →
        Serving base users device roots ledger machine → Settled roots current machine →
        MappingsKept events → ∀ step, step ∈ events → Harmless step.1 step.2 := by
  refine ⟨mappings_kept_of_harmless, fun wellFormed size lower serving settled kept => ?_⟩
  obtain ⟨smaller, ledger', spawned⟩ :=
    (ends_processSpawnElf_spawns ⟨wellFormed, size, lower⟩ serving settled).returns run
  exact (new_process_of_spawned spawned (created_user run) lower).harmless_of_kept trace kept

section Example

open ProcessStarts

/-- `-1`, as a system call gets it. -/
def noDescriptor : Nat := 2 ^ 64 - 1

/-- The process maps zero bytes, and then touches a page below its heap. -/
def harmlessEvents (caller : Caller) : List (Caller × UserEvent) :=
  [(caller, .mmap 0 noDescriptor), (caller, .fault 0x1000 0x23)]

theorem mappings_kept_iff_harmless_small :
    ∃ installed idle machine process started, heapInstall roomyMachine = .ok ⟨⟩ installed ∧
      processCreate 0 0 installed = .ok idle machine ∧
      processSpawnElf (some idle) 0x100000 smallImage 128 machine = .ok process started ∧
      Trace onePageScreen ∅ ⟨started, process⟩ (harmlessEvents ⟨started, process⟩) ∧
      MappingsKept (harmlessEvents ⟨started, process⟩) := by
  obtain ⟨installed, idle, machine, boots, booted⟩ := roomy_machine_boots
  obtain ⟨process, started, smaller, ledger, run, spawned, -⟩ := small_process_starts
    (booted.serving ∅ fun _ none => none.elim) booted.settled booted.first (by decide)
    (Nat.le_trans (by decide) booted.free)
  have start : process.userHeapStart = 0x401000 := spawned.heapStart.trans small_image_heap
  have anonymous : Allowed ∅ (.mmap 0 noDescriptor) := show toInt noDescriptor = -1 by decide
  have trace : Trace onePageScreen ∅ ⟨started, process⟩ (harmlessEvents ⟨started, process⟩) :=
    .next anonymous (show _ = EStateM.Result.ok FaultOutcome.handled ⟨started, process⟩ from rfl)
      (.last trivial)
  refine ⟨installed, idle, machine, process, started, boots, booted.create, run, trace, ?_⟩
  apply (mappings_kept_iff_harmless run trace).1
  intro step member
  rcases List.mem_pair.mp member with rfl | rfl
  · exact Or.inl (by decide)
  · refine Or.inl (not_or.mpr ⟨fun heap => ?_, fun stack => absurd stack.1 (by decide)⟩)
    have above : process.userHeapStart ≤ 0x1000 := heap.1
    omega

/-- A new process maps a page, and loses the page of its heap. -/
theorem mmap_replaces_heap_page :
    ∃ installed idle machine process started, heapInstall roomyMachine = .ok ⟨⟩ installed ∧
      processCreate 0 0 installed = .ok idle machine ∧
      processSpawnElf (some idle) 0x100000 smallImage 128 machine = .ok process started ∧
      Trace onePageScreen ∅ ⟨started, process⟩ [(⟨started, process⟩, .mmap 4096 noDescriptor)] ∧
      ∃ mapping, MapCall ⟨started, process⟩ (.mmap 4096 noDescriptor) mapping 0x401000 ∧
        Replaces process mapping 0x401000 := by
  obtain ⟨installed, idle, machine, boots, booted⟩ := roomy_machine_boots
  have free := booted.free
  obtain ⟨process, started, smaller, ledger, run, spawned, many, -⟩ := small_process_starts
    (booted.serving ∅ fun _ none => none.elim) booted.settled booted.first (by decide)
    (Nat.le_trans (by decide) free)
  have new := new_process_of_spawned spawned (created_user run) small_image_startable.heapLower
  have position : process.userHeapPosition = 0x401000 :=
    spawned.heapPosition.trans small_image_heap
  have anonymous : Allowed ∅ (.mmap 4096 noDescriptor) := show toInt noDescriptor = -1 by decide
  refine ⟨installed, idle, machine, process, started, boots, booted.create, run, .last anonymous, ?_⟩
  have harmful : ¬Harmless ⟨started, process⟩ (.mmap 4096 noDescriptor) := by
    rintro (none | empty)
    · exact absurd none (by decide)
    · rw [show freeSet started.pmm = ∅ from empty, Finset.card_empty] at many
      omega
  have replaced := new.mmap_replaces harmful
  rwa [position] at replaced

end Example

end RiriaKernel.MappingReplacements
