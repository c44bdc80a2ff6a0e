import RiriaKernel.FreedPages

/-!
# Processes do not see each other's stores

Whatever processes have mapped and unmapped before, a store of a process to memory of its own is
read back by this process at this address and nowhere else. It reaches no page table either: a
frame behind a page is held for that page, and a table is not a held frame.
-/

namespace RiriaKernel.ProcessIsolation

open HaltingPrograms KernelState PhysicalAllocator PageTableForests AddressSpaces UserProcesses
open UserOwnership PageFaults UserEvents EventOwnership FreedPages PhysicalAllocatorRuns
open KernelHeap ElfImages ProcessSpawning ProcessStarts PageCounters

/-- What a process reads; nothing where no page is mapped. -/
def loadByte (machine : Machine) (root virt : Nat) : Option UInt8 :=
  (spacesOf machine.phys root (pageOf virt)).map fun frame => machine.phys (frame + virt % pageSize)

/-- The machine after a store of a process. Without a page the store faults and changes nothing. -/
def storeByte (machine : Machine) (root virt : Nat) (byte : UInt8) : Machine :=
  (spacesOf machine.phys root (pageOf virt)).elim machine fun frame =>
    { machine with phys := Function.update machine.phys (frame + virt % pageSize) byte }

/-- The page shows no device. -/
def OwnMemory (device : Set Nat) (machine : Machine) (root virt : Nat) : Prop :=
  ∀ frame, spacesOf machine.phys root (pageOf virt) = some frame → frame ∉ device

section Stores

variable {base : Finset Nat} {users device roots : Set Nat} {ledger : Ledger} {machine : Machine}
  {root virt other frame : Nat}

theorem store_eq (machine : Machine) (root virt : Nat) (byte : UInt8) :
    storeByte machine root virt byte =
      { machine with phys := (storeByte machine root virt byte).phys } := by
  unfold storeByte
  cases spacesOf machine.phys root (pageOf virt) <;> rfl

variable (ready : Ready base users device roots ledger machine) (user : root ∈ users)
  (low : virt < 2 ^ 47)

include ready user low

theorem backs_page (shown : spacesOf machine.phys root (pageOf virt) = some frame) :
    Backs users ledger.spaces frame root (virt / pageSize) := by
  have holdings := ready.balanced.holdings
  obtain ⟨page, lower⟩ : pageOf virt = virt / pageSize ∧ ¬UpperHalf (virt / pageSize) := by
    unfold pageOf UpperHalf pageSize
    omega
  rw [page] at shown
  exact ⟨user, lower, (holdings.view root (holdings.known user) _ lower).symm.trans shown⟩

theorem shown_frame_aligned (frames : DeviceFrames device)
    (shown : spacesOf machine.phys root (pageOf virt) = some frame) : frame % pageSize = 0 := by
  rcases ready.balanced.owned.frames _ _ _ (backs_page ready user low shown) with held | lent
  · exact (ready.balanced.holdings.tables.heldFrames frame held).aligned
  · exact frames.aligned frame lent

variable (own : OwnMemory device machine root virt) (byte : UInt8)

include own

theorem own_frame_held (shown : spacesOf machine.phys root (pageOf virt) = some frame) :
    frame ∈ ledger.held :=
  (ready.balanced.owned.frames _ _ _ (backs_page ready user low shown)).resolve_right (own frame shown)

/-- A store goes to a frame that is held for the page. -/
theorem store_outside {address : Nat} (outside : pageFloor address ∉ ledger.held) :
    (storeByte machine root virt byte).phys address = machine.phys address := by
  cases shown : spacesOf machine.phys root (pageOf virt) with
  | none => rw [storeByte, shown, Option.elim_none]
  | some frame =>
    have held := own_frame_held ready user low own shown
    have owned := ready.balanced.holdings.tables.heldFrames frame held
    rw [storeByte, shown, Option.elim_some]
    refine Function.update_of_ne (fun same => outside ?_) _ _
    rwa [same, ← owned.address_eq, page_floor_inside (Nat.mod_lt _ (by decide)), owned.address_eq]

/-- No page table lies where a process stores. -/
theorem store_keeps_spaces {page : Nat} (isRoot : other ∈ roots) (bounded : page < 512 ^ 4) :
    spacesOf (storeByte machine root virt byte).phys other page = spacesOf machine.phys other page := by
  have tables := ready.balanced.holdings.tables
  exact congrArg decode (tables.leaf_kept (tables.kept_of_held fun _ outside =>
    store_outside ready user low own byte outside) isRoot bounded)

theorem store_ready : Ready base users device roots ledger (storeByte machine root virt byte) := by
  rw [store_eq]
  have kept := ready.balanced.holdings.tables.kept_of_held fun _ outside =>
    store_outside ready user low own byte outside
  exact ⟨(gained_kept ready.balanced kept).balanced, ready.unlocked⟩

theorem load_store (frames : DeviceFrames device) (reader : other ∈ users) {address : Nat}
    (below : address < 2 ^ 47) :
    loadByte (storeByte machine root virt byte) other address =
      if other = root ∧ address = virt then (loadByte machine root virt).map fun _ => byte
      else loadByte machine other address := by
  rw [loadByte, store_keeps_spaces ready user low own byte (ready.balanced.holdings.known reader)
    (page_of_lt address)]
  split
  · next same =>
      rw [same.1, same.2, loadByte, Option.map_map]
      cases shown : spacesOf machine.phys root (pageOf virt) with
      | none => rfl
      | some frame =>
        rw [storeByte, shown]
        exact congrArg some (Function.update_self _ _ _)
  · next away =>
      rw [loadByte]
      cases shown : spacesOf machine.phys root (pageOf virt) with
      | none => rw [storeByte, shown, Option.elim_none]
      | some frame =>
        cases read : spacesOf machine.phys other (pageOf address) with
        | none => rfl
        | some place =>
          rw [storeByte, shown]
          refine congrArg some (Function.update_of_ne (fun hit => away ?_) _ _)
          -- one byte is in one frame, and that one is behind one page only
          have here := shown_frame_aligned ready user low frames shown
          have there := shown_frame_aligned ready reader below frames read
          obtain ⟨rfl, offset⟩ : place = frame ∧ address % pageSize = virt % pageSize := by
            unfold pageSize at *
            omega
          obtain ⟨rfl, page⟩ := ready.balanced.owned.alone _ (own_frame_held ready user low own shown)
            _ _ _ _ (backs_page ready reader below read) (backs_page ready user low shown)
          refine ⟨rfl, ?_⟩
          rw [← Nat.div_add_mod address pageSize, page, offset, Nat.div_add_mod]

end Stores

/-! ## Runs with stores -/

/-- The states that processes reach by careful events and by stores to memory of their own. -/
inductive StoringRun (files : Files) (device : Set Nat) (start : System) : System → Prop
  | start : StoringRun files device start start
  | event {before after : System} {caller : Caller} {event : UserEvent}
      (prior : StoringRun files device start before) (step : Step files before caller event after)
      (careful : Careful files device caller event) : StoringRun files device start after
  | store {system : System} {process : UserProcess} {virt : Nat} {byte : UInt8}
      (prior : StoringRun files device start system) (member : process ∈ system.processes)
      (low : virt < 2 ^ 47) (own : OwnMemory device system.machine process.pagemap virt) :
      StoringRun files device start
        { system with machine := storeByte system.machine process.pagemap virt byte }

section Runs

variable {entries : List MemmapEntry} {layout : KernelLayout} {base : Finset Nat}
  {users device roots : Set Nat} {files : Files} {start system : System}

theorem started_storing (frames : DeviceFrames device)
    (started : Started entries layout base users device roots start)
    (run : StoringRun files device start system) :
    Started entries layout base users device roots system := by
  induction run with
  | start => exact started
  | event _ step careful induction => exact induction.step frames step careful
  | @store system process virt byte _ member low own induction =>
    obtain ⟨⟨ledger, ready⟩, processes, counted, total⟩ := induction
    have stored := store_ready ready (processes process member) low own byte
    refine ⟨⟨ledger, stored⟩, processes, ?_, ?_⟩
    · rw [store_eq]
      exact counted
    · rw [store_eq]
      exact total

/-- Whatever processes have done before, a store of one of them to memory of its own changes what
is read through its pagemap at this address, and nothing else: no byte that a process reads
elsewhere, no translation, and no frame that is free or was never handed out. -/
theorem stores_are_private (frames : DeviceFrames device)
    (started : Started entries layout base users device roots start)
    (run : StoringRun files device start system) {root virt : Nat} (user : root ∈ users)
    (low : virt < 2 ^ 47) (own : OwnMemory device system.machine root virt) (byte : UInt8) :
    (∀ other ∈ users, ∀ address < 2 ^ 47,
      loadByte (storeByte system.machine root virt byte) other address =
        if other = root ∧ address = virt then (loadByte system.machine root virt).map fun _ => byte
        else loadByte system.machine other address) ∧
      (∀ other ∈ roots, ∀ page < 512 ^ 4,
        spacesOf (storeByte system.machine root virt byte).phys other page =
          spacesOf system.machine.phys other page) ∧
      ∀ address, address / pageSize ∉ base ∨ address / pageSize ∈ freeSet system.machine.pmm →
        (storeByte system.machine root virt byte).phys address = system.machine.phys address := by
  obtain ⟨ledger, ready⟩ := (started_storing frames started run).ready
  have holdings := ready.balanced.holdings
  refine ⟨fun other reader address below => load_store ready user low own byte frames reader below,
    fun other isRoot page bounded => store_keeps_spaces ready user low own byte isRoot bounded, ?_⟩
  intro address unused
  apply store_outside ready user low own byte
  intro held
  have page : pageFloor address / pageSize = address / pageSize := by
    unfold pageFloor pageSize
    omega
  rcases unused with outside | free
  · exact outside (page ▸ holdings.heldBase _ held)
  · exact (holdings.tables.heldFrames _ held).not_free (page.symm ▸ free)

end Runs

/-- Two processes run the same program. One of them stores a byte in its heap and reads it back;
the other one reads what it has read before. -/
theorem stores_are_private_screen : ∃ installed idle machine first one second two,
    heapInstall screenMachine = .ok ⟨⟩ installed ∧ processCreate 0 0 installed = .ok idle machine ∧
      processSpawnElf (some idle) 0x100000 smallImage 128 machine = .ok first one ∧
      processSpawnElf (some idle) 0x100000 smallImage 128 one = .ok second two ∧
      loadByte (storeByte two first.pagemap 0x401000 7) first.pagemap 0x401000 = some 7 ∧
      loadByte two second.pagemap 0x401000 ≠ none ∧
      ∀ address < 2 ^ 47, loadByte (storeByte two first.pagemap 0x401000 7) second.pagemap address =
        loadByte two second.pagemap address := by
  obtain ⟨installed, idle, machine, boots, booted, fewer, kept⟩ := screen_boots
  have free := booted.free
  have outside : ∀ frame, frame ∈ ({screenFrame} : Set Nat) →
      frame / pageSize ∉ freeSet machine.pmm := by
    intro frame shown inside
    rw [Set.mem_singleton_iff.mp shown] at inside
    exact screen_reserved (Or.inr (by decide)) (fewer inside)
  obtain ⟨first, one, half, ledger, spawnsOne, spawnedOne, manyOne, -, restOne⟩ := small_process_starts
    (booted.serving {screenFrame} outside) booted.settled booted.first (by decide) (by omega)
  obtain ⟨second, two, smaller, ledger', spawnsTwo, spawnedTwo, -⟩ := small_process_starts
    spawnedOne.serving spawnedOne.settled restOne (by decide) (by omega)
  have counters := trans_of CountersKept kept (trans_of CountersKept
    ((counters_kept_trading.confined_processSpawnElf _ _ _ _ machine).returns spawnsOne)
    ((counters_kept_trading.confined_processSpawnElf _ _ _ _ one).returns spawnsTwo))
  have known : first.pagemap ∈ insert second.pagemap (insert first.pagemap (∅ : Set Nat)) :=
    Set.mem_insert_of_mem _ (Set.mem_insert _ _)
  have started : Started screenMap lowLayout smaller (insert second.pagemap (insert first.pagemap ∅))
      {screenFrame} (insert second.pagemap (insert first.pagemap {4096})) ⟨two, [first, second]⟩ := by
    refine ⟨⟨ledger', spawnedTwo.serving.balanced, spawnedTwo.serving.unlatched.pmm⟩, ?_,
      counters.counted screen_counted, counters.totalRamPages⟩
    intro process member
    rcases List.mem_pair.mp member with rfl | rfl
    · exact known
    · exact Set.mem_insert _ _
  have balanced := spawnedTwo.serving.balanced
  have shown : ∀ root, root ∈ insert second.pagemap (insert first.pagemap (∅ : Set Nat)) →
      ledger'.Has root (imageHeap smallImage / pageSize) →
        ∃ frame, frame ∈ ledger'.held ∧ spacesOf two.phys root (pageOf 0x401000) = some frame := by
    rintro root user ⟨frame, held, leaf⟩
    rw [small_image_heap] at leaf
    exact ⟨frame, held,
      (balanced.holdings.view root (balanced.holdings.known user) _ (by decide)).trans leaf⟩
  obtain ⟨frame, held, leaf⟩ := shown _ known (spawnedTwo.kept _ (Set.mem_insert _ _) _
    spawnedOne.heapPage)
  obtain ⟨other, -, present⟩ := shown _ (Set.mem_insert _ _) spawnedTwo.heapPage
  have own : OwnMemory {screenFrame} two first.pagemap 0x401000 := by
    intro place same
    rw [leaf] at same
    exact Option.some.inj same ▸ balanced.owned.apart frame held
  have reads := (stores_are_private screen_device_frames started (@StoringRun.start screenFiles _ _) known
    (by decide) own 7).1
  refine ⟨installed, idle, machine, first, one, second, two, boots, booted.create, spawnsOne, spawnsTwo,
    (reads _ known 0x401000 (by decide)).trans ?_, ?_, fun address below =>
      (reads _ (Set.mem_insert _ _) address below).trans (if_neg fun same => ?_)⟩
  · rw [if_pos ⟨rfl, rfl⟩, loadByte, leaf]
    rfl
  · rw [loadByte, present]
    exact Option.some_ne_none _
  · exact spawnedTwo.fresh (same.1 ▸ Set.mem_insert _ _)

end RiriaKernel.ProcessIsolation
