import RiriaKernel.EventOwnership
import RiriaKernel.InstalledMemory
import RiriaKernel.PageCounters
import RiriaKernel.ProcessStarts

/-!
# Pages that become free

Any number of processes map, unmap and fault in any order, and some of them are killed on the
way. `syscall_unmap` returns whatever frame it finds behind a page. As long as no process unmaps
a page of a device, and all of them stay in the lower half, every page that becomes free is
memory that the page allocator had handed out, and no process shows it any more.
-/

namespace RiriaKernel.FreedPages

open HaltingPrograms KernelState PhysicalAllocator PhysicalAllocatorRuns
open InstalledMemory PageTableForests PageTableOperations AddressSpaces UserProcesses
open UserMemory UserOwnership UserEvents EventOwnership PageCounters

/-! ## Runs of several processes -/

structure System where
  machine : Machine
  processes : List UserProcess

/-- One of the processes has an event. After an exit or a panic it is gone; a call that waits for
a latch forever has no outcome. -/
inductive Step (files : Files) : System → Caller → UserEvent → System → Prop
  | handled {machine : Machine} {left right : List UserProcess} {process : UserProcess}
      {event : UserEvent} {after : Caller}
      (run : event.perform files ⟨machine, process⟩ = .ok .handled after) :
      Step files ⟨machine, left ++ process :: right⟩ ⟨machine, process⟩ event
        ⟨after.machine, left ++ after.process :: right⟩
  | exits {machine : Machine} {left right : List UserProcess} {process : UserProcess}
      {event : UserEvent} {after : Caller}
      (run : event.perform files ⟨machine, process⟩ = .ok .exits after) :
      Step files ⟨machine, left ++ process :: right⟩ ⟨machine, process⟩ event
        ⟨after.machine, left ++ right⟩
  | killed {machine : Machine} {left right : List UserProcess} {process : UserProcess}
      {event : UserEvent} {after : Caller} {message : String}
      (run : event.perform files ⟨machine, process⟩ = .error (.panic message) after) :
      Step files ⟨machine, left ++ process :: right⟩ ⟨machine, process⟩ event
        ⟨after.machine, left ++ right⟩

inductive CarefulRun (files : Files) (device : Set Nat) (start : System) : System → Prop
  | start : CarefulRun files device start start
  | step {before after : System} {caller : Caller} {event : UserEvent}
      (prior : CarefulRun files device start before) (step : Step files before caller event after)
      (careful : Careful files device caller event) : CarefulRun files device start after

/-! ## What a step may free -/

def Freed (before after : Machine) (page : Nat) : Prop :=
  page ∈ freeSet after.pmm ∧ page ∉ freeSet before.pmm

/-- A page that becomes free was free when the allocator was installed, so it has been handed out
since; it is memory, and no process shows it. -/
structure FreesOwn (entries : List MemmapEntry) (layout : KernelLayout) (users : Set Nat)
    (before after : Machine) : Prop where
  handedOut : ∀ page, Freed before after page → page ∈ freeSet (pmmInstall entries layout)
  inMemory : ∀ page, Freed before after page → InMemory entries page
  unmapped : ∀ page, Freed before after page → ∀ root, root ∈ users → ∀ index, ¬UpperHalf index →
    spacesOf after.phys root index ≠ some (page * pageSize)
  total : after.pmm.freePages ≤ after.pmm.totalRamPages

/-- Where a run starts: the frames of the processes, their tables and the free frames are all among
the pages that were free when the allocator was installed. -/
structure Started (entries : List MemmapEntry) (layout : KernelLayout) (base : Finset Nat)
    (users device roots : Set Nat) (system : System) : Prop where
  ready : ∃ ledger, Ready base users device roots ledger system.machine
  processes : ∀ process, process ∈ system.processes → process.pagemap ∈ users
  counted : Counted system.machine.pmm
  total : system.machine.pmm.totalRamPages = (pmmInstall entries layout).totalRamPages

theorem remaining {users : Set Nat} {left right : List UserProcess} {process : UserProcess}
    (known : ∀ other, other ∈ left ++ process :: right → other.pagemap ∈ users) :
    ∀ other, other ∈ left ++ right → other.pagemap ∈ users := by
  intro other member
  rcases List.mem_append.mp member with before | behind
  · exact known other (List.mem_append_left _ before)
  · exact known other (List.mem_append_right _ (List.mem_cons_of_mem _ behind))

section Steps

variable {entries : List MemmapEntry} {layout : KernelLayout} {base : Finset Nat}
  {users device roots : Set Nat} {files : Files} {start before after : System} {caller : Caller}
  {event : UserEvent}

/-- A machine that the ledger describes, with processes that were known or run on known pagemaps. -/
theorem Started.next (started : Started entries layout base users device roots before) {ledger : Ledger}
    (ready : Ready base users device roots ledger after.machine)
    (kept : CountersKept before.machine after.machine)
    (processes : ∀ process, process ∈ after.processes → process.pagemap ∈ users) :
    Started entries layout base users device roots after :=
  ⟨⟨ledger, ready⟩, processes, kept.counted started.counted, kept.totalRamPages.trans started.total⟩

theorem Started.step (frames : DeviceFrames device)
    (started : Started entries layout base users device roots before)
    (step : Step files before caller event after) (careful : Careful files device caller event) :
    Started entries layout base users device roots after := by
  obtain ⟨ledger, ready⟩ := started.ready
  have known := started.processes
  cases step with
  | @handled machine left right process event now run =>
    have user := known process (List.mem_append_right _ List.mem_cons_self)
    have kept := counters_kept_trading.confined_event files event ⟨machine, process⟩
    obtain ⟨⟨ledger', performed⟩, same⟩ := (@ends_event_owned _ _ _ _ _ ⟨machine, process⟩ files
      frames ready user _ careful).returns run
    refine started.next (performed.ready ready.unlocked) (kept.returns run) fun other member => ?_
    rcases List.mem_append.mp member with before | behind
    · exact known other (List.mem_append_left _ before)
    · rcases List.mem_cons.mp behind with rfl | after
      · rw [same]
        exact user
      · exact known other (List.mem_append_right _ (List.mem_cons_of_mem _ after))
  | @exits machine left right process event now run =>
    have user := known process (List.mem_append_right _ List.mem_cons_self)
    have kept := counters_kept_trading.confined_event files event ⟨machine, process⟩
    obtain ⟨⟨ledger', performed⟩, -⟩ := (@ends_event_owned _ _ _ _ _ ⟨machine, process⟩ files
      frames ready user _ careful).returns run
    exact started.next (performed.ready ready.unlocked) (kept.returns run) (remaining known)
  | @killed machine left right process event now message run =>
    have user := known process (List.mem_append_right _ List.mem_cons_self)
    have kept := counters_kept_trading.confined_event files event ⟨machine, process⟩
    obtain ⟨⟨ledger', balanced⟩, -⟩ := (@ends_event_owned _ _ _ _ _ ⟨machine, process⟩ files
      frames ready user _ careful).stops run message rfl
    exact started.next balanced (kept.stops run) (remaining known)

theorem Started.run (frames : DeviceFrames device)
    (started : Started entries layout base users device roots start)
    (run : CarefulRun files device start after) :
    Started entries layout base users device roots after := by
  induction run with
  | start => exact started
  | step prior step careful induction => exact induction.step frames step careful

/-- A state that the ledger describes shows no free frame, and has no more free frames than were
free when the allocator was installed. -/
theorem Started.frees_own (computes : Computes entries layout (pmmInstall entries layout))
    (inside : base ⊆ freeSet (pmmInstall entries layout))
    (started : Started entries layout base users device roots after) (machine : Machine) :
    FreesOwn entries layout users machine after.machine := by
  obtain ⟨ledger, ready⟩ := started.ready
  have holdings := ready.balanced.holdings
  have handedOut : ∀ page, Freed machine after.machine page →
      page ∈ freeSet (pmmInstall entries layout) :=
    fun page freed => inside (holdings.free freed.1)
  refine ⟨handedOut, ?_, ?_, ?_⟩
  · intro page freed
    exact ((computes.clear page).mp (mem_freeSet.mp (handedOut page freed)).2).2.1
  · intro page freed root user index lower shown
    have backs : Backs users ledger.spaces (page * pageSize) root index :=
      ⟨user, lower, (holdings.view root (holdings.known user) index lower).symm.trans shown⟩
    apply ready.balanced.not_free backs
    rw [page_address_div]
    exact freed.1
  · have installed := pmm_install_installed entries layout
    have few := Finset.card_le_card (holdings.free.trans inside)
    have total := installed.total
    have free := installed.counted
    rw [started.counted.freePages, started.total]
    omega

/-- In a run of careful events every page that becomes free is memory that had been handed out,
no process shows it any more, and the counter of free pages is no larger than that of all pages. -/
theorem careful_run_frees_own (computes : Computes entries layout (pmmInstall entries layout))
    (inside : base ⊆ freeSet (pmmInstall entries layout)) (frames : DeviceFrames device)
    (started : Started entries layout base users device roots start)
    (run : CarefulRun files device start before) (step : Step files before caller event after)
    (careful : Careful files device caller event) :
    FreesOwn entries layout users before.machine after.machine :=
  ((started.run frames run).step frames step careful).frees_own computes inside before.machine

end Steps

/-! ## A machine with a screen -/

section Screen

open KernelHeap KernelHeapTables ElfImages ProcessSpawning ProcessStarts
open LockDiscipline PageFaults

/-- 32 mebibytes, of which the last sixteen pages are the framebuffer. -/
def screenMap : List MemmapEntry :=
  [{ base := 0, length := 0x1FF0000, type := limineMemmapUsable },
    { base := 0x1FF0000, length := 0x10000, type := 7 }]

def screenFrame : Nat := 0x1FF0000

def screenFiles : Files where
  openFiles := fun fd => if fd = 10 then some .framebuffer else none
  fbInfo := { addr := 0xFFFF800001FF0000, pitch := 4096, height := 16 }

theorem screen_highest_page : (pmmInstall screenMap lowLayout).highestPage = 8191 := by
  rw [(pmm_install_reserving screenMap lowLayout).highestPage]
  decide

theorem screen_map_computes : Computes screenMap lowLayout (pmmInstall screenMap lowLayout) := by
  apply (pmm_install_computes_iff screenMap lowLayout (by decide) (by unfold Fits; decide)).mpr
  refine ⟨by decide, Or.inl ?_⟩
  unfold Reclaimable Rounds
  decide

theorem screen_map_free : 7024 ≤ (freeSet (pmmInstall screenMap lowLayout)).card := by
  have subset : Finset.Ico 1000 8176 ⊆ freeSet (pmmInstall screenMap lowLayout) := by
    intro page inside
    obtain ⟨lower, upper⟩ := Finset.mem_Ico.mp inside
    apply mem_free_pmm_install.mpr
    have kernel : kernelLastPage lowLayout = 264 := by decide
    have bitmap : bitmapLastPage lowLayout = 516 := by decide
    have highest : installedHighestPage screenMap = 8191 := by decide
    have high : pagesBelow1Mb = 256 := by decide
    refine ⟨⟨_, List.mem_cons_self, Or.inl rfl, ?_, ?_⟩, by omega, by omega, by omega, by omega⟩
    · exact Nat.zero_le _
    · exact upper
  have count := Finset.card_le_card subset
  rw [Nat.card_Ico] at count
  omega

theorem screen_not_in_memory : ¬InMemory screenMap 8176 := by
  rintro ⟨entry, member, reclaimable, above, below⟩
  rcases List.mem_cons.mp member with rfl | last
  · revert below
    decide
  · rw [List.mem_singleton.mp last] at reclaimable
    revert reclaimable
    unfold Reclaimable
    decide

theorem screen_reserved {page : Nat} (low : page < 2 ∨ page = 8176) :
    page ∉ freeSet (pmmInstall screenMap lowLayout) := by
  intro free
  have released := mem_free_pmm_install.mp free
  have high : 256 ≤ page := released.high
  have inside := ((screen_map_computes.clear page).mp (mem_freeSet.mp free).2).2.1
  rcases low with first | rfl
  · omega
  · exact screen_not_in_memory inside

theorem screen_mmap_returns {base : Finset Nat} {users roots held : Set Nat} {spaces : Spaces}
    {caller : Caller} (holdings : Holdings base users roots held spaces caller.machine)
    (unlatched : Unlatched caller.machine) (isRoot : caller.process.pagemap ∈ roots)
    (hhdm : caller.machine.hhdm = 0xFFFF800000000000)
    (position : caller.process.userHeapPosition = 0x401000)
    (many : 3 ≤ (freeSet caller.machine.pmm).card) :
    ∃ machine, UserEvent.perform screenFiles (.mmap 4096 10) caller =
        .ok .handled (caller.advance machine) ∧
      MappedAt base users roots held spaces caller.machine caller.process.pagemap 0x401 screenFrame
        machine := by
  have data : mmapData screenFiles caller.machine 4096 10 = screenFrame := by
    rw [mmapData, hhdm]
    decide
  have maps : Ends (UserEvent.perform screenFiles (.mmap 4096 10))
      (fun outcome after => outcome = .handled ∧ ∃ machine, after = caller.advance machine ∧
        MappedAt base users roots held spaces caller.machine caller.process.pagemap 0x401 screenFrame
          machine) (fun _ _ => False) caller := by
    apply ends_device (by decide)
    · intro none
      rw [data] at none
      exact absurd none (by decide)
    · intro some
      rw [data, show mmapPages 4096 = 1 by decide, forCount, ends_bind, mapDevicePage, ends_mapAtPosition,
        position]
      have request : MapRequest 0x401000 screenFrame userFlags := ⟨by decide, by decide, by decide,
        by decide, by decide, by decide⟩
      apply ends_mono (ends_vmmMapPage_lower holdings unlatched isRoot request (by decide))
      · rintro _ machine ⟨-, mapped⟩
        rw [forCount, ends_pure]
        exact ⟨rfl, machine, rfl, mapped⟩
      · intro _ _ out
        have few := out.few
        have most := missing_tables_le caller.machine.phys caller.process.pagemap (pageOf 0x401000)
        omega
  obtain ⟨outcome, after, run, rfl, machine, rfl, mapped⟩ := maps.exists_ok
  exact ⟨machine, run, mapped⟩

theorem page_munmap_frees {caller : Caller} {page : Nat} (unlatched : Unlatched caller.machine)
    (lowPage : 0 ∉ freeSet caller.machine.pmm) (nonzero : page ≠ 0)
    (tracked : page ≤ caller.machine.pmm.highestPage) (taken : page ∉ freeSet caller.machine.pmm)
    (start : caller.process.userHeapStart = 0x401000)
    (position : caller.process.userHeapPosition = 0x402000)
    (shown : spacesOf caller.machine.phys caller.process.pagemap 0x401 = some (page * pageSize)) :
    ∃ unmapped, Step screenFiles ⟨caller.machine, [caller.process]⟩ caller (.munmap 0x401000 4096)
      unmapped ∧ Freed caller.machine unmapped.machine page := by
  have set : bitmapGet caller.machine.pmm.bitmap page = true := by
    by_contra clear
    exact taken (mem_freeSet.mpr ⟨tracked, by simpa using clear⟩)
  have found : translate caller.machine.phys caller.process.pagemap (unmapVirt 0x401000 0) =
      page * pageSize := by
    rw [translate_eq, Space.address, show pageOf (unmapVirt 0x401000 0) = 0x401 by decide, shown,
      show unmapVirt 0x401000 0 % pageSize = 0 by decide]
    exact Nat.add_zero _
  have freed := freeSet_returnPage tracked
  have here : At ⟨caller.machine.locked, 0⟩ (returnPage caller.machine page) := by
    refine ⟨rfl, Nat.zero_le _, ?_⟩
    rw [freed, Finset.mem_insert]
    rintro (zero | free)
    · exact nonzero zero.symm
    · exact lowPage free
  have unmaps := ends_and
    ((latchWatch (fun stop _ => ∃ message, stop = .panic message)
      fun message _ => ⟨message, rfl⟩).keeps_vmmUnmapPage ⟨unlatched.pmm, unlatched.vmm⟩ _ here)
    (only_returned_returning.confined_vmmUnmapPage caller.process.pagemap (unmapVirt 0x401000 0)
      (returnPage caller.machine page))
  have still : ∀ after : Machine, OnlyReturned (returnPage caller.machine page) after →
      page ∈ freeSet after.pmm := by
    intro after only
    apply only
    rw [freed]
    exact Finset.mem_insert_self _ _
  have frees : Ends (UserEvent.perform screenFiles (.munmap 0x401000 4096))
      (fun outcome after => outcome = .handled ∧ page ∈ freeSet after.machine.pmm)
      (fun stop after => (∃ message, stop = .panic message) ∧ page ∈ freeSet after.machine.pmm)
      caller := by
    apply ends_munmap
    · rw [start, position]
      exact fun refused => absurd refused (by decide)
    · intro _ _
      rw [show pageCeil 4096 / pageSize = 1 by decide, forCount, ends_bind]
      apply ends_unmapHeapPage found
      · exact fun zero => absurd zero (Nat.mul_ne_zero nonzero (by decide))
      · intro _
        rw [ends_of_ok (pmm_free_of_taken unlatched.pmm nonzero tracked set)]
        apply ends_mono unmaps
        · intro _ after both
          rw [forCount, ends_pure]
          exact ⟨rfl, still after both.2⟩
        · exact fun _ after both => ⟨both.1, still after both.2⟩
  cases outcome : UserEvent.perform screenFiles (.munmap 0x401000 4096) caller with
  | ok result last =>
    obtain ⟨rfl, free⟩ := frees.returns outcome
    exact ⟨⟨last.machine, [last.process]⟩, @Step.handled _ _ [] [] _ _ _ outcome, free, taken⟩
  | error stop last =>
    obtain ⟨⟨message, rfl⟩, free⟩ := frees.stops outcome
    exact ⟨⟨last.machine, []⟩, @Step.killed _ _ [] [] _ _ _ _ outcome, free, taken⟩

def screenMachine : Machine := { smallMachine with pmm := pmmInstall screenMap lowLayout }

theorem small_machine_no_tables {root level key : Nat} (positive : 0 < level) :
    tableAt smallMachine.phys root level key = none := by
  obtain ⟨depth, rfl⟩ := Nat.exists_eq_succ_of_ne_zero (Nat.ne_of_gt positive)
  rw [tableAt_succ]
  cases tableAt smallMachine.phys root depth (key / 512) with
  | none => rfl
  | some table => exact blank_childless (small_machine_blank table) (Nat.mod_lt _ (by decide))

theorem small_machine_maps_nothing (root page : Nat) : spacesOf smallMachine.phys root page = none := by
  rw [spacesOf, leafWord, small_machine_no_tables (by decide)]
  exact decode_zero

theorem screen_tables : Tables {4096} ∅ screenMachine.pmm screenMachine.phys := by
  have highest : screenMachine.pmm.highestPage = 8191 := screen_highest_page
  have root : Frame screenMachine.pmm 4096 :=
    frame_of_taken (by omega) one_ne_zero (screen_reserved (Or.inl (by decide)))
  exact tables_single root (small_machine_blank _) (screen_reserved (Or.inl (by decide))) (by omega)

theorem screen_ready : Ready (freeSet screenMachine.pmm) {4096} {screenFrame} {4096}
    ⟨∅, fun _ _ => none⟩ screenMachine where
  balanced := by
    refine ⟨⟨Set.Subset.refl _, screen_tables, ?_, Finset.Subset.refl _, ?_, ?_⟩, ⟨?_, ?_, ?_⟩, ?_⟩
    · exact fun root _ page _ => small_machine_maps_nothing root page
    · exact fun _ owned => owned.elim
    · intro root _ level key table _ _ positive _ found
      rw [show screenMachine.phys = smallMachine.phys from rfl,
        small_machine_no_tables positive] at found
      cases found
    · intro frame root page backs
      cases backs.leaf
    · exact fun _ owned => owned.elim
    · exact fun _ owned => owned.elim
    · intro frame shown
      rw [Set.mem_singleton_iff.mp shown]
      exact screen_reserved (Or.inr (by decide))
  unlocked := rfl

theorem screen_device_frames : DeviceFrames {screenFrame} := by
  refine ⟨?_, ?_, ?_⟩
  all_goals
    intro frame shown
    rw [Set.mem_singleton_iff.mp shown]
    decide

theorem screen_counted : Counted screenMachine.pmm := by
  have highest : screenMachine.pmm.highestPage = 8191 := screen_highest_page
  exact ⟨by omega, (pmm_install_installed screenMap lowLayout).counted⟩

theorem screen_boots : ∃ installed idle machine, heapInstall screenMachine = .ok ⟨⟩ installed ∧
    Booted installed idle machine ∧ freeSet machine.pmm ⊆ freeSet screenMachine.pmm ∧
    CountersKept screenMachine machine := by
  obtain ⟨installed, idle, machine, boots, booted, fewer⟩ := machine_boots screen_highest_page
    screen_map_free (screen_reserved (Or.inl (by decide))) (screen_reserved (Or.inl (by decide)))
  have kept := (counters_kept_trading.confined_heapInstall screenMachine).returns boots
  exact ⟨installed, idle, machine, boots, booted, fewer,
    trans_of CountersKept kept (counters_kept_trading.same _ _ booted.pmm)⟩

/-- A fault gives the process a page, which it then unmaps. -/
theorem careful_run_frees_own_screen : ∃ faulted unmapped page,
    Step screenFiles ⟨screenMachine, [sampleProcess]⟩ ⟨screenMachine, sampleProcess⟩
        (.fault 0x401000 0x2B) ⟨faulted.machine, [faulted.process]⟩ ∧
      Step screenFiles ⟨faulted.machine, [faulted.process]⟩ faulted (.munmap 0x401000 4096) unmapped ∧
      Freed faulted.machine unmapped.machine page ∧
      FreesOwn screenMap lowLayout {4096} faulted.machine unmapped.machine := by
  have many : 7024 ≤ (freeSet screenMachine.pmm).card := screen_map_free
  obtain ⟨outcome, faulted, run, rfl, moved, ledger, ⟨frame, held, leaf⟩, gained⟩ :=
    (ends_mono (@ends_vmmPagefault_gains _ _ _ _ _ _ 0x401000 screen_ready.balanced ⟨rfl, rfl⟩
      sampleProcess 0x2B rfl (Or.inl (by decide)) (by decide)) (fun _ _ => id)
      fun _ _ (few : _ < 4) => absurd few (by omega)).exists_ok
  have first : Step screenFiles ⟨screenMachine, [sampleProcess]⟩ ⟨screenMachine, sampleProcess⟩
      (.fault 0x401000 0x2B) ⟨faulted.machine, [faulted.process]⟩ :=
    @Step.handled _ _ [] [] _ _ _ run
  have holdings := gained.balanced.holdings
  have own := holdings.tables.heldFrames frame held
  have shown : spacesOf faulted.machine.phys faulted.process.pagemap 0x401 = some frame := by
    rw [moved]
    exact (holdings.view 4096 rfl 0x401 (by decide)).trans leaf
  obtain ⟨unmapped, second, freed⟩ := @page_munmap_frees faulted (frame / pageSize)
    ⟨congrFun gained.lower.locked _, congrFun gained.lower.locked _⟩ holdings.tables.lowPage
    (fun zero => own.nonzero (by rw [← own.address_eq, zero, Nat.zero_mul])) own.tracked own.not_free
    (by rw [moved]; rfl) (by rw [moved]; decide) (by rw [own.address_eq]; exact shown)
  have started : Started screenMap lowLayout (freeSet screenMachine.pmm) {4096} {screenFrame} {4096}
      ⟨screenMachine, [sampleProcess]⟩ := by
    refine ⟨⟨_, screen_ready⟩, ?_, screen_counted, rfl⟩
    intro process member
    rw [List.mem_singleton.mp member]
    rfl
  have careful : Careful screenFiles {screenFrame} faulted (.munmap 0x401000 4096) := by
    intro index inside
    obtain rfl : index = 0 := by
      rw [show pageCeil 4096 / pageSize = 1 by decide] at inside
      omega
    refine ⟨by decide, fun device lent same => ?_⟩
    rw [show unmapPage 0x401000 0 = 0x401 by decide, shown] at same
    exact gained.balanced.owned.apart frame held (Option.some.inj same ▸ lent)
  have inside : freeSet screenMachine.pmm ⊆ freeSet (pmmInstall screenMap lowLayout) := fun _ free => free
  have frees := careful_run_frees_own screen_map_computes inside screen_device_frames started
    (.step .start first fun _ => by decide) second careful
  exact ⟨faulted, unmapped, _, first, second, freed, frees⟩

/-- A process maps a page of the screen and unmaps it again. The page is free now, and no memory. -/
theorem screen_page_freed :
    ∃ installed idle machine process started mapped caller unmapped,
      heapInstall screenMachine = .ok ⟨⟩ installed ∧ processCreate 0 0 installed = .ok idle machine ∧
      processSpawnElf (some idle) 0x100000 smallImage 128 machine = .ok process started ∧
      Step screenFiles ⟨started, [process]⟩ ⟨started, process⟩ (.mmap 4096 10) mapped ∧
      Step screenFiles mapped caller (.munmap 0x401000 4096) unmapped ∧
      Freed mapped.machine unmapped.machine 8176 ∧ ¬InMemory screenMap 8176 := by
  obtain ⟨installed, idle, machine, boots, booted, fewer, -⟩ := screen_boots
  have reserved : 8176 ∉ freeSet machine.pmm := fun free =>
    @screen_reserved 8176 (Or.inr rfl) (fewer free)
  have free := booted.free
  obtain ⟨process, started, smaller, ledger, spawns, spawned, many, highest, -⟩ :=
    small_process_starts (booted.serving ∅ fun _ none => none.elim) booted.settled booted.first
      (by decide) (Nat.le_trans (by decide) free)
  have holdings := spawned.serving.balanced.holdings
  have unlatched := spawned.serving.unlatched
  have start : process.userHeapStart = 0x401000 := spawned.heapStart.trans small_image_heap
  have position : process.userHeapPosition = 0x401000 := spawned.heapPosition.trans small_image_heap
  obtain ⟨after, maps, shows⟩ := @screen_mmap_returns _ _ _ _ _ ⟨started, process⟩ holdings unlatched
    (Set.mem_insert _ _) (spawned.hhdm.trans booted.hhdm) position
    (show 3 ≤ (freeSet started.pmm).card by omega)
  let caller : Caller := Caller.advance ⟨started, process⟩ after
  have taken : 8176 ∉ freeSet after.pmm := fun free => reserved (spawned.free (shows.free free))
  have first : Step screenFiles ⟨started, [process]⟩ ⟨started, process⟩ (.mmap 4096 10)
      ⟨after, [caller.process]⟩ := @Step.handled _ _ [] [] _ _ _ maps
  have view : spacesOf caller.machine.phys caller.process.pagemap 0x401 = some screenFrame := by
    rw [show caller.process.pagemap = process.pagemap from Caller.advance_pagemap _ _,
      show caller.machine = after from rfl, shows.holdings.view _ (Set.mem_insert _ _) _ (by decide),
      Spaces.write_apply, if_pos ⟨rfl, rfl⟩]
  have moved : caller.process.userHeapPosition = 0x402000 := by
    refine (Caller.advance_position _ _).trans ?_
    rw [position]
    decide
  have tracked : 8176 ≤ after.pmm.highestPage := by
    rw [shows.lower.highestPage, highest, booted.highestPage]
    decide
  obtain ⟨unmapped, second, freed⟩ := @page_munmap_frees caller 8176
    (unlatched.of_same shows.lower.locked) shows.holdings.tables.lowPage (by decide) tracked taken
    ((Caller.advance_start _ _).trans start) moved view
  exact ⟨installed, idle, machine, process, started, ⟨after, [caller.process]⟩, caller, unmapped,
    boots, booted.create, spawns, first, second, freed, screen_not_in_memory⟩

end Screen

end RiriaKernel.FreedPages
