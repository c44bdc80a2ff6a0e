import RiriaKernel.ElfImages
import RiriaKernel.KernelHeapRuns
import RiriaKernel.KernelService
import RiriaKernel.PageFaults

/-!
# What a new process owns

`process_spawn_elf` gives a process a pagemap, the pages of its image, one page of heap and
its whole stack. Every one of these pages gets a frame of its own, whatever else the kernel
holds; the filling of the image writes to these frames only. Nothing here depends on how much
memory is left: the statements are about calls that return.
-/

namespace RiriaKernel.ProcessSpawning

open ByteMemory HaltingPrograms KernelState PhysicalAllocator PageTables PageTableForests
open PageTableOperations AddressSpaces ElfLoader ElfLoaderSteps
open ElfLoaderSegments ElfLoaderImages ElfImages UserProcesses UserMemory UserOwnership KernelService
open PageFaults
open PagePermissions (UserTables)

theorem user_page_flags : PageFlags userFlags := ⟨by decide, by decide, by decide⟩

theorem lower_index {virt : Nat} (lower : virt < 2 ^ 47) : pml4Index virt < 256 := by
  have page : pageOf virt = virt / pageSize := page_of_lower (by unfold pageSize; omega)
  by_contra high
  have upper := (upper_half_iff virt).mpr (Nat.le_of_not_lt high)
  rw [page] at upper
  unfold UpperHalf pageSize at upper
  omega

section Writing

variable {base : Finset Nat} {users device roots : Set Nat} {ledger ledger' : Ledger}
  {machine after : Machine} {root : Nat}

section

variable (balanced : Balanced base users device roots ledger machine)

include balanced

theorem gained_kept {phys : Memory} {interrupts : Interrupts}
    (kept : TablesKept roots machine.phys phys) :
    Gained base users device roots 0 ledger machine ledger { machine with phys, interrupts } := by
  have tables := balanced.holdings.tables
  have others := tables_other_frames tables
  refine ⟨⟨balanced.holdings.of_kept (tables.rewritten kept) kept balanced.holdings.free
      balanced.holdings.heldBase, balanced.owned, balanced.outside⟩, Set.Subset.refl _,
    fun _ _ => id, fun _ _ _ => Or.inl, ⟨other_frames_kept (others.rewritten kept),
      fun _ isRoot user => user.kept tables kept isRoot⟩,
    ⟨rfl, rfl, rfl, rfl, tables.upper_kept kept, ?_, rfl⟩, Finset.Subset.refl _, Nat.le_refl _⟩
  exact fun _ isRoot _ bounded _ => tables.leaf_kept kept isRoot bounded

theorem translate_held (isRoot : root ∈ roots) {virt : Nat} (lower : virt < 2 ^ 47)
    (has : ledger.Has root (virt / pageSize)) :
    ∃ frame, frame ∈ ledger.held ∧ translate machine.phys root virt = frame + virt % pageSize := by
  obtain ⟨frame, member, leaf⟩ := has
  have page : pageOf virt = virt / pageSize := page_of_lower (by unfold pageSize; omega)
  have view := balanced.holdings.view root isRoot (virt / pageSize)
    (by unfold UpperHalf pageSize; omega)
  refine ⟨frame, member, ?_⟩
  rw [leaf, spacesOf] at view
  rw [PageTableForests.translate, page, view]

end

theorem ends_fillLoop_writes {message : String} {fill : Nat → Nat → Nat → Kernel PUnit}
    {source : Nat → UInt8} (fills : FillsWith fill source)
    (balanced : Balanced base users device roots ledger machine) (isRoot : root ∈ roots)
    {virt len : Nat} (lower : virt + len ≤ 2 ^ 47)
    (present : ∀ index, index < len → ledger.Has root ((virt + index) / pageSize))
    (fuel filled : Nat) :
    Ends (fillLoop root virt len message fill fuel filled)
      (fun _ after => ∃ phys, after = { machine with phys } ∧
        ∀ address, pageFloor address ∉ ledger.held → phys address = machine.phys address)
      (fun _ _ => True) machine := by
  induction fuel generalizing machine filled with
  | zero =>
    rw [fillLoop, ends_throw]
    trivial
  | succ fuel induction =>
    rw [fillLoop, ends_ite]
    split
    · next more =>
        have unwrapped : add64 virt filled = virt + filled := Nat.mod_eq_of_lt (by omega)
        obtain ⟨frame, member, dest⟩ := translate_held balanced isRoot
          (show virt + filled < 2 ^ 47 by omega) (present filled more)
        have aligned := (balanced.holdings.tables.heldFrames frame member).aligned
        have inPage := (chunk_size_bounds (virt + filled) (show 0 < len - filled by omega)).2.2
        rw [ends_bind, ends_vmmVirtToPhys, unwrapped, dest]
        apply ends_require_bind trivial fun _ => ?_
        rw [ends_bind, ends_of_ok (fills _ _ _ _)]
        -- the chunk lies inside one frame
        have inside : ∀ address, pageFloor address ∉ ledger.held →
            copyIn machine.phys (frame + (virt + filled) % pageSize)
              (fun index => source (filled + index)) (chunkSize (virt + filled) (len - filled)) address =
            machine.phys address := by
          intro address other
          rw [copyIn_apply, if_neg]
          intro hit
          apply other
          have floor : pageFloor address = frame := by
            unfold pageFloor pageSize at *
            omega
          rwa [floor]
        apply ends_mono (induction (gained_kept balanced
          (balanced.holdings.tables.kept_of_held inside)).balanced _) _ fun _ _ _ => trivial
        intro _ after later
        obtain ⟨phys, rfl, same⟩ := later
        exact ⟨phys, rfl, fun address other =>
          (same address other).trans (inside address other)⟩
    · rw [ends_pure]
      exact ⟨_, rfl, fun _ _ => rfl⟩

theorem ends_filling_gains {message : String} {fill : Nat → Nat → Nat → Kernel PUnit}
    {source : Nat → UInt8} (fills : FillsWith fill source)
    (balanced : Balanced base users device roots ledger machine) (unlatched : Unlatched machine)
    (isRoot : root ∈ roots) {virt len : Nat} (lower : virt + len ≤ 2 ^ 47)
    (present : ∀ index, index < len → ledger.Has root ((virt + index) / pageSize)) :
    Ends (do
        spinLock .vmm
        fillLoop root virt len message fill (len + 1) 0
        spinUnlock .vmm)
      (fun _ after => Gained base users device roots 0 ledger machine ledger after)
      (fun _ _ => True) machine := by
  rw [ends_bind, ends_spinLock, unlatched.vmm, if_neg Bool.false_ne_true, ends_bind]
  let latched : Machine := { machine with locked := Function.update machine.locked .vmm true }
  have latchedBalanced : Balanced base users device roots ledger latched :=
    balanced.of_same rfl rfl
  apply ends_mono (ends_fillLoop_writes fills latchedBalanced isRoot lower present _ _) _
    fun _ _ _ => trivial
  intro _ after written
  obtain ⟨phys, rfl, same⟩ := written
  have gained : Gained base users device roots 0 ledger machine ledger
      { machine with phys } :=
    gained_kept balanced (balanced.holdings.tables.kept_of_held same)
  rw [ends_spinUnlock]
  simp only [latched, relock_unlocked unlatched.vmm]
  exact gained

end Writing

/-! ## Mapping fresh pages -/

def Populated (ledger : Ledger) (root first stop : Nat) : Prop :=
  ∀ page, first ≤ page → page < stop → ledger.Has root page

section Mapping

variable {base : Finset Nat} {users device roots : Set Nat} {ledger ledger' : Ledger}
  {machine after : Machine} {root : Nat}

theorem Populated.kept {first stop spent : Nat} (populated : Populated ledger root first stop)
    (gained : Gained base users device roots spent ledger machine ledger' after) :
    Populated ledger' root first stop :=
  fun page above below => gained.kept root page (populated page above below)

theorem Populated.extend {addr stop spent : Nat} (aligned : addr % pageSize = 0)
    (first : ledger.Has root (addr / pageSize))
    (gained : Gained base users device roots spent ledger machine ledger' after)
    (rest : Populated ledger' root ((addr + pageSize) / pageSize) stop) :
    Populated ledger' root (addr / pageSize) stop := by
  intro page above below
  by_cases here : page = addr / pageSize
  · rw [here]
    exact gained.kept _ _ first
  · apply rest page _ below
    unfold pageSize at *
    omega

theorem ends_round_gains {flags addr frame stop bound : Nat} {middle : Machine} {rest : Kernel PUnit}
    {stopped : Stop → Machine → Prop} (usable : PageFlags flags)
    (balanced : Balanced base users device roots ledger machine) (unlatched : Unlatched machine)
    (isRoot : root ∈ roots) (lower : addr < 2 ^ 47) (aligned : addr % pageSize = 0)
    (taken : Taken base users roots ledger.held ledger.spaces machine frame middle)
    (short : (freeSet machine.pmm).card < 4 → ∀ stop after, stopped stop after)
    (induction : ∀ {ledgerOne mapped},
      Gained base users device roots 4 ledger machine ledgerOne mapped →
        Ends rest
          (fun _ after => ∃ ledger',
            Gained base users device roots bound ledgerOne mapped ledger' after ∧
              Populated ledger' root ((addr + pageSize) / pageSize) stop)
          stopped mapped) :
    Ends (vmmMapPage root addr frame flags >>= fun _ => rest)
      (fun _ after => ∃ ledger',
        Gained base users device roots (4 + bound) ledger machine ledger' after ∧
          Populated ledger' root (addr / pageSize) stop)
      stopped middle := by
  have page : pageOf addr = addr / pageSize := page_of_lower (by unfold pageSize; omega)
  rw [ends_bind]
  apply ends_mono (ends_vmmMapPage_gains balanced unlatched isRoot taken (lower_index lower)
    usable)
  · intro _ mapped done
    obtain ⟨ledgerOne, has, gained⟩ := done
    rw [page] at has
    apply ends_mono (induction gained) _ fun _ _ => id
    rintro _ after ⟨ledger', more, rest⟩
    exact ⟨ledger', gained.trans more, rest.extend aligned has more⟩
  · exact fun stop after out => short out.few stop after

theorem ends_mapSegment_gains {flags endPage : Nat} (usable : PageFlags flags)
    (balanced : Balanced base users device roots ledger machine) (unlatched : Unlatched machine)
    (isRoot : root ∈ roots) (lower : endPage ≤ 2 ^ 47) (fuel : Nat) {addr : Nat}
    (aligned : addr % pageSize = 0) :
    Ends (mapSegment root flags endPage fuel addr)
      (fun _ after => ∃ ledger',
        Gained base users device roots (4 * fuel) ledger machine ledger' after ∧
          Populated ledger' root (addr / pageSize) (endPage / pageSize))
      (fun _ _ => True) machine := by
  induction fuel generalizing machine ledger addr with
  | zero =>
    rw [mapSegment, ends_throw]
    trivial
  | succ fuel induction =>
    rw [mapSegment, ends_ite]
    split
    · next inside =>
        have next : add64 addr pageSize = addr + pageSize :=
          Nat.mod_eq_of_lt (by unfold pageSize; omega)
        rw [ends_bind, ends_vmmVirtToPhys]
        apply ends_require_bind trivial fun _ => ?_
        rw [ends_bind]
        apply ends_mono (ends_pmmAllocate_for balanced unlatched Nat.one_pos) _ fun _ _ _ => trivial
        intro frame middle taken
        apply ends_assert_bind (fun _ => trivial) fun _ => ?_
        rw [next, Nat.mul_add, Nat.add_comm (4 * fuel)]
        exact ends_round_gains usable balanced unlatched isRoot (by omega) aligned taken
          (fun _ _ _ => trivial) fun gained =>
            induction gained.balanced (unlatched.of_same gained.lower.locked)
              ((Nat.add_mod_right _ _).trans aligned)
    · rw [ends_pure]
      refine ⟨ledger, (Gained.refl balanced).within (Nat.zero_le _), fun page above below => ?_⟩
      unfold pageSize at *
      omega

theorem ends_mapFresh_gains {flags stop count : Nat} (usable : PageFlags flags)
    (balanced : Balanced base users device roots ledger machine) (unlatched : Unlatched machine)
    (isRoot : root ∈ roots) (lower : stop ≤ 2 ^ 47) {fuel addr : Nat}
    (aligned : addr % pageSize = 0) (pages : stop ≤ addr + count * pageSize) (enough : count < fuel) :
    Ends (mapFresh root stop flags fuel addr)
      (fun _ after => ∃ ledger',
        Gained base users device roots (4 * count) ledger machine ledger' after ∧
          Populated ledger' root (addr / pageSize) ((stop + (pageSize - 1)) / pageSize))
      (fun _ _ => (freeSet machine.pmm).card < 4 * count) machine := by
  induction fuel generalizing machine ledger addr count with
  | zero => exact absurd enough (Nat.not_lt_zero _)
  | succ fuel induction =>
    rw [mapFresh, ends_ite]
    split
    · next inside =>
        have next : add64 addr pageSize = addr + pageSize :=
          Nat.mod_eq_of_lt (by unfold pageSize; omega)
        obtain ⟨left, rfl⟩ : ∃ left, count = left + 1 :=
          ⟨count - 1, by unfold pageSize at pages; omega⟩
        rw [Nat.add_mul, Nat.one_mul] at pages
        rw [ends_bind]
        apply ends_mono (ends_pmmAllocate_for balanced unlatched (show 0 < 4 by decide))
        · intro frame middle taken
          rw [next, Nat.mul_add, Nat.add_comm (4 * left)]
          refine ends_round_gains usable balanced unlatched isRoot (by omega) aligned taken
            (fun few _ _ => by omega) fun gained => ?_
          have budget := gained.budget
          apply ends_mono (induction gained.balanced (unlatched.of_same gained.lower.locked)
            ((Nat.add_mod_right _ _).trans aligned) (show stop ≤ addr + pageSize + left * pageSize by
              omega) (by omega)) fun _ _ => id
          exact fun _ _ few => by omega
        · exact fun _ _ out => by have few := out.few; omega
    · rw [ends_pure]
      refine ⟨ledger, (Gained.refl balanced).within (Nat.zero_le _), fun page above below => ?_⟩
      unfold pageSize at *
      omega

end Mapping

/-! ## The words that are pushed -/

def stackFirst : Nat := userStackBase / pageSize
def stackStop : Nat := userStackTop / pageSize

/-- The pagemap that is loaded for the spawner is known, and what it shows on the last page of the
stack is no table. -/
structure Settled (roots : Set Nat) (current : Option UserProcess) (machine : Machine) : Prop where
  isRoot : activePagemap current machine ∈ roots
  shown : ∀ frame, spacesOf machine.phys (activePagemap current machine) (stackStop - 1) = some frame →
    frame ∈ otherFrames roots machine.pmm machine.phys

section Pushing

variable {base : Finset Nat} {users device roots : Set Nat} {ledger ledger' : Ledger}
  {machine after : Machine} {current : Option UserProcess} {address : Nat}

theorem active_pagemap_kept (same : after.kernelPagemap = machine.kernelPagemap) :
    activePagemap current after = activePagemap current machine := by
  rw [activePagemap, activePagemap, same]

theorem stack_page_lower : ¬UpperHalf (stackStop - 1) := by decide

theorem Settled.gained {spent : Nat} (settled : Settled roots current machine)
    (balanced : Balanced base users device roots ledger machine)
    (gained : Gained base users device roots spent ledger machine ledger' after) :
    Settled roots current after := by
  have active := @active_pagemap_kept machine after current gained.lower.kernelPagemap
  refine ⟨active ▸ settled.isRoot, ?_⟩
  rw [active]
  intro frame shown
  rw [gained.balanced.holdings.view _ settled.isRoot _ stack_page_lower] at shown
  rcases gained.shown _ _ frame shown with old | held
  · rw [← balanced.holdings.view _ settled.isRoot _ stack_page_lower] at old
    exact gained.extended.others (settled.shown frame old)
  · have tables := gained.balanced.holdings.tables
    exact ⟨tables.heldFrames frame held, tables.apart frame held⟩

theorem Settled.served {smaller : Finset Nat} (settled : Settled roots current machine)
    (balanced : Balanced base users device roots ledger machine)
    (served : Served base users device roots ledger machine smaller after) :
    Settled roots current after := by
  have active := @active_pagemap_kept machine after current served.kernelPagemap
  refine ⟨active ▸ settled.isRoot, ?_⟩
  rw [active, served.serving.balanced.holdings.view _ settled.isRoot _ stack_page_lower,
    ← balanced.holdings.view _ settled.isRoot _ stack_page_lower]
  exact fun frame shown => served.extended.others (settled.shown frame shown)

theorem Settled.joined {new : Nat} (settled : Settled roots current machine)
    (serving : Serving base users device roots ledger machine)
    (joined : Joined base users device roots ledger machine new after) :
    Settled (insert new roots) current after := by
  have active := @active_pagemap_kept machine after current joined.kernelPagemap
  have isRoot := settled.isRoot
  have different : activePagemap current machine ≠ new := fun same => joined.fresh (same ▸ isRoot)
  have known := Set.mem_insert_of_mem new isRoot
  refine ⟨active ▸ known, ?_⟩
  rw [active]
  intro frame shown
  have same : ledger.spaces.create machine.kernelPagemap new (activePagemap current machine) =
      ledger.spaces (activePagemap current machine) := Function.update_of_ne different _ _
  have view := joined.serving.balanced.holdings.view _ known _ stack_page_lower
  dsimp only at view
  rw [view, same, ← serving.balanced.holdings.view _ isRoot _ stack_page_lower] at shown
  exact joined.others (settled.shown frame shown)

section

variable (balanced : Balanced base users device roots ledger machine)
  (settled : Settled roots current machine)

include balanced

theorem ends_vmmPagefault_gains (unlatched : Unlatched machine) {process : UserProcess} {cs : Nat}
    (isRoot : process.pagemap ∈ roots) (inside : InWindow process address)
    (low : address < 2 ^ 47) :
    Ends (vmmPagefault address cs)
      (fun outcome after => outcome = .handled ∧
        after.process = { process with userHeapPosition := faultPosition process address } ∧
        ∃ ledger', ledger'.Has process.pagemap (address / pageSize) ∧
          Gained base users device roots 4 ledger machine ledger' after.machine)
      (fun _ _ => (freeSet machine.pmm).card < 4) ⟨machine, process⟩ := by
  have nonzero := (balanced.holdings.tables.frames _ (isTable_of_root isRoot)).nonzero
  have page : pageOf (pageFloor address) = address / pageSize ∧ pageFloor address < 2 ^ 47 := by
    unfold pageOf pageFloor pageSize
    omega
  have masked : Gained base users device roots 0 ledger machine ledger (quiet machine) :=
    gained_kept balanced fun _ _ => rfl
  have unlatchedQuiet : Unlatched (quiet machine) := ⟨unlatched.pmm, unlatched.vmm⟩
  apply ends_vmmPagefault_inside nonzero inside
  rw [mapFaultPage, ends_bind, ends_kernel]
  apply ends_mono (ends_pmmAllocate_for masked.balanced unlatchedQuiet (show 0 < 4 by decide)) _
    fun _ _ out => out.few
  intro frame middle taken
  rw [ends_bind, ends_get, ends_bind, ends_kernel]
  apply ends_mono (ends_vmmMapPage_gains masked.balanced unlatchedQuiet isRoot taken
    (lower_index page.2) user_page_flags) _ fun _ _ out => out.few
  rintro _ mapped ⟨ledger', has, gained⟩
  rw [ends_pure]
  rw [page.1] at has
  exact ⟨rfl, rfl, ledger', has,
    (masked.trans gained).trans (gained_kept gained.balanced fun _ _ => rfl)⟩

include settled

theorem ends_storeZero_shown {frame : Nat} (top : address / pageSize = stackStop - 1)
    (inPage : address % pageSize + 8 ≤ pageSize)
    (shown : spacesOf machine.phys (activePagemap current machine) (stackStop - 1) = some frame)
    {stopped : Stop → Machine → Prop} (fuel : Nat) :
    Ends (storeZero current address (fuel + 1))
      (fun _ after => Gained base users device roots 0 ledger machine ledger after) stopped
      machine := by
  have other := settled.shown frame shown
  have page : pageOf address = stackStop - 1 := (page_of_lower (by rw [top]; decide)).trans top
  have phys : translate machine.phys (activePagemap current machine) address =
      frame + address % pageSize := by
    rw [spacesOf] at shown
    rw [PageTableForests.translate, page, shown]
  have nonzero : frame + address % pageSize ≠ 0 := by have some := other.1.nonzero; omega
  rw [storeZero, ends_bind, ends_get, ends_bind, ends_vmmVirtToPhys, phys, if_pos nonzero,
    ends_modify]
  apply gained_kept balanced
  apply (tables_other_frames balanced.holdings.tables).kept_of_held
  intro position outside
  apply store64_apply_other
  by_contra inside
  have floor : pageFloor position = frame := by
    have aligned := other.1.aligned
    unfold pageFloor pageSize at *
    omega
  exact outside (floor ▸ other)

theorem ends_storeZero_gains (unlatched : Unlatched machine)
    (top : address / pageSize = stackStop - 1) (inPage : address % pageSize + 8 ≤ pageSize) :
    Ends (storeZero current address 2)
      (fun _ after => ∃ ledger', Gained base users device roots 4 ledger machine ledger' after)
      (fun _ _ => current = none ∨ (freeSet machine.pmm).card < 4) machine := by
  cases shown : spacesOf machine.phys (activePagemap current machine) (stackStop - 1) with
  | some frame =>
    apply ends_mono (ends_storeZero_shown balanced settled top inPage shown 1) _ fun _ _ => id
    exact fun _ _ gained => ⟨ledger, gained.within (Nat.zero_le _)⟩
  | none =>
    have page : pageOf address = stackStop - 1 := (page_of_lower (by rw [top]; decide)).trans top
    rw [spacesOf] at shown
    rw [storeZero, ends_bind, ends_get, ends_bind, ends_vmmVirtToPhys, PageTableForests.translate,
      page, shown, if_neg (not_not.mpr rfl), ends_bind]
    cases current with
    | none =>
      rw [kernelFault, ends_bind, ends_irqOff, ends_panicWith]
      exact Or.inl rfl
    | some process =>
      have inStack : inStackWindow address ∧ address < 2 ^ 47 := by
        unfold stackStop userStackTop pageSize at top
        unfold inStackWindow userStackBase userStackTop
        omega
      rw [kernelFault, ends_bind, ends_asProcess]
      apply ends_mono (ends_vmmPagefault_gains balanced unlatched settled.isRoot
        (Or.inr inStack.1) inStack.2) _ fun _ _ => Or.inr
      rintro _ faulted ⟨-, -, ledger', ⟨frame, -, leaf⟩, gained⟩
      rw [ends_pure]
      have now := settled.gained balanced gained
      have isRoot : process.pagemap ∈ roots := settled.isRoot
      rw [top, ← gained.balanced.holdings.view _ isRoot _ stack_page_lower] at leaf
      apply ends_mono (ends_storeZero_shown gained.balanced now top inPage leaf 0) _ fun _ _ => id
      exact fun _ _ stored => ⟨ledger', gained.trans stored⟩

theorem ends_pushStack_gains (unlatched : Unlatched machine) :
    Ends (forCount (pushStack current) 4 0)
      (fun _ after => ∃ ledger', Gained base users device roots 16 ledger machine ledger' after)
      (fun _ _ => current = none ∨ (freeSet machine.pmm).card < 16) machine := by
  apply ends_forCount (fun index after => ∃ ledger',
    Gained base users device roots (4 * index) ledger machine ledger' after) 4 0
  · rintro index state - below ⟨ledgerOne, gainedOne⟩
    have top : (userStackTop - 8 * (index + 1)) / pageSize = stackStop - 1 ∧
        (userStackTop - 8 * (index + 1)) % pageSize + 8 ≤ pageSize := by
      unfold stackStop userStackTop pageSize
      omega
    have budget := gainedOne.budget
    apply ends_mono (ends_storeZero_gains gainedOne.balanced (settled.gained balanced gainedOne)
      (unlatched.of_same gainedOne.lower.locked) top.1 top.2)
    · rintro _ after ⟨ledger', gained⟩
      exact ⟨ledger', gainedOne.trans gained⟩
    · exact fun _ _ stops => stops.imp_right fun none => by omega
  · exact ⟨ledger, Gained.refl balanced⟩

end

end Pushing

/-! ## Loading the image -/

section Loading

variable {base : Finset Nat} {users device roots : Set Nat} {ledger ledger' : Ledger}
  {machine after : Machine} {root elfData file : Nat} {image : Image} {phdr : Phdr}

theorem segment_page_flags (flags : Nat) : PageFlags (segmentFlags flags) := by
  refine ⟨segment_flags_small flags, segment_flags_disjoint flags, ?_⟩
  unfold segmentFlags
  simp only
  split <;> split <;> decide

theorem ends_fillSegment_gains {phStart : Nat} (header : phdrAt image phStart = phdr)
    (contained : phdr.Contained) (balanced : Balanced base users device roots ledger machine)
    (unlatched : Unlatched machine) (isRoot : root ∈ roots)
    (populated : Populated ledger root phdr.first (phdr.first + phdr.count)) :
    Ends (fillSegment root elfData image file phStart phdr.vaddr phdr.memsz)
      (fun _ after => Gained base users device roots 0 ledger machine ledger after)
      (fun _ _ => True) machine := by
  have lower := contained.lowerHalf
  have inMemory := contained.fileInMemory
  have filesz : imageWord image (phStart + 32) 8 = phdr.filesz := by rw [← header]; rfl
  have present : ∀ index, index < phdr.memsz → ledger.Has root ((phdr.vaddr + index) / pageSize) := by
    intro index inside
    obtain ⟨above, below⟩ := contained.range.page inside
    exact populated _ above below
  unfold fillSegment
  dsimp only
  rw [filesz]
  apply ends_require_bind trivial fun _ => ?_
  apply ends_require_bind trivial fun _ => ?_
  iterate 3 apply ends_assert_bind (fun _ => trivial) fun _ => ?_
  rw [ends_bind, vmmMapCopy]
  apply ends_mono (ends_filling_gains (copy_fills image _) balanced unlatched isRoot (by omega)
    fun index inside => present index (by omega)) _ fun _ _ _ => trivial
  intro _ copied filled
  rw [ends_ite]
  split
  · have tail : add64 phdr.vaddr phdr.filesz = phdr.vaddr + phdr.filesz :=
      Nat.mod_eq_of_lt (by omega)
    have rest : sub64 phdr.memsz phdr.filesz = phdr.memsz - phdr.filesz := by
      unfold sub64
      omega
    have behind : ∀ index, index < phdr.memsz - phdr.filesz →
        ledger.Has root ((phdr.vaddr + phdr.filesz + index) / pageSize) := by
      intro index inside
      rw [Nat.add_assoc]
      exact present _ (by omega)
    rw [tail, rest, vmmMapZero]
    apply ends_mono (ends_filling_gains clear_fills filled.balanced
      (unlatched.of_same filled.lower.locked) isRoot (by omega) behind) _ fun _ _ _ => trivial
    exact fun _ _ cleared => filled.trans cleared
  · rw [ends_pure]
    exact filled

theorem ends_loadSegment_gains {phStart : Nat} (header : phdrAt image phStart = phdr)
    (contained : phdr.Contained) (balanced : Balanced base users device roots ledger machine)
    (unlatched : Unlatched machine) (isRoot : root ∈ roots) :
    Ends (loadSegment root elfData image file phStart)
      (fun ends after => ends = (phdr.vaddr, phdr.vaddr + phdr.memsz) ∧ ∃ ledger' spent,
        Gained base users device roots spent ledger machine ledger' after ∧
          Populated ledger' root phdr.first (phdr.first + phdr.count))
      (fun _ _ => True) machine := by
  obtain ⟨start, sum, stop, lower⟩ := contained.pages
  have vaddr : imageWord image (phStart + 16) 8 = phdr.vaddr := by rw [← header]; rfl
  have memsz : imageWord image (phStart + 40) 8 = phdr.memsz := by rw [← header]; rfl
  unfold loadSegment
  dsimp only
  rw [vaddr, memsz, sum]
  iterate 5 apply ends_assert_bind (fun _ => trivial) fun _ => ?_
  rw [ends_bind, start, stop]
  apply ends_mono (ends_mapSegment_gains (segment_page_flags _) balanced unlatched isRoot
    (by unfold pageSize; omega) _ (Nat.mul_mod_left _ _)) _ fun _ _ _ => trivial
  rintro _ mapped ⟨ledger', gained, populated⟩
  rw [Nat.mul_div_cancel _ (by decide), Nat.mul_div_cancel _ (by decide)] at populated
  rw [ends_bind]
  apply ends_mono (ends_fillSegment_gains header contained gained.balanced
    (unlatched.of_same gained.lower.locked) isRoot populated) _
    fun _ _ _ => trivial
  intro _ after filled
  rw [ends_pure]
  exact ⟨rfl, ledger', _, gained.trans filled, populated.kept filled⟩

theorem ends_loadHeaders_gains {phOffset count index : Nat} {bounds : Bounds} (small : file < 2 ^ 64)
    (inFile : ∀ position, index ≤ position → position < index + count →
      headerStart phOffset position + phdrBytes ≤ file)
    (contained : ∀ phdr ∈ loads (headersFrom image phOffset count index), phdr.Contained)
    (balanced : Balanced base users device roots ledger machine)
    (unlatched : Unlatched machine) (isRoot : root ∈ roots) :
    Ends (loadHeaders root elfData image file phOffset count index bounds)
      (fun result after =>
        result = boundsOf (loads (headersFrom image phOffset count index)) bounds ∧
          ∃ ledger' spent, Gained base users device roots spent ledger machine ledger' after)
      (fun _ _ => True) machine := by
  induction count generalizing index bounds machine ledger with
  | zero =>
    rw [loadHeaders, ends_pure]
    exact ⟨rfl, ledger, 0, Gained.refl balanced⟩
  | succ count induction =>
    have inTable := inFile index (Nat.le_refl _) (by omega)
    have later : ∀ position, index + 1 ≤ position → position < index + 1 + count →
        headerStart phOffset position + phdrBytes ≤ file := fun position above below =>
      inFile position (by omega) (by omega)
    apply ends_loadHeaders_succ inTable small fun _ _ => trivial
    rw [headers_from_succ, loads_cons] at contained ⊢
    split
    · next load =>
        rw [if_pos load] at contained
        have own := contained _ List.mem_cons_self
        apply ends_mono (ends_loadSegment_gains rfl own balanced unlatched isRoot) _
          fun _ _ _ => trivial
        intro ends first done
        obtain ⟨rfl, ledger', spent, gained, -⟩ := done
        apply ends_mono (induction later
          (fun phdr member => contained phdr (List.mem_cons_of_mem _ member)) gained.balanced
          (unlatched.of_same gained.lower.locked)) _ fun _ _ _ => trivial
        intro result after rest
        obtain ⟨same, ledger'', more, gainedRest⟩ := rest
        exact ⟨same, ledger'', _, gained.trans gainedRest⟩
    · next other =>
        rw [if_neg other] at contained
        exact induction later contained balanced unlatched

end Loading

/-! ## Spawning -/

/-- `user_heap`, where the heap of a process with this image starts. -/
def imageHeap (image : Image) : Nat :=
  let bounds := boundsOf (segments image) { base := 2 ^ 64 - 1, stop := 0 }
  pageCeil (add64 (imageWord image 24 8) (sub64 bounds.stop bounds.base))

/-- A well-formed image that leaves room for a heap in the lower half. -/
structure Startable (image : Image) (len : Nat) : Prop extends WellFormed image len where
  size : len < 2 ^ 64
  heapLower : imageHeap image < 2 ^ 47

structure Spawned (base : Finset Nat) (users device roots : Set Nat) (ledger : Ledger)
    (current : Option UserProcess) (image : Image) (before : Machine) (process : UserProcess)
    (smaller : Finset Nat) (ledger' : Ledger) (after : Machine) : Prop where
  serving : Serving smaller (insert process.pagemap users) device (insert process.pagemap roots)
    ledger' after
  settled : Settled (insert process.pagemap roots) current after
  fresh : process.pagemap ∉ roots
  wider : ledger.held ⊆ ledger'.held
  kept : ∀ root, root ∈ roots → ∀ page, ledger.Has root page → ledger'.Has root page
  inside : smaller ⊆ base
  pagemap : process.pagemap / pageSize ∈ smaller
  grown : after.heap.size + smaller.card * pageSize ≤ before.heap.size + base.card * pageSize
  free : freeSet after.pmm ⊆ freeSet before.pmm
  hhdm : after.hhdm = before.hhdm
  kernelPagemap : after.kernelPagemap = before.kernelPagemap
  heapStart : process.userHeapStart = imageHeap image
  heapPosition : process.userHeapPosition = imageHeap image
  heapPage : ledger'.Has process.pagemap (imageHeap image / pageSize)
  stack : Populated ledger' process.pagemap stackFirst stackStop
  user : UserTables after.phys process.pagemap

section Spawning

variable {base : Finset Nat} {users device roots : Set Nat} {ledger ledger' : Ledger}
  {machine after : Machine} {current : Option UserProcess} {root elfData len : Nat} {image : Image}

theorem ends_elf64Load_gains (startable : Startable image len)
    (serving : Serving base users device roots ledger machine) (isRoot : root ∈ roots) :
    Ends (elf64Load root elfData image len)
      (fun info after => (pageCeil (add64 info.entry info.size) = imageHeap image ∧
        ∃ ledger' spent, Gained base users device roots spent ledger machine ledger' after) ∧
        (freeSet machine.pmm).card ≤ (freeSet after.pmm).card + (freeSet machine.pmm).card)
      (fun _ _ => True) machine := by
  have small := startable.size
  apply ends_elf64Load (fun _ _ => trivial) fun _ => ?_
  apply ends_mono (ends_loadHeaders_gains small
    (fun _ _ below => (startable.header_in_file small (by omega)).2)
    (fun _ member => startable.contained small member) serving.balanced serving.unlatched isRoot) _
    fun _ _ _ => trivial
  intro bounds after loaded
  obtain ⟨rfl, gained⟩ := loaded
  exact ⟨⟨rfl, gained⟩, Nat.le_add_left _ _⟩

theorem ends_processCreateUser_serves
    (serving : Serving base users device roots ledger machine) (entry pagemap top heap : Nat) :
    Ends (processCreateUser entry pagemap top heap)
      (fun process after => (process.pagemap = pagemap ∧ process.userHeapStart = heap ∧
          process.userHeapPosition = heap) ∧
        ∃ smaller, Served base users device roots ledger machine smaller after)
      (fun _ _ => True) machine := by
  rw [processCreateUser]
  apply ends_assert_bind (fun _ => trivial) fun _ => ?_
  rw [newProcess, ends_bind]
  apply ends_mono (ends_kmalloc_serves serving _) _ fun _ _ _ => trivial
  intro newProcess first served
  obtain ⟨baseFirst, served⟩ := served
  apply ends_assert_bind (fun _ => trivial) fun _ => ?_
  rw [ends_bind]
  apply ends_mono (ends_kmalloc_serves served.serving _) _ fun _ _ _ => trivial
  intro stack second more
  obtain ⟨baseSecond, more⟩ := more
  apply ends_assert_bind (fun _ => trivial) fun _ => ?_
  rw [ends_bind]
  apply ends_mono (ends_kmalloc_serves more.serving _) _ fun _ _ _ => trivial
  intro newNode third last
  obtain ⟨baseThird, last⟩ := last
  rw [ends_pure]
  exact ⟨⟨rfl, rfl, rfl⟩, baseThird, (served.trans more).trans last⟩

/-- The steps of a spawn up to the creation of the process. The loader may cost `bound` frames; a
program that stops by itself has no current process or too few frames. -/
theorem ends_spawnInto_maps {bound : Nat} {stopped : Stop → Machine → Prop}
    (startable : Startable image len) (serving : Serving base users device roots ledger machine)
    (isRoot : root ∈ roots) (settled : Settled roots current machine)
    {returned : UserProcess → Machine → Prop}
    (loads : Ends (elf64Load root elfData image len)
      (fun info after => (pageCeil (add64 info.entry info.size) = imageHeap image ∧
        ∃ ledger' spent, Gained base users device roots spent ledger machine ledger' after) ∧
        (freeSet machine.pmm).card ≤ (freeSet after.pmm).card + bound) stopped machine)
    (short : current = none ∨ (freeSet machine.pmm).card < bound + 4 + 16 + 4 * 256 →
      ∀ stop after, stopped stop after)
    (created : ∀ entry ledger' spent middle,
      Gained base users device roots spent ledger machine ledger' middle →
        ledger'.Has root (imageHeap image / pageSize) → Populated ledger' root stackFirst stackStop →
          (freeSet machine.pmm).card ≤
            (freeSet middle.pmm).card + (bound + 4 + 16 + 4 * 256) →
          Ends (processCreateUser entry root (userStackTop - 4 * 8) (imageHeap image)) returned
            stopped middle) :
    Ends (spawnInto current root elfData image len) returned stopped machine := by
  have heapLower := startable.heapLower
  have heapPage : pageOf (imageHeap image) = imageHeap image / pageSize :=
    page_of_lower (by unfold pageSize; omega)
  rw [spawnInto, ends_bind]
  apply ends_mono loads _ fun _ _ => id
  rintro elf loaded ⟨⟨heap, ledgerOne, spentOne, gainedOne⟩, imageBudget⟩
  have openOne := serving.unlatched.of_same gainedOne.lower.locked
  rw [heap, ends_bind]
  apply ends_mono (ends_pmmAllocate_for gainedOne.balanced openOne Nat.one_pos) _
    fun _ _ out => short (Or.inr (by have few := out.few; omega)) _ _
  intro frame middle taken
  rw [ends_bind]
  apply ends_mono (ends_vmmMapPage_gains gainedOne.balanced openOne isRoot taken
    (lower_index heapLower) user_page_flags) _
    fun _ _ out => short (Or.inr (by have few := out.few; omega)) _ _
  rintro _ second ⟨ledgerTwo, has, gainedTwo⟩
  have pageBudget := gainedTwo.budget
  have openTwo := openOne.of_same gainedTwo.lower.locked
  rw [heapPage] at has
  have gainedBoth := gainedOne.trans gainedTwo
  rw [ends_bind]
  apply ends_mono (ends_pushStack_gains gainedTwo.balanced
    (settled.gained serving.balanced gainedBoth) openTwo) _
    fun _ _ out => short (out.imp_right (by omega)) _ _
  rintro _ pushed ⟨ledgerPushed, gainedPushed⟩
  have pushBudget := gainedPushed.budget
  rw [ends_bind]
  apply ends_mono (ends_mapFresh_gains user_page_flags gainedPushed.balanced
    (openTwo.of_same gainedPushed.lower.locked) isRoot
    (by decide) (by decide) (show userStackTop - 4 * 8 ≤ userStackBase + 256 * pageSize by decide)
    (by decide)) _ fun _ _ few => short (Or.inr (by omega)) _ _
  rintro _ third ⟨ledgerThree, gainedThree, stack⟩
  have stackBudget := gainedThree.budget
  exact created _ ledgerThree _ third ((gainedBoth.trans gainedPushed).trans gainedThree)
    (gainedThree.kept _ _ (gainedPushed.kept _ _ has)) stack (by omega)

theorem ends_spawnInto_gains (startable : Startable image len)
    (serving : Serving base users device roots ledger machine) (isRoot : root ∈ roots)
    (settled : Settled roots current machine) :
    Ends (spawnInto current root elfData image len)
      (fun process after => (process.pagemap = root ∧ process.userHeapStart = imageHeap image ∧
          process.userHeapPosition = imageHeap image) ∧
        ∃ ledger' spent middle smaller,
          Gained base users device roots spent ledger machine ledger' middle ∧
            Served base users device roots ledger' middle smaller after ∧
            ledger'.Has root (imageHeap image / pageSize) ∧
            Populated ledger' root stackFirst stackStop)
      (fun _ _ => True) machine := by
  apply ends_spawnInto_maps startable serving isRoot settled
    (ends_elf64Load_gains startable serving isRoot) fun _ _ _ => trivial
  intro entry ledger' spent middle gained has stack _
  apply ends_mono (ends_processCreateUser_serves (serving.gained gained) _ _ _ _) _
    fun _ _ _ => trivial
  intro process after created
  obtain ⟨fields, smaller, served⟩ := created
  exact ⟨fields, ledger', _, middle, smaller, gained, served, has, stack⟩

theorem ends_processSpawnElf_spawns (startable : Startable image len)
    (serving : Serving base users device roots ledger machine)
    (settled : Settled roots current machine) :
    Ends (processSpawnElf current elfData image len)
      (fun process after => ∃ smaller ledger',
        Spawned base users device roots ledger current image machine process smaller ledger' after)
      (fun _ _ => True) machine := by
  rw [processSpawnElf, ends_bind]
  apply ends_mono (ends_vmmNewPagemap_joins serving) _ fun _ _ _ => trivial
  intro new first joined
  have inBase := serving.balanced.holdings.free joined.wasFree
  apply ends_mono (ends_spawnInto_gains startable joined.serving (Set.mem_insert _ _)
    (settled.joined serving joined)) _ fun _ _ _ => trivial
  intro process after spawned
  obtain ⟨⟨rfl, start, position⟩, ledger', spent, middle, smaller, gained, served, heap, stack⟩ :=
    spawned
  have pushed := (settled.joined serving joined).gained joined.serving.balanced gained
  have isNew : process.pagemap ∈ insert process.pagemap roots := Set.mem_insert _ _
  refine ⟨smaller, ledger', served.serving, pushed.served gained.balanced served, joined.fresh,
    gained.wider, ?_, served.inside, served.pagemaps _ isNew inBase, ?_,
    (served.free.trans gained.free).trans joined.free, ?_, ?_, start, position, heap, stack,
    served.extended.user _ isNew (gained.extended.user _ isNew joined.newUser)⟩
  · rintro root isRoot page ⟨frame, held, leaf⟩
    have different : root ≠ process.pagemap := fun same => joined.fresh (same ▸ isRoot)
    exact gained.kept root page
      ⟨frame, held, (congrFun (Function.update_of_ne different _ _) page).trans leaf⟩
  · have grown := served.grown
    rwa [gained.lower.heap, joined.heapSize] at grown
  · rw [served.hhdm, gained.lower.hhdm, joined.hhdm]
  · rw [served.kernelPagemap, gained.lower.kernelPagemap, joined.kernelPagemap]

end Spawning

end RiriaKernel.ProcessSpawning
