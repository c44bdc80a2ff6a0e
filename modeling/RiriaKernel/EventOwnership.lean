import RiriaKernel.UserEvents

/-!
# The frames of running processes

Every event of a process that stays in the lower half, maps only frames of a device, and unmaps
none of them keeps the ledger balanced. A process may be killed in the middle of an event: the
ledger balances then too, even where `vmm_map_page` has left its latch, and whoever waits for
that latch does not come back.
-/

namespace RiriaKernel.EventOwnership

open HaltingPrograms KernelState PhysicalAllocator PageTables PageTableForests
open PageTableOperations AddressSpaces UserProcesses UserMemory UserOwnership
open ProcessSpawning PageFaults UserEvents

/-- The ledger balances, and frames can be taken and returned. -/
structure Ready (base : Finset Nat) (users device roots : Set Nat) (ledger : Ledger)
    (machine : Machine) : Prop where
  balanced : Balanced base users device roots ledger machine
  unlocked : machine.locked .pmm = false

structure Performed (base : Finset Nat) (users device roots : Set Nat) (before : Machine)
    (ledger : Ledger) (after : Machine) : Prop where
  balanced : Balanced base users device roots ledger after
  lower : LowerOnly roots before after

def Stopped (base : Finset Nat) (users device roots : Set Nat) (before : Machine) (stop : Stop)
    (after : Machine) : Prop :=
  ∀ message, stop = .panic message →
    (∃ ledger, Ready base users device roots ledger after) ∧ KernelKept roots before after

structure DeviceFrames (device : Set Nat) : Prop where
  positive : ∀ frame, frame ∈ device → 0 < frame
  small : ∀ frame, frame ∈ device → frame < 2 ^ 52
  aligned : ∀ frame, frame ∈ device → frame % pageSize = 0

section Operations

variable {base : Finset Nat} {users device roots : Set Nat} {ledger ledger' : Ledger}
  {machine middle after : Machine} {root frame virt flags : Nat}

theorem Performed.trans (left : Performed base users device roots machine ledger middle)
    (right : Performed base users device roots middle ledger' after) :
    Performed base users device roots machine ledger' after :=
  ⟨right.balanced, left.lower.trans right.lower⟩

theorem Performed.ready (performed : Performed base users device roots machine ledger after)
    (unlocked : machine.locked .pmm = false) : Ready base users device roots ledger after :=
  ⟨performed.balanced, (congrFun performed.lower.locked _).trans unlocked⟩

theorem Ready.refused (ready : Ready base users device roots ledger machine) {stop : Stop} :
    Stopped base users device roots machine stop machine :=
  fun _ _ => ⟨⟨ledger, ready⟩, rfl, rfl, fun _ _ _ _ _ => rfl⟩

theorem spins_stopped {lock : Lock} :
    Stopped base users device roots machine (.spin lock) after :=
  fun _ same => nomatch same

theorem Stopped.after_kept {stop : Stop} (stopped : Stopped base users device roots middle stop after)
    (kept : KernelKept roots machine middle) :
    Stopped base users device roots machine stop after :=
  fun message same => ⟨(stopped message same).1, kept.trans (stopped message same).2⟩

theorem ends_pmmAllocate_ready (ready : Ready base users device roots ledger machine) :
    Ends pmmAllocate
      (fun frame middle => Taken base users roots ledger.held ledger.spaces machine frame middle)
      (fun stop after => Stopped base users device roots machine stop after) machine := by
  apply ends_mono (ends_pmmAllocate_taken ready.balanced.holdings ready.unlocked)
    fun _ _ => id
  rintro stop after ⟨-, -, holdings, lower, -⟩ message -
  exact ⟨⟨ledger, ⟨holdings, ready.balanced.owned, ready.balanced.outside⟩,
    (congrFun lower.locked _).trans ready.unlocked⟩, lower.kernel_kept⟩

theorem ends_vmmMapPage_latched {before : Machine} (latched : machine.locked .vmm = true) :
    Ends (vmmMapPage root virt frame flags) (fun _ _ => False)
      (fun stop after => Stopped base users device roots before stop after) machine := by
  rw [vmmMapPage, ends_bind, ends_spinLock, if_pos latched]
  exact spins_stopped

theorem ends_vmmMapPage_given (ready : Ready base users device roots ledger machine)
    (isRoot : root ∈ roots)
    (taken : Taken base users roots ledger.held ledger.spaces machine frame middle)
    (low : virt < 2 ^ 47) (known : PageFlags flags) :
    Ends (vmmMapPage root virt frame flags)
      (fun _ after => ∃ ledger', Performed base users device roots machine ledger' after)
      (fun stop after => Stopped base users device roots machine stop after) middle := by
  cases latched : machine.locked .vmm with
  | true =>
    have still : middle.locked .vmm = true := (congrFun taken.lower.locked _).trans latched
    exact ends_mono (ends_vmmMapPage_latched still) (fun _ _ => False.elim)
      fun _ _ => id
  | false =>
    apply ends_mono (ends_vmmMapPage_gains ready.balanced ⟨ready.unlocked, latched⟩ isRoot taken
      (lower_index low) known)
    · rintro _ after ⟨ledger', -, gained⟩
      exact ⟨ledger', gained.balanced, gained.lower⟩
    · intro stop after out message _
      obtain ⟨ledger', balanced⟩ := out.balanced
      refine ⟨⟨ledger', balanced, ?_⟩, out.kept⟩
      rcases out.locked with same | update
      · rw [same]
        exact ready.unlocked
      · rw [update, Function.update_of_ne (by decide)]
        exact ready.unlocked

theorem vmm_map_page_floor (root virt phys flags : Nat) :
    vmmMapPage root virt phys flags = vmmMapPage root virt (pageFloor phys) flags := by
  rw [vmmMapPage, vmmMapPage, page_floor_of_aligned (page_floor_aligned phys)]

theorem ends_vmmMapPage_lent (ready : Ready base users device roots ledger machine)
    (isRoot : root ∈ roots) (frames : DeviceFrames device) {phys : Nat}
    (shown : pageFloor phys ∈ device) (low : virt < 2 ^ 47) (known : PageFlags flags) :
    Ends (vmmMapPage root virt phys flags)
      (fun _ after => ∃ ledger', Performed base users device roots machine ledger' after)
      (fun stop after => Stopped base users device roots machine stop after) machine := by
  cases latched : machine.locked .vmm with
  | true =>
    exact ends_mono (ends_vmmMapPage_latched latched) (fun _ _ => False.elim)
      fun _ _ => id
  | false =>
    have request : MapRequest virt (pageFloor phys) flags := ⟨lower_index low,
      frames.positive _ shown, frames.small _ shown, frames.aligned _ shown, known.small,
      known.disjoint⟩
    rw [vmm_map_page_floor]
    apply ends_mono (ends_vmmMapPage_lower ready.balanced.holdings ⟨ready.unlocked, latched⟩ isRoot
      request known.user)
    · rintro _ after ⟨-, mapped⟩
      exact ⟨ledger.write root (pageOf virt) (some (pageFloor phys)),
        ⟨mapped.holdings, ready.balanced.owned.lend shown, ready.balanced.outside⟩, mapped.lower⟩
    · intro stop after out message _
      refine ⟨⟨ledger, ⟨out.holdings, ready.balanced.owned, ready.balanced.outside⟩, ?_⟩, out.kept⟩
      rw [out.locked, Function.update_of_ne (by decide)]
      exact ready.unlocked

end Operations

/-! ## Mapping -/

section Mapping

variable {base : Finset Nat} {users device roots : Set Nat} {ledger : Ledger} {caller : Caller}

section

variable (ready : Ready base users device roots ledger caller.machine)
  (user : caller.process.pagemap ∈ users)

include ready user

theorem ends_mapAnonymousPage_owned (low : caller.process.userHeapPosition < 2 ^ 47) (index : Nat) :
    Ends (mapAnonymousPage index)
      (fun _ after => ∃ ledger' machine, after = caller.advance machine ∧
        Performed base users device roots caller.machine ledger' machine)
      (fun stop after => Stopped base users device roots caller.machine stop after.machine) caller := by
  have isRoot := ready.balanced.holdings.known user
  rw [mapAnonymousPage, ends_bind, ends_kernel]
  apply ends_mono (ends_pmmAllocate_ready ready) _ fun _ _ => id
  intro frame middle taken
  rw [ends_bind, ends_kernel, ends_assertThat, if_pos taken.nonzero, ends_mapAtPosition]
  apply ends_mono (ends_vmmMapPage_given ready isRoot taken low ⟨by decide, by decide, by decide⟩) _
    fun _ _ => id
  rintro _ after ⟨ledger', performed⟩
  exact ⟨ledger', after, rfl, performed⟩

theorem ends_mapDevicePage_owned (low : caller.process.userHeapPosition < 2 ^ 47)
    (frames : DeviceFrames device) {data index : Nat}
    (shown : pageFloor (add64 data (index * pageSize)) ∈ device) :
    Ends (mapDevicePage data index)
      (fun _ after => ∃ ledger' machine, after = caller.advance machine ∧
        Performed base users device roots caller.machine ledger' machine)
      (fun stop after => Stopped base users device roots caller.machine stop after.machine) caller := by
  rw [mapDevicePage, ends_mapAtPosition]
  apply ends_mono (ends_vmmMapPage_lent ready (ready.balanced.holdings.known user) frames shown low
    user_page_flags) _ fun _ _ => id
  rintro _ after ⟨ledger', performed⟩
  exact ⟨ledger', after, rfl, performed⟩

theorem ends_mapFaultPage_owned {pageAddr : Nat} (low : pageAddr < 2 ^ 47) :
    Ends (mapFaultPage pageAddr)
      (fun _ after => ∃ ledger', Performed base users device roots caller.machine ledger' after.machine)
      (fun stop after => Stopped base users device roots caller.machine stop after.machine) caller := by
  have isRoot := ready.balanced.holdings.known user
  rw [mapFaultPage, ends_bind, ends_kernel]
  apply ends_mono (ends_pmmAllocate_ready ready) _ fun _ _ => id
  intro frame middle taken
  rw [ends_bind, ends_get, ends_bind, ends_kernel]
  apply ends_mono (ends_vmmMapPage_given ready isRoot taken low user_page_flags) _
    fun _ _ => id
  intro _ after performed
  rw [ends_pure]
  exact performed

end

structure Handled (base : Finset Nat) (users device roots : Set Nat) (before : Caller)
    (position : Nat) (after : Caller) : Prop where
  performed : ∃ ledger, Performed base users device roots before.machine ledger after.machine
  process : after.process = { before.process with userHeapPosition := position }

theorem Handled.refl (balanced : Balanced base users device roots ledger caller.machine) :
    Handled base users device roots caller caller.process.userHeapPosition caller :=
  ⟨⟨ledger, balanced, LowerOnly.of_phys rfl rfl rfl rfl rfl rfl⟩, rfl⟩

theorem ends_mapLoop {body : Nat → User PUnit} {count : Nat}
    (ready : Ready base users device roots ledger caller.machine)
    (user : caller.process.pagemap ∈ users)
    (fits : caller.process.userHeapPosition + count * pageSize ≤ 2 ^ 47)
    (step : ∀ index ledger now, index < count → Ready base users device roots ledger now.machine →
      now.process.pagemap ∈ users → now.process.userHeapPosition < 2 ^ 47 →
      Ends (body index)
        (fun _ after => ∃ ledger' machine, after = now.advance machine ∧
          Performed base users device roots now.machine ledger' machine)
        (fun stop after => Stopped base users device roots now.machine stop after.machine) now) :
    Ends (forCount body count 0)
      (fun _ after => Handled base users device roots caller
        (caller.process.userHeapPosition + count * pageSize) after)
      (fun stop after => Stopped base users device roots caller.machine stop after.machine) caller := by
  have start : Handled base users device roots caller
      (caller.process.userHeapPosition + 0 * pageSize) caller := by
    rw [Nat.zero_mul, Nat.add_zero]
    exact Handled.refl ready.balanced
  have turn : ∀ index now, 0 ≤ index → index < 0 + count →
      Handled base users device roots caller (caller.process.userHeapPosition + index * pageSize)
        now →
      Ends (body index)
        (fun _ after => Handled base users device roots caller
          (caller.process.userHeapPosition + (index + 1) * pageSize) after)
        (fun stop after => Stopped base users device roots caller.machine stop after.machine) now := by
    intro index now _ inside handled
    obtain ⟨⟨middle, performed⟩, same⟩ := handled
    have low : caller.process.userHeapPosition + index * pageSize + pageSize ≤ 2 ^ 47 := by
      unfold pageSize at *
      omega
    have position : now.process.userHeapPosition =
        caller.process.userHeapPosition + index * pageSize := by rw [same]
    have moved : add64 now.process.userHeapPosition pageSize =
        caller.process.userHeapPosition + (index + 1) * pageSize := by
      rw [position, add64, Nat.mod_eq_of_lt (by omega), Nat.add_assoc, Nat.succ_mul]
    apply ends_mono (step index middle now (by omega) (performed.ready ready.unlocked)
      (by rw [same]; exact user) (by rw [position]; unfold pageSize at *; omega)) _
      fun _ _ stopped => stopped.after_kept performed.lower.kernel_kept
    rintro _ after ⟨ledger', machine, rfl, more⟩
    refine ⟨⟨ledger', performed.trans more⟩, ?_⟩
    rw [Caller.advance, moved, same]
  have loop := ends_forCount _ count 0 turn start
  rwa [Nat.zero_add] at loop

end Mapping

/-! ## Unmapping -/

section Unmapping

variable {base : Finset Nat} {users device roots : Set Nat} {ledger : Ledger}
  {machine : Machine} {caller : Caller} {root virt : Nat}

theorem ends_vmmUnmapPage_latched {before : Machine} (latched : machine.locked .vmm = true)
    (aligned : virt % pageSize = 0) (present : spacesOf machine.phys root (pageOf virt) ≠ none) :
    Ends (vmmUnmapPage root virt) (fun _ _ => False)
      (fun stop after => Stopped base users device roots before stop after) machine := by
  have digit := (page_of_digits virt).1
  rw [spacesOf, leafWord, table_at_pt] at present
  rw [vmmUnmapPage, ends_bind, ends_require, if_pos aligned, ends_bind, ends_next_level_read]
  cases pdptChild : child machine.phys root (pml4Index virt) with
  | none =>
    rw [pdptChild] at present
    exact absurd decode_zero present
  | some pdpt =>
    dsimp only
    rw [ends_bind, ends_readEntry, ends_bind, ends_next_level_read]
    cases pdChild : child machine.phys pdpt (pdptIndex virt) with
    | none =>
      rw [pdptChild, Option.bind_some, pdChild] at present
      exact absurd decode_zero present
    | some pd =>
      dsimp only
      rw [ends_bind, ends_readEntry, ends_bind, ends_next_level_read]
      cases ptChild : child machine.phys pd (pdIndex virt) with
      | none =>
        rw [pdptChild, Option.bind_some, pdChild, Option.bind_some, ptChild] at present
        exact absurd decode_zero present
      | some pt =>
        have entry : entryAt machine.phys pt (ptIndex virt) &&& ptePresent ≠ 0 := by
          intro absent
          rw [pdptChild, Option.bind_some, pdChild, Option.bind_some, ptChild, tableWord,
            ← digit, decode, if_neg (not_not.mpr absent)] at present
          exact present rfl
        dsimp only
        rw [ends_bind, ends_readEntry, ends_bind, ends_readEntry, if_neg entry, ends_bind,
          ends_spinLock, if_pos latched]
        exact spins_stopped

/-- The frame behind the page is one that was taken for it. It is returned, and the page goes. -/
theorem ends_unmapHeapPage_owned (ready : Ready base users device roots ledger caller.machine)
    (user : caller.process.pagemap ∈ users) {addr index : Nat}
    (lower : ¬UpperHalf (unmapPage addr index))
    (own : ∀ frame, ledger.spaces caller.process.pagemap (unmapPage addr index) = some frame →
      frame ∉ device) :
    Ends (unmapHeapPage (pageFloor addr) index)
      (fun _ after => after.process = caller.process ∧ ∃ frame,
        Performed base users device roots caller.machine
          ((ledger.release frame).write caller.process.pagemap (unmapPage addr index) none)
          after.machine)
      (fun stop after => Stopped base users device roots caller.machine stop after.machine) caller := by
  have holdings := ready.balanced.holdings
  have aligned := unmap_virt_aligned addr index
  have view := holdings.view _ (holdings.known user) _ lower
  cases leaf : ledger.spaces caller.process.pagemap (unmapPage addr index) with
  | none =>
    rw [leaf] at view
    have found : translate caller.machine.phys caller.process.pagemap (unmapVirt addr index) = 0 := by
      rw [translate_eq, Space.address, ← unmapPage, view]
    exact ends_unmapHeapPage found (fun _ _ => ready.refused) fun some => absurd rfl some
  | some frame =>
    have backs : Backs users ledger.spaces frame caller.process.pagemap (unmapPage addr index) :=
      ⟨user, lower, leaf⟩
    have held : frame ∈ ledger.held :=
      (ready.balanced.owned.frames _ _ _ backs).resolve_right (own frame leaf)
    rw [leaf] at view
    have found : translate caller.machine.phys caller.process.pagemap (unmapVirt addr index) =
        frame := by
      rw [translate_eq, Space.address, ← unmapPage, view, aligned]
      rfl
    apply ends_unmapHeapPage found
    · exact fun zero => absurd zero (holdings.tables.heldFrames frame held).nonzero
    · intro _
      apply ends_mono (ends_pmmFree_held holdings ready.unlocked held) _
        fun _ _ => False.elim
      rintro _ middle ⟨released, returned⟩
      cases latched : caller.machine.locked .vmm with
      | true =>
        have still : middle.locked .vmm = true := (congrFun returned.locked _).trans latched
        have present : spacesOf middle.phys caller.process.pagemap (pageOf (unmapVirt addr index)) ≠
            none := by
          rw [← unmapPage, released.view _ (holdings.known user) _ lower, leaf]
          exact Option.some_ne_none frame
        exact ends_mono (ends_vmmUnmapPage_latched still aligned present)
          (fun _ _ => False.elim) fun _ _ => id
      | false =>
        have unlatched : Unlatched middle :=
          Unlatched.of_same ⟨ready.unlocked, latched⟩ returned.locked
        apply ends_mono (ends_vmmUnmapPage_lower released unlatched user lower aligned) _
          fun _ _ => False.elim
        rintro _ after ⟨unmapped, more, -⟩
        exact ⟨rfl, frame, ⟨unmapped, ready.balanced.owned.revoke backs held,
          ready.balanced.outside⟩, returned.trans more⟩

theorem ends_unmapLoop_owned (ready : Ready base users device roots ledger caller.machine)
    (user : caller.process.pagemap ∈ users) {addr count : Nat}
    (lower : ∀ index, index < count → ¬UpperHalf (unmapPage addr index))
    (own : ∀ index, index < count → ∀ frame,
      ledger.spaces caller.process.pagemap (unmapPage addr index) = some frame → frame ∉ device) :
    Ends (forCount (unmapHeapPage (pageFloor addr)) count 0)
      (fun _ after => Handled base users device roots caller caller.process.userHeapPosition after)
      (fun stop after => Stopped base users device roots caller.machine stop after.machine) caller := by
  -- pages only go away, so what is behind a page was there from the start
  let Unmapping (_ : Nat) (now : Caller) : Prop := now.process = caller.process ∧ ∃ ledger',
    Performed base users device roots caller.machine ledger' now.machine ∧
      ∀ page frame, ledger'.spaces caller.process.pagemap page = some frame →
        ledger.spaces caller.process.pagemap page = some frame
  have start : Unmapping 0 caller :=
    ⟨rfl, ledger, ⟨ready.balanced, LowerOnly.of_phys rfl rfl rfl rfl rfl rfl⟩, fun _ _ => id⟩
  have turn : ∀ index now, 0 ≤ index → index < 0 + count → Unmapping index now →
      Ends (unmapHeapPage (pageFloor addr) index) (fun _ after => Unmapping (index + 1) after)
        (fun stop after => Stopped base users device roots caller.machine stop after.machine) now := by
    rintro index now - inside ⟨same, ledger', performed, old⟩
    rw [Nat.zero_add] at inside
    have user' : now.process.pagemap ∈ users := by rwa [same]
    apply ends_mono (ends_unmapHeapPage_owned (performed.ready ready.unlocked) user'
      (lower index inside) fun frame leaf => own index inside frame (old _ _ (by rwa [same] at leaf)))
      _ fun _ _ stopped => stopped.after_kept performed.lower.kernel_kept
    rintro _ after ⟨kept, frame, more⟩
    refine ⟨kept.trans same, _, performed.trans more, ?_⟩
    intro page candidate leaf
    change ledger'.spaces.write now.process.pagemap _ none caller.process.pagemap page = _ at leaf
    rw [Spaces.write_apply] at leaf
    split at leaf
    · cases leaf
    · exact old page candidate leaf
  apply ends_mono (ends_forCount Unmapping count 0 turn start) _ fun _ _ => id
  rintro _ after ⟨same, ledger', performed, -⟩
  exact ⟨⟨ledger', performed⟩, same⟩

end Unmapping

/-! ## Events -/

/-- The event stays in the lower half, maps only frames of a device, and unmaps none of them. -/
def Careful (files : Files) (device : Set Nat) (caller : Caller) : UserEvent → Prop
  | .mmap rsi r8 =>
      caller.process.userHeapPosition + mmapPages rsi * pageSize ≤ 2 ^ 47 ∧
        (toInt r8 ≠ -1 → mmapData files caller.machine rsi r8 ≠ 0 → ∀ index, index < mmapPages rsi →
          pageFloor (add64 (mmapData files caller.machine rsi r8) (index * pageSize)) ∈ device)
  | .munmap addr size => ∀ index, index < pageCeil size / pageSize →
      ¬UpperHalf (unmapPage addr index) ∧ ∀ frame, frame ∈ device →
        spacesOf caller.machine.phys caller.process.pagemap (unmapPage addr index) ≠ some frame
  | .fault faultAddr _ => InWindow caller.process faultAddr → faultAddr < 2 ^ 47

def positionAfter (process : UserProcess) : UserEvent → Nat
  | .mmap rsi _ => process.userHeapPosition + mmapPages rsi * pageSize
  | .munmap _ _ => process.userHeapPosition
  | .fault faultAddr _ => faultPosition process faultAddr

section Events

variable {base : Finset Nat} {users device roots : Set Nat} {ledger : Ledger}
  {machine after : Machine} {caller : Caller} {files : Files}

theorem Ready.of_same (ready : Ready base users device roots ledger machine)
    (pmm : after.pmm = machine.pmm) (phys : after.phys = machine.phys)
    (locked : after.locked = machine.locked) : Ready base users device roots ledger after :=
  ⟨ready.balanced.of_same pmm phys, (congrFun locked _).trans ready.unlocked⟩

theorem Ready.pagemap_ne (ready : Ready base users device roots ledger machine) {root : Nat}
    (user : root ∈ users) : root ≠ 0 :=
  (ready.balanced.holdings.tables.frames root
    (isTable_of_root (ready.balanced.holdings.known user))).nonzero

theorem ends_fault_owned (ready : Ready base users device roots ledger caller.machine)
    (user : caller.process.pagemap ∈ users) {faultAddr : Nat} (cs : Nat)
    (low : InWindow caller.process faultAddr → faultAddr < 2 ^ 47) :
    Ends (UserEvent.perform files (.fault faultAddr cs))
      (fun _ after => Handled base users device roots caller
        (faultPosition caller.process faultAddr) after)
      (fun stop after => Stopped base users device roots caller.machine stop after.machine) caller := by
  have mapped := ready.pagemap_ne user
  have still : Ready base users device roots ledger (quiet caller.machine) :=
    ready.of_same rfl rfl rfl
  have unchanged : LowerOnly roots caller.machine (quiet caller.machine) :=
    LowerOnly.of_phys rfl rfl rfl rfl rfl rfl
  by_cases inside : InWindow caller.process faultAddr
  · apply ends_vmmPagefault_inside mapped inside
    have below := Nat.lt_of_le_of_lt (page_floor_le faultAddr) (low inside)
    apply ends_mono (@ends_mapFaultPage_owned _ _ _ _ _
      { caller with machine := quiet caller.machine } still user _ below) _
      fun _ _ stopped => stopped.after_kept unchanged.kernel_kept
    rintro _ after ⟨ledger', performed⟩
    have resumed : LowerOnly roots after.machine (repaired caller faultAddr after.machine).machine :=
      LowerOnly.of_phys rfl rfl rfl rfl rfl rfl
    exact ⟨⟨ledger', performed.balanced.of_same rfl rfl,
      (unchanged.trans performed.lower).trans resumed⟩, rfl⟩
  · apply ends_fault_outside mapped inside
    · exact fun _ => still.refused.after_kept unchanged.kernel_kept
    · have resumed : LowerOnly roots (quiet caller.machine)
          (repaired caller faultAddr (quiet caller.machine)).machine :=
        LowerOnly.of_phys rfl rfl rfl rfl rfl rfl
      exact ⟨⟨ledger, still.balanced.of_same rfl rfl, unchanged.trans resumed⟩, rfl⟩

theorem ends_event_owned (frames : DeviceFrames device)
    (ready : Ready base users device roots ledger caller.machine)
    (user : caller.process.pagemap ∈ users) {event : UserEvent}
    (careful : Careful files device caller event) :
    Ends (event.perform files)
      (fun _ after => Handled base users device roots caller (positionAfter caller.process event)
        after)
      (fun stop after => Stopped base users device roots caller.machine stop after.machine) caller := by
  cases event with
  | mmap rsi r8 =>
    obtain ⟨fits, shown⟩ := careful
    by_cases anonymous : toInt r8 = -1
    · apply ends_anonymous anonymous
      exact ends_mapLoop ready user fits fun index _ _ _ ready user low =>
        ends_mapAnonymousPage_owned ready user low index
    · apply ends_device anonymous fun _ _ => ready.refused
      intro some
      exact ends_mapLoop ready user fits fun index _ _ inside ready user low =>
        ends_mapDevicePage_owned ready user low frames (shown anonymous some index inside)
  | munmap addr size =>
    apply ends_munmap (fun _ _ => ready.refused) fun _ _ => ?_
    have holdings := ready.balanced.holdings
    apply ends_unmapLoop_owned ready user fun index inside => (careful index inside).1
    intro index inside frame leaf member
    obtain ⟨lower, other⟩ := careful index inside
    exact other frame member ((holdings.view _ (holdings.known user) _ lower).trans leaf)
  | fault faultAddr cs => exact ends_fault_owned ready user cs careful

end Events

end RiriaKernel.EventOwnership
