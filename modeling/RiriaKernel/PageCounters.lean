import RiriaKernel.UserEvents

/-!
# The counters of the page allocator

`pmm_allocate` and `pmm_free` move `free_pages` with the bitmap, and nothing else that a process
can ask for touches either. So a relation on machines that these two keep is kept by every event,
by `process_spawn_elf` and by `process_reap`, no matter what the page tables and the kernel heap
hold and no matter whether the call returns.
-/

namespace RiriaKernel.PageCounters

open HaltingPrograms ConfinedPrograms KernelState PhysicalAllocator PageTables
open KernelHeap Pagemaps ElfLoader UserProcesses UserEvents LockDiscipline
open LockDiscipline.Watch (OfCaller of_caller_kernel of_caller_mapFaultPage of_caller_vmmPagefault)
open KernelHeapRuns (free_card_le)

/-- The relation only looks at the allocator's variables, and the return of a page keeps it. -/
structure Returning (related : Machine → Machine → Prop) : Prop where
  same : ∀ before after : Machine, after.pmm = before.pmm → related before after
  give : ∀ (machine : Machine) (page : Nat), page ≤ machine.pmm.highestPage →
    page ∉ freeSet machine.pmm → related machine (returnPage machine page)

/-- Taking a page keeps it too. -/
structure Trading (related : Machine → Machine → Prop) : Prop extends Returning related where
  take : ∀ (machine : Machine) (page : Nat), page ∈ freeSet machine.pmm →
    related machine (takePage machine page)

/-! ## Functions of the kernel -/

section Functions

variable {related : Machine → Machine → Prop} [IsPreorder Machine related]

theorem Returning.follows (returning : Returning related) {origin machine after : Machine}
    (here : related origin machine) (samePmm : after.pmm = machine.pmm) : related origin after :=
  trans_of related here (returning.same machine after samePmm)

/-- What is related to a fixed machine, whatever is latched. -/
def Returning.watch (returning : Returning related) (origin : Machine) : Watch where
  holds _ := related origin
  stops _ := related origin
  panics := fun here => here
  quiet := fun here _ samePmm => returning.follows here samePmm
  lock := by
    intro _ lock _ machine here
    rw [ends_spinLock]
    split
    · exact here
    · exact returning.follows here rfl
  unlock := typed_modify fun _ here => returning.follows here rfl
  free := by
    intro _ address _ machine here
    cases latched : machine.locked .pmm with
    | true =>
        rw [pmmFree]
        refine ends_require_bind here fun _ => ?_
        refine ends_require_bind here fun _ => ?_
        rw [ends_bind, ends_get]
        refine ends_require_bind here fun _ => ?_
        refine ends_require_bind here fun _ => ?_
        rw [ends_bind, ends_irqOff, ends_bind, ends_spinLock, if_pos latched]
        exact returning.follows here rfl
    | false =>
        apply ends_pmmFree latched
        · intro _ _ tracked taken
          refine trans_of related here (returning.give machine _ tracked fun free => ?_)
          rw [(mem_freeSet.mp free).2] at taken
          cases taken
        · exact fun _ => returning.follows here rfl

theorem Trading.drawing (trading : Trading related) (origin : Machine) :
    (trading.watch origin).Drawing where
  endless := fun here => here
  allocate := by
    intro _ _ machine here
    cases latched : machine.locked .pmm with
    | true =>
      rw [pmmAllocate, ends_bind, ends_irqOff, ends_bind, ends_spinLock, if_pos latched]
      exact trading.follows here rfl
    | false =>
      apply ends_pmmAllocate latched
      · exact fun page least => trans_of related here (trading.take machine page least.1)
      · exact fun _ => trading.follows here rfl

theorem Returning.confined_vmmUnmapPage (returning : Returning related) (pagemap virt : Nat) :
    Confined related (vmmUnmapPage pagemap virt) := fun machine =>
  (returning.watch machine).keeps_vmmUnmapPage unlatched_open machine (refl_of related machine)

end Functions

/-! ## Events -/

def OnMachine (related : Machine → Machine → Prop) (before after : Caller) : Prop :=
  related before.machine after.machine

section Events

variable {related : Machine → Machine → Prop} [IsPreorder Machine related] {origin : Machine}

variable {watch : Watch}

theorem of_caller_mapAtPosition (drawing : watch.Drawing) (phys flags : Nat) :
    OfCaller watch (mapAtPosition phys flags) := by
  apply typed_bind typed_get
  intro _
  apply typed_bind (of_caller_kernel (Watch.keeps_vmmMapPage drawing unlatched_open))
  intro _
  exact typed_modify fun _ here => here

theorem of_caller_syscallMmap (drawing : watch.Drawing) (files : Files) (rsi r8 : Nat) :
    OfCaller watch (syscallMmap files rsi r8) := by
  have anonymous : ∀ index, OfCaller watch (mapAnonymousPage index) := by
    intro index
    apply typed_bind (of_caller_kernel (drawing.allocate rfl))
    intro _
    apply typed_bind (of_caller_kernel Watch.keeps_require)
    intro _
    exact of_caller_mapAtPosition drawing _ _
  apply typed_bind typed_get
  intro _
  apply typed_ite
  · apply typed_bind typed_get
    intro _
    apply typed_bind (of_caller_kernel Watch.keeps_require)
    intro _
    apply typed_bind (typed_forCount (fun _ => of_caller_mapAtPosition drawing _ _) _ _)
    exact fun _ => typed_pure _
  · exact typed_bind (typed_forCount anonymous _ _) fun _ => typed_pure _

theorem of_caller_syscallUnmap (addr size : Nat) :
    OfCaller watch (syscallUnmap addr size) := by
  have unmapped : ∀ base index, OfCaller watch (unmapHeapPage base index) := by
    intro base index
    apply typed_bind typed_get
    intro _
    apply typed_bind (of_caller_kernel Watch.keeps_vmmVirtToPhys)
    intro _
    apply typed_bind (of_caller_kernel Watch.keeps_require)
    intro _
    apply typed_bind (of_caller_kernel (watch.free rfl))
    intro _
    exact typed_bind (of_caller_kernel (Watch.keeps_vmmUnmapPage unlatched_open)) fun _ =>
      typed_pure _
  apply typed_bind typed_get
  intro _
  apply typed_bind (of_caller_kernel Watch.keeps_require)
  intro _
  apply typed_bind (of_caller_kernel Watch.keeps_require)
  intro _
  exact typed_bind (typed_forCount (unmapped _) _ _) fun _ => typed_pure _

theorem Trading.confined_event (trading : Trading related) (files : Files) (event : UserEvent) :
    Confined (OnMachine related) (event.perform files) := by
  intro caller
  have drawing := trading.drawing caller.machine
  have here := refl_of related caller.machine
  cases event with
  | mmap rsi r8 =>
    exact typed_bind (of_caller_syscallMmap drawing files rsi r8) (fun _ => typed_pure _) caller here
  | munmap addr size =>
    have unmaps : OfCaller (trading.watch caller.machine) (syscallUnmap addr size) :=
      of_caller_syscallUnmap addr size
    exact typed_bind unmaps (fun _ => typed_pure _) caller here
  | fault faultAddr cs => exact of_caller_vmmPagefault drawing faultAddr cs caller here

end Events

/-! ## Spawning and release -/

section Lifetimes

variable {related : Machine → Machine → Prop} [IsPreorder Machine related]

theorem Trading.confined_heapInstall (trading : Trading related) : Confined related heapInstall := by
  intro machine
  have drawing := trading.drawing machine
  have here := refl_of related machine
  rw [heapInstall, ends_bind, ends_get]
  apply ends_require_bind here fun _ => ?_
  rw [ends_bind, ends_set]
  have grows : (trading.watch machine).Keeps unlatched (do
      let grown ← heapExpandPages kernelInitialPages
      require (grown ≠ 0) "heap: failed to allocate the initial kernel heap") :=
    typed_bind (Watch.keeps_heapExpandPages drawing unlatched_open) fun _ => Watch.keeps_require
  exact grows _ (trading.follows here rfl)

/-- `kmalloc` may find the latch of the page tables set here, which this watch does not see. -/
theorem Trading.confined_processSpawnElf (trading : Trading related)
    (current : Option UserProcess) (elfData : Nat) (image : Image) (len : Nat) :
    Confined related (processSpawnElf current elfData image len) := by
  intro machine
  have drawing := trading.drawing machine
  have created : (trading.watch machine).Keeps unlatched vmmNewPagemap := by
    apply typed_bind ((trading.watch machine).lock rfl)
    intro _
    apply typed_bind (drawing.allocate rfl)
    intro _
    apply Watch.check
    refine typed_bind (Watch.keeps_modify (fun _ => rfl) fun _ => rfl) fun _ => ?_
    refine typed_bind (Watch.keeps_modify (fun _ => rfl) fun _ => rfl) fun _ => ?_
    apply typed_bind (Watch.keeps_kmalloc drawing)
    intro _
    refine typed_bind (Watch.keeps_modify (fun _ => rfl) fun _ => rfl) fun _ => ?_
    exact typed_bind (trading.watch machine).unlock fun _ => typed_pure _
  exact typed_bind created (fun _ => Watch.keeps_spawnInto drawing) machine (refl_of related machine)

theorem Trading.confined_reapMemory (trading : Trading related) (process : UserProcess) :
    Confined related (reapMemory process) := fun machine =>
  Watch.keeps_reapMemory (trading.drawing machine) machine (refl_of related machine)

end Lifetimes

/-! ## Counting -/

/-- `free_pages` is the number of clear bits. -/
structure Counted (pmm : Pmm) : Prop where
  bounded : pmm.highestPage + 1 < 2 ^ 64
  freePages : pmm.freePages = (freeSet pmm).card

structure CountersKept (before after : Machine) : Prop where
  totalRamPages : after.pmm.totalRamPages = before.pmm.totalRamPages
  counted : Counted before.pmm → Counted after.pmm

instance : IsPreorder Machine CountersKept where
  refl _ := ⟨rfl, fun counted => counted⟩
  trans _ _ _ first second := ⟨second.totalRamPages.trans first.totalRamPages,
    fun counted => second.counted (first.counted counted)⟩

section Allocator

variable {machine : Machine} {page : Nat}

theorem counters_kept_take (member : page ∈ freeSet machine.pmm) :
    CountersKept machine (takePage machine page) := by
  refine ⟨rfl, fun counted => ⟨counted.bounded, ?_⟩⟩
  have some := Finset.card_pos.mpr ⟨page, member⟩
  have few := free_card_le machine.pmm
  have bounded := counted.bounded
  have erased := Finset.card_erase_of_mem member
  rw [freeSet_takePage, erased, ← counted.freePages]
  have freePages := counted.freePages
  change sub64 machine.pmm.freePages 1 = _
  unfold sub64
  omega

theorem counters_kept_return (tracked : page ≤ machine.pmm.highestPage)
    (taken : page ∉ freeSet machine.pmm) : CountersKept machine (returnPage machine page) := by
  refine ⟨rfl, fun counted => ⟨counted.bounded, ?_⟩⟩
  have few := free_card_le (returnPage machine page).pmm
  have bounded := counted.bounded
  have grown := Finset.card_insert_of_notMem taken
  rw [freeSet_returnPage tracked, grown] at few
  rw [freeSet_returnPage tracked, grown, ← counted.freePages]
  have freePages := counted.freePages
  change add64 machine.pmm.freePages 1 = _
  change (freeSet machine.pmm).card + 1 ≤ machine.pmm.highestPage + 1 at few
  unfold add64
  omega

end Allocator

theorem counters_kept_trading : Trading CountersKept where
  same := by
    intro before after same
    refine ⟨by rw [same], fun counted => ?_⟩
    rwa [same]
  give := fun _ _ tracked taken => counters_kept_return tracked taken
  take := fun _ _ member => counters_kept_take member

def OnlyReturned (before after : Machine) : Prop := freeSet before.pmm ⊆ freeSet after.pmm

instance : IsPreorder Machine OnlyReturned where
  refl _ := Finset.Subset.refl _
  trans _ _ _ first second := Finset.Subset.trans first second

theorem only_returned_returning : Returning OnlyReturned where
  same := by
    intro before after same
    rw [OnlyReturned, same]
  give := by
    intro machine page tracked _
    rw [OnlyReturned, freeSet_returnPage tracked]
    exact Finset.subset_insert _ _

end RiriaKernel.PageCounters
