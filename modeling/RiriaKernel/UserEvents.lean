import RiriaKernel.DeviceMappings
import RiriaKernel.PageFaults
import RiriaKernel.ProcessSpawning

/-!
# What a running process asks of the kernel

The system calls `mmap` and `munmap` and the page faults of a process, as one kind of event.
A process goes on after an event that is handled; a fault outside its windows ends it, and a
panic kills it.
-/

namespace RiriaKernel.UserEvents

open HaltingPrograms KernelState PhysicalAllocator PageTables PageTableForests
open PageTableOperations UserProcesses
open PageFaults

inductive UserEvent
  | mmap (rsi r8 : Nat)
  | munmap (addr size : Nat)
  | fault (faultAddr cs : Nat)
  deriving DecidableEq, Repr

def UserEvent.perform (files : Files) : UserEvent → User FaultOutcome
  | .mmap rsi r8 => do
      let _ ← syscallMmap files rsi r8
      return .handled
  | .munmap addr size => do
      let _ ← syscallUnmap addr size
      return .handled
  | .fault faultAddr cs => vmmPagefault faultAddr cs

/-- The address that a turn of the loop in `syscall_unmap` visits, and its page. -/
def unmapVirt (addr index : Nat) : Nat := add64 (pageFloor addr) (index * pageSize % 2 ^ 32)

def unmapPage (addr index : Nat) : Nat := pageOf (unmapVirt addr index)

/-- The pages that a `munmap` visits if nothing stops it. -/
def unmapPages (addr size : Nat) : Set Nat :=
  {page | ∃ index, index < pageCeil size / pageSize ∧ page = unmapPage addr index}

/-! ## Rules -/

section Rules

variable {returned : FaultOutcome → Caller → Prop} {stopped : Stop → Caller → Prop}
  {caller : Caller} {files : Files}

theorem ends_anonymous {rsi r8 : Nat} (anonymous : toInt r8 = -1)
    (loop : Ends (forCount mapAnonymousPage (mmapPages rsi) 0)
      (fun _ after => returned .handled after) stopped caller) :
    Ends (UserEvent.perform files (.mmap rsi r8)) returned stopped caller := by
  rw [UserEvent.perform, ends_bind, syscallMmap, ends_bind, ends_get,
    if_neg (not_not.mpr anonymous), ends_bind]
  apply ends_mono loop _ fun _ _ => id
  intro _ after done
  rw [ends_pure, ends_pure]
  exact done

/-- What `vfs_sys_mmap` finds for an `mmap` of a descriptor. -/
def mmapData (files : Files) (machine : Machine) (rsi r8 : Nat) : Nat :=
  (vfsSysMmap files machine.hhdm (toInt r8) rsi).1

theorem ends_device {rsi r8 : Nat} (device : toInt r8 ≠ -1)
    (refused : mmapData files caller.machine rsi r8 = 0 → ∀ message, stopped (.panic message) caller)
    (loop : mmapData files caller.machine rsi r8 ≠ 0 →
      Ends (forCount (mapDevicePage (mmapData files caller.machine rsi r8)) (mmapPages rsi) 0)
        (fun _ after => returned .handled after) stopped caller) :
    Ends (UserEvent.perform files (.mmap rsi r8)) returned stopped caller := by
  rw [UserEvent.perform, ends_bind, syscallMmap, ends_bind, ends_get, if_pos device, ends_bind,
    ends_get]
  dsimp only
  rw [ends_bind, ends_kernel, ends_assertThat]
  split
  · next some =>
      rw [ends_bind]
      apply ends_mono (loop some) _ fun _ _ => id
      intro _ after done
      rw [ends_pure, ends_pure]
      exact done
  · next none => exact refused (not_not.mp none) _

theorem ends_munmap {addr size : Nat}
    (refused : addr < caller.process.userHeapStart ∨
      caller.process.userHeapPosition < add64 addr size → ∀ message, stopped (.panic message) caller)
    (loop : caller.process.userHeapStart ≤ addr →
      add64 addr size ≤ caller.process.userHeapPosition →
      Ends (forCount (unmapHeapPage (pageFloor addr)) (pageCeil size / pageSize) 0)
        (fun _ after => returned .handled after) stopped caller) :
    Ends (UserEvent.perform files (.munmap addr size)) returned stopped caller := by
  rw [UserEvent.perform, ends_bind, syscallUnmap, ends_bind, ends_get, ends_bind, ends_kernel,
    ends_require]
  split
  · next above =>
      rw [ends_bind, ends_kernel, ends_require]
      split
      · next below =>
          rw [ends_bind]
          apply ends_mono (loop (Nat.le_of_not_lt above) (Nat.le_of_not_lt below)) _
            fun _ _ => id
          intro _ after done
          rw [ends_pure, ends_pure]
          exact done
      · next beyond => exact refused (Or.inr (not_not.mp beyond)) _
  · next below => exact refused (Or.inl (not_not.mp below)) _

end Rules

theorem unmap_virt_aligned (addr index : Nat) : unmapVirt addr index % pageSize = 0 := by
  have floor := page_floor_aligned addr
  unfold unmapVirt add64
  unfold pageSize at *
  omega

section Unmapping

variable {returned : PUnit → Caller → Prop} {stopped : Stop → Caller → Prop} {caller : Caller}

theorem ends_unmapHeapPage {addr index phys : Nat}
    (found : translate caller.machine.phys caller.process.pagemap (unmapVirt addr index) = phys)
    (absent : phys = 0 → ∀ message, stopped (.panic message) caller)
    (present : phys ≠ 0 → Ends (pmmFree phys)
      (fun _ middle => Ends (vmmUnmapPage caller.process.pagemap (unmapVirt addr index))
        (fun _ after => returned ⟨⟩ { caller with machine := after })
        (fun stop after => stopped stop { caller with machine := after }) middle)
      (fun stop after => stopped stop { caller with machine := after }) caller.machine) :
    Ends (unmapHeapPage (pageFloor addr) index) returned stopped caller := by
  rw [unmapHeapPage, ends_bind, ends_get, ends_bind, ends_kernel, ends_vmmVirtToPhys, ends_bind,
    ends_kernel, ends_assertThat]
  rw [unmapVirt] at found present
  rw [found]
  split
  · next some =>
      rw [ends_bind, ends_kernel]
      apply ends_mono (present some) _ fun _ _ => id
      intro _ middle unmaps
      rw [ends_bind, ends_kernel]
      apply ends_mono unmaps _ fun _ _ => id
      intro _ after done
      rwa [ends_pure]
  · next none => exact absent (not_not.mp none) _

end Unmapping

section Faults

variable {returned : FaultOutcome → Caller → Prop} {stopped : Stop → Caller → Prop}
  {caller : Caller} {files : Files}

theorem ends_fault_outside {faultAddr cs : Nat} (mapped : caller.process.pagemap ≠ 0)
    (outside : ¬InWindow caller.process faultAddr)
    (refused : ∀ message, stopped (.panic message) { caller with machine := quiet caller.machine })
    (exits : returned .exits (repaired caller faultAddr (quiet caller.machine))) :
    Ends (UserEvent.perform files (.fault faultAddr cs)) returned stopped caller := by
  obtain ⟨heap, stack⟩ := not_or.mp outside
  rw [repaired, faultPosition, if_neg fun both => heap both.1] at exits
  rw [UserEvent.perform, vmmPagefault, ends_bind, ends_kernel, ends_irqOff, ends_bind, ends_get,
    ends_bind, ends_kernel, ends_assertThat, if_pos mapped, if_neg heap, if_neg stack]
  split
  · rw [ends_bind, ends_kernel, ends_irqResume, ends_pure]
    exact exits
  · rw [ends_kernel, ends_panicWith]
    exact refused _

end Faults

end RiriaKernel.UserEvents
