import RiriaKernel.LockDiscipline
import RiriaKernel.Processes

/-!
# Page faults

`vmm_pagefault` decides by two windows of addresses whether a fault is one it can repair, and
does not look at what kind of process faulted. The fields of the heap window are zero for kernel
processes, so their window is the page at address zero, and it moves on with every fault it
repairs. A run is any sequence of faults of one process, with arbitrary activity of the rest of
the kernel in between.
-/

namespace RiriaKernel.PageFaults

open HaltingPrograms KernelState PhysicalAllocator KernelHeapTables
  ElfLoader UserProcesses LockDiscipline
open Processes (ProcessType)

/-! ## Processes as they are created -/

def HeapFields : ProcessType → UserProcess → Prop
  | .kernel, process => process.userHeapStart = 0 ∧ process.userHeapPosition = 0
  | .user, process => process.userHeapPosition = process.userHeapStart ∧
      process.userHeapStart % pageSize = 0 ∧ process.userHeapStart < 2 ^ 64

structure FreshProcess (type : ProcessType) (process : UserProcess) : Prop where
  pagemap : process.pagemap ≠ 0
  heap : HeapFields type process

section Creation

variable {machine after : Machine} {process : UserProcess}

theorem ends_processCreateUser_created {entry pagemap top heap : Nat} (aligned : heap % pageSize = 0)
    (word : heap < 2 ^ 64) :
    Ends (processCreateUser entry pagemap top heap) (fun process _ => FreshProcess .user process)
      (fun _ _ => True) machine := by
  rw [processCreateUser]
  apply ends_assert_bind (fun _ => trivial) fun mapped => ?_
  rw [newProcess, ends_bind]
  apply ends_of_forall (fun _ first => ?_) fun _ _ => trivial
  apply ends_assert_bind (fun _ => trivial) fun _ => ?_
  rw [ends_bind]
  apply ends_of_forall (fun _ second => ?_) fun _ _ => trivial
  apply ends_assert_bind (fun _ => trivial) fun _ => ?_
  rw [ends_bind]
  apply ends_of_forall (fun _ third => ?_) fun _ _ => trivial
  rw [ends_pure]
  exact ⟨mapped, rfl, aligned, word⟩

theorem created_user {current : Option UserProcess} {elfData len : Nat} {image : Image}
    (run : processSpawnElf current elfData image len machine = .ok process after) :
    FreshProcess .user process := by
  have aligned : ∀ value, pageCeil value % pageSize = 0 := by
    intro value
    unfold pageCeil pageFloor pageSize
    omega
  have word : ∀ value, pageCeil value < 2 ^ 64 := by
    intro value
    unfold pageCeil pageFloor add64
    omega
  have spawns : Ends (processSpawnElf current elfData image len)
      (fun process _ => FreshProcess .user process) (fun _ _ => True) machine := by
    rw [processSpawnElf, ends_bind]
    apply ends_of_forall (fun pagemap first => ?_) fun _ _ => trivial
    rw [spawnInto, ends_bind]
    apply ends_of_forall (fun elf second => ?_) fun _ _ => trivial
    rw [ends_bind]
    apply ends_of_forall (fun page third => ?_) fun _ _ => trivial
    rw [ends_bind]
    apply ends_of_forall (fun _ fourth => ?_) fun _ _ => trivial
    rw [ends_bind]
    apply ends_of_forall (fun _ fifth => ?_) fun _ _ => trivial
    rw [ends_bind]
    apply ends_of_forall (fun _ sixth => ?_) fun _ _ => trivial
    exact ends_processCreateUser_created (aligned _) (word _)
  exact spawns.returns run

end Creation

/-! ## One fault -/

def InWindow (process : UserProcess) (faultAddr : Nat) : Prop :=
  inHeapWindow process faultAddr ∨ inStackWindow faultAddr

def faultPosition (process : UserProcess) (faultAddr : Nat) : Nat :=
  if inHeapWindow process faultAddr ∧ pageFloor faultAddr ≥ process.userHeapPosition then
    add64 (pageFloor faultAddr) pageSize
  else process.userHeapPosition

def quiet (machine : Machine) : Machine :=
  { machine with interrupts := intDisable machine.interrupts }

def repaired (caller : Caller) (faultAddr : Nat) (machine : Machine) : Caller where
  machine := { machine with interrupts := intResume machine.interrupts }
  process := { caller.process with userHeapPosition := faultPosition caller.process faultAddr }

section Fault

variable {caller : Caller} {faultAddr cs : Nat}

theorem ends_mapFaultPage_process (pageAddr : Nat) :
    Ends (mapFaultPage pageAddr) (fun _ after => after.process = caller.process) (fun _ _ => True)
      caller := by
  rw [mapFaultPage, ends_bind, ends_kernel]
  apply ends_of_forall (fun page first => ?_) fun _ _ => trivial
  rw [ends_bind, ends_get, ends_bind, ends_kernel]
  apply ends_of_forall (fun _ second => ?_) fun _ _ => trivial
  rw [ends_pure]

theorem ends_vmmPagefault_inside {returned : FaultOutcome → Caller → Prop}
    {stopped : Stop → Caller → Prop} (mapped : caller.process.pagemap ≠ 0)
    (inside : InWindow caller.process faultAddr)
    (page : Ends (mapFaultPage (pageFloor faultAddr))
      (fun _ after => returned .handled (repaired caller faultAddr after.machine)) stopped
      { caller with machine := quiet caller.machine }) :
    Ends (vmmPagefault faultAddr cs) returned stopped caller := by
  have both := ends_and (@ends_mapFaultPage_process
    { caller with machine := quiet caller.machine } (pageFloor faultAddr)) page
  rw [vmmPagefault, ends_bind, ends_kernel, ends_irqOff, ends_bind, ends_get, ends_bind,
    ends_kernel, ends_assertThat, if_pos mapped]
  by_cases heap : inHeapWindow caller.process faultAddr
  · rw [if_pos heap, ends_bind]
    apply ends_mono both _ fun _ _ stops => stops.2
    rintro _ after ⟨same, done⟩
    dsimp only
    split
    · next reached =>
        rw [repaired, faultPosition, if_pos ⟨heap, reached⟩] at done
        rw [ends_bind, ends_modify, ends_bind, ends_kernel, ends_irqResume, ends_pure, same]
        exact done
    · next below =>
        rw [repaired, faultPosition, if_neg fun both => below both.2] at done
        rw [ends_bind, ends_kernel, ends_irqResume, ends_pure, same]
        exact done
  · rw [if_neg heap, if_pos (inside.resolve_left heap), ends_bind]
    apply ends_mono both _ fun _ _ stops => stops.2
    rintro _ after ⟨same, done⟩
    rw [repaired, faultPosition, if_neg fun both => heap both.1] at done
    rw [ends_bind, ends_kernel, ends_irqResume, ends_pure, same]
    exact done

/-- How the handler ends. It repairs a fault inside the windows, or stops on the way; outside of
them it ends the process, or panics for a fault of the kernel. -/
theorem ends_vmmPagefault :
    Ends (vmmPagefault faultAddr cs)
      (fun outcome after => (outcome = .handled ↔ InWindow caller.process faultAddr) ∧
        ∃ position, after.process = { caller.process with userHeapPosition := position } ∧
          position = faultPosition caller.process faultAddr)
      (fun stop _ => InWindow caller.process faultAddr ∨ ∃ message, stop = .panic message)
      caller := by
  rw [vmmPagefault, ends_bind, ends_kernel, ends_irqOff, ends_bind, ends_get, ends_bind, ends_kernel,
    ends_assertThat]
  split
  · by_cases heap : inHeapWindow caller.process faultAddr
    · rw [if_pos heap, ends_bind]
      apply ends_mono (ends_mapFaultPage_process _) _ fun _ _ _ => Or.inl (Or.inl heap)
      intro _ mapped same
      dsimp only
      split
      · next reached =>
          rw [ends_bind, ends_modify, ends_bind, ends_kernel, ends_irqResume, ends_pure]
          refine ⟨iff_of_true rfl (Or.inl heap), _, by rw [same], ?_⟩
          rw [faultPosition, if_pos ⟨heap, reached⟩]
      · next below =>
          rw [ends_bind, ends_kernel, ends_irqResume, ends_pure]
          refine ⟨iff_of_true rfl (Or.inl heap), caller.process.userHeapPosition, same, ?_⟩
          rw [faultPosition, if_neg fun both => below both.2]
    · rw [if_neg heap]
      have kept : caller.process.userHeapPosition = faultPosition caller.process faultAddr := by
        rw [faultPosition, if_neg fun both => heap both.1]
      split
      · next stack =>
          rw [ends_bind]
          apply ends_mono (ends_mapFaultPage_process _) _ fun _ _ _ => Or.inl (Or.inr stack)
          intro _ mapped same
          rw [ends_bind, ends_kernel, ends_irqResume, ends_pure]
          exact ⟨iff_of_true rfl (Or.inr stack), _, same, kept⟩
      · next outside =>
          have neither : ¬InWindow caller.process faultAddr := not_or.mpr ⟨heap, outside⟩
          split
          · rw [ends_bind, ends_kernel, ends_irqResume, ends_pure]
            exact ⟨iff_of_false (by decide) neither, _, rfl, kept⟩
          · rw [ends_kernel, ends_panicWith]
            exact Or.inr ⟨_, rfl⟩
  · exact Or.inr ⟨_, rfl⟩

end Fault

/-! ## Sequences of faults -/

/-- Any number of repaired faults of a process, with any activity of other code in between. -/
inductive FaultRun (first : Caller) : Caller → Prop where
  | start : FaultRun first first
  | fault {before after : Caller} {faultAddr cs : Nat} (prior : FaultRun first before)
      (run : vmmPagefault faultAddr cs before = .ok .handled after) : FaultRun first after
  | elsewhere {before : Caller} (machine : Machine) (prior : FaultRun first before) :
      FaultRun first { before with machine }

/-- A fault that ends as it should: only a user process is resumed, and only for its heap window
or the stack window, never for the first page, and the heap moves on by a page at most. -/
structure Lawful (type : ProcessType) (before : Caller) (faultAddr : Nat) (outcome : FaultOutcome)
    (after : Caller) : Prop where
  resumed : outcome = .handled → type = .user ∧
    (before.process.userHeapStart ≤ faultAddr ∧
        faultAddr < before.process.userHeapPosition + pageSize ∨
      userStackBase ≤ faultAddr ∧ faultAddr < userStackTop)
  null : faultAddr < pageSize → outcome = .exits
  aligned : type = .user → after.process.userHeapPosition % pageSize = 0
  advances : type = .user →
    before.process.userHeapPosition ≤ after.process.userHeapPosition ∧
      after.process.userHeapPosition ≤ before.process.userHeapPosition + pageSize

/-- A fault that does not come back stops the machine or, for the first page, panics. -/
def LawfulFault (type : ProcessType) (faultAddr cs : Nat) (before : Caller) : Prop :=
  Ends (vmmPagefault faultAddr cs) (Lawful type before faultAddr)
    (fun stop _ => faultAddr < pageSize → ∃ message, stop = .panic message) before

structure FaultSound (first caller : Caller) : Prop where
  start : caller.process.userHeapStart = first.process.userHeapStart
  aligned : caller.process.userHeapPosition % pageSize = 0
  above : first.process.userHeapStart ≤ caller.process.userHeapPosition
  word : caller.process.userHeapPosition < 2 ^ 64

section Runs

variable {type : ProcessType} {first caller : Caller} {faultAddr cs : Nat}

/-- With a page-aligned position the window ends one page behind it, and does not wrap. -/
theorem heap_window_bounds (sound : FaultSound first caller)
    (inside : inHeapWindow caller.process faultAddr) :
    faultAddr < caller.process.userHeapPosition + pageSize ∧
      caller.process.userHeapPosition + pageSize < 2 ^ 64 := by
  obtain ⟨-, below⟩ := inside
  have aligned := sound.aligned
  have word := sound.word
  unfold add64 at below
  unfold pageSize at *
  omega

theorem fault_position_bounds (sound : FaultSound first caller) :
    faultPosition caller.process faultAddr % pageSize = 0 ∧
      caller.process.userHeapPosition ≤ faultPosition caller.process faultAddr ∧
      faultPosition caller.process faultAddr ≤ caller.process.userHeapPosition + pageSize ∧
      faultPosition caller.process faultAddr < 2 ^ 64 := by
  have aligned := sound.aligned
  have word := sound.word
  unfold faultPosition
  split
  · next moved =>
      obtain ⟨below, fits⟩ := heap_window_bounds sound moved.1
      have reached := moved.2
      have same : pageFloor faultAddr = caller.process.userHeapPosition := by
        unfold pageFloor pageSize at *
        omega
      rw [same, add64, Nat.mod_eq_of_lt fits]
      unfold pageSize at *
      omega
  · exact ⟨aligned, Nat.le_refl _, Nat.le_add_right _ _, word⟩

theorem FreshProcess.sound (fresh : FreshProcess type first.process) : FaultSound first first := by
  cases type with
  | kernel =>
    obtain ⟨start, position⟩ := fresh.heap
    refine ⟨rfl, ?_, ?_, ?_⟩ <;> rw [position]
    · rfl
    · rw [start]
    · decide
  | user =>
    obtain ⟨position, aligned, word⟩ := fresh.heap
    refine ⟨rfl, ?_, ?_, ?_⟩ <;> rw [position]
    · exact aligned
    · exact word

theorem FaultSound.repaired {after : Caller} (sound : FaultSound first caller)
    (run : vmmPagefault faultAddr cs caller = .ok .handled after) : FaultSound first after := by
  obtain ⟨-, position, same, moved⟩ := ends_vmmPagefault.returns run
  obtain ⟨aligned, above, -, word⟩ := @fault_position_bounds _ _ faultAddr sound
  have start := sound.start
  have behind := sound.above
  rw [moved] at same
  refine ⟨?_, ?_, ?_, ?_⟩ <;> rw [same]
  · exact start
  · exact aligned
  · exact behind.trans above
  · exact word

theorem fault_run_sound (fresh : FreshProcess type first.process) (run : FaultRun first caller) :
    FaultSound first caller := by
  induction run with
  | start => exact fresh.sound
  | fault prior run induction => exact induction.repaired run
  | elsewhere machine prior induction =>
    exact ⟨induction.start, induction.aligned, induction.above, induction.word⟩

end Runs

/-! ## A fault in the first page -/

section First

/-- A process whose heap starts at address zero is resumed after a fault there. -/
theorem null_fault_repaired {process : UserProcess} (mapped : process.pagemap ≠ 0)
    (start : process.userHeapStart = 0) (position : process.userHeapPosition = 0) (cs : Nat) :
    ∃ after, vmmPagefault 0 cs ⟨smallMachine, process⟩ = .ok .handled after ∧
      after.process.userHeapPosition = pageSize := by
  have inside : inHeapWindow process 0 := by
    unfold inHeapWindow
    rw [start, position]
    decide
  have returns : Ends (vmmPagefault 0 cs) (fun _ _ => True) (fun _ _ => False)
      ⟨smallMachine, process⟩ := by
    have many := small_machine_free
    have low : 0 ∉ freeSet smallMachine.pmm := by
      rw [mem_freeSet]
      decide
    let stage : Stage := ⟨fun _ => false, 4⟩
    have start : At stage { smallMachine with interrupts := intDisable smallMachine.interrupts } :=
      ⟨rfl, Nat.le_trans (by decide) many, low⟩
    have allocates : Ends pmmAllocate (fun _ after => At (stage.spend 1) after) (fun _ _ => False)
        { smallMachine with interrupts := intDisable smallMachine.interrupts } :=
      @latched_pmmAllocate (fun _ _ => False) stage rfl (Or.inl (by decide)) _ start
    rw [vmmPagefault, ends_bind, ends_kernel, ends_irqOff, ends_bind, ends_get, ends_bind,
      ends_kernel, ends_assertThat, if_pos mapped, if_pos inside, ends_bind, mapFaultPage, ends_bind,
      ends_kernel]
    apply ends_mono allocates _ fun _ _ => id
    intro page first here
    rw [ends_bind, ends_get, ends_bind, ends_kernel]
    apply ends_mono (@latched_vmmMapPage (fun _ _ => False) (stage.spend 1) _ _ _ _ rfl rfl
      (Or.inl (by decide)) (fun null => absurd null mapped) first here) _ fun _ _ => id
    intro _ second _
    rw [ends_pure]
    dsimp only
    split
    · rw [ends_bind, ends_modify, ends_bind, ends_kernel, ends_irqResume, ends_pure]
      trivial
    · rw [ends_bind, ends_kernel, ends_irqResume, ends_pure]
      trivial
  obtain ⟨outcome, after, returned, -⟩ := returns.exists_ok
  obtain ⟨handled, _, same, moved⟩ := ends_vmmPagefault.returns returned
  rw [handled.mpr (Or.inl inside)] at returned
  refine ⟨after, returned, ?_⟩
  rw [same, moved, faultPosition, position, if_pos ⟨inside, Nat.zero_le _⟩]
  rfl

end First

/-! ## Which processes only fault lawfully -/

theorem lawful_of_user {first caller : Caller} {faultAddr cs : Nat}
    (sound : FaultSound first caller) (high : pageSize ≤ first.process.userHeapStart) :
    LawfulFault .user faultAddr cs caller := by
  have start := sound.start
  have outside : faultAddr < pageSize → ¬InWindow caller.process faultAddr := by
    rintro low (heap | stack)
    · have lower := heap.1
      omega
    · have lower := stack.1
      unfold userStackBase pageSize at *
      omega
  apply ends_mono ends_vmmPagefault
  · rintro outcome after ⟨handled, position, same, moved⟩
    obtain ⟨aligned, above, near, -⟩ := @fault_position_bounds _ _ faultAddr sound
    have place : after.process.userHeapPosition = faultPosition caller.process faultAddr := by
      rw [same]
      exact moved
    refine ⟨?_, ?_, ?_, ?_⟩
    · intro resumed
      rcases handled.mp resumed with heap | stack
      · exact ⟨rfl, Or.inl ⟨heap.1, (heap_window_bounds sound heap).1⟩⟩
      · exact ⟨rfl, Or.inr stack⟩
    · intro low
      cases outcome with
      | handled => exact absurd (handled.mp rfl) (outside low)
      | exits => rfl
    · intro _
      rw [place]
      exact aligned
    · intro _
      rw [place]
      exact ⟨above, near⟩
  · rintro stop after (inside | panics) low
    · exact absurd inside (outside low)
    · exact panics

/-- All faults of a process end as they should exactly if it is a user process whose heap does not
start at address zero. -/
theorem page_faults_lawful_iff {type : ProcessType} {first : Caller}
    (fresh : FreshProcess type first.process) :
    (∀ caller, FaultRun first caller → ∀ faultAddr cs, LawfulFault type faultAddr cs caller) ↔
      type = .user ∧ first.process.userHeapStart ≠ 0 := by
  constructor
  · intro lawful
    -- a heap that starts at zero is at position zero too, and a null dereference is repaired
    have nonzero : first.process.userHeapStart ≠ 0 := by
      intro start
      have position : first.process.userHeapPosition = 0 := by
        cases type with
        | kernel => exact fresh.heap.2
        | user => exact fresh.heap.1.trans start
      obtain ⟨after, returned, -⟩ := null_fault_repaired fresh.pagemap start position 0
      have ends := (lawful ⟨smallMachine, first.process⟩ (.elsewhere _ .start) 0 0).returns returned
      exact absurd (ends.null (by decide)) (by decide)
    cases type with
    | kernel => exact absurd fresh.heap.1 nonzero
    | user => exact ⟨rfl, nonzero⟩
  · rintro ⟨rfl, nonzero⟩ caller run faultAddr cs
    apply lawful_of_user (fault_run_sound fresh run)
    have aligned := fresh.heap.2.1
    unfold pageSize at *
    omega

/-- The heap fields of a process as `process_spawn_elf` sets them. -/
def sampleProcess : UserProcess where
  process := 0
  stack := 0
  node := 0
  pagemap := 4096
  entry := 0x400000
  userStackTop := 0xAFFFFFE0
  userHeapStart := 0x401000
  userHeapPosition := 0x401000

theorem sample_process_lawful : LawfulFault .user 0 0x2B ⟨smallMachine, sampleProcess⟩ :=
  (@page_faults_lawful_iff .user ⟨smallMachine, sampleProcess⟩
    ⟨by decide, rfl, by decide, by decide⟩).mpr ⟨rfl, by decide⟩ _ .start 0 0x2B

def kernelProcess : UserProcess :=
  { sampleProcess with userStackTop := 0, userHeapStart := 0, userHeapPosition := 0 }

/-- A null dereference of a kernel process is repaired with a fresh page, and its window moves on
to the next page. -/
theorem kernel_null_fault_repaired :
    FreshProcess .kernel kernelProcess ∧
      ∃ after, vmmPagefault 0 0x28 ⟨smallMachine, kernelProcess⟩ = .ok .handled after ∧
        after.process.userHeapPosition = pageSize :=
  ⟨⟨by decide, rfl, rfl⟩, null_fault_repaired (by decide) rfl rfl 0x28⟩

end RiriaKernel.PageFaults
