import RiriaKernel.KernelState
import RiriaKernel.PreemptibleSections

/-!
# The kernel's latches under preemption

The kernel's functions as sequences of steps on `pmm_lock`, `vmm_lock`, `heap_lock`, the
AC97 lock and the interrupt flag. What a function decides from its data (how many tables a
mapping lacks, whether the heap grows, how many dead processes there are) is a parameter,
so a context may take any of its paths. Only `pmm_allocate` and `pmm_free` mask interrupts
around their section. The others can be left inside theirs, and the handler that the timer
runs then may wait for the latch for ever.
-/

namespace RiriaKernel.LatchPreemption

open PreemptibleSections KernelState

inductive Latch
  | pmm
  | vmm
  | heap
  | audio
  deriving DecidableEq, Repr

abbrev Steps := List (Action Latch)

/-! ## Step sequences -/

def pmmAllocate : Steps := .irqOff :: guarded .pmm [.work] ++ [.irqRes, .work]

def pmmFree : Steps := [.work, .irqOff] ++ guarded .pmm [.work] ++ [.irqRes]

/-- `tables` levels of the walk are allocated on the way. -/
def vmmMapPage (tables : Nat) : Steps :=
  guarded .vmm ((List.replicate tables pmmAllocate).flatten ++ [.work])

/-- A page that is not mapped, or a mapped one with the number of tables it leaves empty. -/
def vmmUnmapPage : Option Nat → Steps
  | none => [.work]
  | some tables => .work :: guarded .vmm (.work :: (List.replicate tables pmmFree).flatten)

def vmmMapCopy : Steps := guarded .vmm [.work]

def vmmMapZero : Steps := guarded .vmm [.work]

/-- One number for each new page: the tables its mapping allocates. -/
def heapExpandPages (pages : List Nat) : Steps :=
  .work :: (pages.map fun tables => pmmAllocate ++ vmmMapPage tables).flatten ++ [.work]

/-- One list of pages for each time the scan finds nothing. -/
def kmalloc (growths : List (List Nat)) : Steps :=
  .work :: guarded .heap (.work :: (growths.map fun pages => heapExpandPages pages ++ [.work]).flatten)

def kfree : Steps := .work :: guarded .heap [.work]

/-- The record of the pagemap is allocated inside the section. -/
def vmmNewPagemap (growths : List (List Nat)) : Steps :=
  guarded .vmm (pmmAllocate ++ [.work] ++ kmalloc growths ++ [.work])

def ac97WriteBuffer : Steps := .work :: guarded .audio [.work]

/-- For each dead process the pages of its stack and heap, then its stack, its record and
its node. -/
def processReap (dead : List (List (Option Nat))) : Steps :=
  .work :: (dead.map fun pages =>
    .work :: (pages.map vmmUnmapPage).flatten ++ kfree ++ kfree ++ kfree).flatten

def processSchedule (dead : List (List (Option Nat))) (switches : Bool) : Steps :=
  [.irqOff, .work] ++ processReap dead ++ (if switches then [.work, .switch] else [.work]) ++ [.irqRes]

/-- What kernel code outside a handler calls, and what a handler does for its caller. -/
inductive Call
  | pmmAllocate
  | pmmFree
  | vmmMapPage (tables : Nat)
  | vmmUnmapPage (tables : Option Nat)
  | vmmMapCopy
  | vmmMapZero
  | vmmNewPagemap (growths : List (List Nat))
  | kmalloc (growths : List (List Nat))
  | kfree
  | ac97WriteBuffer
  | processSchedule (dead : List (List (Option Nat))) (switches : Bool)
  | other

def Call.steps : Call → Steps
  | .pmmAllocate => LatchPreemption.pmmAllocate
  | .pmmFree => LatchPreemption.pmmFree
  | .vmmMapPage tables => LatchPreemption.vmmMapPage tables
  | .vmmUnmapPage tables => LatchPreemption.vmmUnmapPage tables
  | .vmmMapCopy => LatchPreemption.vmmMapCopy
  | .vmmMapZero => LatchPreemption.vmmMapZero
  | .vmmNewPagemap growths => LatchPreemption.vmmNewPagemap growths
  | .kmalloc growths => LatchPreemption.kmalloc growths
  | .kfree => LatchPreemption.kfree
  | .ac97WriteBuffer => LatchPreemption.ac97WriteBuffer
  | .processSchedule dead switches => LatchPreemption.processSchedule dead switches
  | .other => [.work]

/-- `syscall_handler`, and `vmm_pagefault` for a fault that it handles. -/
def handler (calls : List Call) : Steps := .irqOff :: (calls.map Call.steps).flatten ++ [.irqRes]

/-- `panic` of a user process, and `vmm_pagefault` for a fault that it does not handle: both
end in `process_exit`. -/
def exits (dead : List (List (Option Nat))) (switches : Bool) : Steps :=
  [.irqOff, .work, .irqRes] ++ processSchedule dead switches

/-- The booting context goes on; the others begin in `process_entry` or, with an `iretq`
that sets the flag, in `process_user_entry`. The timer runs `_pit_handler` and
`process_schedule`. The keyboard's handler takes no latch: it is a notice. -/
def kernelCode : Code Latch where
  starts steps := steps = [] ∨ steps = [.irqRes] ∨ steps = [.irqRes, .enable]
  calls steps := ∃ call : Call, steps = call.steps
  interrupts steps := ∃ dead switches, steps = .work :: processSchedule dead switches
  traps steps := (∃ calls, steps = handler calls) ∨ ∃ dead switches, steps = exits dead switches
  abandons steps := ∃ dead switches, steps = exits dead switches

def masking : Masking Interrupts where
  enabled := Interrupts.enabled
  off := intDisable
  resume := intResume
  load flag state := { state with enabled := flag }

/-! ## Every function returns the latches it takes -/

section Balance

variable (held : Latch → Bool)

theorem balanced_pmmAllocate : Balanced pmmAllocate held held := by
  have inside : Balanced (guarded .pmm [.work]) held held := balanced_guarded _ fun _ => rfl
  exact balanced_seq inside rfl

theorem balanced_pmmFree : Balanced pmmFree held held := by
  have inside : Balanced (guarded .pmm [.work]) held held := balanced_guarded _ fun _ => rfl
  exact balanced_seq inside rfl

theorem balanced_vmmMapPage (tables : Nat) : Balanced (vmmMapPage tables) held held := by
  apply balanced_guarded
  intro within
  refine balanced_seq (balanced_flatten ?_) rfl
  intro part member
  rw [List.eq_of_mem_replicate member]
  exact balanced_pmmAllocate within

theorem balanced_vmmUnmapPage (tables : Option Nat) : Balanced (vmmUnmapPage tables) held held := by
  cases tables with
  | none => rfl
  | some tables =>
    apply balanced_guarded
    intro within
    apply balanced_flatten
    intro part member
    rw [List.eq_of_mem_replicate member]
    exact balanced_pmmFree within

theorem balanced_heapExpandPages (pages : List Nat) : Balanced (heapExpandPages pages) held held := by
  refine balanced_seq ?_ rfl
  apply balanced_map
  intro tables
  exact balanced_seq (balanced_pmmAllocate held) (balanced_vmmMapPage held tables)

theorem balanced_kmalloc (growths : List (List Nat)) : Balanced (kmalloc growths) held held := by
  apply balanced_guarded
  intro within
  apply balanced_map
  intro pages
  exact balanced_seq (balanced_heapExpandPages within pages) rfl

theorem balanced_kfree : Balanced kfree held held := balanced_guarded _ fun _ => rfl

theorem balanced_vmmNewPagemap (growths : List (List Nat)) :
    Balanced (vmmNewPagemap growths) held held := by
  apply balanced_guarded
  intro within
  refine balanced_seq ?_ rfl
  apply balanced_seq _ (balanced_kmalloc within growths)
  exact balanced_seq (balanced_pmmAllocate within) rfl

theorem balanced_ac97WriteBuffer : Balanced ac97WriteBuffer held held :=
  balanced_guarded _ fun _ => rfl

theorem balanced_processReap (dead : List (List (Option Nat))) :
    Balanced (processReap dead) held held := by
  apply balanced_map
  intro pages
  apply balanced_seq _ (balanced_kfree held)
  apply balanced_seq _ (balanced_kfree held)
  apply balanced_seq _ (balanced_kfree held)
  exact balanced_map pages (balanced_vmmUnmapPage held)

end Balance

theorem balanced_processSchedule (dead : List (List (Option Nat))) (switches : Bool) :
    Balanced (processSchedule dead switches) (fun _ => false) fun _ => false := by
  refine balanced_seq (balanced_seq (balanced_processReap _ dead) ?_) rfl
  cases switches with
  | false => rfl
  | true => exact ⟨rfl, rfl⟩

theorem balanced_exits (dead : List (List (Option Nat))) (switches : Bool) :
    Balanced (exits dead switches) (fun _ => false) fun _ => false :=
  balanced_processSchedule dead switches

theorem balanced_call (call : Call) : Balanced call.steps (fun _ => false) fun _ => false := by
  cases call with
  | pmmAllocate => exact balanced_pmmAllocate _
  | pmmFree => exact balanced_pmmFree _
  | vmmMapPage tables => exact balanced_vmmMapPage _ tables
  | vmmUnmapPage tables => exact balanced_vmmUnmapPage _ tables
  | vmmMapCopy => exact balanced_guarded _ fun _ => rfl
  | vmmMapZero => exact balanced_guarded _ fun _ => rfl
  | vmmNewPagemap growths => exact balanced_vmmNewPagemap _ growths
  | kmalloc growths => exact balanced_kmalloc _ growths
  | kfree => exact balanced_kfree _
  | ac97WriteBuffer => exact balanced_ac97WriteBuffer _
  | processSchedule dead switches => exact balanced_processSchedule dead switches
  | other => rfl

theorem kernel_code_balanced : kernelCode.AllBalanced where
  starts := by
    intro steps coded
    rcases coded with none | kernel | user
    · rw [none]
      rfl
    · rw [kernel]
      rfl
    · rw [user]
      rfl
  calls := by
    intro steps coded
    obtain ⟨call, same⟩ := coded
    rw [same]
    exact balanced_call call
  interrupts := by
    intro steps coded
    obtain ⟨dead, switches, same⟩ := coded
    rw [same]
    exact balanced_processSchedule dead switches
  traps := by
    intro steps coded
    rcases coded with ⟨calls, served⟩ | ⟨dead, switches, exit⟩
    · rw [served]
      exact balanced_seq (balanced_map calls balanced_call) rfl
    · rw [exit]
      exact balanced_exits dead switches
  abandons := by
    intro steps coded
    obtain ⟨dead, switches, same⟩ := coded
    rw [same]
    exact balanced_exits dead switches

/-! ## Spinning with interrupts masked -/

/-- With interrupts masked only the running code runs until it has finished. When it comes
to a latch, no other code holds it: neither the code that it interrupted nor another
context. -/
def SpinsSafely {Context : Type} (processor : Processor Latch Context Interrupts) : Prop :=
  processor.mask.enabled = false → ∀ latch rest, processor.rest = .take latch :: rest →
    ∀ holder, processor.holder latch = some holder → holder = processor.running

/-- In every interleaving in which no timer interrupt arrives and no panic happens while the
running code holds a latch, code that runs with interrupts masked never waits for a latch
of code that waits for it. -/
theorem masked_code_spins_safely {Context : Type} [DecidableEq Context]
    {start processor : Processor Latch Context Interrupts} (starting : Starting kernelCode start)
    (steps : Relation.ReflTransGen (Step masking kernelCode Processor.Unlatched) start processor) :
    SpinsSafely processor := by
  intro _ latch rest _ holder taken
  exact (sound_of_steps kernel_code_balanced starting steps).own latch holder taken

/-- One context, running with interrupts enabled. -/
def booting : Processor Latch Unit Interrupts where
  current := ()
  stack _ := [⟨[], true⟩]
  mask := ⟨0, true, true⟩
  holder _ := none

theorem booting_starts : Starting kernelCode booting where
  free _ := rfl
  fresh _ := ⟨[], true, rfl, Or.inl rfl⟩

/-- The timer's handler, with one dead process that has no page mapped. -/
def timerSteps : Steps := .work :: processSchedule [[]] false

/-- The handler has come to the first `kfree` of `process_reap`. -/
def reaping (frames : List (Frame Latch)) (holder : Latch → Option (Unit × Nat)) :
    Processor Latch Unit Interrupts where
  current := ()
  stack _ := ⟨.take .heap :: timerSteps.drop 7, true⟩ :: frames
  mask := ⟨1, false, false⟩
  holder := holder

theorem timer_reaps {admits : Processor Latch Unit Interrupts → Prop} (frames : List (Frame Latch))
    (holder : Latch → Option (Unit × Nat))
    (admitted : admits ⟨(), fun _ => frames, ⟨0, true, true⟩, holder⟩) :
    Relation.ReflTransGen (Step masking kernelCode admits)
      ⟨(), fun _ => frames, ⟨0, true, true⟩, holder⟩ (reaping frames holder) := by
  have coded : kernelCode.interrupts timerSteps := ⟨[[]], false, rfl⟩
  have entered : Relation.ReflTransGen (Step masking kernelCode admits) _ _ :=
    .single (Step.interrupt admitted rfl coded)
  have handled := (((((entered.tail (Step.work rfl)).tail (Step.irqOff rfl)).tail
    (Step.work rfl)).tail (Step.work rfl)).tail (Step.work rfl)).tail (Step.work rfl)
  exact handled

/-- A key is pressed inside the section of `kfree`; the timer finds the context outside. -/
theorem masked_code_spins_safely_reaping : ∃ processor,
    Relation.ReflTransGen (Step masking kernelCode Processor.Unlatched) booting processor ∧
      (∃ rest, processor.rest = .take .heap :: rest) ∧ SpinsSafely processor := by
  have coded : kernelCode.calls kfree := ⟨.kfree, rfl⟩
  have called : Relation.ReflTransGen (Step masking kernelCode Processor.Unlatched) booting _ :=
    .single (Step.call rfl rfl coded)
  have latched := (called.tail (Step.work rfl)).tail (Step.take rfl rfl)
  have pressed := latched.tail (Step.notice rfl)
  have dropped := (pressed.tail (Step.work rfl)).tail (Step.drop rfl)
  have unlatched : ∀ latch, Function.update (Function.update (fun _ : Latch => none) .heap
      (some ((), 1))) .heap none latch ≠ some ((), 1) := fun latch => by cases latch <;> decide
  have steps := dropped.trans (timer_reaps [⟨[], true⟩] _ unlatched)
  exact ⟨_, steps, ⟨_, rfl⟩, masked_code_spins_safely booting_starts steps⟩

/-- The timer interrupts `kfree` inside its section, and the handler waits for its latch. -/
theorem timer_handler_spins : ∃ processor,
    Relation.ReflTransGen (Step masking kernelCode fun _ => True) booting processor ∧
      ¬SpinsSafely processor := by
  have coded : kernelCode.calls kfree := ⟨.kfree, rfl⟩
  have called : Relation.ReflTransGen (Step masking kernelCode fun _ => True) booting _ :=
    .single (Step.call rfl rfl coded)
  have latched := (called.tail (Step.work rfl)).tail (Step.take rfl rfl)
  have reaped := latched.trans (timer_reaps [⟨[.work, .drop .heap], true⟩]
    (Function.update (fun _ => none) .heap (some ((), 1))) trivial)
  refine ⟨_, reaped, ?_⟩
  intro safe
  have waits := safe rfl .heap _ rfl ((), 1) rfl
  simp [reaping, Processor.running, Processor.frames] at waits

end RiriaKernel.LatchPreemption
