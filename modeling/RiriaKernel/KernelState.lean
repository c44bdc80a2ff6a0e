import RiriaKernel.ByteMemory
import RiriaKernel.HaltingPrograms

/-!
# The kernel's memory state

One record holds what `pmm.c`, `vmm.c`, `heap.c` and `irq.c` keep in static storage,
together with the physical memory. Physical memory is reached through the
higher-half direct map, so a pointer of the form `phys + VMM_HIGHER_HALF` is
represented by its physical address. Console output is not modelled.
-/

namespace RiriaKernel.KernelState

open ByteMemory HaltingPrograms

def pageSize : Nat := 4096

def add64 (left right : Nat) : Nat := (left + right) % 2 ^ 64

def sub64 (left right : Nat) : Nat := (left + (2 ^ 64 - right % 2 ^ 64)) % 2 ^ 64

/-- `value & ~(PAGE_SIZE - 1)`. -/
def pageFloor (value : Nat) : Nat := value - value % pageSize

/-- `ALIGN_UP(value, PAGE_SIZE)`. The sum inside it wraps. -/
def pageCeil (value : Nat) : Nat := pageFloor (add64 value (pageSize - 1))

inductive Lock
  | pmm
  | vmm
  | heap
  deriving DecidableEq, Repr

/-- Why a call never returns: `panic`, a spin on a latch that is already taken, or a loop
that outlives the bound written next to it. -/
inductive Stop
  | panic (message : String)
  | spin (lock : Lock)
  | unbounded
  deriving DecidableEq, Repr

/-- `sync_depth`, `sync_was_enabled` and the interrupt flag. -/
structure Interrupts where
  syncDepth : Nat
  syncWasEnabled : Bool
  enabled : Bool
  deriving DecidableEq, Repr

def intDisable (state : Interrupts) : Interrupts where
  syncDepth := state.syncDepth + 1
  syncWasEnabled := if state.syncDepth = 0 then state.enabled else state.syncWasEnabled
  enabled := false

def intResume (state : Interrupts) : Interrupts :=
  if state.syncDepth = 0 then state
  else
    { state with
      syncDepth := state.syncDepth - 1
      enabled := if state.syncDepth - 1 = 0 ∧ state.syncWasEnabled then true else state.enabled }

def intEnable (_ : Interrupts) : Interrupts where
  syncDepth := 0
  syncWasEnabled := true
  enabled := true

structure Pmm where
  bitmap : Nat → UInt8
  highestPage : Nat
  usedPages : Nat
  freePages : Nat
  totalRamPages : Nat

structure Heap where
  start : Nat
  size : Nat
  head : Nat
  memory : Memory

structure Machine where
  pmm : Pmm
  phys : Memory
  hhdm : Nat
  kernelPagemap : Nat
  heap : Heap
  interrupts : Interrupts
  locked : Lock → Bool

abbrev Kernel := EStateM Stop Machine

def panicWith {Value : Type} (message : String) : Kernel Value := throw (.panic message)

/-- `if (!condition) panic(message)`. -/
def require (condition : Prop) [Decidable condition] (message : String) : Kernel PUnit :=
  if condition then pure ⟨⟩ else panicWith message

def assertThat (condition : Prop) [Decidable condition] : Kernel PUnit :=
  require condition "Assertion failure"

/-- `__sync_lock_test_and_set` spins while the latch is set, and on one processor nobody
else can clear it. -/
def spinLock (lock : Lock) : Kernel PUnit := do
  let machine ← get
  if machine.locked lock then throw (.spin lock)
  else set { machine with locked := Function.update machine.locked lock true }

def spinUnlock (lock : Lock) : Kernel PUnit :=
  modify fun machine => { machine with locked := Function.update machine.locked lock false }

def irqOff : Kernel PUnit :=
  modify fun machine => { machine with interrupts := intDisable machine.interrupts }

def irqResume : Kernel PUnit :=
  modify fun machine => { machine with interrupts := intResume machine.interrupts }

variable {returned : PUnit → Machine → Prop} {stopped : Stop → Machine → Prop}
  {machine : Machine}

@[simp] theorem ends_panicWith {Value : Type} {returned : Value → Machine → Prop}
    (message : String) :
    Ends (panicWith message) returned stopped machine = stopped (.panic message) machine :=
  ends_throw _

@[simp] theorem ends_require (condition : Prop) [Decidable condition] (message : String) :
    Ends (require condition message) returned stopped machine =
      if condition then returned ⟨⟩ machine else stopped (.panic message) machine := by
  unfold require
  split
  · exact ends_pure _
  · exact ends_panicWith message

@[simp] theorem ends_assertThat (condition : Prop) [Decidable condition] :
    Ends (assertThat condition) returned stopped machine =
      if condition then returned ⟨⟩ machine
      else stopped (.panic "Assertion failure") machine :=
  ends_require condition _

theorem ends_require_bind {Value : Type} {condition : Prop} [Decidable condition] {message : String}
    {rest : PUnit → Kernel Value} {returned : Value → Machine → Prop}
    (refused : stopped (.panic message) machine)
    (passed : condition → Ends (rest ⟨⟩) returned stopped machine) :
    Ends (require condition message >>= rest) returned stopped machine := by
  rw [ends_bind, ends_require]
  split
  · next holds => exact passed holds
  · exact refused

theorem ends_assert_bind {Value : Type} {condition : Prop} [Decidable condition]
    {rest : PUnit → Kernel Value} {returned : Value → Machine → Prop}
    (refused : ∀ message, stopped (.panic message) machine)
    (passed : condition → Ends (rest ⟨⟩) returned stopped machine) :
    Ends (assertThat condition >>= rest) returned stopped machine :=
  ends_require_bind (refused _) passed

theorem ends_spinLock (lock : Lock) :
    Ends (spinLock lock) returned stopped machine =
      if machine.locked lock then stopped (.spin lock) machine
      else returned ⟨⟩
        { machine with locked := Function.update machine.locked lock true } := by
  simp only [spinLock, ends_bind, ends_get, ends_ite, ends_throw, ends_set]

@[simp] theorem ends_spinUnlock (lock : Lock) :
    Ends (spinUnlock lock) returned stopped machine =
      returned ⟨⟩ { machine with locked := Function.update machine.locked lock false } :=
  ends_modify _

@[simp] theorem ends_irqOff :
    Ends irqOff returned stopped machine =
      returned ⟨⟩ { machine with interrupts := intDisable machine.interrupts } :=
  ends_modify _

@[simp] theorem ends_irqResume :
    Ends irqResume returned stopped machine =
      returned ⟨⟩ { machine with interrupts := intResume machine.interrupts } :=
  ends_modify _

theorem page_floor_le (value : Nat) : pageFloor value ≤ value := Nat.sub_le _ _

theorem page_floor_aligned (value : Nat) : pageFloor value % pageSize = 0 := by
  unfold pageFloor pageSize
  omega

theorem page_floor_of_aligned {value : Nat} (aligned : value % pageSize = 0) :
    pageFloor value = value := by
  unfold pageFloor
  omega

end RiriaKernel.KernelState
