import RiriaKernel.CircularLists
import RiriaKernel.KernelState

/-!
# Processes

The scheduler of `process.c` with the processor state that a switch changes. Nodes and
processes live in partial stores, so that a use after `free` is a fault of the model. What
`process_reap` does to page tables and to the heap is not part of this state. A saved
stack pointer stands for the code that runs when the process is switched to.
-/

namespace RiriaKernel.Processes

open CircularLists KernelState

inductive ProcessType
  | kernel
  | user
  deriving DecidableEq, Repr

inductive ProcessState
  | ready
  | running
  | sleeping
  | dead
  deriving DecidableEq, Repr

/-- Who has called `process_schedule`: the timer interrupt, from user mode or from kernel
code; kernel code with its interrupt flag; or `process_exit` of a user process, in a system
call or in a fault handler. The two trampolines stand for processes that have not run yet. -/
inductive Context
  | kernelEntry
  | userEntry
  | timer (fromUser : Bool)
  | call (enabled : Bool)
  | exit (inSyscall : Bool)
  deriving DecidableEq, Repr

/-- The image that `fxsave` stores. -/
abbrev FpuState := Fin 512 → UInt8

structure Process where
  id : Nat
  wakeAt : Nat
  type : ProcessType
  state : ProcessState
  stackTop : Nat
  pagemap : Nat
  krsp : Context
  fsbase : Nat
  fpuState : FpuState

/-- `gsBase` is MSR 0xC0000101, which is in force, and `kernelGsBase` is MSR 0xC0000102,
which `swapgs` exchanges with it. -/
structure Cpu where
  interrupts : Interrupts
  fsBase : Nat
  gsBase : Nat
  kernelGsBase : Nat
  fpu : FpuState
  pagemap : Nat
  rsp0 : Nat

/-- What the processor executes: user code, the body of a kernel process, a system call, a
call of `process_schedule`, or the code behind such a call that has just returned. -/
inductive Running
  | user
  | kernel
  | syscall
  | calling (context : Context)
  | returned (context : Context)
  deriving DecidableEq, Repr

/-- `reaped` lists the ids that `process_reap` reports. -/
structure System where
  head : Nat
  nodes : Store Nat Nat
  procs : Nat → Option Process
  nextPid : Nat
  shouldSchedule : Bool
  ticks : Nat
  reaped : List Nat
  kernelPagemap : Nat
  cpu : Cpu
  running : Running

inductive Fault
  | panic (message : String)
  | dangling (address : Nat)
  | unbounded
  deriving DecidableEq, Repr

abbrev Sched := EStateM Fault System

def getNode (address : Nat) : Sched (Node Nat Nat) := do
  match (← get).nodes address with
  | some node => return node
  | none => throw (.dangling address)

def getProcess (address : Nat) : Sched Process := do
  match (← get).procs address with
  | some process => return process
  | none => throw (.dangling address)

def setProcess (address : Nat) (process : Process) : Sched PUnit :=
  modify fun system =>
    { system with procs := Function.update system.procs address (some process) }

def ensure (condition : Prop) [Decidable condition] (message : String) : Sched PUnit :=
  if condition then pure ⟨⟩ else throw (.panic message)

def setInterrupts (update : Interrupts → Interrupts) : Sched PUnit :=
  modify fun system =>
    { system with cpu := { system.cpu with interrupts := update system.cpu.interrupts } }

/-! ## Creation -/

/-- `PROCESS_PUSH`, with the node that `malloc` has returned. -/
def processPush (node process : Nat) : Sched PUnit := do
  let system ← get
  if system.head = 0 then
    set { system with
      nodes := Function.update system.nodes node (some ⟨process, node⟩)
      head := node
      shouldSchedule := true }
  else
    let current ← getNode system.head
    set { system with
      nodes := Function.update (Function.update system.nodes node (some ⟨process, current.next⟩))
        system.head (some ⟨current.payload, node⟩)
      shouldSchedule := true }

def newProcess (id : Nat) (type : ProcessType) (stackTop pagemap : Nat) (krsp : Context) :
    Process where
  id := id
  wakeAt := 0
  type := type
  state := .ready
  stackTop := stackTop
  pagemap := pagemap
  krsp := krsp
  fsbase := 0
  fpuState := fun _ => 0

/-- The end that `process_create` and `process_create_user` share. -/
def addProcess (node process : Nat) (type : ProcessType) (stackTop pagemap : Nat) (krsp : Context) :
    Sched PUnit := do
  let system ← get
  set { system with
    procs := Function.update system.procs process
      (some (newProcess system.nextPid type stackTop pagemap krsp))
    nextPid := (system.nextPid + 1) % 2 ^ 32 }
  processPush node process

/-- `node`, `process` and the stack are what `malloc` returns. -/
def processCreate (node process stackTop pagemap : Nat) : Sched PUnit := do
  let system ← get
  addProcess node process .kernel stackTop (if pagemap = 0 then system.kernelPagemap else pagemap)
    .kernelEntry

def processCreateUser (node process stackTop pagemap : Nat) : Sched PUnit := do
  ensure (pagemap ≠ 0) "Assertion failure"
  addProcess node process .user stackTop pagemap .userEntry

/-! ## Scheduling -/

/-- A bound for the rounds of the two loops over the ring. -/
def ringBound : Nat := 2 ^ 32

def unlink (prev curr : Nat) : Sched PUnit := do
  if curr = prev then modify fun system => { system with head := 0 }
  else
    let prevNode ← getNode prev
    let currNode ← getNode curr
    modify fun system =>
      { system with
        nodes := Function.update system.nodes prev (some ⟨prevNode.payload, currNode.next⟩)
        head := if system.head = curr then prev else system.head }

def release (curr process id : Nat) : Sched PUnit :=
  modify fun system =>
    { system with
      procs := Function.update system.procs process none
      nodes := Function.update system.nodes curr none
      reaped := system.reaped ++ [id] }

def reapLoop : (fuel prev curr : Nat) → Sched PUnit
  | 0, _, _ => throw .unbounded
  | fuel + 1, prev, curr => do
      let node ← getNode curr
      let process ← getProcess node.payload
      if process.state = .dead then
        unlink prev curr
        release curr node.payload process.id
        let behind ← getNode prev
        let system ← get
        if behind.next ≠ system.head ∧ system.head ≠ 0 then reapLoop fuel prev behind.next
        else pure ⟨⟩
      else
        let system ← get
        if node.next ≠ system.head ∧ system.head ≠ 0 then reapLoop fuel curr node.next
        else pure ⟨⟩

def processReap : Sched PUnit := do
  let system ← get
  if system.head = 0 then pure ⟨⟩
  else
    let node ← getNode system.head
    if node.next = 0 then pure ⟨⟩
    else reapLoop ringBound system.head node.next

/-- `while (process_head->process->wake_at > ticks)`. -/
def skipSleeping : (fuel : Nat) → Sched PUnit
  | 0 => throw .unbounded
  | fuel + 1 => do
      let system ← get
      let node ← getNode system.head
      let process ← getProcess node.payload
      if process.wakeAt > system.ticks then
        set { system with head := node.next }
        skipSleeping fuel
      else pure ⟨⟩

/-- The long condition in front of `process_reap`. -/
def canSchedule : Sched Bool := do
  let system ← get
  if system.shouldSchedule = false ∨ system.head = 0 then return false
  else
    let node ← getNode system.head
    if node.next = 0 then return false
    else
      let process ← getProcess node.payload
      if process.pagemap = 0 then return false
      else
        let behind ← getNode node.next
        let later ← getProcess behind.payload
        return later.pagemap ≠ 0

/-- `process_schedule` has returned, or a trampoline has done its `IRQ_RES`. -/
def comeBack (context : Context) : Sched PUnit := do
  setInterrupts intResume
  modify fun system => { system with running := .returned context }

/-- `fxsave` and `rdmsr(MSR_FS_BASE)` for the process that is left. -/
def saveRegisters (prevProc : Nat) : Sched PUnit := do
  let prev ← getProcess prevProc
  let cpu := (← get).cpu
  if prev.type = .user then
    setProcess prevProc { prev with fpuState := cpu.fpu, fsbase := cpu.fsBase }
  else pure ⟨⟩

/-- `fxrstor` and `wrmsr(MSR_FS_BASE)` for the process that is chosen. -/
def loadRegisters (curr : Process) : Sched PUnit :=
  if curr.type = .user then
    modify fun system =>
      { system with cpu := { system.cpu with fpu := curr.fpuState, fsBase := curr.fsbase } }
  else pure ⟨⟩

def processSwitch (prevProc currProc : Nat) (caller : Context) : Sched PUnit := do
  setProcess prevProc { (← getProcess prevProc) with krsp := caller }
  comeBack (← getProcess currProc).krsp

/-- The part of `process_schedule` from `vmm_switch_pagemap` on. -/
def switchTo (prevProc currProc : Nat) (caller : Context) : Sched PUnit := do
  let curr ← getProcess currProc
  ensure (curr.pagemap ≠ 0) "Assertion failure"
  ensure (curr.stackTop ≠ 0) "Assertion failure"
  modify fun system =>
    { system with cpu := { system.cpu with pagemap := curr.pagemap, rsp0 := curr.stackTop } }
  saveRegisters prevProc
  loadRegisters curr
  modify fun system => { system with cpu := { system.cpu with gsBase := currProc } }
  processSwitch prevProc currProc caller

def processSchedule (caller : Context) : Sched PUnit := do
  setInterrupts intDisable
  if ← canSchedule then
    processReap
    let node ← getNode (← get).head
    modify fun system => { system with head := node.next }
    ensure ((← get).head ≠ 0) "Assertion failure"
    skipSleeping ringBound
    let chosen ← getNode (← get).head
    if (← getProcess chosen.payload).id = (← getProcess node.payload).id then comeBack caller
    else switchTo node.payload chosen.payload caller
  else comeBack caller

def processGetCurrent : Sched Nat := do
  let system ← get
  ensure (system.head ≠ 0) "Assertion failure"
  return (← getNode system.head).payload

def markAsleep (ms : Nat) : Sched PUnit := do
  let current ← processGetCurrent
  setProcess current { (← getProcess current) with wakeAt := add64 (← get).ticks ms }

def markDead : Sched PUnit := do
  let current ← processGetCurrent
  setProcess current { (← getProcess current) with state := .dead }

def processSleep (ms : Nat) (caller : Context) : Sched PUnit := do
  markAsleep ms
  processSchedule caller

def processExit (caller : Context) : Sched PUnit := do
  markDead
  processSchedule caller

end RiriaKernel.Processes
