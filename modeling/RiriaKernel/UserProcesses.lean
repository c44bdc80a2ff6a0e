import RiriaKernel.ElfLoader

/-!
# The memory of user processes

How a user process gets its memory and gives it back: `process_spawn_elf`, the system calls
`mmap` and `munmap`, page faults, and the part of `process_reap` that releases what a dead
process holds. The fields of `process_t` that this code reads and writes are a record; the
bytes of the blocks that hold `process_t`, the kernel stack and the list node are not
modelled.
-/

namespace RiriaKernel.UserProcesses

open ByteMemory HaltingPrograms KernelState PhysicalAllocator PageTables KernelHeap Pagemaps
open ElfLoader

def stackSize : Nat := 0x00010000
def userStackTop : Nat := 0xB0000000
def userStackBase : Nat := 0xAFF00000

/-- `sizeof(process_t)` and `sizeof(process_node_t)`. -/
def processBytes : Nat := 608
def nodeBytes : Nat := 16

/-- `process`, `stack` and `node` are the blocks of the heap that belong to the process. -/
structure UserProcess where
  process : Nat
  stack : Nat
  node : Nat
  pagemap : Nat
  entry : Nat
  userStackTop : Nat
  userHeapStart : Nat
  userHeapPosition : Nat
  deriving DecidableEq, Repr

/-! ## Creation -/

def userFlags : Nat := ptePresent ||| pteWritable ||| pteUser

/-- `for (; i < stop; i += PAGE_SIZE) vmm_map_page(pagemap, i, pmm_allocate(), flags)`. -/
def mapFresh (pagemap stop flags : Nat) : (fuel i : Nat) → Kernel PUnit
  | 0, _ => throw .unbounded
  | fuel + 1, i =>
      if i < stop then do
        let page ← pmmAllocate
        let _ ← vmmMapPage pagemap i page flags
        mapFresh pagemap stop flags fuel (add64 i pageSize)
      else pure ⟨⟩

/-- What `process_create` and `process_create_user` have in common. -/
def newProcess (entry pagemap userStackTop userHeap : Nat) : Kernel UserProcess := do
  let newProcess ← kmalloc processBytes
  assertThat (newProcess ≠ 0)
  let stack ← kmalloc stackSize
  assertThat (stack ≠ 0)
  let newNode ← kmalloc nodeBytes
  return {
    process := newProcess
    stack := stack
    node := newNode
    pagemap := pagemap
    entry := entry
    userStackTop := userStackTop
    userHeapStart := userHeap
    userHeapPosition := userHeap }

def processCreateUser (entry pagemap userStackTop userHeap : Nat) : Kernel UserProcess := do
  assertThat (pagemap ≠ 0)
  newProcess entry pagemap userStackTop userHeap

/-- A kernel process. Without a pagemap of its own it runs on the kernel's, and its heap fields
are zero. -/
def processCreate (entry pagemap : Nat) : Kernel UserProcess := do
  let kernelPagemap := (← get).kernelPagemap
  newProcess entry (if pagemap = 0 then kernelPagemap else pagemap) 0 0

/-! ## The calls of a running process -/

structure Caller where
  machine : Machine
  process : UserProcess

abbrev User := EStateM Stop Caller

/-- A function of the kernel that does not touch the process. -/
def kernel {Value : Type} (program : Kernel Value) : User Value := fun caller =>
  match program caller.machine with
  | .ok value machine => .ok value { caller with machine }
  | .error stop machine => .error stop { caller with machine }

/-- The conversion to `int`. -/
def toInt (value : Nat) : Int :=
  if value % 2 ^ 32 < 2 ^ 31 then (value % 2 ^ 32 : Nat) else (value % 2 ^ 32 : Nat) - 2 ^ 32

/-- What a descriptor under `/dev/` refers to. -/
inductive Device
  | zero
  | stdout
  | audio
  | keyboard
  | framebuffer
  deriving DecidableEq, Repr

/-- The part of `fb_info` that `_framebuffer_mmap` reads. -/
structure FbInfo where
  addr : Nat
  pitch : Nat
  height : Nat

def vfsMaxFileDescriptors : Nat := 256

/-- The open descriptors of devices, and the framebuffer. -/
structure Files where
  openFiles : Nat → Option Device
  fbInfo : FbInfo

def vfsGetFromFd (files : Files) (fd : Int) : Option Device :=
  if fd < 0 ∨ fd ≥ vfsMaxFileDescriptors then none else files.openFiles fd.toNat

/-- The address and the new value of `*len`. The product is one of `uint32_t`. -/
def framebufferMmap (fbInfo : FbInfo) (hhdm : Nat) : Nat × Nat :=
  (sub64 fbInfo.addr hhdm, fbInfo.pitch * fbInfo.height % 2 ^ 32)

/-- `vfs_sys_mmap` for a device. Only the framebuffer can be mapped. -/
def vfsSysMmap (files : Files) (hhdm : Nat) (fd : Int) (len : Nat) : Nat × Nat :=
  match vfsGetFromFd files fd with
  | some .framebuffer => framebufferMmap files.fbInfo hhdm
  | _ => (0, len)

/-- `vmm_map_page` at `user_heap_position`, which moves on. -/
def mapAtPosition (phys flags : Nat) : User PUnit := do
  let process := (← get).process
  let _ ← kernel (vmmMapPage process.pagemap process.userHeapPosition phys flags)
  modify fun caller =>
    { caller with process := { caller.process with
      userHeapPosition := add64 caller.process.userHeapPosition pageSize } }

def mapDevicePage (data index : Nat) : User PUnit :=
  mapAtPosition (add64 data (index * pageSize)) userFlags

def mapAnonymousPage (_ : Nat) : User PUnit := do
  let page ← kernel pmmAllocate
  kernel (assertThat (page ≠ 0))
  mapAtPosition page (userFlags ||| pteNx)

/-- `heap_pages`, a `uint32_t`. -/
def mmapPages (rsi : Nat) : Nat := pageCeil rsi / pageSize % 2 ^ 32

def syscallMmap (files : Files) (rsi r8 : Nat) : User Int := do
  let heapStart := (← get).process.userHeapPosition
  if toInt r8 ≠ -1 then
    let (data, _) := vfsSysMmap files (← get).machine.hhdm (toInt r8) rsi
    kernel (assertThat (data ≠ 0))
    forCount (mapDevicePage data) (mmapPages rsi) 0
  else forCount mapAnonymousPage (mmapPages rsi) 0
  return toInt heapStart

/-- The product in `base + i * PAGE_SIZE` is one of `uint32_t`. -/
def unmapHeapPage (base index : Nat) : User PUnit := do
  let pagemap := (← get).process.pagemap
  let virt := add64 base (index * pageSize % 2 ^ 32)
  let phys ← kernel (vmmVirtToPhys pagemap virt)
  kernel (assertThat (phys ≠ 0))
  kernel (pmmFree phys)
  let _ ← kernel (vmmUnmapPage pagemap virt)

def syscallUnmap (addr size : Nat) : User Int := do
  let process := (← get).process
  kernel (require (¬addr < process.userHeapStart) "WTF")
  kernel (require (¬add64 addr size > process.userHeapPosition) "WTF")
  forCount (unmapHeapPage (pageFloor addr)) (pageCeil size / pageSize) 0
  return 0

/-- How `vmm_pagefault` ends if it returns, or reaches `process_exit`. -/
inductive FaultOutcome
  | handled
  | exits
  deriving DecidableEq, Repr

/-- A fresh page at the address of the fault. -/
def mapFaultPage (pageAddr : Nat) : User PUnit := do
  let page ← kernel pmmAllocate
  let _ ← kernel (vmmMapPage (← get).process.pagemap pageAddr page userFlags)

def inHeapWindow (process : UserProcess) (faultAddr : Nat) : Prop :=
  faultAddr ≥ process.userHeapStart ∧ faultAddr < add64 process.userHeapPosition pageSize

instance (process : UserProcess) (faultAddr : Nat) : Decidable (inHeapWindow process faultAddr) :=
  inferInstanceAs (Decidable (_ ∧ _))

def inStackWindow (faultAddr : Nat) : Prop := faultAddr ≥ userStackBase ∧ faultAddr < userStackTop

instance (faultAddr : Nat) : Decidable (inStackWindow faultAddr) :=
  inferInstanceAs (Decidable (_ ∧ _))

/-- `cs` is the code segment that was interrupted. The error code is not looked at. -/
def vmmPagefault (faultAddr cs : Nat) : User FaultOutcome := do
  kernel irqOff
  let process := (← get).process
  kernel (assertThat (process.pagemap ≠ 0))
  let pageAddr := pageFloor faultAddr
  if inHeapWindow process faultAddr then
    mapFaultPage pageAddr
    if pageAddr ≥ process.userHeapPosition then
      modify fun caller =>
        { caller with process := { caller.process with
          userHeapPosition := add64 pageAddr pageSize } }
    else pure ⟨⟩
    kernel irqResume
    return .handled
  else if inStackWindow faultAddr then
    mapFaultPage pageAddr
    kernel irqResume
    return .handled
  else if cs &&& 0x3 ≠ 0 then
    kernel irqResume
    return .exits
  else kernel (panicWith "erm, page fault occurred")

/-! ## Spawning -/

/-- The pagemap that is loaded while `current` runs. -/
def activePagemap (current : Option UserProcess) (machine : Machine) : Nat :=
  (current.map UserProcess.pagemap).getD machine.kernelPagemap

/-- An exception in the middle of the kernel's own work for `process`. The heap position of the
process does not matter to that work and is not handed on. -/
def asProcess {Value : Type} (process : UserProcess) (program : User Value) : Kernel Value :=
  fun machine =>
    match program ⟨machine, process⟩ with
    | .ok value caller => .ok value caller.machine
    | .error stop caller => .error stop caller.machine

def kernelCs : Nat := 0x08

/-- A page fault of kernel code while `current` runs. Without a process the handler has none to
look at. -/
def kernelFault (address : Nat) : (current : Option UserProcess) → Kernel PUnit
  | none => do
      irqOff
      panicWith "Assertion failure"
  | some process => do
      let _ ← asProcess process (vmmPagefault address kernelCs)

/-- A store of zero by kernel code. The hardware walks the tables as `vmm_virt_to_phys` does;
where a page is missing the store faults, and it is done again when the handler returns. -/
def storeZero (current : Option UserProcess) (address : Nat) : (fuel : Nat) → Kernel PUnit
  | 0 => throw .unbounded
  | fuel + 1 => do
      let phys ← vmmVirtToPhys (activePagemap current (← get)) address
      if phys ≠ 0 then
        modify fun machine => { machine with phys := store64 machine.phys phys 0 }
      else
        kernelFault address current
        storeZero current address fuel

/-- `PUSH_STACK(stack, 0)`, for the word number `index` below the top. -/
def pushStack (current : Option UserProcess) (index : Nat) : Kernel PUnit :=
  storeZero current (userStackTop - 8 * (index + 1)) 2

/-- `process_spawn_elf`, once the pagemap exists. The four words are pushed while the pagemap of
the spawner is loaded, not into the stack that is mapped afterwards. -/
def spawnInto (current : Option UserProcess) (pagemap elfData : Nat) (image : Image) (len : Nat) :
    Kernel UserProcess := do
  let elf ← elf64Load pagemap elfData image len
  let userHeap := pageCeil (add64 elf.entry elf.size)
  let heapPage ← pmmAllocate
  let _ ← vmmMapPage pagemap userHeap heapPage userFlags
  forCount (pushStack current) 4 0
  let stackTop := userStackTop - 4 * 8
  mapFresh pagemap stackTop userFlags pageLoopBound userStackBase
  processCreateUser elf.entry pagemap stackTop userHeap

/-- `current` is the process that calls it. -/
def processSpawnElf (current : Option UserProcess) (elfData : Nat) (image : Image) (len : Nat) :
    Kernel UserProcess := do
  let pagemap ← vmmNewPagemap
  spawnInto current pagemap elfData image len

/-! ## Release -/

/-- `for (; addr < stop; addr += PAGE_SIZE) vmm_unmap_page(pagemap, addr)`. -/
def unmapRange (pagemap stop : Nat) : (fuel addr : Nat) → Kernel PUnit
  | 0, _ => throw .unbounded
  | fuel + 1, addr =>
      if addr < stop then do
        let _ ← vmmUnmapPage pagemap addr
        unmapRange pagemap stop fuel (add64 addr pageSize)
      else pure ⟨⟩

/-- What `process_reap` does for a dead process besides the list work. -/
def reapMemory (process : UserProcess) : Kernel PUnit := do
  unmapRange process.pagemap userStackTop pageLoopBound userStackBase
  if process.userHeapStart ≠ 0 then
    unmapRange process.pagemap process.userHeapPosition pageLoopBound
      (pageCeil process.userHeapStart)
  else pure ⟨⟩
  kfree process.stack
  kfree process.process
  kfree process.node

/-! ## Rules -/

section Rules

variable {Value : Type} {stopped : Stop → Caller → Prop} {caller : Caller}

@[simp] theorem ends_kernel {returned : Value → Caller → Prop} (program : Kernel Value) :
    Ends (kernel program) returned stopped caller =
      Ends program (fun value machine => returned value { caller with machine })
        (fun stop machine => stopped stop { caller with machine }) caller.machine := by
  unfold Ends kernel
  cases program caller.machine <;> rfl

@[simp] theorem ends_asProcess {returned : Value → Machine → Prop}
    {stopped : Stop → Machine → Prop} {machine : Machine} (process : UserProcess)
    (program : User Value) :
    Ends (asProcess process program) returned stopped machine =
      Ends program (fun value caller => returned value caller.machine)
        (fun stop caller => stopped stop caller.machine) ⟨machine, process⟩ := by
  unfold Ends asProcess
  cases program ⟨machine, process⟩ <;> rfl

def Caller.advance (caller : Caller) (machine : Machine) : Caller where
  machine := machine
  process := { caller.process with
    userHeapPosition := add64 caller.process.userHeapPosition pageSize }

@[simp] theorem Caller.advance_machine (caller : Caller) (machine : Machine) :
    (caller.advance machine).machine = machine := rfl

@[simp] theorem Caller.advance_pagemap (caller : Caller) (machine : Machine) :
    (caller.advance machine).process.pagemap = caller.process.pagemap := by
  simp only [Caller.advance]

@[simp] theorem Caller.advance_start (caller : Caller) (machine : Machine) :
    (caller.advance machine).process.userHeapStart = caller.process.userHeapStart := by
  simp only [Caller.advance]

@[simp] theorem Caller.advance_position (caller : Caller) (machine : Machine) :
    (caller.advance machine).process.userHeapPosition =
      add64 caller.process.userHeapPosition pageSize := rfl

theorem ends_mapAtPosition {returned : PUnit → Caller → Prop} (phys flags : Nat) :
    Ends (mapAtPosition phys flags) returned stopped caller =
      Ends (vmmMapPage caller.process.pagemap caller.process.userHeapPosition phys flags)
        (fun _ machine => returned ⟨⟩ (caller.advance machine))
        (fun stop machine => stopped stop { caller with machine }) caller.machine := by
  simp only [mapAtPosition, ends_bind, ends_get, ends_kernel, ends_modify, Caller.advance]

end Rules

end RiriaKernel.UserProcesses
