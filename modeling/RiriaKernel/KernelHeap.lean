import RiriaKernel.PageTables

/-!
# The kernel heap

`heap.c`: a first-fit allocator whose free list is kept in the free blocks themselves, in
address order. The heap's virtual window is a byte memory of its own; growing it takes
frames from the page allocator and maps them with `vmm_map_page`. A loop over the free
list is given as many steps as there can be blocks, and the retry loop of `kmalloc` as
many as there can be frames.
-/

namespace RiriaKernel.KernelHeap

open ByteMemory HaltingPrograms KernelState PhysicalAllocator PageTables

def kernelHeapStart : Nat := 0xFFFF810000000000
def kernelInitialPages : Nat := 256

/-- `sizeof(heap_block_t)`. -/
def minAllocSize : Nat := 16
def heapAlignment : Nat := 16

/-- `ALIGN_UP_HEAP`, with the wrapping sum of `size_t`. -/
def alignUpHeap (size : Nat) : Nat :=
  let raised := add64 size (heapAlignment - 1)
  raised - raised % heapAlignment

/-- `ALIGN_UP_HEAP(sizeof(size_t))`. -/
def headerSize : Nat := alignUpHeap 8

def blockSize (memory : Memory) (block : Nat) : Nat := load64 memory block
def blockNext (memory : Memory) (block : Nat) : Nat := load64 memory (block + 8)

def setHead (head : Nat) : Kernel PUnit :=
  modify fun machine => { machine with heap := { machine.heap with head } }

def writeHeap (address value : Nat) : Kernel PUnit :=
  modify fun machine => { machine with heap :=
    { machine.heap with memory := store64 machine.heap.memory address value } }

def setBlockSize (block size : Nat) : Kernel PUnit := writeHeap block size
def setBlockNext (block next : Nat) : Kernel PUnit := writeHeap (block + 8) next

def getSize (block : Nat) : Kernel Nat := do
  return blockSize (← get).heap.memory block

def getNext (block : Nat) : Kernel Nat := do
  return blockNext (← get).heap.memory block

/-- `prev == NULL ? heap_head : prev->next`, as an assignment. -/
def setLink (prev value : Nat) : Kernel PUnit :=
  if prev = 0 then setHead value else setBlockNext prev value

/-- The most free blocks a heap of this size can hold. -/
def walkBound (heap : Heap) : Nat := heap.size / minAllocSize + 1

/-- `while (curr && curr < bound) { prev = curr; curr = curr->next; }`, giving `prev`. -/
def walkBelow (memory : Memory) (bound : Nat) : (fuel prev curr : Nat) → Option Nat
  | 0, _, _ => none
  | fuel + 1, prev, curr =>
      if curr ≠ 0 ∧ curr < bound then walkBelow memory bound fuel curr (blockNext memory curr)
      else some prev

def linkBlock (prev block : Nat) : Kernel PUnit := do
  if prev = 0 then setBlockNext block (← get).heap.head
  else setBlockNext block (← getNext prev)
  setLink prev block

/-- Absorb the block behind, if it starts where this one ends. -/
def mergeNext (block : Nat) : Kernel PUnit := do
  let next ← getNext block
  if next ≠ 0 ∧ add64 block (← getSize block) = next then
    setBlockSize block (add64 (← getSize block) (← getSize next))
    setBlockNext block (← getNext next)

/-- Be absorbed by the block in front, if that one ends here. -/
def mergePrev (prev block : Nat) : Kernel PUnit := do
  if prev ≠ 0 ∧ add64 prev (← getSize prev) = block then
    setBlockSize prev (add64 (← getSize prev) (← getSize block))
    setBlockNext prev (← getNext block)

/-- The list insertion and the two merges that `kfree` and `heap_expand_pages` share. -/
def insertBlock (prev block : Nat) : Kernel PUnit := do
  linkBlock prev block
  mergeNext block
  mergePrev prev block

def heapFlags : Nat := ptePresent ||| pteWritable ||| pteNx

/-- One page of `heap_expand_pages`. -/
def expandPage (pagemap base index : Nat) : Kernel PUnit := do
  let phys ← pmmAllocate
  require (phys ≠ 0) "heap: failed to allocate page for heap expansion"
  let mapped ← vmmMapPage pagemap (add64 base (index * pageSize)) phys heapFlags
  require (mapped = true) "heap: vmm_map_page failed during heap expansion"

/-- The new block becomes the list, or is inserted into it. -/
def linkRegion (base : Nat) : Kernel PUnit := do
  let machine ← get
  if machine.heap.head = 0 then setHead base
  else
    match walkBelow machine.heap.memory base (walkBound machine.heap) 0 machine.heap.head with
    | none => throw .unbounded
    | some prev => insertBlock prev base

/-- The list work of `heap_expand_pages`, once the pages are mapped. -/
def addRegion (base regionSize : Nat) : Kernel PUnit := do
  setBlockSize base regionSize
  setBlockNext base 0
  linkRegion base
  modify fun machine =>
    { machine with heap := { machine.heap with size := add64 machine.heap.size regionSize } }

def heapExpandPages (pages : Nat) : Kernel Nat := do
  if pages = 0 then return 0
  else
    let machine ← get
    let base := add64 machine.heap.start machine.heap.size
    let newRegionSize := pages * pageSize % 2 ^ 64
    assertThat (machine.heap.start % pageSize = 0)
    assertThat (machine.heap.size % pageSize = 0)
    forCount (expandPage machine.kernelPagemap base) pages 0
    addRegion base newRegionSize
    return 1

def heapInstall : Kernel PUnit := do
  let machine ← get
  require (machine.heap.start = 0) "heap_install called multiple times"
  set { machine with heap := { machine.heap with start := kernelHeapStart, size := 0 } }
  let grown ← heapExpandPages kernelInitialPages
  require (grown ≠ 0) "heap: failed to allocate the initial kernel heap"

/-- `total_sz` of a request. -/
def requestSize (size : Nat) : Nat :=
  let total := add64 (alignUpHeap size) headerSize
  if total < minAllocSize then minAllocSize else total

/-- How the scan of `kmalloc` ends. -/
inductive Search
  | fits (prev curr : Nat)
  | exhausted
  | unbounded

def findFit (memory : Memory) (total : Nat) : (fuel prev curr : Nat) → Search
  | 0, _, _ => .unbounded
  | fuel + 1, prev, curr =>
      if curr = 0 then .exhausted
      else if blockSize memory curr ≥ total then .fits prev curr
      else findFit memory total fuel curr (blockNext memory curr)

/-- The body of the scan once a block is large enough: split it or take it whole. -/
def takeBlock (total prev curr : Nat) : Kernel Nat := do
  let size ← getSize curr
  if size ≥ add64 total minAllocSize then
    let newBlock := add64 curr total
    setBlockSize newBlock (sub64 (← getSize curr) total)
    setBlockNext newBlock (← getNext curr)
    setBlockSize curr total
    setLink prev newBlock
  else setLink prev (← getNext curr)
  setBlockSize curr (← getSize curr)
  spinUnlock .heap
  return add64 curr headerSize

/-- `if (!heap_expand_pages(16)) if (!heap_expand_pages(1)) panic`. -/
def growForRequest : Kernel PUnit := do
  let grown ← heapExpandPages 16
  if grown = 0 then
    let single ← heapExpandPages 1
    if single = 0 then
      spinUnlock .heap
      panicWith "out of memory"

/-- From the label `try_again`. -/
def tryAllocate (total : Nat) : (fuel curr : Nat) → Kernel Nat
  | 0, _ => throw .unbounded
  | fuel + 1, curr => do
      let machine ← get
      match findFit machine.heap.memory total (walkBound machine.heap) 0 curr with
      | .fits prev found => takeBlock total prev found
      | .unbounded => throw .unbounded
      | .exhausted => do
          growForRequest
          tryAllocate total fuel (← get).heap.head

/-- More attempts than the page allocator has pages cannot all find it non-empty. -/
def retryBound (pmm : Pmm) : Nat := pmm.highestPage + 2

def kmalloc (size : Nat) : Kernel Nat := do
  if size = 0 then return 0
  else
    let machine ← get
    spinLock .heap
    tryAllocate (requestSize size) (retryBound machine.pmm) machine.heap.head

/-- The address and, if the caller asked for it, the physical address. -/
def kmallocPhys (size : Nat) (wantPhys : Bool) : Kernel (Nat × Option Nat) := do
  if size = 0 then return (0, none)
  else
    let virtAddr ← kmalloc size
    assertThat (virtAddr ≠ 0)
    if wantPhys then
      let physAddr ← vmmVirtToPhys (← get).kernelPagemap virtAddr
      assertThat (physAddr ≠ 0)
      return (virtAddr, some physAddr)
    else return (virtAddr, none)

def kfree (ptr : Nat) : Kernel PUnit := do
  if ptr = 0 then return ⟨⟩
  else
    let machine ← get
    let blockStart := sub64 ptr headerSize
    let size := blockSize machine.heap.memory blockStart
    require (¬(blockStart < machine.heap.start ∨
      blockStart ≥ add64 machine.heap.start machine.heap.size)) "pointer out of bound!"
    require (¬size < minAllocSize) "invalid block size!"
    require (blockStart % heapAlignment = 0) "alignment error!"
    spinLock .heap
    match walkBelow machine.heap.memory blockStart (walkBound machine.heap) 0
      machine.heap.head with
    | none => throw .unbounded
    | some prev =>
        setBlockSize blockStart size
        insertBlock prev blockStart
        spinUnlock .heap

end RiriaKernel.KernelHeap
