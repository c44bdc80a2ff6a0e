import RiriaKernel.KernelHeapTables

/-!
# Building pagemaps

`vmm_install` builds the kernel's pagemap from the memory map and the layout of the kernel
image; `vmm_new_pagemap` gives a process a pagemap with an empty lower half and a copy of
the kernel's upper half. Loading `CR3` has no counterpart here.
-/

namespace RiriaKernel.Pagemaps

open ByteMemory HaltingPrograms KernelState PhysicalAllocator
open RadixForests PageTables PageTableForests PageTableOperations KernelHeap KernelHeapLayouts

/-! ## The code -/

def vmmNewPagemap : Kernel Nat := do
  spinLock .vmm
  let pml4 ← pmmAllocate
  require (pml4 ≠ 0) "failed to allocate new pagemap pml4"
  modify fun machine => { machine with phys := memset machine.phys pml4 0 (pageSize / 2) }
  modify fun machine =>
    { machine with
      phys := memcpy machine.phys (entryAddress pml4 256) (entryAddress machine.kernelPagemap 256)
        (pageSize / 2) }
  let newPagemap ← kmalloc 8
  -- `new_pagemap->base_virt = pml4_virt`; the model's pagemap is the PML4 itself
  modify fun machine => withHeap machine machine.heap.head
    (store64 machine.heap.memory newPagemap (add64 pml4 machine.hhdm))
  spinUnlock .vmm
  return pml4

structure ImageLayout extends KernelLayout where
  textEnd : UInt64
  rodataBegin : UInt64
  rodataEnd : UInt64
  dataBegin : UInt64

def kernelPageFlags (layout : ImageLayout) (virt : Nat) : Nat :=
  if virt ≥ layout.textBegin.toNat ∧ virt < layout.textEnd.toNat then ptePresent
  else if virt ≥ layout.rodataBegin.toNat ∧ virt < layout.rodataEnd.toNat then
    ptePresent ||| pteNx
  else if virt ≥ layout.dataBegin.toNat ∧ virt < pageCeil layout.bssEnd.toNat then
    ptePresent ||| (pteWritable ||| pteNx)
  else ptePresent ||| (pteWritable ||| pteNx)

/-- A `uint64_t` has this many pages, so a longer loop has wrapped around and never ends. -/
def pageLoopBound : Nat := 2 ^ 52 + 1

/-- `for (; p < stop; p += PAGE_SIZE) if (!vmm_map_page(..)) panic(message)`. -/
def mapRange (pagemap : Nat) (virtOf physOf flagsOf : Nat → Nat) (stop : Nat) (message : String) :
    (fuel p : Nat) → Kernel PUnit
  | 0, _ => throw .unbounded
  | fuel + 1, p =>
      if p < stop then do
        let mapped ← vmmMapPage pagemap (virtOf p) (physOf p) (flagsOf p)
        require (mapped = true) message
        mapRange pagemap virtOf physOf flagsOf stop message fuel (add64 p pageSize)
      else pure ⟨⟩

def identMapLimit : Nat := 0x00100000

def dataFlags : Nat := ptePresent ||| pteWritable ||| pteNx

/-- The direct map of one entry of the memory map, and the identity map of low memory. -/
def mapEntry (pagemap : Nat) (entry : MemmapEntry) : Kernel PUnit := do
  let hhdm := (← get).hhdm
  let mapBase := pageCeil entry.base.toNat
  let mapTop := pageFloor (entryTop entry)
  if mapTop ≤ mapBase then pure ⟨⟩
  else
    mapRange pagemap (fun p => add64 p hhdm) id (fun _ => dataFlags) mapTop
      "failed to map hhdm page" pageLoopBound mapBase
    if mapBase < identMapLimit then
      mapRange pagemap id id (fun _ => dataFlags)
        (if mapTop > identMapLimit then identMapLimit else mapTop)
        "failed to identity map low 1mb page" pageLoopBound mapBase
    else pure ⟨⟩

/-- The loop over `memmap->entries`. The response is read again in every round, and `memmap` is
what it says in the memory of that moment. -/
def mapEntries (pagemap : Nat) (memmap : Memory → List MemmapEntry) : (fuel i : Nat) → Kernel PUnit
  | 0, _ => throw .unbounded
  | fuel + 1, i => do
      match (memmap (← get).phys)[i]? with
      | none => pure ⟨⟩
      | some entry =>
          mapEntry pagemap entry
          mapEntries pagemap memmap fuel (i + 1)

/-- `VMM_HIGHER_HALF` is read from a response as well; `hhdm` stands for an intact one. -/
def vmmInstall (memmap : Memory → List MemmapEntry) (layout : ImageLayout) : Kernel PUnit := do
  let pml4 ← pmmAllocate
  require (pml4 ≠ 0) "failed to allocate kernel pml4"
  modify fun machine =>
    { machine with phys := memset machine.phys pml4 0 pageSize, kernelPagemap := pml4 }
  mapRange pml4 id (fun p => add64 (sub64 p layout.virtualBase.toNat) layout.physicalBase.toNat)
    (kernelPageFlags layout) (pageCeil layout.bssEnd.toNat) "failed to map kernel page"
    pageLoopBound layout.virtualBase.toNat
  mapEntries pml4 memmap (2 ^ 64 + 1) 0

/-! ## Allocating while the page-table lock is held

A heap that has to grow maps pages, so a call of `kmalloc` under this lock returns only
where the free list already has a block.
-/

structure HeapOnly (before after : Machine) : Prop where
  pmm : after.pmm = before.pmm
  phys : after.phys = before.phys
  hhdm : after.hhdm = before.hhdm
  kernelPagemap : after.kernelPagemap = before.kernelPagemap
  heapStart : after.heap.start = before.heap.start
  heapSize : after.heap.size = before.heap.size
  locked : ∀ lock, lock ≠ .heap → after.locked lock = before.locked lock

section UnderTheLock

variable {machine : Machine}

theorem ends_expandPage_stuck (busy : machine.locked .vmm = true) (pagemap base index : Nat) :
    Ends (expandPage pagemap base index) (fun _ _ => False) (fun _ _ => True) machine := by
  have allocated : Ends pmmAllocate (fun _ after => after.locked .vmm = true) (fun _ _ => True)
      machine := by
    cases unlocked : machine.locked .pmm with
    | true =>
      simp only [pmmAllocate, ends_bind, ends_irqOff, ends_spinLock, unlocked, if_true]
    | false => exact ends_pmmAllocate unlocked (fun _ _ => busy) fun _ => trivial
  rw [expandPage, ends_bind]
  apply ends_mono allocated _ fun _ _ => id
  intro frame after busyAfter
  rw [ends_bind, ends_require]
  split
  · simp only [vmmMapPage, ends_bind, ends_spinLock, busyAfter, if_true]
  · trivial

theorem ends_heapExpandPages_stuck (busy : machine.locked .vmm = true) (pages : Nat) :
    Ends (heapExpandPages (pages + 1)) (fun _ _ => False) (fun _ _ => True) machine := by
  simp only [heapExpandPages, if_neg (Nat.succ_ne_zero pages), ends_bind, ends_get,
    ends_assertThat]
  split
  · split
    · rw [forCount, ends_bind]
      apply ends_mono (ends_expandPage_stuck busy _ _ _)
      · exact fun _ _ => False.elim
      · exact fun _ _ => id
    · trivial
  · trivial

theorem ends_growForRequest_stuck (busy : machine.locked .vmm = true) :
    Ends growForRequest (fun _ _ => False) (fun _ _ => True) machine := by
  rw [growForRequest, ends_bind]
  apply ends_mono (ends_heapExpandPages_stuck busy 15)
  · exact fun _ _ => False.elim
  · exact fun _ _ => id

theorem ends_takeBlock_only {total prev curr head : Nat} {memory : Memory}
    {stopped : Stop → Machine → Prop} :
    Ends (takeBlock total prev curr) (fun _ after => HeapOnly machine after) stopped
      (withHeap machine head memory) := by
  have unlocked : ∀ head memory, HeapOnly machine
      { withHeap machine head memory with
        locked := Function.update (withHeap machine head memory).locked .heap false } :=
    fun head memory => ⟨rfl, rfl, rfl, rfl, rfl, rfl,
      fun lock other => Function.update_of_ne other _ _⟩
  simp only [takeBlock, ends_bind, ends_getSize, ends_ite, ends_getNext, ends_setBlockSize,
    ends_setBlockNext, ends_setLink, ends_spinUnlock, ends_pure]
  split
  · exact unlocked _ _
  · exact unlocked _ _

theorem ends_tryAllocate_stuck (busy : machine.locked .vmm = true) (total fuel curr : Nat) :
    Ends (tryAllocate total (fuel + 1) curr) (fun _ after => HeapOnly machine after)
      (fun _ _ => True) machine := by
  rw [tryAllocate, ends_bind, ends_get]
  split
  · exact ends_takeBlock_only
  · rw [ends_throw]
    trivial
  · rw [ends_bind]
    apply ends_mono (ends_growForRequest_stuck busy)
    · exact fun _ _ => False.elim
    · exact fun _ _ => id

theorem ends_kmalloc_stuck (busy : machine.locked .vmm = true) (size : Nat) :
    Ends (kmalloc size) (fun _ after => HeapOnly machine after) (fun _ _ => True) machine := by
  rw [kmalloc, ends_ite]
  split
  · rw [ends_pure]
    exact ⟨rfl, rfl, rfl, rfl, rfl, rfl, fun _ _ => rfl⟩
  · rw [ends_bind, ends_get, ends_bind, ends_spinLock]
    split
    · trivial
    · let locked : Machine := { machine with locked := Function.update machine.locked .heap true }
      have still : locked.locked .vmm = true :=
        (Function.update_of_ne (show Lock.vmm ≠ .heap by decide) true machine.locked).trans busy
      apply ends_mono (ends_tryAllocate_stuck still _ _ _) _ fun _ _ => id
      intro _ after only
      exact ⟨only.pmm, only.phys, only.hhdm, only.kernelPagemap, only.heapStart,
        only.heapSize, fun lock other => (only.locked lock other).trans
          (Function.update_of_ne other _ _)⟩

theorem ends_kmalloc_first {size : Nat} {returned : Nat → Machine → Prop}
    {stopped : Stop → Machine → Prop} (unlocked : machine.locked .heap = false)
    (some : machine.heap.head ≠ 0)
    (fits : requestSize size ≤ blockSize machine.heap.memory machine.heap.head)
    (allowed : ∀ pointer after, returned pointer after) :
    Ends (kmalloc size) returned stopped machine := by
  rw [kmalloc, ends_ite]
  split
  · rw [ends_pure]
    exact allowed _ _
  · rw [ends_bind, ends_get, ends_bind, ends_spinLock, unlocked, if_neg Bool.false_ne_true,
      retryBound, tryAllocate, ends_bind, ends_get]
    simp only [walkBound, findFit, if_neg some, if_pos fits]
    let locked : Machine := { machine with locked := Function.update machine.locked .heap true }
    have taken : Ends (takeBlock (requestSize size) 0 machine.heap.head)
        (fun _ after => HeapOnly locked after) stopped
        (withHeap locked machine.heap.head machine.heap.memory) := ends_takeBlock_only
    exact ends_mono taken (fun pointer after _ => allowed pointer after) fun _ _ => id

end UnderTheLock

/-! ## A PML4 with the kernel's upper half -/

section Adoption

variable {roots held : Set Nat} {pmm : Pmm} {phys : Memory} {new model : Nat}

/-- What `vmm_new_pagemap` writes into its frame. -/
def adopted (phys : Memory) (new model : Nat) : Memory :=
  memcpy (memset phys new 0 (pageSize / 2)) (entryAddress new 256) (entryAddress model 256)
    (pageSize / 2)

theorem adopted_other (aligned : new % pageSize = 0) {address : Nat}
    (other : pageFloor address ≠ new) : adopted phys new model address = phys address := by
  unfold pageFloor pageSize at *
  rw [adopted, memcpy_apply_outside _ _ _ _ _ (by unfold entryAddress pageSize; omega),
    memset_apply, if_neg (by unfold pageSize; omega)]

theorem adopted_lower {digit : Nat} (lower : digit < 256) :
    entryAt (adopted phys new model) new digit = 0 := by
  apply load64_eq_zero
  intro position above below
  unfold entryAddress at above below
  rw [adopted, memcpy_apply_outside _ _ _ _ _ (by unfold entryAddress; omega), memset_apply,
    if_pos (by unfold pageSize; omega)]

theorem adopted_upper (aligned : new % pageSize = 0) (modelAligned : model % pageSize = 0)
    (different : model ≠ new) {digit : Nat} (upper : 256 ≤ digit) (small : digit < 512) :
    entryAt (adopted phys new model) new digit = entryAt phys model digit := by
  have apart : entryAddress model 256 + pageSize / 2 ≤ entryAddress new 256 ∨
      entryAddress new 256 + pageSize / 2 ≤ entryAddress model 256 := by
    unfold entryAddress pageSize at *
    omega
  have copied : ∀ index, index < 2048 →
      adopted phys new model (entryAddress new 256 + index) =
        phys (entryAddress model 256 + index) := by
    intro index inside
    rw [adopted, memcpy_apply_inside _ _ _ _ _ apart inside, memset_apply, if_neg]
    unfold entryAddress pageSize at *
    omega
  -- the two words are the same eight bytes, at the same offset in their pages
  apply load_shifted
  intro index inside
  have byte := copied (8 * (digit - 256) + index) (by omega)
  rw [← Nat.add_assoc, ← Nat.add_assoc] at byte
  have place : ∀ table, entryAddress table 256 + 8 * (digit - 256) = entryAddress table digit := by
    intro table
    unfold entryAddress
    omega
  rwa [place, place] at byte

section Joining

variable (tables : Tables roots (insert new held) pmm phys)

include tables

theorem adopt_kept : TablesKept roots phys (adopted phys new model) := by
  intro address isTable
  apply adopted_other (tables.heldFrames new (Set.mem_insert _ _)).aligned
  intro same
  rw [same] at isTable
  exact tables.apart new (Set.mem_insert _ _) isTable

theorem adopts_model (isModel : model ∈ roots) :
    Adopts (pageShape roots) (child (adopted phys new model)) new model := by
  have kept : TablesKept roots phys (adopted phys new model) := adopt_kept tables
  have frame := tables.heldFrames new (Set.mem_insert _ _)
  have modelTable : IsTable roots phys model := isTable_of_root isModel
  have different : model ≠ new := by
    rintro rfl
    exact tables.apart model (Set.mem_insert _ _) modelTable
  refine ⟨isModel, (tables.rewritten kept).apart new (Set.mem_insert _ _), ?_, ?_⟩
  · intro digit small upper
    rw [child, adopted_upper frame.aligned (tables.frames model modelTable).aligned different upper
      small]
    exact congrArg decode (tables.entry_kept kept modelTable small).symm
  · intro digit _ lower
    rw [child, adopted_lower (Nat.lt_of_not_le lower), decode_zero]

theorem tables_adopted (isModel : model ∈ roots) (fresh : new ∉ held) :
    Tables (insert new roots) held pmm (adopted phys new model) := by
  have rewritten : Tables roots (insert new held) pmm (adopted phys new model) :=
    tables.rewritten (adopt_kept tables)
  have adopts := adopts_model tables isModel
  refine ⟨adopts.separated rewritten.separated, adopts.coherent rewritten.coherent, ?_, ?_, ?_,
    rewritten.lowPage, rewritten.physical⟩
  · intro table isTable
    rcases adopts.inner isTable with rfl | old
    · exact tables.heldFrames table (Set.mem_insert _ _)
    · exact rewritten.frames table old
  · exact fun address owned => rewritten.heldFrames address (Set.mem_insert_of_mem _ owned)
  · intro address owned isTable
    rcases adopts.inner isTable with rfl | old
    · exact fresh owned
    · exact rewritten.apart address (Set.mem_insert_of_mem _ owned) old

theorem leaf_word_adopted (isModel : model ∈ roots) (fresh : new ∉ held) {page : Nat}
    (bounded : page < 512 ^ 4) :
    leafWord (adopted phys new model) new page =
      if UpperHalf page then leafWord phys model page else 0 := by
  have joined := tables_adopted tables isModel fresh
  split
  · next upper =>
      rw [leaf_shared joined (Set.mem_insert_of_mem _ isModel) (Set.mem_insert _ _) bounded upper]
      exact tables.leaf_kept (adopt_kept tables) isModel bounded
  · next lower =>
      have absent : tableAt (adopted phys new model) new 3 (page / 512) = none :=
        ((adopts_model tables isModel).walk 2 (page_table_key_lt bounded)).2
          fun shared => lower (shared_iff.mp shared)
      rw [leafWord, absent]
      rfl

end Joining

end Adoption

structure Created (roots held : Set Nat) (new : Nat) (before after : Machine) : Prop where
  tables : Tables (insert new roots) held after.pmm after.phys
  fresh : new ∉ roots
  bytes : ∀ address, pageFloor address ∈ held → after.phys address = before.phys address
  leaves : LeavesKept roots before.phys after.phys
  newLeaves : ∀ page, page < 512 ^ 4 → leafWord after.phys new page =
    if UpperHalf page then leafWord before.phys before.kernelPagemap page else 0
  upper : UpperKept roots before.phys after.phys
  free : freeSet after.pmm ⊆ freeSet before.pmm
  budget : (freeSet before.pmm).card ≤ (freeSet after.pmm).card + 1
  kernelPagemap : after.kernelPagemap = before.kernelPagemap
  hhdm : after.hhdm = before.hhdm
  highestPage : after.pmm.highestPage = before.pmm.highestPage
  heapStart : after.heap.start = before.heap.start
  heapSize : after.heap.size = before.heap.size
  locked : ∀ lock, lock ≠ .heap → after.locked lock = before.locked lock

structure Renewed (before : Machine) (page : Nat) (after : Machine) : Prop where
  member : page ∈ freeSet before.pmm
  pmm : after.pmm = (takePage before page).pmm
  phys : after.phys = adopted (takePage before page).phys (page * pageSize) before.kernelPagemap
  kernelPagemap : after.kernelPagemap = before.kernelPagemap
  hhdm : after.hhdm = before.hhdm
  heapStart : after.heap.start = before.heap.start
  heapSize : after.heap.size = before.heap.size
  locked : ∀ lock, lock ≠ .heap → after.locked lock = before.locked lock

theorem page_address_nonzero {page : Nat} (nonzero : page ≠ 0) : page * pageSize ≠ 0 :=
  Nat.mul_ne_zero nonzero (by decide)

def halfCreated (machine : Machine) (page : Nat) : Machine :=
  { takePage { machine with locked := Function.update machine.locked .vmm true } page with
    phys := adopted (takePage machine page).phys (page * pageSize) machine.kernelPagemap }

theorem half_created_vmm (machine : Machine) (page : Nat) :
    (halfCreated machine page).locked .vmm = true := by
  change Function.update machine.locked .vmm true .vmm = true
  rw [Function.update_self]

theorem half_created_lock {machine : Machine} {page : Nat} {lock : Lock} (other : lock ≠ .vmm) :
    (halfCreated machine page).locked lock = machine.locked lock := by
  change Function.update machine.locked .vmm true lock = machine.locked lock
  rw [Function.update_of_ne other]

def recordFilled (pml4 pointer : Nat) (machine : Machine) : Machine :=
  { withHeap machine machine.heap.head
      (store64 machine.heap.memory pointer (add64 pml4 machine.hhdm)) with
    locked := Function.update machine.locked .vmm false }

theorem ends_vmmNewPagemap_by {machine : Machine} {returned : Nat → Machine → Prop}
    {stopped : Stop → Machine → Prop} (lowPage : 0 ∉ freeSet machine.pmm)
    (unlockedPmm : machine.locked .pmm = false) (unlockedVmm : machine.locked .vmm = false)
    (full : freeSet machine.pmm = ∅ → ∀ after, stopped (.panic "out of memory in pmm_allocate!") after)
    (allocates : ∀ page, page ∈ freeSet machine.pmm →
      Ends (kmalloc 8) (fun pointer after =>
        returned (page * pageSize) (recordFilled (page * pageSize) pointer after)) stopped
        (halfCreated machine page)) :
    Ends vmmNewPagemap returned stopped machine := by
  rw [vmmNewPagemap, ends_bind, ends_spinLock, unlockedVmm, if_neg Bool.false_ne_true, ends_bind]
  let locked : Machine := { machine with locked := Function.update machine.locked .vmm true }
  have pmmOpen : locked.locked .pmm = false :=
    (Function.update_of_ne (show Lock.pmm ≠ .vmm by decide) true machine.locked).trans unlockedPmm
  apply ends_pmmAllocate pmmOpen _ fun none => full none _
  intro page least
  have nonzero : page * pageSize ≠ 0 :=
    page_address_nonzero fun zero => lowPage (zero ▸ least.1)
  rw [ends_bind, ends_require, if_pos nonzero, ends_bind, ends_modify, ends_bind, ends_modify,
    ends_bind]
  apply ends_mono (allocates page least.1) _ fun _ _ => id
  intro pointer after done
  rwa [ends_bind, ends_modify, ends_bind, ends_spinUnlock, ends_pure]

theorem ends_vmmNewPagemap_renewed {machine : Machine} (lowPage : 0 ∉ freeSet machine.pmm)
    (unlockedPmm : machine.locked .pmm = false) (unlockedVmm : machine.locked .vmm = false) :
    Ends vmmNewPagemap (fun new after => ∃ page, new = page * pageSize ∧ Renewed machine page after)
      (fun _ _ => True) machine := by
  apply ends_vmmNewPagemap_by lowPage unlockedPmm unlockedVmm fun _ _ => trivial
  intro page member
  apply ends_mono (ends_kmalloc_stuck (half_created_vmm machine page) 8) _ fun _ _ => id
  intro pointer filled only
  refine ⟨page, rfl, member, only.pmm, only.phys, only.kernelPagemap, only.hhdm, only.heapStart,
    only.heapSize, ?_⟩
  intro lock other
  by_cases own : lock = .vmm
  · rw [own, unlockedVmm]
    exact Function.update_self Lock.vmm false filled.locked
  · exact (Function.update_of_ne own _ _).trans
      ((only.locked lock other).trans (half_created_lock own))

section Creation

variable {roots held : Set Nat} {machine after : Machine} {page : Nat}

section

variable (renewed : Renewed machine page after)

include renewed

theorem Renewed.free : freeSet after.pmm = (freeSet machine.pmm).erase page := by
  rw [renewed.pmm, freeSet_takePage]

section

variable (tables : Tables roots held machine.pmm machine.phys)

include tables

theorem Renewed.created (isKernel : machine.kernelPagemap ∈ roots) :
    Created roots held (page * pageSize) machine after := by
  have member := renewed.member
  have taken := tables.take member
  have kept := tables.take_kept member
  have newFrame := taken.heldFrames _ (Set.mem_insert _ _)
  have fresh : page * pageSize ∉ held := tables.free_not_held member
  have joined := tables_adopted taken isKernel fresh
  refine ⟨?_, ?_, ?_, ?_, ?_, ?_, ?_, ?_, renewed.kernelPagemap, renewed.hhdm, ?_, renewed.heapStart,
    renewed.heapSize, renewed.locked⟩
  · rw [renewed.pmm, renewed.phys]
    exact joined
  · intro isRoot
    exact tables.free_not_table member (isTable_of_root isRoot)
  · intro address owned
    have other : pageFloor address ≠ page * pageSize := by
      intro same
      rw [same] at owned
      exact fresh owned
    rw [renewed.phys, adopted_other newFrame.aligned other, take_page_phys_other other]
  · intro root isRoot index bounded
    rw [renewed.phys, taken.leaf_kept (adopt_kept taken) isRoot bounded,
      tables.leaf_kept kept isRoot bounded]
  · intro index bounded
    rw [renewed.phys, leaf_word_adopted taken isKernel fresh bounded,
      tables.leaf_kept kept isKernel bounded]
  · rw [renewed.phys]
    exact (tables.upper_kept kept).trans (taken.upper_kept (adopt_kept taken))
  · rw [renewed.free]
    exact Finset.erase_subset _ _
  · rw [renewed.free]
    exact (Finset.card_erase_add_one member).ge
  · rw [renewed.pmm]
    rfl

theorem Renewed.table_kept {root level key : Nat} (isRoot : root ∈ roots) (shallow : level ≤ 4)
    (bounded : key < 512 ^ level) :
    tableAt after.phys root level key = tableAt machine.phys root level key := by
  have taken := tables.take renewed.member
  have kept := tables.take_kept renewed.member
  rw [renewed.phys]
  exact ((taken.agrees (adopt_kept taken)).walk isRoot shallow bounded).trans
    ((tables.agrees kept).walk isRoot shallow bounded)

theorem Renewed.table_none (isKernel : machine.kernelPagemap ∈ roots) {level key : Nat}
    (bounded : key < 512 ^ (level + 1)) (own : ¬SharedAt (level + 1) key) :
    tableAt after.phys (page * pageSize) (level + 1) key = none := by
  rw [renewed.phys]
  exact ((adopts_model (tables.take renewed.member) isKernel).walk level bounded).2 own

end

end

theorem ends_vmmNewPagemap (tables : Tables roots held machine.pmm machine.phys)
    (isKernel : machine.kernelPagemap ∈ roots) (unlockedPmm : machine.locked .pmm = false)
    (unlockedVmm : machine.locked .vmm = false) :
    Ends vmmNewPagemap (fun new after => Created roots held new machine after) (fun _ _ => True)
      machine := by
  apply ends_mono (ends_vmmNewPagemap_renewed tables.lowPage unlockedPmm unlockedVmm) _
    fun _ _ => id
  intro new after made
  obtain ⟨page, same, renewed⟩ := made
  rw [same]
  exact renewed.created tables isKernel

end Creation

theorem vmm_new_pagemap_returns {machine : Machine} (lowPage : 0 ∉ freeSet machine.pmm)
    (unlocked : machine.locked = fun _ => false) (frames : (freeSet machine.pmm).Nonempty)
    (some : machine.heap.head ≠ 0)
    (fits : requestSize 8 ≤ blockSize machine.heap.memory machine.heap.head) :
    Ends vmmNewPagemap (fun _ _ => True) (fun _ _ => False) machine := by
  have latch : ∀ lock, machine.locked lock = false := fun lock => congrFun unlocked lock
  apply ends_vmmNewPagemap_by lowPage (latch .pmm) (latch .vmm)
  · exact fun empty _ => frames.ne_empty empty
  · intro page _
    have heapOpen : (halfCreated machine page).locked .heap = false :=
      (half_created_lock (by decide)).trans (latch .heap)
    exact ends_kmalloc_first heapOpen some fits fun _ _ => trivial

end RiriaKernel.Pagemaps
