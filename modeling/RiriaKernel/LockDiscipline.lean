import RiriaKernel.UserProcesses

/-!
# Lock discipline

Which latches each function of the kernel takes and releases, whatever the page tables, the
free list and the bitmap hold. A stage says which latches are set and how many frames are
certainly free; a program is typed by the stage it starts in and the stage it returns in,
and by how it may stop.
-/

namespace RiriaKernel.LockDiscipline

open HaltingPrograms ConfinedPrograms KernelState PhysicalAllocator PageTables PageTableOperations
open KernelHeap KernelHeapLayouts ElfLoader UserProcesses

/-! ## Stages -/

structure Stage where
  locked : Lock → Bool
  frames : Nat

/-- The frame at address 0 is never free. -/
structure At (stage : Stage) (machine : Machine) : Prop where
  locked : machine.locked = stage.locked
  frames : stage.frames ≤ (freeSet machine.pmm).card
  lowPage : 0 ∉ freeSet machine.pmm

abbrev Latched {Value : Type} (stops : Stop → (Lock → Bool) → Prop) (before : Stage)
    (program : Kernel Value) (after : Stage) : Prop :=
  Typed At (fun stop result => stops stop result.locked) before program after

def Stage.take (stage : Stage) (lock : Lock) : Stage :=
  { stage with locked := Function.update stage.locked lock true }

def Stage.drop (stage : Stage) (lock : Lock) : Stage :=
  { stage with locked := Function.update stage.locked lock false }

/-- The stage after up to `count` calls of `pmm_allocate`. -/
def Stage.spend (stage : Stage) (count : Nat) : Stage :=
  { stage with frames := stage.frames - count }

theorem Stage.take_drop {stage : Stage} {lock : Lock} (free : stage.locked lock = false) :
    (stage.take lock).drop lock = stage := by
  rw [Stage.drop, Stage.take, Function.update_idem, ← free, Function.update_eq_self]

theorem Stage.take_other {stage : Stage} {lock other : Lock} (different : other ≠ lock) :
    (stage.take lock).locked other = stage.locked other :=
  Function.update_of_ne different _ _

section Rules

variable {Value : Type} {stops : Stop → (Lock → Bool) → Prop} {first second : Stage}

theorem latched_throw {stop : Stop} (allowed : stops stop first.locked) :
    Latched stops first (throw stop : Kernel Value) second := by
  apply typed_throw
  intro machine here
  rw [here.locked]
  exact allowed

theorem At.same {stage : Stage} {machine after : Machine} (here : At stage machine)
    (sameLocked : after.locked = machine.locked) (samePmm : after.pmm = machine.pmm) :
    At stage after := by
  refine ⟨sameLocked.trans here.locked, ?_, ?_⟩
  · rw [samePmm]
    exact here.frames
  · rw [samePmm]
    exact here.lowPage

theorem latched_spinLock {lock : Lock} (free : first.locked lock = false) :
    Latched stops first (spinLock lock) (first.take lock) := by
  intro machine here
  rw [ends_spinLock, here.locked, free, if_neg Bool.false_ne_true]
  exact ⟨rfl, here.frames, here.lowPage⟩

theorem latched_spinUnlock {lock : Lock} :
    Latched stops first (spinUnlock lock) (first.drop lock) := by
  intro machine here
  rw [ends_spinUnlock, here.locked]
  exact ⟨rfl, here.frames, here.lowPage⟩

end Rules

/-! ## The page allocator and the page tables -/

section Paging

variable {stops : Stop → (Lock → Bool) → Prop} {stage : Stage}

section

variable (free : stage.locked .pmm = false)

include free

theorem latched_pmmAllocate
    (full : 1 ≤ stage.frames ∨ ∀ message, stops (.panic message) stage.locked) :
    Latched stops stage pmmAllocate (stage.spend 1) := by
  intro machine here
  have unlocked : machine.locked .pmm = false := by rw [here.locked, free]
  apply ends_pmmAllocate unlocked
  · intro page least
    have freed : freeSet (takePage machine page).pmm = (freeSet machine.pmm).erase page :=
      freeSet_takePage machine page
    refine ⟨here.locked, ?_, ?_⟩
    · rw [freed, Finset.card_erase_of_mem least.1]
      exact Nat.sub_le_sub_right here.frames 1
    · rw [freed]
      exact fun member => here.lowPage (Finset.mem_of_mem_erase member)
  · intro empty
    have frames := here.frames
    rw [empty, Finset.card_empty] at frames
    rcases full with some | allowed
    · omega
    · rw [show machine.locked = stage.locked from here.locked]
      exact allowed _

theorem latched_pmmAllocate_nonzero
    (full : 1 ≤ stage.frames ∨ ∀ message, stops (.panic message) stage.locked) {machine : Machine}
    (here : At stage machine) :
    Ends pmmAllocate (fun page taken => At (stage.spend 1) taken ∧ page ≠ 0)
      (fun stop result => stops stop result.locked) machine := by
  have unlocked : machine.locked .pmm = false := by rw [here.locked, free]
  have nonzero : Ends pmmAllocate (fun page _ => page ≠ 0) (fun _ _ => True) machine := by
    apply ends_pmmAllocate unlocked
    · intro page least zero
      rcases Nat.mul_eq_zero.mp zero with first | size
      · exact here.lowPage (first ▸ least.1)
      · exact absurd size (by decide)
    · exact fun _ => trivial
  exact ends_mono (ends_and (latched_pmmAllocate free full machine here) nonzero) (fun _ _ => id)
    fun _ _ both => both.1

theorem latched_pmmFree {page : Nat} (refused : ∀ message, stops (.panic message) stage.locked) :
    Latched stops stage (pmmFree page) stage := by
  intro machine here
  have unlocked : machine.locked .pmm = false := by rw [here.locked, free]
  apply ends_pmmFree unlocked
  · intro nonzero aligned bounded _
    have grown := freeSet_returnPage bounded
    refine ⟨here.locked, ?_, ?_⟩
    · rw [grown]
      exact le_trans here.frames (Finset.card_le_card (Finset.subset_insert _ _))
    · rw [grown, Finset.mem_insert]
      rintro (zero | member)
      · have whole := Nat.div_mul_cancel (Nat.dvd_of_mod_eq_zero aligned)
        rw [← zero, Nat.zero_mul] at whole
        exact nonzero whole.symm
      · exact here.lowPage member
  · intro message
    rw [here.locked]
    exact refused message

end

theorem latched_vmmMapPage {pagemap virt phys flags : Nat} (freePmm : stage.locked .pmm = false)
    (freeVmm : stage.locked .vmm = false)
    (full : 3 ≤ stage.frames ∨ ∀ message, stops (.panic message) (stage.take .vmm).locked)
    (failed : pagemap = 0 → ∀ message, stops (.panic message) stage.locked) :
    Latched stops stage (vmmMapPage pagemap virt phys flags) (stage.spend 3) := by
  have pmmOpen : ∀ count, ((stage.take .vmm).spend count).locked .pmm = false := fun _ =>
    (Stage.take_other (show Lock.pmm ≠ .vmm by decide)).trans freePmm
  have enough : ∀ count, count < 3 → 1 ≤ ((stage.take .vmm).spend count).frames ∨
      ∀ message, stops (.panic message) ((stage.take .vmm).spend count).locked := by
    intro count few
    rcases full with many | allowed
    · refine Or.inl ?_
      change 1 ≤ stage.frames - count
      omega
    · exact Or.inr allowed
  have spent : ∀ count, ((stage.take .vmm).spend count).spend 1 = (stage.take .vmm).spend (count + 1) :=
    fun count => by simp only [Stage.spend, Stage.take, Nat.sub_sub]
  have dropped : ∀ count, ((stage.take .vmm).spend count).drop .vmm = stage.spend count := fun count =>
    congrArg (Stage.spend · count) (Stage.take_drop freeVmm)
  refine @typed_vmmMapPage Stage At _ (stage.take .vmm).spend stage (stage.spend 3) pagemap virt phys flags
    (latched_spinLock freeVmm) ?_ (fun _ _ _ here => here.same rfl rfl) ?_ ?_
  · intro count few machine here
    rw [← spent]
    refine ⟨⟨here.locked, (Nat.sub_le _ _).trans here.frames, here.lowPage⟩, ends_mono
      (latched_pmmAllocate_nonzero (pmmOpen count) (enough count few) here) ?_ fun _ _ => id⟩
    exact fun _ _ both => ⟨both.1, fun zero => absurd zero both.2⟩
  · intro null
    apply typed_bind latched_spinUnlock
    intro _
    apply latched_throw
    rw [show ((stage.take .vmm).spend 0).drop .vmm = stage from dropped 0]
    exact failed null _
  · rw [← dropped 3]
    exact latched_spinUnlock

end Paging

/-! ## Watched programs

No frames are counted from here on: whether one is left decides between returning and a panic.
-/

/-- What is watched of a machine, by the latches that are set. It does not see the memory and the
heap, a panic is allowed wherever it holds, and latches and returned frames keep it. -/
structure Watch where
  holds : (Lock → Bool) → Machine → Prop
  stops : Stop → Machine → Prop
  panics : ∀ {message locked machine}, holds locked machine → stops (.panic message) machine
  quiet : ∀ {locked} {machine after : Machine}, holds locked machine →
    after.locked = machine.locked → after.pmm = machine.pmm → holds locked after
  lock : ∀ {locked lock}, locked lock = false →
    Typed holds stops locked (spinLock lock) (Function.update locked lock true)
  unlock : ∀ {locked lock},
    Typed holds stops locked (spinUnlock lock) (Function.update locked lock false)
  free : ∀ {locked address}, locked .pmm = false → Typed holds stops locked (pmmFree address) locked

/-- Frames may be taken as well, and loops need not end. -/
structure Watch.Drawing (watch : Watch) : Prop where
  endless : ∀ {locked machine}, watch.holds locked machine → watch.stops .unbounded machine
  allocate : ∀ {locked}, locked .pmm = false →
    Typed watch.holds watch.stops locked pmmAllocate locked

/-- The latches of the page allocator and the page tables are free. -/
structure PagingOpen (locked : Lock → Bool) : Prop where
  pmm : locked .pmm = false
  vmm : locked .vmm = false

def unlatched : Lock → Bool := fun _ => false

theorem unlatched_open : PagingOpen unlatched := ⟨rfl, rfl⟩

theorem paging_open_heap : PagingOpen (Function.update unlatched .heap true) :=
  ⟨Function.update_of_ne (by decide) _ _, Function.update_of_ne (by decide) _ _⟩

namespace Watch

variable {watch : Watch} {locked : Lock → Bool}

abbrev Keeps {Value : Type} (watch : Watch) (locked : Lock → Bool) (program : Kernel Value) : Prop :=
  Typed watch.holds watch.stops locked program locked

theorem keeps_require {condition : Prop} [Decidable condition] {message : String} :
    watch.Keeps locked (require condition message) :=
  typed_ite (typed_pure _) (typed_throw fun _ => watch.panics)

theorem check {Next : Type} {after : Lock → Bool} {condition : Prop} [Decidable condition]
    {message : String} {rest : PUnit → Kernel Next}
    (tail : Typed watch.holds watch.stops locked (rest ⟨⟩) after) :
    Typed watch.holds watch.stops locked (require condition message >>= rest) after :=
  typed_bind keeps_require fun _ => tail

theorem keeps_modify {update : Machine → Machine}
    (sameLocked : ∀ machine, (update machine).locked = machine.locked)
    (samePmm : ∀ machine, (update machine).pmm = machine.pmm) :
    watch.Keeps locked (modify update) :=
  typed_modify fun machine here => watch.quiet here (sameLocked machine) (samePmm machine)

theorem release {lock : Lock} (free : locked lock = false) :
    Typed watch.holds watch.stops (Function.update locked lock true) (spinUnlock lock) locked := by
  have typed : Typed watch.holds watch.stops (Function.update locked lock true) (spinUnlock lock)
      (Function.update (Function.update locked lock true) lock false) := watch.unlock
  rwa [Function.update_idem, ← free, Function.update_eq_self] at typed

/-! ### Page tables -/

theorem keeps_readEntry {table index : Nat} : watch.Keeps locked (readEntry table index) :=
  typed_bind typed_get fun _ => typed_pure _

theorem keeps_writeEntry {table index value : Nat} :
    watch.Keeps locked (writeEntry table index value) :=
  keeps_modify (fun _ => rfl) fun _ => rfl

theorem keeps_look {table index flags : Nat} :
    watch.Keeps locked (vmmGetNextLevel table index false flags) := by
  intro machine here
  rwa [ends_next_level_read]

theorem keeps_vmmVirtToPhys {pagemap virt : Nat} :
    watch.Keeps locked (vmmVirtToPhys pagemap virt) := by
  intro machine here
  rwa [ends_vmmVirtToPhys]

theorem keeps_vmmMapPage (drawing : watch.Drawing) (paging : PagingOpen locked)
    {pagemap virt phys flags : Nat} : watch.Keeps locked (vmmMapPage pagemap virt phys flags) := by
  have pmmOpen : Function.update locked .vmm true .pmm = false :=
    (Function.update_of_ne (by decide) _ _).trans paging.pmm
  refine @typed_vmmMapPage _ _ _ (fun _ => Function.update locked .vmm true) _ _ _ _ _ _
    (watch.lock paging.vmm) ?_ (fun _ _ _ here => watch.quiet here rfl rfl) ?_ (release paging.vmm)
  · intro count _ machine here
    refine ⟨here, ends_mono (drawing.allocate pmmOpen machine here) ?_ fun _ _ => id⟩
    exact fun _ _ there => ⟨there, fun _ _ => watch.panics there⟩
  · exact fun _ => typed_bind (release paging.vmm) fun _ => typed_throw fun _ => watch.panics

theorem keeps_pruneTables (free : locked .pmm = false)
    {virt pml4 pdpt pd pt pdptEntry pdEntry ptEntry : Nat} :
    watch.Keeps locked (pruneTables virt pml4 pdpt pd pt pdptEntry pdEntry ptEntry) := by
  have prune : ∀ (table index entry : Nat) (rest : Kernel PUnit), watch.Keeps locked rest →
      watch.Keeps locked (do writeEntry table index 0; pmmFree entry; rest) :=
    fun _ _ _ _ tail => typed_bind keeps_writeEntry fun _ =>
      typed_bind (watch.free free) fun _ => tail
  apply typed_bind typed_get
  intro _
  apply typed_ite _ (typed_pure _)
  apply prune
  apply typed_bind typed_get
  intro _
  apply typed_ite _ (typed_pure _)
  apply prune
  apply typed_bind typed_get
  intro _
  apply typed_ite _ (typed_pure _)
  apply typed_ite (typed_pure _)
  exact typed_bind keeps_writeEntry fun _ => watch.free free

theorem keeps_vmmUnmapPage (paging : PagingOpen locked) {pagemap virt : Nat} :
    watch.Keeps locked (vmmUnmapPage pagemap virt) := by
  have pmmOpen : Function.update locked .vmm true .pmm = false :=
    (Function.update_of_ne (by decide) _ _).trans paging.pmm
  apply check
  apply typed_bind keeps_look
  rintro (_ | pdpt)
  · exact typed_pure _
  apply typed_bind keeps_readEntry
  intro pdptEntry
  apply typed_bind keeps_look
  rintro (_ | pd)
  · exact typed_pure _
  apply typed_bind keeps_readEntry
  intro pdEntry
  apply typed_bind keeps_look
  rintro (_ | pt)
  · exact typed_pure _
  apply typed_bind keeps_readEntry
  intro ptEntry
  apply typed_bind keeps_readEntry
  intro entry
  apply typed_ite (typed_pure _)
  apply typed_bind (watch.lock paging.vmm)
  intro _
  apply typed_bind keeps_writeEntry
  intro _
  apply typed_bind (keeps_pruneTables pmmOpen)
  intro _
  exact typed_bind (release paging.vmm) fun _ => typed_pure _

/-! ### The heap -/

theorem keeps_list_only {machine after : Machine} (only : ListOnly machine after)
    (here : watch.holds locked machine) : watch.holds locked after := by
  obtain ⟨head, memory, rfl⟩ := only
  exact watch.quiet here rfl rfl

theorem keeps_insertBlock {prev block : Nat} : watch.Keeps locked (insertBlock prev block) := by
  intro machine here
  have only : Ends (insertBlock prev block) (fun _ after => ListOnly machine after) watch.stops
      (withHeap machine machine.heap.head machine.heap.memory) := ends_insertBlock_only prev block
  exact ends_mono only (fun _ _ changed => keeps_list_only changed here) fun _ _ => id

theorem keeps_addRegion (drawing : watch.Drawing) {base size : Nat} :
    watch.Keeps locked (addRegion base size) := by
  intro machine here
  apply ends_mono (ends_addRegion_only base size)
  · rintro _ _ ⟨head, memory, rfl⟩
    exact watch.quiet here rfl rfl
  · rintro _ after ⟨rfl, only⟩
    exact drawing.endless (keeps_list_only only here)

theorem keeps_heapExpandPages (drawing : watch.Drawing) (paging : PagingOpen locked) {pages : Nat} :
    watch.Keeps locked (heapExpandPages pages) := by
  have expands : ∀ pagemap base index, watch.Keeps locked (expandPage pagemap base index) := by
    intro pagemap base index
    apply typed_bind (drawing.allocate paging.pmm)
    intro phys
    apply check
    exact typed_bind (keeps_vmmMapPage drawing paging) fun _ => keeps_require
  apply typed_ite (typed_pure _)
  apply typed_bind typed_get
  intro machine
  apply check
  apply check
  apply typed_bind (typed_forCount (expands _ _) _ _)
  intro _
  exact typed_bind (keeps_addRegion drawing) fun _ => typed_pure _

theorem typed_takeBlock {total prev curr : Nat} :
    Typed watch.holds watch.stops locked (takeBlock total prev curr)
      (Function.update locked .heap false) := by
  intro machine here
  have released : ∀ head memory, Ends (do spinUnlock .heap; return add64 curr headerSize)
      (fun _ result => watch.holds (Function.update locked .heap false) result) watch.stops
      (withHeap machine head memory) :=
    fun _ _ => typed_bind watch.unlock (fun _ => typed_pure _) _ (watch.quiet here rfl rfl)
  rw [← withHeap_self machine]
  simp only [takeBlock, ends_bind, ends_getSize, ends_ite, ends_getNext, ends_setBlockSize,
    ends_setBlockNext, ends_setLink]
  split
  · exact (ends_bind _ _).mp (released _ _)
  · exact (ends_bind _ _).mp (released _ _)

section

variable (drawing : watch.Drawing)

include drawing

theorem keeps_growForRequest (paging : PagingOpen locked) : watch.Keeps locked growForRequest := by
  apply typed_bind (keeps_heapExpandPages drawing paging)
  intro grown
  apply typed_ite _ (typed_pure _)
  apply typed_bind (keeps_heapExpandPages drawing paging)
  intro single
  apply typed_ite _ (typed_pure _)
  exact typed_bind watch.unlock fun _ => typed_throw fun _ => watch.panics

theorem typed_tryAllocate (paging : PagingOpen locked) (total fuel curr : Nat) :
    Typed watch.holds watch.stops locked (tryAllocate total fuel curr)
      (Function.update locked .heap false) := by
  induction fuel generalizing curr with
  | zero => exact typed_throw fun _ => drawing.endless
  | succ fuel induction =>
    apply typed_bind typed_get
    intro machine
    cases findFit machine.heap.memory total (walkBound machine.heap) 0 curr with
    | fits prev found => exact typed_takeBlock
    | unbounded => exact typed_throw fun _ => drawing.endless
    | exhausted =>
      apply typed_bind (keeps_growForRequest drawing paging)
      intro _
      exact typed_bind typed_get fun grown => induction grown.heap.head

theorem keeps_kmalloc {size : Nat} : watch.Keeps unlatched (kmalloc size) := by
  apply typed_ite (typed_pure _)
  apply typed_bind typed_get
  intro machine
  apply typed_bind (watch.lock rfl)
  intro _
  have typed := typed_tryAllocate drawing paging_open_heap (requestSize size)
    (retryBound machine.pmm) machine.heap.head
  rwa [Function.update_idem, show false = unlatched .heap from rfl, Function.update_eq_self] at typed

theorem keeps_kmallocPhys {size : Nat} {wantPhys : Bool} :
    watch.Keeps unlatched (kmallocPhys size wantPhys) := by
  apply typed_ite (typed_pure _)
  apply typed_bind (keeps_kmalloc drawing)
  intro virtAddr
  apply check
  apply typed_ite _ (typed_pure _)
  apply typed_bind typed_get
  intro machine
  apply typed_bind keeps_vmmVirtToPhys
  intro physAddr
  exact check (typed_pure _)

theorem keeps_kfree {ptr : Nat} : watch.Keeps unlatched (kfree ptr) := by
  apply typed_ite (typed_pure _)
  apply typed_bind typed_get
  intro machine
  iterate 3 apply check
  apply typed_bind (watch.lock rfl)
  intro _
  cases walkBelow machine.heap.memory (sub64 ptr headerSize) (walkBound machine.heap) 0
      machine.heap.head with
  | none => exact typed_throw fun _ => drawing.endless
  | some prev =>
    refine typed_bind (keeps_modify (fun _ => rfl) fun _ => rfl) fun _ => ?_
    exact typed_bind keeps_insertBlock fun _ => release rfl

end

/-! ### The loader -/

theorem keeps_fillLoop (drawing : watch.Drawing) {pagemap virt len : Nat} {message : String}
    {fill : Nat → Nat → Nat → Kernel PUnit}
    (fills : ∀ filled dest chunk, watch.Keeps locked (fill filled dest chunk)) (fuel filled : Nat) :
    watch.Keeps locked (fillLoop pagemap virt len message fill fuel filled) := by
  induction fuel generalizing filled with
  | zero => exact typed_throw fun _ => drawing.endless
  | succ fuel induction =>
    apply typed_ite _ (typed_pure _)
    apply typed_bind keeps_vmmVirtToPhys
    intro currPhys
    apply check
    exact typed_bind (fills _ _ _) fun _ => induction _

theorem keeps_underVmm {body : Kernel PUnit}
    (typed : watch.Keeps (Function.update unlatched .vmm true) body) :
    watch.Keeps unlatched (do spinLock .vmm; body; spinUnlock .vmm) := by
  apply typed_bind (watch.lock rfl)
  intro _
  exact typed_bind typed fun _ => release rfl

/-- What is watched of the machine is watched of the caller. -/
abbrev OfCaller {Value : Type} (watch : Watch) (program : User Value) : Prop :=
  Typed (fun _ : Unit => fun caller : Caller => watch.holds unlatched caller.machine)
    (fun stop caller => watch.stops stop caller.machine) () program ()

theorem of_caller_kernel {Value : Type} {program : Kernel Value}
    (keeps : watch.Keeps unlatched program) : OfCaller watch (kernel program) := by
  intro caller here
  rw [ends_kernel]
  exact keeps caller.machine here

section

variable (drawing : watch.Drawing)

include drawing

theorem keeps_vmmMapCopy {pagemap virt src len : Nat} {image : Image} :
    watch.Keeps unlatched (vmmMapCopy pagemap virt image src len) := by
  apply keeps_underVmm
  apply keeps_fillLoop drawing
  exact fun _ _ _ => keeps_modify (fun _ => rfl) fun _ => rfl

theorem keeps_vmmMapZero {pagemap virt len : Nat} :
    watch.Keeps unlatched (vmmMapZero pagemap virt len) := by
  apply keeps_underVmm
  apply keeps_fillLoop drawing
  exact fun _ _ _ => keeps_modify (fun _ => rfl) fun _ => rfl

theorem keeps_mapSegment {pagemap flags endPage : Nat} (fuel addr : Nat) :
    watch.Keeps unlatched (mapSegment pagemap flags endPage fuel addr) := by
  induction fuel generalizing addr with
  | zero => exact typed_throw fun _ => drawing.endless
  | succ fuel induction =>
    apply typed_ite _ (typed_pure _)
    apply typed_bind keeps_vmmVirtToPhys
    intro exitingPhys
    apply check
    apply typed_bind (drawing.allocate rfl)
    intro page
    apply check
    exact typed_bind (keeps_vmmMapPage drawing unlatched_open) fun _ => induction _

theorem keeps_fillSegment {pagemap elfData len phStart vaddr memsz : Nat} {image : Image} :
    watch.Keeps unlatched (fillSegment pagemap elfData image len phStart vaddr memsz) := by
  iterate 5 apply check
  apply typed_bind (keeps_vmmMapCopy drawing)
  exact fun _ => typed_ite (keeps_vmmMapZero drawing) (typed_pure _)

theorem keeps_loadSegment {pagemap elfData len phStart : Nat} {image : Image} :
    watch.Keeps unlatched (loadSegment pagemap elfData image len phStart) := by
  iterate 5 apply check
  apply typed_bind (keeps_mapSegment drawing _ _)
  intro _
  exact typed_bind (keeps_fillSegment drawing) fun _ => typed_pure _

theorem keeps_loadHeaders {pagemap elfData len phOffset : Nat} {image : Image} (count index : Nat)
    (bounds : Bounds) :
    watch.Keeps unlatched (loadHeaders pagemap elfData image len phOffset count index bounds) := by
  induction count generalizing index bounds with
  | zero => exact typed_pure _
  | succ count induction =>
    iterate 3 apply check
    apply typed_ite (induction _ _)
    exact typed_bind (keeps_loadSegment drawing) fun _ => induction _ _

theorem keeps_elf64Load {pagemap elfData len : Nat} {image : Image} :
    watch.Keeps unlatched (elf64Load pagemap elfData image len) := by
  iterate 6 apply check
  exact typed_bind (keeps_loadHeaders drawing _ _ _) fun _ => typed_pure _

theorem of_caller_mapFaultPage (pageAddr : Nat) : OfCaller watch (mapFaultPage pageAddr) := by
  apply typed_bind (of_caller_kernel (drawing.allocate rfl))
  intro _
  apply typed_bind typed_get
  intro _
  exact typed_bind (of_caller_kernel (keeps_vmmMapPage drawing unlatched_open)) fun _ =>
    typed_pure _

theorem of_caller_vmmPagefault (faultAddr cs : Nat) :
    OfCaller watch (vmmPagefault faultAddr cs) := by
  have mask : OfCaller watch (kernel irqOff) :=
    of_caller_kernel (keeps_modify (fun _ => rfl) fun _ => rfl)
  have resume : ∀ outcome : FaultOutcome, OfCaller watch (do kernel irqResume; return outcome) :=
    fun _ => typed_bind (of_caller_kernel (keeps_modify (fun _ => rfl) fun _ => rfl)) fun _ =>
      typed_pure _
  apply typed_bind mask
  intro _
  apply typed_bind typed_get
  intro _
  apply typed_bind (of_caller_kernel keeps_require)
  intro _
  apply typed_ite
  · apply typed_bind (of_caller_mapFaultPage drawing _)
    intro _
    exact typed_ite (typed_bind (typed_modify fun _ here => here) fun _ => resume _) (resume _)
  · apply typed_ite
    · exact typed_bind (of_caller_mapFaultPage drawing _) fun _ => resume _
    · exact typed_ite (resume _) (of_caller_kernel (typed_throw fun _ => watch.panics))

theorem keeps_storeZero {current : Option UserProcess} {address : Nat} (fuel : Nat) :
    watch.Keeps unlatched (storeZero current address fuel) := by
  induction fuel with
  | zero => exact typed_throw fun _ => drawing.endless
  | succ fuel induction =>
    apply typed_bind typed_get
    intro _
    apply typed_bind keeps_vmmVirtToPhys
    intro _
    apply typed_ite
    · exact keeps_modify (fun _ => rfl) fun _ => rfl
    · refine typed_bind ?_ fun _ => induction
      cases current with
      | none =>
        have masks : watch.Keeps unlatched irqOff := keeps_modify (fun _ => rfl) fun _ => rfl
        exact typed_bind masks fun _ => typed_throw fun _ => watch.panics
      | some process =>
        refine typed_bind (fun machine here => ?_) fun _ => typed_pure _
        rw [ends_asProcess]
        exact of_caller_vmmPagefault drawing _ _ ⟨machine, process⟩ here

theorem keeps_spawnInto {current : Option UserProcess} {pagemap elfData len : Nat} {image : Image} :
    watch.Keeps unlatched (spawnInto current pagemap elfData image len) := by
  have fresh : ∀ stop fuel i, watch.Keeps unlatched (mapFresh pagemap stop userFlags fuel i) := by
    intro stop fuel
    induction fuel with
    | zero => exact fun _ => typed_throw fun _ => drawing.endless
    | succ fuel induction =>
      intro i
      apply typed_ite _ (typed_pure _)
      apply typed_bind (drawing.allocate rfl)
      intro page
      exact typed_bind (keeps_vmmMapPage drawing unlatched_open) fun _ => induction _
  apply typed_bind (keeps_elf64Load drawing)
  intro elf
  apply typed_bind (drawing.allocate rfl)
  intro heapPage
  apply typed_bind (keeps_vmmMapPage drawing unlatched_open)
  intro _
  apply typed_bind (typed_forCount (fun _ => keeps_storeZero drawing _) _ _)
  intro _
  apply typed_bind (fresh _ _ _)
  intro _
  -- the three blocks of `process_create_user`
  apply check
  apply typed_bind (keeps_kmalloc drawing)
  intro newProcess
  apply check
  apply typed_bind (keeps_kmalloc drawing)
  intro stack
  apply check
  exact typed_bind (keeps_kmalloc drawing) fun _ => typed_pure _

theorem keeps_reapMemory {process : UserProcess} : watch.Keeps unlatched (reapMemory process) := by
  have unmapped : ∀ stop fuel addr,
      watch.Keeps unlatched (unmapRange process.pagemap stop fuel addr) := by
    intro stop fuel
    induction fuel with
    | zero => exact fun _ => typed_throw fun _ => drawing.endless
    | succ fuel induction =>
      intro addr
      apply typed_ite _ (typed_pure _)
      exact typed_bind (keeps_vmmUnmapPage unlatched_open) fun _ => induction _
  have freed : watch.Keeps unlatched (do
      kfree process.stack
      kfree process.process
      kfree process.node) :=
    typed_bind (keeps_kfree drawing) fun _ =>
      typed_bind (keeps_kfree drawing) fun _ => keeps_kfree drawing
  apply typed_bind (unmapped _ _ _)
  intro _
  exact typed_ite (typed_bind (unmapped _ _ _) fun _ => freed) freed

end

end Watch

/-! ## Watching the latches -/

/-- A stage in which nothing is known about frames. -/
def bare (locked : Lock → Bool) : Stage := ⟨locked, 0⟩

/-- The latches that are set, with panics among the allowed stops. -/
def latchWatch (stops : Stop → (Lock → Bool) → Prop)
    (panics : ∀ message locked, stops (.panic message) locked) : Watch where
  holds locked := At (bare locked)
  stops stop machine := stops stop machine.locked
  panics := fun _ => panics _ _
  quiet := At.same
  lock := fun free => latched_spinLock free
  unlock := latched_spinUnlock
  free := fun free => latched_pmmFree free fun message => panics message _

theorem latch_watch_drawing {stops : Stop → (Lock → Bool) → Prop}
    {panics : ∀ message locked, stops (.panic message) locked}
    (endless : ∀ locked, stops .unbounded locked) : (latchWatch stops panics).Drawing where
  endless := fun _ => endless _
  allocate := by
    intro locked free
    have typed : Latched stops (bare locked) pmmAllocate ((bare locked).spend 1) :=
      latched_pmmAllocate free (Or.inr fun message => panics message _)
    rwa [Stage.spend, bare, Nat.zero_sub] at typed

end RiriaKernel.LockDiscipline
