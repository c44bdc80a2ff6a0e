import RiriaKernel.KernelHeapRuns
import RiriaKernel.LockDiscipline

/-!
# Creating pagemaps and the latches

`vmm_new_pagemap` allocates the record of the new pagemap while it holds the latch of the
page tables. If the free list has no block for it, the heap grows, and growing maps pages
under the same latch. All other calls take their latches in an order that never meets.
-/

namespace RiriaKernel.PagemapLatches

open HaltingPrograms KernelState PhysicalAllocator PageTables RegionLayouts KernelHeap
  KernelHeapLayouts KernelHeapTables KernelHeapRuns Pagemaps ElfLoader UserProcesses LockDiscipline
  ConfinedPrograms

/-! ## Allocating under the latch of the page tables -/

def scan (heap : Heap) (total : Nat) : Search :=
  findFit heap.memory total (walkBound heap) 0 heap.head

section NewPagemap

variable {stops : Stop → (Lock → Bool) → Prop} {locked : Lock → Bool} {machine : Machine}

/-- `kmalloc` releases its latch without growing the heap if the free list has a block that
fits. -/
theorem ends_kmalloc_scan (here : At (bare locked) machine) (free : locked .heap = false)
    (panics : ∀ message locked, stops (.panic message) locked)
    (endless : ∀ locked, stops .unbounded locked) {size : Nat}
    (fits : scan machine.heap (requestSize size) ≠ .exhausted) :
    Ends (kmalloc size) (fun _ after => At (bare locked) after)
      (fun stop after => stops stop after.locked) machine := by
  have unlocked : machine.locked .heap = false := by rw [here.locked]; exact free
  let taken : Machine := { machine with locked := Function.update machine.locked .heap true }
  have there : At (bare (Function.update locked .heap true)) taken := by
    refine ⟨?_, here.frames, here.lowPage⟩
    change Function.update machine.locked .heap true = _
    rw [here.locked]
    rfl
  rw [kmalloc, ends_ite]
  split
  · rwa [ends_pure]
  · rw [ends_bind, ends_get, ends_bind, ends_spinLock, unlocked, if_neg Bool.false_ne_true, retryBound]
    have search : findFit taken.heap.memory (requestSize size) (walkBound taken.heap) 0
        machine.heap.head = scan machine.heap (requestSize size) := rfl
    apply ends_tryAllocate_round search
    · intro prev found _
      have typed := @Watch.typed_takeBlock (latchWatch stops panics)
        (Function.update locked .heap true) (requestSize size) prev found
      rw [Function.update_idem, ← free, Function.update_eq_self] at typed
      exact typed taken there
    · exact fun _ => endless _
    · exact fun exhausted => absurd exhausted fits

/-- Otherwise the heap grows, and a call that is made under the latch of the page tables
spins on that latch. -/
theorem ends_kmalloc_spins (busy : machine.locked .vmm = true) (unlocked : machine.locked .heap = false)
    (openPmm : machine.locked .pmm = false) (lowPage : 0 ∉ freeSet machine.pmm)
    (frames : (freeSet machine.pmm).Nonempty) (start : machine.heap.start % pageSize = 0)
    (pages : machine.heap.size % pageSize = 0) {size : Nat} (some : size ≠ 0)
    (exhausted : scan machine.heap (requestSize size) = .exhausted) :
    Ends (kmalloc size) (fun _ _ => False) (fun stop _ => stop = .spin .vmm) machine := by
  let taken : Machine := { machine with locked := Function.update machine.locked .heap true }
  have pmmFree : taken.locked .pmm = false :=
    (Function.update_of_ne (show Lock.pmm ≠ .heap by decide) true machine.locked).trans openPmm
  have vmmBusy : taken.locked .vmm = true :=
    (Function.update_of_ne (show Lock.vmm ≠ .heap by decide) true machine.locked).trans busy
  have expands : ∀ pagemap base index,
      Ends (expandPage pagemap base index) (fun _ _ => False) (fun stop _ => stop = .spin .vmm)
        taken := by
    intro pagemap base index
    rw [expandPage, ends_bind]
    apply ends_pmmAllocate pmmFree
    · intro page least
      have nonzero : page * pageSize ≠ 0 := by
        intro zero
        rcases Nat.mul_eq_zero.mp zero with first | empty
        · exact lowPage (first ▸ least.1)
        · exact absurd empty (by decide)
      have stillBusy : (takePage taken page).locked .vmm = true := vmmBusy
      rw [ends_bind, ends_require, if_pos nonzero, ends_bind, vmmMapPage, ends_bind, ends_spinLock,
        stillBusy, if_pos rfl]
    · intro none
      exact absurd none frames.ne_empty
  rw [kmalloc, if_neg some, ends_bind, ends_get, ends_bind, ends_spinLock, unlocked,
    if_neg Bool.false_ne_true, retryBound]
  refine @ends_tryAllocate_round taken _ _ _ _ _ _ exhausted
    (fun _ _ => Search.noConfusion) Search.noConfusion fun _ => ?_
  have tooMany : ¬16 = 0 := by decide
  rw [growForRequest, ends_bind, heapExpandPages, if_neg tooMany, ends_bind, ends_get,
    ends_bind, ends_assertThat, if_pos start, ends_bind, ends_assertThat, if_pos pages, ends_bind,
    forCount, ends_bind]
  apply ends_mono (expands _ _ _)
  · exact fun _ _ => False.elim
  · exact fun _ _ => id

theorem ends_vmmNewPagemap_malloc {stopped : Stop → Machine → Prop} {frames : Nat} {possible : Prop}
    (here : At ⟨unlatched, frames⟩ machine)
    (full : frames = 0 → ∀ message after, stopped (.panic message) after)
    (allocates : ∀ ready, ready.heap = machine.heap →
      At ((⟨unlatched, frames - 1⟩ : Stage).take .vmm) ready →
      Ends (kmalloc 8) (fun _ after => At ((bare unlatched).take .vmm) after ∧ possible) stopped
        ready) :
    Ends vmmNewPagemap (fun _ after => At (bare unlatched) after ∧ possible) stopped machine := by
  have unlocked : ∀ lock, machine.locked lock = false := fun lock => by rw [here.locked]; rfl
  apply ends_vmmNewPagemap_by here.lowPage (unlocked .pmm) (unlocked .vmm)
  · intro empty after
    have known := here.frames
    rw [empty, Finset.card_empty] at known
    exact full (Nat.le_zero.mp known) _ _
  intro page member
  have freed : freeSet (halfCreated machine page).pmm = (freeSet machine.pmm).erase page :=
    freeSet_takePage machine page
  have there : At ((⟨unlatched, frames - 1⟩ : Stage).take .vmm) (halfCreated machine page) := by
    refine ⟨?_, ?_, ?_⟩
    · change Function.update machine.locked .vmm true = _
      rw [here.locked]
      rfl
    · rw [freed, Finset.card_erase_of_mem member]
      exact Nat.sub_le_sub_right here.frames 1
    · rw [freed]
      exact fun low => here.lowPage (Finset.mem_of_mem_erase low)
  apply ends_mono (allocates (halfCreated machine page) rfl there) _ fun _ _ => id
  rintro pointer after ⟨kept, reached⟩
  refine ⟨⟨?_, Nat.zero_le _, kept.lowPage⟩, reached⟩
  change Function.update after.locked .vmm false = unlatched
  rw [kept.locked]
  exact congrArg Stage.locked (Stage.take_drop (show (bare unlatched).locked .vmm = false from rfl))

end NewPagemap

/-! ## The calls -/

inductive Call
  | vmmNewPagemap
  | vmmMapPage (pagemap virt phys flags : Nat)
  | vmmUnmapPage (pagemap virt : Nat)
  | vmmMapCopy (pagemap virt : Nat) (image : Image) (src len : Nat)
  | vmmMapZero (pagemap virt len : Nat)
  | kmalloc (size : Nat)
  | kmallocPhys (size : Nat) (wantPhys : Bool)
  | kfree (ptr : Nat)
  | elf64Load (pagemap elfData : Nat) (image : Image) (len : Nat)
  | processSpawnElf (current : Option UserProcess) (elfData : Nat) (image : Image) (len : Nat)

def discard {Value : Type} (program : Kernel Value) : Kernel PUnit := do
  let _ ← program

def Call.run : Call → Kernel PUnit
  | .vmmNewPagemap => discard Pagemaps.vmmNewPagemap
  | .vmmMapPage pagemap virt phys flags => discard (PageTables.vmmMapPage pagemap virt phys flags)
  | .vmmUnmapPage pagemap virt => discard (PageTables.vmmUnmapPage pagemap virt)
  | .vmmMapCopy pagemap virt image src len => ElfLoader.vmmMapCopy pagemap virt image src len
  | .vmmMapZero pagemap virt len => ElfLoader.vmmMapZero pagemap virt len
  | .kmalloc size => discard (KernelHeap.kmalloc size)
  | .kmallocPhys size wantPhys => discard (KernelHeap.kmallocPhys size wantPhys)
  | .kfree ptr => KernelHeap.kfree ptr
  | .elf64Load pagemap elfData image len => discard (ElfLoader.elf64Load pagemap elfData image len)
  | .processSpawnElf current elfData image len =>
      discard (UserProcesses.processSpawnElf current elfData image len)

/-- The calls that create a pagemap, and allocate its record under the latch of the page
tables. -/
def Call.createsPagemap : Call → Bool
  | .vmmNewPagemap => true
  | .processSpawnElf _ _ _ _ => true
  | _ => false

def LatchesFree (program : Kernel PUnit) (machine : Machine) : Prop :=
  Ends program (fun _ after => after.locked = unlatched) (fun stop _ => ∀ lock, stop ≠ .spin lock)
    machine

def noSpin (stop : Stop) (_ : Lock → Bool) : Prop := ∀ lock, stop ≠ .spin lock

def noSpinWatch : Watch := latchWatch noSpin fun _ _ _ => Stop.noConfusion

theorem no_spin_drawing : noSpinWatch.Drawing := latch_watch_drawing fun _ _ => Stop.noConfusion

section Calls

variable {Value : Type} {machine : Machine}

theorem keeps_discard {program : Kernel Value} (keeps : noSpinWatch.Keeps unlatched program) :
    noSpinWatch.Keeps unlatched (discard program) :=
  typed_bind keeps fun _ => typed_pure _

theorem latches_free_of_keeps (here : At (bare unlatched) machine) {program : Kernel PUnit}
    (keeps : noSpinWatch.Keeps unlatched program) : LatchesFree program machine :=
  ends_mono (keeps machine here) (fun _ _ there => there.locked) fun _ _ => id

theorem keeps_call (call : Call) (plain : call.createsPagemap = false) :
    noSpinWatch.Keeps unlatched call.run := by
  have drawing := no_spin_drawing
  cases call with
  | vmmNewPagemap => cases plain
  | processSpawnElf current elfData image len => cases plain
  | vmmMapPage pagemap virt phys flags =>
    exact keeps_discard (Watch.keeps_vmmMapPage drawing unlatched_open)
  | vmmUnmapPage pagemap virt => exact keeps_discard (Watch.keeps_vmmUnmapPage unlatched_open)
  | vmmMapCopy pagemap virt image src len => exact Watch.keeps_vmmMapCopy drawing
  | vmmMapZero pagemap virt len => exact Watch.keeps_vmmMapZero drawing
  | kmalloc size => exact keeps_discard (Watch.keeps_kmalloc drawing)
  | kmallocPhys size wantPhys => exact keeps_discard (Watch.keeps_kmallocPhys drawing)
  | kfree ptr => exact Watch.keeps_kfree drawing
  | elf64Load pagemap elfData image len => exact keeps_discard (Watch.keeps_elf64Load drawing)

theorem creating_call (call : Call) (creates : call.createsPagemap = true) :
    ∃ rest : Nat → Kernel PUnit, call.run = Pagemaps.vmmNewPagemap >>= rest ∧
      ∀ pagemap, noSpinWatch.Keeps unlatched (rest pagemap) := by
  cases call with
  | vmmNewPagemap => exact ⟨_, rfl, fun _ => typed_pure _⟩
  | processSpawnElf current elfData image len =>
    refine ⟨fun pagemap => discard (spawnInto current pagemap elfData image len), ?_,
      fun pagemap => keeps_discard (Watch.keeps_spawnInto no_spin_drawing)⟩
    rw [Call.run, discard, UserProcesses.processSpawnElf, bind_assoc]
    rfl
  | _ => cases creates

theorem latches_free_of_scan (here : At (bare unlatched) machine) {call : Call}
    (creates : call.createsPagemap = true)
    (fits : scan machine.heap (requestSize 8) ≠ .exhausted) : LatchesFree call.run machine := by
  obtain ⟨rest, whole, typed⟩ := creating_call call creates
  have created : Ends Pagemaps.vmmNewPagemap (fun _ after => At (bare unlatched) after ∧ True)
      (fun stop after => noSpin stop after.locked) machine := by
    apply ends_vmmNewPagemap_malloc here
    · exact fun _ message _ => fun _ => Stop.noConfusion
    · intro ready sameHeap there
      apply ends_mono (@ends_kmalloc_scan noSpin _ ready there rfl (fun _ _ _ => Stop.noConfusion)
        (fun _ _ => Stop.noConfusion) _ (sameHeap ▸ fits))
      · exact fun _ _ kept => ⟨kept, trivial⟩
      · exact fun _ _ => id
  rw [LatchesFree, whole, ends_bind]
  apply ends_mono created _ fun _ _ => id
  intro pagemap after there
  exact latches_free_of_keeps there.1 (typed pagemap)

theorem spins_of_scan (here : At ⟨unlatched, 2⟩ machine) {call : Call}
    (creates : call.createsPagemap = true) (start : machine.heap.start % pageSize = 0)
    (pages : machine.heap.size % pageSize = 0)
    (exhausted : scan machine.heap (requestSize 8) = .exhausted) :
    Ends call.run (fun _ _ => False) (fun stop _ => stop = .spin .vmm) machine := by
  obtain ⟨rest, whole, -⟩ := creating_call call creates
  have spins : Ends Pagemaps.vmmNewPagemap (fun _ after => At (bare unlatched) after ∧ False)
      (fun stop _ => stop = .spin .vmm) machine := by
    apply ends_vmmNewPagemap_malloc here
    · intro zero
      exact absurd zero (by decide)
    · intro ready sameHeap there
      have busy : ready.locked .vmm = true := by rw [there.locked]; rfl
      have heapOpen : ready.locked .heap = false := by rw [there.locked]; rfl
      have pmmOpen : ready.locked .pmm = false := by rw [there.locked]; rfl
      have frames : (freeSet ready.pmm).Nonempty := Finset.card_pos.mp there.frames
      rw [← sameHeap] at start pages exhausted
      apply ends_mono (ends_kmalloc_spins busy heapOpen pmmOpen there.lowPage frames start pages
        (by decide) exhausted)
      · exact fun _ _ => False.elim
      · exact fun _ _ => id
  rw [whole, ends_bind]
  apply ends_mono spins
  · exact fun _ _ impossible => impossible.2.elim
  · exact fun _ _ => id

/-- In every reachable state of the heap, with frames left, a call finds every latch free
that it takes and leaves all of them free if and only if it creates no pagemap or the free
list has a block for the record of the pagemap. -/
theorem latches_free_iff_block {live : List Block} {owned : Finset Nat}
    (run : HeapRun machine live owned) (unlocked : machine.locked = unlatched)
    (lowPage : 0 ∉ freeSet machine.pmm) (frames : 2 ≤ (freeSet machine.pmm).card) (call : Call) :
    LatchesFree call.run machine ↔
      (call.createsPagemap = true →
        ∃ prev block, scan machine.heap (requestSize 8) = .fits prev block) := by
  have here : At (bare unlatched) machine := ⟨unlocked, Nat.zero_le _, lowPage⟩
  obtain ⟨segments, sound⟩ := KernelHeapRuns.sound_of_run run
  have layout := sound.layout
  have cases : (∃ prev block, scan machine.heap (requestSize 8) = .fits prev block) ∨
      scan machine.heap (requestSize 8) = .exhausted := by
    rw [scan, layout.holds.head]
    rcases find_fit_cases (by decide) layout.holds.encodes (walk_bound_enough layout) with
      ⟨front, size, back, -, -, found⟩ | exhausted
    · exact Or.inl ⟨_, _, found⟩
    · exact Or.inr exhausted
  constructor
  · intro free creates
    rcases cases with fits | exhausted
    · exact fits
    · have start : machine.heap.start % pageSize = 0 := by
        rw [layout.start]
        decide
      have spins := spins_of_scan ⟨unlocked, frames, lowPage⟩ creates start layout.pages exhausted
      obtain ⟨stop, after, stops, rfl⟩ := spins.exists_error
      exact absurd rfl (free.stops stops .vmm)
  · intro fits
    cases plain : call.createsPagemap with
    | false => exact latches_free_of_keeps here (keeps_call call plain)
    | true =>
      obtain ⟨prev, block, found⟩ := fits plain
      exact latches_free_of_scan here plain (by rw [found]; exact Search.noConfusion)

end Calls

/-- There a process can be created. -/
theorem latches_free_iff_block_installed : ∃ machine, machine.locked = unlatched ∧
    LatchesFree Call.vmmNewPagemap.run machine := by
  obtain ⟨machine, installed⟩ := small_heap_installs
  obtain ⟨owned, run, unlocked, lowPage, frames, head, size, block, -⟩ := small_heap installed
  refine ⟨machine, unlocked, (latches_free_iff_block run unlocked lowPage frames _).mpr ?_⟩
  intro _
  have nonzero : ¬kernelHeapStart = 0 := by decide
  have large : requestSize 8 ≤ 2 ^ 20 := by decide
  refine ⟨0, kernelHeapStart, ?_⟩
  rw [scan, walkBound, head, findFit, if_neg nonzero, blockSize, block, if_pos large]

theorem full_heap : ∃ machine live owned, HeapRun machine live owned ∧ machine.locked = unlatched ∧
    0 ∉ freeSet machine.pmm ∧ 2 ≤ (freeSet machine.pmm).card ∧ machine.heap.head = 0 := by
  obtain ⟨machine, installed⟩ := small_heap_installs
  obtain ⟨owned, run, unlocked, lowPage, frames, head, size, block, next⟩ := small_heap installed
  have total : requestSize (2 ^ 20 - 16) = 2 ^ 20 := by decide
  have nonzero : ¬kernelHeapStart = 0 := by decide
  have some : ¬2 ^ 20 - 16 = 0 := by decide
  have exact₀ : ¬2 ^ 20 ≥ add64 (2 ^ 20) minAllocSize := by decide
  have heapOpen : machine.locked .heap = false := congrFun unlocked _
  have takes : Ends (kmalloc (2 ^ 20 - 16))
      (fun _ after => after.locked = unlatched ∧ after.pmm = machine.pmm ∧ after.heap.head = 0)
      (fun _ _ => False) machine := by
    rw [kmalloc, if_neg some, ends_bind, ends_get, ends_bind, ends_spinLock, heapOpen,
      if_neg Bool.false_ne_true, retryBound, total]
    let taken : Machine := { machine with locked := Function.update machine.locked .heap true }
    have found : scan machine.heap (2 ^ 20) = .fits 0 kernelHeapStart := by
      rw [scan, walkBound, head, findFit, if_neg nonzero, blockSize, block, if_pos (Nat.le_refl _)]
    refine @ends_tryAllocate_round (withHeap taken machine.heap.head machine.heap.memory) _ _ _ _ _ _
      found ?_ Search.noConfusion Search.noConfusion
    rintro _ _ ⟨rfl, rfl⟩
    simp only [takeBlock, ends_bind, ends_getSize, ends_getNext, ends_setBlockSize, ends_setLink,
      ends_spinUnlock, ends_pure, block, next, if_neg exact₀]
    refine ⟨?_, rfl, rfl⟩
    change Function.update (Function.update machine.locked .heap true) .heap false = unlatched
    rw [relock_unlocked heapOpen]
    exact unlocked
  obtain ⟨pointer, after, allocated, afterOpen, samePmm, empty⟩ := takes.exists_ok
  refine ⟨after, _, _, HeapRun.allocate run allocated, afterOpen, ?_, ?_, empty⟩
  · rw [samePmm]
    exact lowPage
  · rw [samePmm]
    exact frames

/-- With no block left, `vmm_new_pagemap` spins on the latch that it holds itself. -/
theorem new_pagemap_spins : ∃ machine live owned, HeapRun machine live owned ∧
    machine.locked = unlatched ∧ 0 ∉ freeSet machine.pmm ∧ 2 ≤ (freeSet machine.pmm).card ∧
    ∃ after, Call.vmmNewPagemap.run machine = .error (.spin .vmm) after := by
  obtain ⟨machine, live, owned, run, unlocked, lowPage, frames, empty⟩ := full_heap
  obtain ⟨segments, sound⟩ := KernelHeapRuns.sound_of_run run
  have start : machine.heap.start % pageSize = 0 := by
    rw [sound.layout.start]
    decide
  have exhausted : scan machine.heap (requestSize 8) = .exhausted := by
    rw [scan, walkBound, empty, findFit, if_pos rfl]
  have creates : Call.vmmNewPagemap.createsPagemap = true := rfl
  obtain ⟨stop, after, stops, rfl⟩ := (spins_of_scan ⟨unlocked, frames, lowPage⟩ creates start
    sound.layout.pages exhausted).exists_error
  exact ⟨machine, live, owned, run, unlocked, lowPage, frames, after, stops⟩

end RiriaKernel.PagemapLatches
