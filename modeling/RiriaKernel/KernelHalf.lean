import RiriaKernel.AddressSpaces
import RiriaKernel.KernelHeapRuns

/-!
# The kernel half of every address space

A new pagemap copies the upper half of the kernel's PML4, so the two share every table
below it. The entries of the upper half are all in place before the first copy is made
and are never written again: the heap grows inside one slot, and `vmm_unmap_page` keeps
the tables directly below an upper-half entry even when they are empty. Hence all
pagemaps agree on the upper half in every state the kernel reaches after boot.
-/

namespace RiriaKernel.KernelHalf

open ByteMemory HaltingPrograms KernelState PhysicalAllocator PageTables
open PageTableForests PageTableOperations PageTableWords KernelHeap KernelHeapTables KernelHeapRuns Pagemaps
open AddressSpaces

/-! ## Building the kernel's pagemap -/

/-- The kernel's pagemap is the only one, and mapping went on from `before`. -/
structure Mapping (root : Nat) (before after : Machine) : Prop where
  tables : Tables {root} ∅ after.pmm after.phys
  elsewhere : Elsewhere before after
  locked : after.locked = before.locked

section Building

variable {root : Nat} {start machine : Machine}

theorem Mapping.trans {first second third : Machine} (left : Mapping root first second)
    (right : Mapping root second third) : Mapping root first third :=
  ⟨right.tables, left.elsewhere.trans right.elsewhere, right.locked.trans left.locked⟩

theorem ends_mapRange {virtOf physOf flagsOf : Nat → Nat} {stop : Nat} {message : String}
    (physSmall : ∀ p, p < stop → physOf p < 2 ^ 64) (flagsSmall : ∀ p, flagsOf p < 2 ^ 64)
    (unlockedPmm : start.locked .pmm = false) (unlockedVmm : start.locked .vmm = false)
    (mapping : Mapping root start machine) (fuel p : Nat) :
    Ends (mapRange root virtOf physOf flagsOf stop message fuel p)
      (fun _ after => Mapping root start after) (fun _ _ => True) machine := by
  induction fuel generalizing p machine with
  | zero =>
    rw [mapRange, ends_throw]
    trivial
  | succ fuel induction =>
    rw [mapRange, ends_ite]
    split
    · next inside =>
        rw [ends_bind]
        have alone : TopReady {root} root (pageOf (virtOf p)) machine.phys :=
          fun _ => Or.inl fun _ same => same
        apply ends_mono (ends_vmmMapPage mapping.tables rfl (by rw [mapping.locked]; exact unlockedPmm)
          (by rw [mapping.locked]; exact unlockedVmm) alone (physSmall p inside) (flagsSmall p)) _
          fun _ _ _ => trivial
        rintro _ after ⟨rfl, mapped⟩
        rw [ends_bind, ends_require, if_pos rfl]
        apply induction
        exact mapping.trans ⟨mapped.grown.tables, mapped.grown.elsewhere, mapped.locked⟩
    · rw [ends_pure]
      exact mapping

theorem page_floor_lt {value bound : Nat} (small : value < bound) : pageFloor value < bound :=
  (page_floor_le value).trans_lt small

theorem ends_mapEntry (entry : MemmapEntry) (unlockedPmm : start.locked .pmm = false)
    (unlockedVmm : start.locked .vmm = false) (mapping : Mapping root start machine) :
    Ends (mapEntry root entry) (fun _ after => Mapping root start after) (fun _ _ => True)
      machine := by
  have top : pageFloor (entryTop entry) < 2 ^ 64 := page_floor_lt (Nat.mod_lt _ (by decide))
  have flags : ∀ p : Nat, dataFlags < 2 ^ 64 := fun _ => by decide
  have direct : ∀ p, p < pageFloor (entryTop entry) → id p < 2 ^ 64 :=
    fun _ inside => Nat.lt_trans inside top
  rw [mapEntry, ends_bind, ends_get, ends_ite]
  split
  · rw [ends_pure]
    exact mapping
  · rw [ends_bind]
    apply ends_mono (ends_mapRange direct flags unlockedPmm unlockedVmm mapping _ _) _
      fun _ _ => id
    intro _ first mappingFirst
    have identity : ∀ p, p < (if pageFloor (entryTop entry) > identMapLimit then identMapLimit
        else pageFloor (entryTop entry)) → id p < 2 ^ 64 := by
      intro p inside
      split at inside
      · exact Nat.lt_trans inside (by decide)
      · exact direct p inside
    by_cases low : pageCeil entry.base.toNat < identMapLimit
    · rw [if_pos low]
      exact ends_mapRange identity flags unlockedPmm unlockedVmm mappingFirst _ _
    · rw [if_neg low, ends_pure]
      exact mappingFirst

theorem ends_mapEntries (memmap : Memory → List MemmapEntry)
    (unlockedPmm : start.locked .pmm = false) (unlockedVmm : start.locked .vmm = false)
    (mapping : Mapping root start machine) (fuel i : Nat) :
    Ends (mapEntries root memmap fuel i) (fun _ after => Mapping root start after) (fun _ _ => True)
      machine := by
  induction fuel generalizing i machine with
  | zero =>
    rw [mapEntries, ends_throw]
    trivial
  | succ fuel induction =>
    rw [mapEntries, ends_bind, ends_get]
    cases (memmap machine.phys)[i]? with
    | none => exact (ends_pure ..).mpr mapping
    | some entry =>
      dsimp only
      rw [ends_bind]
      apply ends_mono (ends_mapEntry entry unlockedPmm unlockedVmm mapping) _ fun _ _ => id
      exact fun _ _ mapped => induction mapped (i + 1)

theorem kernel_page_flags_small (layout : ImageLayout) (virt : Nat) :
    kernelPageFlags layout virt < 2 ^ 64 := by
  unfold kernelPageFlags
  split
  · decide
  · split
    · decide
    · split <;> decide

def rooted (machine : Machine) (page : Nat) : Machine :=
  { takePage machine page with
    phys := memset (takePage machine page).phys (page * pageSize) 0 pageSize
    kernelPagemap := page * pageSize }

theorem rooted_phys (machine : Machine) (page : Nat) :
    (rooted machine page).phys = (takePage machine page).phys :=
  memset_memset _ _ _ _

theorem rooted_tables {page : Nat} (lowPage : 0 ∉ freeSet machine.pmm)
    (physical : machine.pmm.highestPage < 2 ^ 40) (member : page ∈ freeSet machine.pmm) :
    Tables {page * pageSize} ∅ (rooted machine page).pmm (rooted machine page).phys := by
  have tracked := (mem_freeSet.mp member).1
  have nonzero : page ≠ 0 := fun zero => lowPage (zero ▸ member)
  have taken : freeSet (rooted machine page).pmm = (freeSet machine.pmm).erase page :=
    freeSet_takePage machine page
  rw [rooted_phys]
  apply tables_single
  · refine ⟨Nat.mul_mod_left page pageSize, Nat.mul_ne_zero nonzero (by decide), ?_, ?_⟩
    · rw [page_address_div]
      exact tracked
    · rw [page_address_div]
      simp [rooted, takePage, bitmap_get_set]
  · intro index small
    exact entry_of_cleared small fun offset inside => take_page_cleared inside
  · rw [taken]
    exact fun still => lowPage (Finset.mem_of_mem_erase still)
  · exact physical

structure VmmInstalled (before after : Machine) : Prop where
  tables : Tables {after.kernelPagemap} ∅ after.pmm after.phys
  heap : after.heap = before.heap
  locked : after.locked = before.locked
  highestPage : after.pmm.highestPage = before.pmm.highestPage

theorem ends_vmmInstall (memmap : Memory → List MemmapEntry) (layout : ImageLayout)
    (lowPage : 0 ∉ freeSet machine.pmm) (physical : machine.pmm.highestPage < 2 ^ 40)
    (unlockedPmm : machine.locked .pmm = false) (unlockedVmm : machine.locked .vmm = false) :
    Ends (vmmInstall memmap layout) (fun _ after => VmmInstalled machine after) (fun _ _ => True)
      machine := by
  rw [vmmInstall, ends_bind]
  apply ends_pmmAllocate unlockedPmm _ fun _ => trivial
  intro page least
  have tables := rooted_tables lowPage physical least.1
  have nonzero := (tables.frames _ (isTable_of_root rfl)).nonzero
  have built : Mapping (page * pageSize) (rooted machine page) (rooted machine page) :=
    ⟨tables, Elsewhere.refl _, rfl⟩
  have openPmm : (rooted machine page).locked .pmm = false := unlockedPmm
  have openVmm : (rooted machine page).locked .vmm = false := unlockedVmm
  have kernelSmall : ∀ p, p < pageCeil layout.bssEnd.toNat →
      add64 (sub64 p layout.virtualBase.toNat) layout.physicalBase.toNat < 2 ^ 64 :=
    fun _ _ => Nat.mod_lt _ (by decide)
  rw [ends_bind, ends_require, if_pos nonzero, ends_bind, ends_modify, ends_bind]
  apply ends_mono (ends_mapRange kernelSmall (kernel_page_flags_small layout) openPmm openVmm
    built _ _) _ fun _ _ => id
  intro _ kernel mappingKernel
  apply ends_mono (ends_mapEntries memmap openPmm openVmm mappingKernel _ _) _
    fun _ _ => id
  intro _ after mapping
  have kernelPagemap : after.kernelPagemap = page * pageSize := mapping.elsewhere.kernelPagemap
  refine ⟨?_, mapping.elsewhere.heap, mapping.locked, mapping.elsewhere.highestPage⟩
  rw [kernelPagemap]
  exact mapping.tables

end Building

/-! ## Runs -/

/-- Runs of the kernel from boot: any number of pagemaps, any growth of the heap inside its
slot, any lower-half mapping, and `vmm_unmap_page` of any address through any pagemap.
Clients take, return and write frames of their own in between. -/
inductive KernelRun : Machine → Set Nat → Set Nat → Prop where
  | booted {start mapped machine : Machine} {memmap : Memory → List MemmapEntry}
      {layout : ImageLayout}
      (lowPage : 0 ∉ freeSet start.pmm) (tracked : start.pmm.highestPage < pmmBitmapSize * 8)
      (unlocked : start.locked = fun _ => false) (untouched : start.heap.start = 0)
      (vmm : vmmInstall memmap layout start = .ok ⟨⟩ mapped)
      (heap : heapInstall mapped = .ok ⟨⟩ machine) :
      KernelRun machine {machine.kernelPagemap} ∅
  | create {machine after : Machine} {roots held : Set Nat} {new : Nat}
      (prior : KernelRun machine roots held) (run : vmmNewPagemap machine = .ok new after) :
      KernelRun after (insert new roots) held
  | expand {machine after : Machine} {roots held : Set Nat} {pages grown : Nat}
      (prior : KernelRun machine roots held)
      (inside : machine.heap.size + pages * pageSize ≤ 2 ^ 39)
      (run : heapExpandPages pages machine = .ok grown after) : KernelRun after roots held
  | map {machine after : Machine} {roots held : Set Nat} {root virt frame flags : Nat}
      {mapped : Bool} (prior : KernelRun machine roots held) (isRoot : root ∈ roots)
      (lower : pml4Index virt < 256) (frameSmall : frame < 2 ^ 64) (flagsSmall : flags < 2 ^ 64)
      (run : vmmMapPage root virt frame flags machine = .ok mapped after) :
      KernelRun after roots held
  | unmap {machine after : Machine} {roots held : Set Nat} {root virt : Nat} {done : Bool}
      (prior : KernelRun machine roots held) (isRoot : root ∈ roots)
      (aligned : virt % pageSize = 0) (run : vmmUnmapPage root virt machine = .ok done after) :
      KernelRun after roots held
  | allocate {machine after : Machine} {roots held : Set Nat} {frame : Nat}
      (prior : KernelRun machine roots held) (run : pmmAllocate machine = .ok frame after) :
      KernelRun after roots (insert frame held)
  | free {machine after : Machine} {roots held : Set Nat} {frame : Nat}
      (prior : KernelRun machine roots held) (owned : frame ∈ held)
      (run : pmmFree frame machine = .ok ⟨⟩ after) : KernelRun after roots (held \ {frame})
  | write {machine : Machine} {roots held : Set Nat} {phys : Memory}
      (prior : KernelRun machine roots held)
      (inside : ∀ address, pageFloor address ∉ held → phys address = machine.phys address) :
      KernelRun { machine with phys } roots held

structure KernelSound (machine : Machine) (roots held : Set Nat) : Prop where
  tables : Tables roots held machine.pmm machine.phys
  isKernel : machine.kernelPagemap ∈ roots
  unlockedPmm : machine.locked .pmm = false
  unlockedVmm : machine.locked .vmm = false
  heapStart : machine.heap.start = kernelHeapStart
  heapPages : machine.heap.size % pageSize = 0
  slot : child machine.phys machine.kernelPagemap heapSlot ≠ none

section Steps

variable {machine after : Machine} {roots held : Set Nat}

theorem KernelSound.step (sound : KernelSound machine roots held) {more wider : Set Nat}
    (wide : roots ⊆ wider) (tables : Tables wider more after.pmm after.phys)
    (upper : UpperKept roots machine.phys after.phys)
    (kernel : after.kernelPagemap = machine.kernelPagemap)
    (pmmLock : after.locked .pmm = machine.locked .pmm)
    (vmmLock : after.locked .vmm = machine.locked .vmm)
    (heapStart : after.heap.start = machine.heap.start)
    (heapSize : after.heap.size = machine.heap.size) : KernelSound after wider more where
  tables := tables
  isKernel := by
    rw [kernel]
    exact wide sound.isKernel
  unlockedPmm := pmmLock.trans sound.unlockedPmm
  unlockedVmm := vmmLock.trans sound.unlockedVmm
  heapStart := heapStart.trans sound.heapStart
  heapPages := by
    rw [heapSize]
    exact sound.heapPages
  slot := by
    rw [kernel, child, upper _ sound.isKernel heapSlot (by decide) (by decide)]
    exact sound.slot

theorem sound_booted {start mapped : Machine} {memmap : Memory → List MemmapEntry}
    {layout : ImageLayout}
    (lowPage : 0 ∉ freeSet start.pmm) (tracked : start.pmm.highestPage < pmmBitmapSize * 8)
    (unlocked : start.locked = fun _ => false) (untouched : start.heap.start = 0)
    (vmm : vmmInstall memmap layout start = .ok ⟨⟩ mapped)
    (heap : heapInstall mapped = .ok ⟨⟩ machine) :
    KernelSound machine {machine.kernelPagemap} ∅ := by
  have physical : start.pmm.highestPage < 2 ^ 40 := tracked.trans (by decide)
  have installed := (ends_vmmInstall memmap layout lowPage physical (congrFun unlocked _)
    (congrFun unlocked _)).returns vmm
  have noHeap : mapped.heap.start = 0 := by
    rw [installed.heap]
    exact untouched
  have allOpen : mapped.locked = fun _ => false := installed.locked.trans unlocked
  obtain ⟨expanded, start, size, slot⟩ := (ends_heapInstall_tables noHeap installed.tables rfl
    (congrFun allOpen _) (congrFun allOpen _) (Or.inl fun _ same => same)).returns heap
  have kernel := expanded.kernelPagemap
  have tables := expanded.tables
  rw [← kernel] at tables slot
  refine ⟨tables, rfl, ?_, ?_, start, ?_, slot⟩
  · rw [expanded.locked, allOpen]
  · rw [expanded.locked, allOpen]
  · rw [size]
    decide

theorem KernelSound.expand (sound : KernelSound machine roots held) {pages grown : Nat}
    (inside : machine.heap.size + pages * pageSize ≤ 2 ^ 39)
    (run : heapExpandPages pages machine = .ok grown after) :
    KernelSound after roots held ∧
      RegionVisible roots (kernelHeapStart + machine.heap.size) pages after.phys := by
  obtain ⟨expanded, start, size, -, shown⟩ := (ends_heapExpandPages_tables sound.tables
    sound.isKernel sound.unlockedPmm sound.unlockedVmm (Or.inr sound.slot) sound.heapStart
    sound.heapPages inside).returns run
  refine ⟨⟨expanded.tables, ?_, ?_, ?_, start.trans sound.heapStart, ?_, ?_⟩, shown⟩
  · rw [expanded.kernelPagemap]
    exact sound.isKernel
  · rw [expanded.locked]
    exact sound.unlockedPmm
  · rw [expanded.locked]
    exact sound.unlockedVmm
  · rw [size, Nat.add_mul_mod_self_right]
    exact sound.heapPages
  · rw [expanded.kernelPagemap]
    exact expanded.slot sound.slot

theorem KernelSound.of_kept (sound : KernelSound machine roots held) {more : Set Nat}
    (tables : Tables roots more after.pmm after.phys)
    (kept : TablesKept roots machine.phys after.phys)
    (kernel : after.kernelPagemap = machine.kernelPagemap) (locked : after.locked = machine.locked)
    (heap : after.heap = machine.heap) : KernelSound after roots more :=
  sound.step (Set.Subset.refl _) tables (sound.tables.upper_kept kept) kernel
    (congrFun locked _) (congrFun locked _) (congrArg Heap.start heap) (congrArg Heap.size heap)

theorem sound_of_run (run : KernelRun machine roots held) : KernelSound machine roots held := by
  induction run with
  | booted lowPage tracked unlocked untouched vmm heap =>
    exact sound_booted lowPage tracked unlocked untouched vmm heap
  | create _ run sound =>
    have created := (ends_vmmNewPagemap sound.tables sound.isKernel sound.unlockedPmm
      sound.unlockedVmm).returns run
    exact sound.step (Set.subset_insert _ _) created.tables created.upper created.kernelPagemap
      (created.locked _ (by decide)) (created.locked _ (by decide)) created.heapStart
      created.heapSize
  | expand _ inside run sound => exact (sound.expand inside run).1
  | map _ isRoot lower frameSmall flagsSmall run sound =>
    have own := lower_page lower
    obtain ⟨-, mapped⟩ := (ends_vmmMapPage sound.tables isRoot sound.unlockedPmm
      sound.unlockedVmm (fun upper => absurd upper own) frameSmall flagsSmall).returns run
    have elsewhere := mapped.grown.elsewhere
    exact sound.step (Set.Subset.refl _) mapped.grown.tables (mapped.upper (Or.inl own))
      elsewhere.kernelPagemap (congrFun mapped.locked _) (congrFun mapped.locked _)
      (congrArg Heap.start elsewhere.heap) (congrArg Heap.size elsewhere.heap)
  | unmap _ isRoot aligned run sound =>
    obtain ⟨-, unmapped⟩ := (ends_vmmUnmapPage sound.tables isRoot sound.unlockedPmm
      sound.unlockedVmm aligned).returns run
    have elsewhere := unmapped.elsewhere
    exact sound.step (Set.Subset.refl _) unmapped.tables unmapped.upper elsewhere.kernelPagemap
      (congrFun unmapped.locked _) (congrFun unmapped.locked _)
      (congrArg Heap.start elsewhere.heap) (congrArg Heap.size elsewhere.heap)
  | allocate _ run sound =>
    obtain ⟨page, member, rfl, rfl⟩ := allocated_page sound.unlockedPmm run
    exact sound.of_kept (sound.tables.take member) (sound.tables.take_kept member) rfl rfl rfl
  | free _ owned run sound =>
    rw [freed_page (sound.tables.heldFrames _ owned) sound.unlockedPmm run]
    exact sound.of_kept (sound.tables.release owned) (fun _ _ => rfl) rfl rfl rfl
  | write _ inside sound =>
    have kept := sound.tables.kept_of_held inside
    exact sound.of_kept (sound.tables.rewritten kept) kept rfl rfl rfl

theorem KernelSound.translate_agrees (sound : KernelSound machine roots held) {root virt : Nat}
    (isRoot : root ∈ roots) (upper : 256 ≤ pml4Index virt) :
    translate machine.phys root virt = translate machine.phys machine.kernelPagemap virt := by
  unfold PageTableForests.translate
  rw [leaf_shared sound.tables sound.isKernel isRoot (page_of_lt virt)
    ((upper_half_iff virt).mpr upper)]

end Steps

/-- In every state after boot all pagemaps translate upper-half addresses as the kernel's
does. Pages that the heap gains are visible in every pagemap that exists by then, and no
table that is reachable from any pagemap is free. -/
theorem kernel_half_agrees {machine : Machine} {roots held : Set Nat}
    (run : KernelRun machine roots held) :
    (∀ root ∈ roots, ∀ virt, 256 ≤ pml4Index virt →
      ∃ address, vmmVirtToPhys root virt machine = .ok address machine ∧
        vmmVirtToPhys machine.kernelPagemap virt machine = .ok address machine) ∧
    (∀ pages grown after, machine.heap.size + pages * pageSize ≤ 2 ^ 39 →
      heapExpandPages pages machine = .ok grown after → ∀ index < pages, ∀ root ∈ roots,
        ∃ address, address ≠ 0 ∧ vmmVirtToPhys root
          (machine.heap.start + machine.heap.size + index * pageSize) after = .ok address after) ∧
    ∀ table, IsTable roots machine.phys table → table / pageSize ∉ freeSet machine.pmm := by
  have sound := sound_of_run run
  refine ⟨?_, ?_, fun table isTable => (sound.tables.frames table isTable).not_free⟩
  · intro root isRoot virt upper
    refine ⟨translate machine.phys machine.kernelPagemap virt, ?_, vmm_virt_to_phys_ok _ _ _⟩
    rw [vmm_virt_to_phys_ok, sound.translate_agrees isRoot upper]
  · intro pages grown after inside run index small root isRoot
    obtain ⟨frame, nonzero, found⟩ := (sound.expand inside run).2 index small root isRoot
    refine ⟨_, ?_, vmm_virt_to_phys_ok _ _ _⟩
    rw [PageTableForests.translate, sound.heapStart, found]
    exact fun zero => nonzero (Nat.eq_zero_of_add_eq_zero_right zero)

def emptyImage : ImageLayout where
  physicalBase := 0x100000
  virtualBase := 0xFFFFFFFF80000000
  textBegin := 0xFFFFFFFF80000000
  bssEnd := 0xFFFFFFFF80000000
  bitmapAddress := 0xFFFFFFFF80000000
  textEnd := 0xFFFFFFFF80000000
  rodataBegin := 0xFFFFFFFF80000000
  rodataEnd := 0xFFFFFFFF80000000
  dataBegin := 0xFFFFFFFF80000000

theorem empty_image_installs : Ends (vmmInstall (fun _ => []) emptyImage)
    (fun _ after => ∃ page, page ∈ freeSet smallMachine.pmm ∧ after = rooted smallMachine page)
    (fun _ _ => False) smallMachine := by
  rw [vmmInstall, ends_bind]
  apply ends_pmmAllocate rfl
  · intro page least
    have member : page ∈ freeSet smallMachine.pmm := least.1
    have nonzero := ((small_machine_tables.take member).heldFrames _ (Set.mem_insert _ _)).nonzero
    rw [ends_bind, ends_require, if_pos nonzero, ends_bind, ends_modify, ends_bind,
      show pageLoopBound = 2 ^ 52 + 1 from rfl, mapRange, if_neg (by decide), ends_pure, mapEntries,
      ends_bind, ends_get]
    exact (ends_pure ..).mpr ⟨page, member, rfl⟩
  · intro empty
    have many := small_machine_free
    rw [empty] at many
    exact absurd many (by decide)

/-- After boot a new pagemap sees the heap where the kernel's does. -/
theorem kernel_half_agrees_booted :
    ∃ mapped machine new after, vmmInstall (fun _ => []) emptyImage smallMachine = .ok ⟨⟩ mapped ∧
      heapInstall mapped = .ok ⟨⟩ machine ∧ vmmNewPagemap machine = .ok new after ∧
      ∃ address, vmmVirtToPhys new kernelHeapStart after = .ok address after ∧
        vmmVirtToPhys after.kernelPagemap kernelHeapStart after = .ok address after := by
  obtain ⟨_, _, vmm, page, member, rfl⟩ := empty_image_installs.exists_ok
  have tables := rooted_tables small_machine_tables.lowPage (by decide) member
  have many : 2039 ≤ (freeSet (rooted smallMachine page).pmm).card := by
    have erased := Finset.card_erase_add_one member
    have all := small_machine_free
    rw [← freeSet_takePage smallMachine page] at erased
    change 2039 ≤ (freeSet (takePage smallMachine page).pmm).card
    omega
  have tracked : (rooted smallMachine page).pmm.highestPage < pmmBitmapSize * 8 :=
    show smallMachine.pmm.highestPage < pmmBitmapSize * 8 by decide
  obtain ⟨machine, heap⟩ := heap_install_returns ⟨rfl, rfl, tracked, tables, rfl⟩
    (Nat.le_trans (by decide) many)
  obtain ⟨segments, grows⟩ := (ends_heapInstall rfl rfl tracked).returns heap
  obtain ⟨expanded, -, size, -⟩ := (ends_heapInstall_tables rfl tables rfl rfl rfl
    (Or.inl fun _ same => same)).returns heap
  obtain ⟨head, block, -⟩ := sole_free_block grows.layout grows.live (by rw [size]; decide)
  have left : 0 < (freeSet machine.pmm).card := by
    have budget := expanded.budget
    omega
  have creates : Ends vmmNewPagemap (fun _ _ => True) (fun _ _ => False) machine := by
    apply vmm_new_pagemap_returns expanded.tables.lowPage expanded.locked (Finset.card_pos.mp left)
    · rw [head]
      decide
    · rw [blockSize, head, block, size]
      decide
  obtain ⟨new, after, creation, -⟩ := creates.exists_ok
  have booted := KernelRun.booted small_machine_tables.lowPage (by decide) rfl rfl vmm heap
  exact ⟨_, machine, new, after, vmm, heap, creation, (kernel_half_agrees
    (KernelRun.create booted creation)).1 new (Set.mem_insert _ _) kernelHeapStart (by decide)⟩

end RiriaKernel.KernelHalf
