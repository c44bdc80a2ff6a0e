import RiriaKernel.UserOwnership

/-!
# The kernel at work for processes

Between two calls the ledger of the processes balances and the kernel can go on: the latches
of the page tables are open, and its heap grows inside one slot of the upper half. A frame
that goes into the heap never comes back, so it leaves the set that bounds all frames of
processes; this is why the heap stays inside its slot however long the kernel runs.
-/

namespace RiriaKernel.KernelService

open HaltingPrograms KernelState PhysicalAllocator PageTableForests
open PageTableOperations PageTableWords AddressSpaces KernelHeap KernelHeapLayouts KernelHeapTables Pagemaps
open UserMemory UserOwnership
open PagePermissions (UserTables renewed_user_tables renewed_new_user_tables)

/-! ## The kernel between calls -/

/-- The ledger balances, and the kernel can allocate, map and grow its heap. -/
structure Serving (base : Finset Nat) (users device roots : Set Nat) (ledger : Ledger)
    (machine : Machine) : Prop where
  balanced : Balanced base users device roots ledger machine
  unlatched : Unlatched machine
  isKernel : machine.kernelPagemap ∈ roots
  slot : child machine.phys machine.kernelPagemap heapSlot ≠ none
  heapStart : machine.heap.start = kernelHeapStart
  room : machine.heap.size + base.card * pageSize ≤ 2 ^ 35

/-- The kernel has served a call of its own: the processes have what they had, and fewer frames
are left for them. -/
structure Served (base : Finset Nat) (users device roots : Set Nat) (ledger : Ledger)
    (before : Machine) (smaller : Finset Nat) (after : Machine) : Prop where
  serving : Serving smaller users device roots ledger after
  inside : smaller ⊆ base
  pagemaps : ∀ root, root ∈ roots → root / pageSize ∈ base → root / pageSize ∈ smaller
  grown : after.heap.size + smaller.card * pageSize ≤ before.heap.size + base.card * pageSize
  free : freeSet after.pmm ⊆ freeSet before.pmm
  extended : TablesExtended roots before after
  hhdm : after.hhdm = before.hhdm
  kernelPagemap : after.kernelPagemap = before.kernelPagemap

structure PagesAdded (base : Finset Nat) (users device roots : Set Nat) (ledger : Ledger)
    (count : Nat) (before : Machine) (smaller : Finset Nat) (after : Machine) : Prop where
  balanced : Balanced smaller users device roots ledger after
  inside : smaller ⊆ base
  pagemaps : ∀ root, root ∈ roots → root / pageSize ∈ base → root / pageSize ∈ smaller
  fewer : smaller.card + count ≤ base.card
  free : freeSet after.pmm ⊆ freeSet before.pmm
  extended : TablesExtended roots before after
  slot : child after.phys before.kernelPagemap heapSlot ≠ none
  locked : after.locked = before.locked
  heap : after.heap = before.heap
  hhdm : after.hhdm = before.hhdm
  kernelPagemap : after.kernelPagemap = before.kernelPagemap

section Growth

variable {base smaller : Finset Nat} {users device roots : Set Nat} {ledger : Ledger}
  {machine : Machine}

theorem ends_expandPage_adds {from' index : Nat}
    (balanced : Balanced base users device roots ledger machine) (unlatched : Unlatched machine)
    (isKernel : machine.kernelPagemap ∈ roots)
    (slot : child machine.phys machine.kernelPagemap heapSlot ≠ none)
    (inSlot : pageOf (add64 from' (index * pageSize)) / 512 ^ 3 = heapSlot) :
    Ends (expandPage machine.kernelPagemap from' index)
      (fun _ after => ∃ smaller, PagesAdded base users device roots ledger 1 machine smaller after)
      (fun _ _ => True) machine := by
  have holdings := balanced.holdings
  have upper := upper_half_of_slot inSlot
  rw [expandPage, ends_bind]
  apply ends_pmmAllocate unlatched.pmm _ fun _ => trivial
  intro page least
  have member : page ∈ freeSet machine.pmm := least.1
  have taken := holdings.take member
  have kept := holdings.tables.take_kept member
  have small := (holdings.tables.free_page_small member).trans (show 2 ^ 52 < 2 ^ 64 by decide)
  have nonzero : page * pageSize ≠ 0 := (taken.tables.heldFrames _ (Set.mem_insert _ _)).nonzero
  have fresh : page * pageSize ∉ ledger.held := holdings.tables.free_not_held member
  have slotTaken : child (takePage machine page).phys machine.kernelPagemap heapSlot ≠ none := by
    rw [child, holdings.tables.entry_kept kept (isTable_of_root isKernel) (by decide)]
    exact slot
  have ready : TopReady roots machine.kernelPagemap (pageOf (add64 from' (index * pageSize)))
      (takePage machine page).phys :=
    HeapReady.top_ready (Or.inr slotTaken) inSlot
  rw [ends_bind, ends_require, if_pos nonzero, ends_bind]
  apply ends_mono (ends_and
    (ends_vmmMapPage_walks taken.tables isKernel unlatched.pmm unlatched.vmm ready small
      heap_flags_small)
    (ends_vmmMapPage (tables_other_frames taken.tables) isKernel unlatched.pmm unlatched.vmm ready
      small heap_flags_small)) _ fun _ _ _ => trivial
  intro _ after both
  obtain ⟨⟨success, mapped, added, -, links⟩, -, others⟩ := both
  rw [ends_require, if_pos success]
  have mappedUp := taken.map_upper upper mapped others added
  have member' : page * pageSize / pageSize ∈ base := taken.heldBase _ (Set.mem_insert _ _)
  have extended : TablesExtended roots (takePage machine page) after :=
    ⟨other_frames_kept others.grown.tables, fun _ isRoot user => user.map links isRoot (Or.inl upper)⟩
  refine ⟨base.erase (page * pageSize / pageSize), ⟨mappedUp.keep fresh, balanced.owned, ?_⟩,
    Finset.erase_subset _ _, ?_, (Finset.card_erase_add_one member').le, ?_,
    (tables_extended_take holdings.tables member).trans extended, ?_, mapped.locked,
    mapped.grown.elsewhere.heap, mapped.grown.elsewhere.hhdm, mapped.grown.elsewhere.kernelPagemap⟩
  · exact fun frame shown inside => balanced.outside frame shown (Finset.mem_of_mem_erase inside)
  · intro root isRoot inside
    have isTable : IsTable roots (takePage machine page).phys root := isTable_of_root isRoot
    refine Finset.mem_erase.mpr ⟨?_, inside⟩
    intro same
    rw [frame_page_injective (taken.tables.frames root isTable)
      (taken.tables.heldFrames _ (Set.mem_insert _ _)) same] at isTable
    exact taken.tables.apart _ (Set.mem_insert _ _) isTable
  · have subset := mapped.grown.free
    rw [freeSet_takePage] at subset
    exact subset.trans (Finset.erase_subset _ _)
  · have entries := mapped.upper (Or.inr (by rwa [inSlot]))
    rw [child, entries _ isKernel heapSlot (by decide) (by decide)]
    exact slotTaken

theorem PagesAdded.refl (balanced : Balanced base users device roots ledger machine)
    (slot : child machine.phys machine.kernelPagemap heapSlot ≠ none) :
    PagesAdded base users device roots ledger 0 machine base machine :=
  ⟨balanced, Finset.Subset.refl _, fun _ _ => id, Nat.le_refl _, Finset.Subset.refl _,
    .refl _, slot, rfl, rfl, rfl, rfl⟩

theorem PagesAdded.trans {count more : Nat} {smallest : Finset Nat} {middle after : Machine}
    (left : PagesAdded base users device roots ledger count machine smaller middle)
    (right : PagesAdded smaller users device roots ledger more middle smallest after) :
    PagesAdded base users device roots ledger (count + more) machine smallest after where
  balanced := right.balanced
  inside := right.inside.trans left.inside
  pagemaps := fun root isRoot inside => right.pagemaps root isRoot (left.pagemaps root isRoot inside)
  fewer := by
    have first := left.fewer
    have second := right.fewer
    omega
  free := right.free.trans left.free
  extended := left.extended.trans right.extended
  slot := by
    rw [← left.kernelPagemap]
    exact right.slot
  locked := right.locked.trans left.locked
  heap := right.heap.trans left.heap
  hhdm := right.hhdm.trans left.hhdm
  kernelPagemap := right.kernelPagemap.trans left.kernelPagemap

end Growth

/-! ## The heap -/

section Heap

variable {base smaller : Finset Nat} {users device roots : Set Nat} {ledger : Ledger}
  {machine after : Machine}

section

variable (serving : Serving base users device roots ledger machine)

include serving

theorem Serving.of_same (pmm : after.pmm = machine.pmm) (phys : after.phys = machine.phys)
    (kernelPagemap : after.kernelPagemap = machine.kernelPagemap)
    (heapStart : after.heap.start = machine.heap.start)
    (heapSize : after.heap.size = machine.heap.size)
    (locked : ∀ lock, lock ≠ .heap → after.locked lock = machine.locked lock) :
    Serving base users device roots ledger after where
  balanced := serving.balanced.of_same pmm phys
  unlatched := ⟨(locked _ (by decide)).trans serving.unlatched.pmm,
    (locked _ (by decide)).trans serving.unlatched.vmm⟩
  isKernel := by
    rw [kernelPagemap]
    exact serving.isKernel
  slot := by
    rw [phys, kernelPagemap]
    exact serving.slot
  heapStart := heapStart.trans serving.heapStart
  room := by
    rw [heapSize]
    exact serving.room

theorem Serving.lower {ledger' : Ledger} (balanced : Balanced base users device roots ledger' after)
    (lower : LowerOnly roots machine after) : Serving base users device roots ledger' after where
  balanced := balanced
  unlatched := serving.unlatched.of_same lower.locked
  isKernel := by
    rw [lower.kernelPagemap]
    exact serving.isKernel
  slot := by
    rw [lower.kernelPagemap, child,
      lower.upper _ serving.isKernel heapSlot (by decide) (by decide)]
    exact serving.slot
  heapStart := by
    rw [lower.heap]
    exact serving.heapStart
  room := by
    rw [lower.heap]
    exact serving.room

theorem Serving.gained {spent : Nat} {ledger' : Ledger}
    (gained : Gained base users device roots spent ledger machine ledger' after) :
    Serving base users device roots ledger' after :=
  serving.lower gained.balanced gained.lower

theorem Served.refl : Served base users device roots ledger machine base machine :=
  ⟨serving, Finset.Subset.refl _, fun _ _ => id, Nat.le_refl _, Finset.Subset.refl _,
    .refl _, rfl, rfl⟩

theorem Served.of_heap_only (only : HeapOnly machine after) :
    Served base users device roots ledger machine base after where
  serving := serving.of_same only.pmm only.phys only.kernelPagemap only.heapStart only.heapSize
    only.locked
  inside := Finset.Subset.refl _
  pagemaps := fun _ _ => id
  grown := by
    rw [only.heapSize]
  free := by
    rw [only.pmm]
  extended := by
    refine ⟨?_, fun _ _ => ?_⟩
    · rw [only.pmm, only.phys]
    · rw [only.phys]
      exact id
  hhdm := only.hhdm
  kernelPagemap := only.kernelPagemap

end

theorem Served.trans {smallest : Finset Nat} {middle : Machine}
    (left : Served base users device roots ledger machine smaller middle)
    (right : Served smaller users device roots ledger middle smallest after) :
    Served base users device roots ledger machine smallest after where
  serving := right.serving
  inside := right.inside.trans left.inside
  pagemaps := fun root isRoot inside => right.pagemaps root isRoot (left.pagemaps root isRoot inside)
  grown := right.grown.trans left.grown
  free := right.free.trans left.free
  extended := left.extended.trans right.extended
  hhdm := right.hhdm.trans left.hhdm
  kernelPagemap := right.kernelPagemap.trans left.kernelPagemap

section

variable (serving : Serving base users device roots ledger machine)

include serving

theorem ends_heapExpandPages_serves {pages : Nat} (few : pages ≤ 16) :
    Ends (heapExpandPages pages)
      (fun _ after => ∃ smaller, Served base users device roots ledger machine smaller after)
      (fun _ _ => True) machine := by
  have room := serving.room
  have bytes : pages * pageSize ≤ 16 * pageSize := Nat.mul_le_mul_right _ few
  have sixteen : 16 * pageSize = 65536 := rfl
  by_cases none : pages = 0
  · rw [heapExpandPages, if_pos none, ends_pure]
    exact ⟨base, Served.refl serving⟩
  apply ends_heapExpandPages_of (fun index after => ∃ smaller,
    PagesAdded base users device roots ledger index machine smaller after) none serving.heapStart
    (by omega) (Or.inr fun _ => trivial)
  · exact ⟨base, PagesAdded.refl serving.balanced serving.slot⟩
  · intro index state _ inSlot added
    obtain ⟨smaller, added⟩ := added
    have isKernel := serving.isKernel
    have slot := added.slot
    rw [← added.kernelPagemap] at isKernel slot ⊢
    apply ends_mono (ends_expandPage_adds added.balanced (serving.unlatched.of_same added.locked)
      isKernel slot inSlot) _ fun _ _ _ => trivial
    exact fun _ after more => more.imp fun _ more => added.trans more
  · intro first added
    obtain ⟨smaller, added⟩ := added
    apply ends_mono (ends_addRegion_only _ _) _ fun _ _ _ => trivial
    intro _ after grown
    obtain ⟨head, memory, rfl⟩ := grown
    have fewer : (smaller.card + pages) * pageSize ≤ base.card * pageSize :=
      Nat.mul_le_mul_right _ added.fewer
    rw [Nat.add_mul] at fewer
    have sum : add64 first.heap.size (pages * pageSize) = machine.heap.size + pages * pageSize := by
      rw [added.heap]
      exact Nat.mod_eq_of_lt (by omega)
    have grown : add64 first.heap.size (pages * pageSize) + smaller.card * pageSize ≤
        machine.heap.size + base.card * pageSize := by
      rw [sum]
      omega
    refine ⟨smaller, ⟨added.balanced.of_same rfl rfl, serving.unlatched.of_same added.locked, ?_,
      ?_, ?_, grown.trans room⟩, added.inside, added.pagemaps, grown, added.free,
      ⟨added.extended.others, added.extended.user⟩, added.hhdm, added.kernelPagemap⟩
    · exact added.kernelPagemap ▸ serving.isKernel
    · exact added.kernelPagemap ▸ added.slot
    · exact (congrArg Heap.start added.heap).trans serving.heapStart

theorem ends_growForRequest_serves :
    Ends growForRequest
      (fun _ after => ∃ smaller, Served base users device roots ledger machine smaller after)
      (fun _ _ => True) machine := by
  rw [growForRequest, ends_bind]
  apply ends_mono (ends_heapExpandPages_serves serving (by decide)) _ fun _ _ _ => trivial
  intro grown first served
  rw [ends_ite]
  split
  · obtain ⟨smaller, served⟩ := served
    rw [ends_bind]
    apply ends_mono (ends_heapExpandPages_serves served.serving (by decide)) _ fun _ _ _ => trivial
    intro single second more
    rw [ends_ite]
    split
    · rw [ends_bind, ends_spinUnlock, ends_panicWith]
      trivial
    · rw [ends_pure]
      exact more.imp fun _ more => served.trans more
  · rw [ends_pure]
    exact served

theorem ends_tryAllocate_serves (total fuel curr : Nat) :
    Ends (tryAllocate total fuel curr)
      (fun _ after => ∃ smaller, Served base users device roots ledger machine smaller after)
      (fun _ _ => True) machine := by
  induction fuel generalizing base machine curr with
  | zero =>
    rw [tryAllocate, ends_throw]
    trivial
  | succ fuel induction =>
    apply ends_tryAllocate_round rfl _ fun _ => trivial
    · intro _
      apply ends_mono (ends_growForRequest_serves serving) _ fun _ _ _ => trivial
      intro _ first served
      obtain ⟨smaller, served⟩ := served
      apply ends_mono (induction served.serving _) _ fun _ _ _ => trivial
      exact fun _ _ more => more.imp fun _ more => served.trans more
    · intro prev found _
      apply ends_mono (@ends_takeBlock_only machine total prev found machine.heap.head
        machine.heap.memory fun _ _ => True) _ fun _ _ => id
      exact fun _ _ only => ⟨base, Served.of_heap_only serving only⟩

theorem ends_kmalloc_serves (size : Nat) :
    Ends (kmalloc size)
      (fun _ after => ∃ smaller, Served base users device roots ledger machine smaller after)
      (fun _ _ => True) machine := by
  rw [kmalloc, ends_ite]
  split
  · rw [ends_pure]
    exact ⟨base, Served.refl serving⟩
  · rw [ends_bind, ends_get, ends_bind, ends_spinLock]
    split
    · trivial
    · have latched : HeapOnly machine { machine with
          locked := Function.update machine.locked .heap true } :=
        ⟨rfl, rfl, rfl, rfl, rfl, rfl, fun _ other => Function.update_of_ne other _ _⟩
      have served := Served.of_heap_only serving latched
      apply ends_mono (ends_tryAllocate_serves served.serving _ _ _) _ fun _ _ _ => trivial
      exact fun _ _ more => more.imp fun _ more => served.trans more

end

end Heap

section Release

variable {machine : Machine}

theorem ends_kfree_only (pointer : Nat) :
    Ends (kfree pointer) (fun _ after => HeapOnly machine after) (fun _ _ => True) machine := by
  let latched : Machine := { machine with locked := Function.update machine.locked .heap true }
  rw [kfree, ends_ite]
  split
  · rw [ends_pure]
    exact ⟨rfl, rfl, rfl, rfl, rfl, rfl, fun _ _ => rfl⟩
  · rw [ends_bind, ends_get]
    iterate 3 apply ends_require_bind trivial fun _ => ?_
    rw [ends_bind, ends_spinLock]
    split
    · trivial
    · split
      · rw [ends_throw]
        trivial
      · next prev _ =>
          have inserted : ∀ memory, Ends (insertBlock prev (sub64 pointer headerSize))
              (fun _ after => ListOnly latched after) (fun _ _ => True)
              (withHeap latched machine.heap.head memory) := fun _ => ends_insertBlock_only _ _
          rw [ends_bind]
          change Ends _ _ _ (withHeap latched machine.heap.head machine.heap.memory)
          rw [ends_setBlockSize, ends_bind]
          apply ends_mono (inserted _) _ fun _ _ _ => trivial
          intro _ after changed
          obtain ⟨head, memory, rfl⟩ := changed
          rw [ends_spinUnlock]
          exact ⟨rfl, rfl, rfl, rfl, rfl, rfl, fun lock other =>
            (Function.update_of_ne other _ _).trans (Function.update_of_ne other _ _)⟩

theorem heap_only_trans {middle after : Machine} (left : HeapOnly machine middle)
    (right : HeapOnly middle after) : HeapOnly machine after :=
  ⟨right.pmm.trans left.pmm, right.phys.trans left.phys, right.hhdm.trans left.hhdm,
    right.kernelPagemap.trans left.kernelPagemap, right.heapStart.trans left.heapStart,
    right.heapSize.trans left.heapSize,
    fun lock other => (right.locked lock other).trans (left.locked lock other)⟩

end Release

/-! ## New processes -/

section Creation

variable {base : Finset Nat} {users device roots : Set Nat} {ledger : Ledger} {machine : Machine}

theorem created_none (spaces : Spaces) (kernel new : Nat) {page : Nat} (lower : ¬UpperHalf page) :
    spaces.create kernel new new page = none := by
  rw [Spaces.create, Function.update_self, Space.kernelHalf, if_neg lower]

structure Joined (base : Finset Nat) (users device roots : Set Nat) (ledger : Ledger)
    (before : Machine) (new : Nat) (after : Machine) : Prop where
  serving : Serving base (insert new users) device (insert new roots)
    ⟨ledger.held, ledger.spaces.create before.kernelPagemap new⟩ after
  others : otherFrames roots before.pmm before.phys ⊆
    otherFrames (insert new roots) after.pmm after.phys
  user : ∀ root ∈ roots, UserTables before.phys root → UserTables after.phys root
  newUser : UserTables after.phys new
  fresh : new ∉ roots
  wasFree : new / pageSize ∈ freeSet before.pmm
  free : freeSet after.pmm ⊆ freeSet before.pmm
  budget : (freeSet before.pmm).card ≤ (freeSet after.pmm).card + 1
  heapSize : after.heap.size = before.heap.size
  hhdm : after.hhdm = before.hhdm
  kernelPagemap : after.kernelPagemap = before.kernelPagemap

theorem holdings_create {held : Set Nat} {spaces : Spaces} {page : Nat} {after : Machine}
    (holdings : Holdings base users roots held spaces machine)
    (isKernel : machine.kernelPagemap ∈ roots) (renewed : Renewed machine page after) :
    Holdings base (insert (page * pageSize) users) (insert (page * pageSize) roots) held
      (spaces.create machine.kernelPagemap (page * pageSize)) after := by
  have created := renewed.created holdings.tables isKernel
  refine ⟨Set.insert_subset_insert holdings.known, created.tables, ?_,
    created.free.trans holdings.free, holdings.heldBase, ?_⟩
  · intro root isRoot index lower
    by_cases new : root = page * pageSize
    · rw [new, created_none _ _ _ lower, spacesOf, created.newLeaves index (lower_half_lt lower),
        if_neg lower, decode_zero]
    · have old := isRoot.resolve_left new
      rw [spacesOf, created.leaves root old index (lower_half_lt lower), Spaces.create,
        Function.update_of_ne new]
      exact holdings.view root old index lower
  · intro root user level key table shallow bounded positive own found
    by_cases new : root = page * pageSize
    · obtain ⟨depth, rfl⟩ : ∃ depth, level = depth + 1 := ⟨level - 1, by omega⟩
      rw [new, renewed.table_none holdings.tables isKernel bounded own] at found
      cases found
    · have old := user.resolve_left new
      rw [renewed.table_kept holdings.tables (holdings.known old) (by omega) bounded] at found
      exact holdings.tablesBase root old level key table shallow bounded positive own found

theorem ends_vmmNewPagemap_joins (serving : Serving base users device roots ledger machine) :
    Ends vmmNewPagemap (fun new after => Joined base users device roots ledger machine new after)
      (fun _ _ => True) machine := by
  have balanced := serving.balanced
  have tables := balanced.holdings.tables
  apply ends_mono (ends_vmmNewPagemap_renewed tables.lowPage serving.unlatched.pmm
    serving.unlatched.vmm) _ fun _ _ _ => trivial
  intro new after made
  obtain ⟨page, rfl, renewed⟩ := made
  have created := renewed.created tables serving.isKernel
  refine ⟨⟨⟨holdings_create balanced.holdings serving.isKernel renewed, ?_, balanced.outside⟩, ?_, ?_, ?_,
    created.heapStart.trans serving.heapStart, ?_⟩,
    other_frames_kept (renewed.created (tables_other_frames tables) serving.isKernel).tables,
    fun _ isRoot user => renewed_user_tables renewed tables user isRoot,
    renewed_new_user_tables renewed tables serving.isKernel, created.fresh, ?_, created.free,
    created.budget, created.heapSize, created.hhdm, created.kernelPagemap⟩
  · apply balanced.owned.join
    · exact fun index lower => created_none _ _ _ lower
    · intro root user index _
      have different : root ≠ page * pageSize := by
        intro same
        rw [same] at user
        exact created.fresh (balanced.holdings.known user)
      rw [Spaces.create, Function.update_of_ne different]
  · exact ⟨(created.locked _ (by decide)).trans serving.unlatched.pmm,
      (created.locked _ (by decide)).trans serving.unlatched.vmm⟩
  · rw [created.kernelPagemap]
    exact Set.mem_insert_of_mem _ serving.isKernel
  · rw [created.kernelPagemap, child,
      created.upper _ serving.isKernel heapSlot (by decide) (by decide)]
    exact serving.slot
  · rw [created.heapSize]
    exact serving.room
  · rw [page_address_div]
    exact renewed.member

end Creation

end RiriaKernel.KernelService
