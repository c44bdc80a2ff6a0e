import RiriaKernel.PagePermissions

/-!
# Frames behind user memory

Where the frames of processes come from and where they go. The frames that clients hold,
the tables in the lower halves of the pagemaps and the free frames all lie in one set that
never grows. Each operation of the page allocator and of the page tables keeps that, because
a table that is added was a free frame, and a frame that is freed was a table on the way to
the page.
-/

namespace RiriaKernel.UserMemory

open ByteMemory HaltingPrograms KernelState PhysicalAllocator PageTables
open PageTableForests PageTableOperations PageTableWords AddressSpaces
open PagePermissions (UserTables)

/-! ## Tables that come and go -/

def otherFrames (roots : Set Nat) (pmm : Pmm) (phys : Memory) : Set Nat :=
  {frame | Frame pmm frame ∧ ¬IsTable roots phys frame}

section Tables

variable {roots held : Set Nat} {before after : Machine} {root page : Nat}

theorem other_frames_kept {more : Set Nat} {pmm pmm' : Pmm} {phys phys' : Memory}
    (tables : Tables more (otherFrames roots pmm phys) pmm' phys') :
    otherFrames roots pmm phys ⊆ otherFrames more pmm' phys' :=
  fun frame other => ⟨tables.heldFrames frame other, tables.apart frame other⟩

/-- Frames have become free, and none of them was anything but a table. -/
structure TablesReturned (roots : Set Nat) (before after : Machine) : Prop where
  free : freeSet before.pmm ⊆ freeSet after.pmm
  others : otherFrames roots before.pmm before.phys ⊆ otherFrames roots after.pmm after.phys

theorem TablesReturned.trans {middle : Machine} (left : TablesReturned roots before middle)
    (right : TablesReturned roots middle after) : TablesReturned roots before after :=
  ⟨left.free.trans right.free, left.others.trans right.others⟩

/-- Only free frames have become tables, and the tables of user pages are still made for them. -/
structure TablesExtended (roots : Set Nat) (before after : Machine) : Prop where
  others : otherFrames roots before.pmm before.phys ⊆ otherFrames roots after.pmm after.phys
  user : ∀ root ∈ roots, UserTables before.phys root → UserTables after.phys root

theorem TablesExtended.refl (machine : Machine) : TablesExtended roots machine machine :=
  ⟨Set.Subset.refl _, fun _ _ => id⟩

theorem TablesExtended.trans {middle : Machine} (left : TablesExtended roots before middle)
    (right : TablesExtended roots middle after) : TablesExtended roots before after :=
  ⟨left.others.trans right.others, fun root isRoot user =>
    right.user root isRoot (left.user root isRoot user)⟩

theorem tables_other_frames (tables : Tables roots held before.pmm before.phys) :
    Tables roots (otherFrames roots before.pmm before.phys) before.pmm before.phys :=
  { tables with
    heldFrames := fun _ owned => owned.1
    apart := fun _ owned => owned.2 }

theorem tables_extended_take (tables : Tables roots held before.pmm before.phys)
    (member : page ∈ freeSet before.pmm) : TablesExtended roots before (takePage before page) :=
  ⟨other_frames_kept (((tables_other_frames tables).take member).mono (Set.subset_insert _ _)),
    fun _ isRoot user => user.kept tables (tables.take_kept member) isRoot⟩

theorem frame_of_taken {pmm : Pmm} {index : Nat} (tracked : index ≤ pmm.highestPage)
    (nonzero : index ≠ 0) (taken : index ∉ freeSet pmm) : Frame pmm (index * pageSize) := by
  refine ⟨Nat.mul_mod_left _ _, Nat.mul_ne_zero nonzero (by decide), ?_, ?_⟩
  · rwa [page_address_div]
  · rw [page_address_div]
    by_contra clear
    exact taken (mem_freeSet.mpr ⟨tracked, by simpa using clear⟩)

theorem TablesReturned.isTable (returned : TablesReturned roots before after)
    (tracked : after.pmm.highestPage = before.pmm.highestPage) (lowPage : 0 ∉ freeSet after.pmm)
    (free : page ∈ freeSet after.pmm) (taken : page ∉ freeSet before.pmm) :
    IsTable roots before.phys (page * pageSize) := by
  by_contra other
  have frame := frame_of_taken (tracked ▸ (mem_freeSet.mp free).1) (fun zero => lowPage (zero ▸ free))
    taken
  apply (returned.others ⟨frame, other⟩).1.not_free
  rwa [page_address_div]

theorem added_table_free (tables : Tables roots held before.pmm before.phys)
    (kept : Tables roots (otherFrames roots before.pmm before.phys) after.pmm after.phys)
    (highest : after.pmm.highestPage = before.pmm.highestPage)
    (added : TablesAdded roots root page before.phys after.phys) {other level key table : Nat}
    (isRoot : other ∈ roots) (shallow : level ≤ 3) (bounded : key < 512 ^ level)
    (absent : tableAt before.phys other level key = none)
    (found : tableAt after.phys other level key = some table) :
    table / pageSize ∈ freeSet before.pmm := by
  have isTable := isTable_of_place isRoot (show level < 4 by omega) bounded found
  have frame := kept.frames table isTable
  by_contra taken
  have nonzero : table / pageSize ≠ 0 := by
    intro zero
    apply frame.nonzero
    rw [← frame.address_eq, zero, Nat.zero_mul]
  have tracked := frame.tracked
  rw [highest] at tracked
  have used := frame_of_taken tracked nonzero taken
  rw [frame.address_eq] at used
  by_cases old : IsTable roots before.phys table
  · -- a table stays in its place, and there is only one place for each
    obtain ⟨owner, depth, place, ownerRoot, inner, placeBounded, here⟩ := old
    rcases added owner ownerRoot depth place (by change depth < 4 at inner; omega) placeBounded with
      same | ⟨none, -⟩
    · have still : tableAt after.phys owner depth place = some table := same.trans here
      obtain ⟨rfl, rfl, sharing⟩ := kept.separated owner other depth level place key table ownerRoot
        isRoot inner (show level < 4 by omega) placeBounded bounded still found
      rcases sharing with rfl | common
      · rw [show tableAt before.phys owner depth place = _ from here] at absent
        cases absent
      · have agree : tableAt before.phys owner depth place = tableAt before.phys other depth place :=
          tables.coherent owner other depth place ownerRoot isRoot (Nat.le_of_lt inner) placeBounded
            common
        rw [absent, show tableAt before.phys owner depth place = _ from here] at agree
        cases agree
    · rw [show tableAt before.phys owner depth place = _ from here] at none
      cases none
  · exact kept.apart table ⟨used, old⟩ isTable

/-- A frame that has become free was a table on the way to `page`. -/
theorem freed_table
    (kept : Tables roots (otherFrames roots before.pmm before.phys) after.pmm after.phys)
    (highest : after.pmm.highestPage = before.pmm.highestPage)
    (dropped : TablesDropped roots root page before.phys after.phys) {index : Nat}
    (free : index ∈ freeSet after.pmm) (taken : index ∉ freeSet before.pmm) :
    ∃ other level key, other ∈ roots ∧ level ≤ 3 ∧ key < 512 ^ level ∧
      tableAt before.phys other level key = some (index * pageSize) ∧
        OnPath root page other level key := by
  have nonzero : index ≠ 0 := by
    intro zero
    rw [zero] at free
    exact kept.lowPage free
  have tracked := (mem_freeSet.mp free).1
  rw [highest] at tracked
  have used := frame_of_taken tracked nonzero taken
  have gone : ¬IsTable roots after.phys (index * pageSize) := kept.free_not_table free
  by_cases old : IsTable roots before.phys (index * pageSize)
  · obtain ⟨other, level, key, isRoot, inner, bounded, here⟩ := old
    change level < 4 at inner
    rcases dropped other isRoot level key (by omega) bounded with same | ⟨-, path⟩
    · exact absurd (isTable_of_place isRoot inner bounded (same.trans here)) gone
    · exact ⟨other, level, key, isRoot, by omega, bounded, here, path⟩
  · have still := (kept.heldFrames _ ⟨used, old⟩).not_free
    rw [page_address_div] at still
    exact absurd free still

end Tables

/-! ## The invariant -/

/-- The lower halves of the pagemaps spell `spaces`. The free frames, the frames clients hold and
the tables in the lower halves of `users` lie in `base`. -/
structure Holdings (base : Finset Nat) (users roots held : Set Nat) (spaces : Spaces)
    (machine : Machine) : Prop where
  known : users ⊆ roots
  tables : Tables roots held machine.pmm machine.phys
  view : ∀ root, root ∈ roots → ∀ page, ¬UpperHalf page →
    spacesOf machine.phys root page = spaces root page
  free : freeSet machine.pmm ⊆ base
  heldBase : ∀ frame, frame ∈ held → frame / pageSize ∈ base
  tablesBase : ∀ root, root ∈ users → ∀ level key table, level ≤ 3 → key < 512 ^ level →
    0 < level → ¬SharedAt level key → tableAt machine.phys root level key = some table →
      table / pageSize ∈ base

/-- The latches that the operations on user memory take are open. -/
structure Unlatched (machine : Machine) : Prop where
  pmm : machine.locked .pmm = false
  vmm : machine.locked .vmm = false

theorem Unlatched.of_same {before after : Machine} (unlatched : Unlatched before)
    (same : after.locked = before.locked) : Unlatched after :=
  ⟨(congrFun same _).trans unlatched.pmm, (congrFun same _).trans unlatched.vmm⟩

theorem frame_page_injective {pmm : Pmm} {left right : Nat} (first : Frame pmm left)
    (second : Frame pmm right) (same : left / pageSize = right / pageSize) : left = right := by
  rw [← first.address_eq, ← second.address_eq, same]

section Operations

variable {base : Finset Nat} {users roots held : Set Nat} {spaces : Spaces}
  {machine after : Machine} {root page : Nat}

theorem lower_half_lt (lower : ¬UpperHalf page) : page < 512 ^ 4 := by
  unfold UpperHalf at lower
  omega

section

variable (holdings : Holdings base users roots held spaces machine)

include holdings

theorem Holdings.of_kept {more : Set Nat} (tables : Tables roots more after.pmm after.phys)
    (kept : TablesKept roots machine.phys after.phys) (free : freeSet after.pmm ⊆ base)
    (heldBase : ∀ frame, frame ∈ more → frame / pageSize ∈ base) :
    Holdings base users roots more spaces after where
  known := holdings.known
  tables := tables
  view := by
    intro root isRoot page lower
    rw [spacesOf, holdings.tables.leaf_kept kept isRoot (lower_half_lt lower)]
    exact holdings.view root isRoot page lower
  free := free
  heldBase := heldBase
  tablesBase := by
    intro root user level key table shallow bounded positive own found
    have walk := (holdings.tables.agrees kept).walk (holdings.known user)
      (show level ≤ 4 by omega) bounded
    exact holdings.tablesBase root user level key table shallow bounded positive own
      (walk.symm.trans found)

theorem Holdings.take (member : page ∈ freeSet machine.pmm) :
    Holdings base users roots (insert (page * pageSize) held) spaces (takePage machine page) := by
  apply holdings.of_kept (holdings.tables.take member) (holdings.tables.take_kept member)
  · rw [freeSet_takePage]
    exact (Finset.erase_subset _ _).trans holdings.free
  · intro frame owned
    rcases owned with rfl | old
    · rw [page_address_div]
      exact holdings.free member
    · exact holdings.heldBase frame old

theorem Holdings.release {frame : Nat} (owned : frame ∈ held) :
    Holdings base users roots (held \ {frame}) spaces (returnPage machine (frame / pageSize)) := by
  apply holdings.of_kept (holdings.tables.release owned) (fun _ _ => rfl)
  · rw [freeSet_returnPage (holdings.tables.heldFrames frame owned).tracked]
    exact Finset.insert_subset (holdings.heldBase frame owned) holdings.free
  · exact fun other still => holdings.heldBase other still.1

end

/-- A lower-half leaf entry is written, and tables on the way to it may have come or gone. -/
theorem view_write {before after : Memory} {word : Nat} {value : Option Nat}
    (view : ∀ root, root ∈ roots → ∀ page, ¬UpperHalf page →
      spacesOf before root page = spaces root page)
    (set : LeafSet roots root page word before after) (decoded : decode word = value)
    {other index : Nat} (isRoot : other ∈ roots) (lower : ¬UpperHalf index) :
    spacesOf after other index = spaces.write root page value other index := by
  rw [spacesOf, set other isRoot index (lower_half_lt lower), Spaces.write_apply]
  by_cases hit : other = root ∧ index = page
  · rw [if_pos hit, if_pos ⟨hit.2, Or.inl hit.1⟩, decoded]
  · rw [if_neg hit, if_neg]
    · exact view other isRoot index lower
    · intro reached
      exact hit ⟨reached.2.resolve_right lower, reached.1⟩

theorem upper_leaf_write {before after : Memory} {word : Nat} (lower : ¬UpperHalf page)
    (set : LeafSet roots root page word before after) {other index : Nat} (isRoot : other ∈ roots)
    (bounded : index < 512 ^ 4) (upper : UpperHalf index) :
    leafWord after other index = leafWord before other index := by
  rw [set other isRoot index bounded, if_neg]
  intro hit
  rw [hit.1] at upper
  exact lower upper

section

variable (holdings : Holdings base users roots held spaces machine)

include holdings

theorem Holdings.grow {spaces' : Spaces} {spent : Nat}
    (grown : Grown roots held spent machine after)
    (others : Tables roots (otherFrames roots machine.pmm machine.phys) after.pmm after.phys)
    (added : TablesAdded roots root page machine.phys after.phys)
    (view : ∀ root, root ∈ roots → ∀ page, ¬UpperHalf page →
      spacesOf after.phys root page = spaces' root page) :
    Holdings base users roots held spaces' after where
  known := holdings.known
  tables := grown.tables
  view := view
  free := grown.free.trans holdings.free
  heldBase := holdings.heldBase
  tablesBase := by
    intro other user level key table shallow bounded positive own found
    rcases added other (holdings.known user) level key shallow bounded with same | ⟨absent, -⟩
    · exact holdings.tablesBase other user level key table shallow bounded positive own
        (same.symm.trans found)
    · exact holdings.free (added_table_free holdings.tables others grown.elsewhere.highestPage added
        (holdings.known user) shallow bounded absent found)

theorem Holdings.map {word frame : Nat} (decoded : decode word = some frame)
    (mapped : Mapped roots held root page word machine after)
    (others : Mapped roots (otherFrames roots machine.pmm machine.phys) root page word machine after)
    (added : TablesAdded roots root page machine.phys after.phys) :
    Holdings base users roots held (spaces.write root page (some frame)) after :=
  holdings.grow mapped.grown others.grown.tables added fun _ isRoot _ own =>
    view_write holdings.view mapped.leaf decoded isRoot own

theorem Holdings.map_upper {word : Nat} (upper : UpperHalf page)
    (mapped : Mapped roots held root page word machine after)
    (others : Mapped roots (otherFrames roots machine.pmm machine.phys) root page word machine after)
    (added : TablesAdded roots root page machine.phys after.phys) :
    Holdings base users roots held spaces after := by
  apply holdings.grow mapped.grown others.grown.tables added
  intro other isRoot index lower
  have different : index ≠ page := by
    intro same
    rw [same] at lower
    exact lower upper
  rw [spacesOf, mapped.leaf other isRoot index (lower_half_lt lower), if_neg fun hit => different hit.1]
  exact holdings.view other isRoot index lower

theorem Holdings.walk {spent : Nat} (walked : Walked roots held machine root page spent after)
    (others : Walked roots (otherFrames roots machine.pmm machine.phys) machine root page spent after)
    (added : TablesAdded roots root page machine.phys after.phys) :
    Holdings base users roots held spaces after := by
  apply holdings.grow walked.grown others.grown.tables added
  intro other isRoot index lower
  rw [spacesOf, walked.leaves other isRoot index (lower_half_lt lower)]
  exact holdings.view other isRoot index lower

end

theorem Holdings.keep {frame : Nat}
    (holdings : Holdings base users roots (insert frame held) spaces machine)
    (fresh : frame ∉ held) :
    Holdings (base.erase (frame / pageSize)) users roots held spaces machine := by
  have tables := holdings.tables
  have own := tables.heldFrames frame (Set.mem_insert _ _)
  refine ⟨holdings.known, tables.mono (Set.subset_insert _ _), holdings.view, ?_, ?_, ?_⟩
  · intro page free
    refine Finset.mem_erase.mpr ⟨?_, holdings.free free⟩
    intro same
    rw [same] at free
    exact own.not_free free
  · intro other member
    have taken := tables.heldFrames other (Set.mem_insert_of_mem _ member)
    refine Finset.mem_erase.mpr ⟨?_, holdings.heldBase other (Set.mem_insert_of_mem _ member)⟩
    intro same
    rw [frame_page_injective taken own same] at member
    exact fresh member
  · intro root user level key table shallow bounded positive lower found
    have isTable := isTable_of_place (holdings.known user) (show level < 4 by omega) bounded found
    refine Finset.mem_erase.mpr ⟨?_, holdings.tablesBase root user level key table shallow bounded
      positive lower found⟩
    intro same
    rw [frame_page_injective (tables.frames table isTable) own same] at isTable
    exact tables.apart frame (Set.mem_insert _ _) isTable

theorem Holdings.unmap (holdings : Holdings base users roots held spaces machine)
    (user : root ∈ users) (lower : ¬UpperHalf page)
    (unmapped : Unmapped roots held root page machine after)
    (others : Unmapped roots (otherFrames roots machine.pmm machine.phys) root page machine after)
    (dropped : TablesDropped roots root page machine.phys after.phys) :
    Holdings base users roots held (spaces.write root page none) after where
  known := holdings.known
  tables := unmapped.tables
  view := fun _ isRoot _ own =>
    view_write holdings.view unmapped.leaf (decode_cleared _) isRoot own
  free := by
    intro index free
    by_cases before : index ∈ freeSet machine.pmm
    · exact holdings.free before
    · obtain ⟨other, level, key, -, shallow, bounded, found, positive, place, sharing⟩ :=
        freed_table others.tables unmapped.elsewhere.highestPage dropped free before
      obtain rfl : other = root := sharing.resolve_right lower
      have own : ¬SharedAt level key := by
        rw [place]
        exact fun shared => lower (upper_half_of_shared shallow shared)
      have inside := holdings.tablesBase other user level key _ shallow bounded positive own found
      rwa [page_address_div] at inside
  heldBase := holdings.heldBase
  tablesBase := by
    intro other otherUser level key table shallow bounded positive own found
    rcases dropped other (holdings.known otherUser) level key shallow bounded with same | ⟨none, -⟩
    · exact holdings.tablesBase other otherUser level key table shallow bounded positive own
        (same.symm.trans found)
    · rw [none] at found
      cases found

end Operations

/-! ## The operations of the kernel -/

structure LowerOnly (roots : Set Nat) (before after : Machine) : Prop where
  heap : after.heap = before.heap
  hhdm : after.hhdm = before.hhdm
  kernelPagemap : after.kernelPagemap = before.kernelPagemap
  highestPage : after.pmm.highestPage = before.pmm.highestPage
  upper : UpperKept roots before.phys after.phys
  leaves : ∀ root, root ∈ roots → ∀ page, page < 512 ^ 4 → UpperHalf page →
    leafWord after.phys root page = leafWord before.phys root page
  locked : after.locked = before.locked

/-- The kernel's heap and the kernel half are as they were, whatever has become of the latches. -/
structure KernelKept (roots : Set Nat) (before after : Machine) : Prop where
  heap : after.heap = before.heap
  kernelPagemap : after.kernelPagemap = before.kernelPagemap
  upper : UpperKept roots before.phys after.phys

theorem KernelKept.trans {roots : Set Nat} {first second third : Machine}
    (left : KernelKept roots first second) (right : KernelKept roots second third) :
    KernelKept roots first third :=
  ⟨right.heap.trans left.heap, right.kernelPagemap.trans left.kernelPagemap,
    left.upper.trans right.upper⟩

theorem LowerOnly.kernel_kept {roots : Set Nat} {before after : Machine}
    (lower : LowerOnly roots before after) : KernelKept roots before after :=
  ⟨lower.heap, lower.kernelPagemap, lower.upper⟩

theorem lower_only_of {roots : Set Nat} {before after : Machine} (elsewhere : Elsewhere before after)
    (upper : UpperKept roots before.phys after.phys)
    (leaves : ∀ root, root ∈ roots → ∀ page, page < 512 ^ 4 → UpperHalf page →
      leafWord after.phys root page = leafWord before.phys root page)
    (locked : after.locked = before.locked) : LowerOnly roots before after :=
  ⟨elsewhere.heap, elsewhere.hhdm, elsewhere.kernelPagemap, elsewhere.highestPage, upper, leaves,
    locked⟩

theorem LowerOnly.of_phys {roots : Set Nat} {before after : Machine}
    (heap : after.heap = before.heap) (hhdm : after.hhdm = before.hhdm)
    (kernelPagemap : after.kernelPagemap = before.kernelPagemap)
    (highestPage : after.pmm.highestPage = before.pmm.highestPage)
    (phys : after.phys = before.phys) (locked : after.locked = before.locked) :
    LowerOnly roots before after := by
  refine ⟨heap, hhdm, kernelPagemap, highestPage, ?_, ?_, locked⟩
  · rw [phys]
    exact fun _ _ _ _ _ => rfl
  · rw [phys]
    exact fun _ _ _ _ _ => rfl

theorem LowerOnly.trans {roots : Set Nat} {first second third : Machine}
    (left : LowerOnly roots first second) (right : LowerOnly roots second third) :
    LowerOnly roots first third where
  heap := right.heap.trans left.heap
  hhdm := right.hhdm.trans left.hhdm
  kernelPagemap := right.kernelPagemap.trans left.kernelPagemap
  highestPage := right.highestPage.trans left.highestPage
  upper := left.upper.trans right.upper
  leaves := fun root isRoot page bounded upper => (right.leaves root isRoot page bounded upper).trans
    (left.leaves root isRoot page bounded upper)
  locked := right.locked.trans left.locked

def outOfMemory : Stop := .panic "out of memory in pmm_allocate!"

section Kernel

variable {base : Finset Nat} {users roots held : Set Nat} {spaces : Spaces} {machine : Machine}
  {root virt : Nat}

structure Taken (base : Finset Nat) (users roots held : Set Nat) (spaces : Spaces)
    (machine : Machine) (frame : Nat) (after : Machine) : Prop where
  fresh : frame ∉ held
  nonzero : frame ≠ 0
  aligned : frame % pageSize = 0
  small : frame < 2 ^ 52
  holdings : Holdings base users roots (insert frame held) spaces after
  extended : TablesExtended roots machine after
  lower : LowerOnly roots machine after
  free : freeSet after.pmm ⊆ freeSet machine.pmm
  cost : (freeSet after.pmm).card + 1 = (freeSet machine.pmm).card

theorem ends_pmmAllocate_taken (holdings : Holdings base users roots held spaces machine)
    (unlocked : machine.locked .pmm = false) :
    Ends pmmAllocate (fun frame after => Taken base users roots held spaces machine frame after)
      (fun stop after => stop = outOfMemory ∧ freeSet machine.pmm = ∅ ∧
        Holdings base users roots held spaces after ∧ LowerOnly roots machine after ∧
          freeSet after.pmm = freeSet machine.pmm) machine := by
  apply ends_pmmAllocate unlocked
  · intro page least
    have member : page ∈ freeSet machine.pmm := least.1
    have taken := holdings.take member
    have frame := taken.tables.heldFrames _ (Set.mem_insert _ _)
    refine ⟨holdings.tables.free_not_held member, frame.nonzero, frame.aligned,
      holdings.tables.free_page_small member, taken, tables_extended_take holdings.tables member,
      ⟨rfl, rfl, rfl, rfl, ?_, ?_, rfl⟩, ?_, ?_⟩
    · exact holdings.tables.upper_kept (holdings.tables.take_kept member)
    · exact fun _ isRoot _ bounded _ =>
        holdings.tables.leaf_kept (holdings.tables.take_kept member) isRoot bounded
    · rw [freeSet_takePage]
      exact Finset.erase_subset _ _
    · rw [freeSet_takePage, Finset.card_erase_add_one member]
  · intro empty
    refine ⟨rfl, empty, ?_, LowerOnly.of_phys rfl rfl rfl rfl rfl rfl, rfl⟩
    exact holdings.of_kept holdings.tables (fun _ _ => rfl) holdings.free holdings.heldBase

structure MappedAt (base : Finset Nat) (users roots held : Set Nat) (spaces : Spaces)
    (machine : Machine) (root page frame : Nat) (after : Machine) : Prop where
  holdings : Holdings base users roots held (spaces.write root page (some frame)) after
  extended : TablesExtended roots machine after
  lower : LowerOnly roots machine after
  free : freeSet after.pmm ⊆ freeSet machine.pmm
  cost : (freeSet after.pmm).card + missingTables machine.phys root page =
    (freeSet machine.pmm).card

/-- The frames for tables have run out in the middle of `vmm_map_page`, whose latch stays. -/
structure OutOfTables (base : Finset Nat) (users roots held : Set Nat) (spaces : Spaces)
    (machine : Machine) (root page : Nat) (stop : Stop) (after : Machine) : Prop where
  message : stop = outOfMemory
  few : (freeSet machine.pmm).card < missingTables machine.phys root page
  holdings : Holdings base users roots held spaces after
  free : freeSet after.pmm ⊆ freeSet machine.pmm
  locked : after.locked = Function.update machine.locked .vmm true
  kept : KernelKept roots machine after

section

variable (holdings : Holdings base users roots held spaces machine)

include holdings

theorem ends_vmmMapPage_lower (unlatched : Unlatched machine) (isRoot : root ∈ roots)
    {frame flags : Nat} (request : MapRequest virt frame flags) (user : flags &&& pteUser ≠ 0) :
    Ends (vmmMapPage root virt frame flags)
      (fun mapped after => mapped = true ∧
        MappedAt base users roots held spaces machine root (pageOf virt) frame after)
      (fun stop after => OutOfTables base users roots held spaces machine root (pageOf virt) stop
        after) machine := by
  have own := lower_page request.lower
  have ready : TopReady roots root (pageOf virt) machine.phys := fun upper => absurd upper own
  have small := request.small.trans (show 2 ^ 52 < 2 ^ 64 by decide)
  have spec := ends_vmmMapPage_walks holdings.tables isRoot unlatched.pmm unlatched.vmm ready small
    request.flagsSmall
  have others := ends_vmmMapPage (tables_other_frames holdings.tables) isRoot unlatched.pmm
    unlatched.vmm ready small request.flagsSmall
  apply ends_mono (ends_and spec others)
  · intro _ after both
    obtain ⟨⟨success, mapped, added, cost, links⟩, -, other⟩ := both
    exact ⟨success, holdings.map request.decoded mapped other added,
      ⟨other_frames_kept other.grown.tables, fun _ isRoot old => old.map links isRoot (Or.inr user)⟩,
      lower_only_of mapped.grown.elsewhere (mapped.upper (Or.inl own))
        (fun _ isRoot _ => upper_leaf_write own mapped.leaf isRoot) mapped.locked,
      mapped.grown.free, cost⟩
  · intro _ after both
    obtain ⟨⟨message, few, locked, added, walked⟩, -, -, other⟩ := both
    exact ⟨message, few, holdings.walk walked other added, walked.grown.free, locked,
      walked.grown.elsewhere.heap, walked.grown.elsewhere.kernelPagemap, walked.upper (Or.inl own)⟩

theorem ends_pmmFree_held (unlocked : machine.locked .pmm = false) {frame : Nat}
    (owned : frame ∈ held) :
    Ends (pmmFree frame)
      (fun _ after => Holdings base users roots (held \ {frame}) spaces after ∧
        LowerOnly roots machine after) (fun _ _ => False) machine := by
  rw [ends_of_ok ((holdings.tables.heldFrames frame owned).pmm_free unlocked)]
  exact ⟨holdings.release owned, LowerOnly.of_phys rfl rfl rfl rfl rfl rfl⟩

theorem ends_vmmUnmapPage_lower (unlatched : Unlatched machine) (user : root ∈ users)
    (lower : ¬UpperHalf (pageOf virt)) (aligned : virt % pageSize = 0) :
    Ends (vmmUnmapPage root virt)
      (fun _ after => Holdings base users roots held (spaces.write root (pageOf virt) none) after ∧
        LowerOnly roots machine after ∧ TablesReturned roots machine after)
      (fun _ _ => False) machine := by
  have isRoot := holdings.known user
  have spec := ends_vmmUnmapPage_walks holdings.tables isRoot unlatched.pmm unlatched.vmm aligned
  have others := ends_vmmUnmapPage (tables_other_frames holdings.tables) isRoot unlatched.pmm
    unlatched.vmm aligned
  apply ends_mono (ends_and spec others)
  · intro _ after both
    obtain ⟨⟨-, unmapped, dropped⟩, -, other⟩ := both
    exact ⟨holdings.unmap user lower unmapped other dropped, lower_only_of unmapped.elsewhere
      unmapped.upper (fun _ isRoot _ => upper_leaf_write lower unmapped.leaf isRoot) unmapped.locked,
      unmapped.free, other_frames_kept other.tables⟩
  · exact fun _ _ both => both.1

end

end Kernel

end RiriaKernel.UserMemory
