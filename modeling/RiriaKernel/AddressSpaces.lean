import RiriaKernel.Pagemaps

/-!
# Address spaces

A pagemap is there to be a partial map from pages to frames. The abstract model of this
file is a family of such maps, one for each pagemap: `vmm_new_pagemap` adds one that
agrees with the kernel's in the upper half, `vmm_map_page` inserts or overwrites,
`vmm_unmap_page` deletes. Every run of the code is a run of the abstract model, as long as
clients write to frames they hold and return each of them at most once.
-/

namespace RiriaKernel.AddressSpaces

open ByteMemory HaltingPrograms KernelState PhysicalAllocator PageTables
open PageTableForests PageTableOperations PageTableWords KernelHeap KernelHeapTables Pagemaps

/-! ## Finite maps -/

/-- A partial map from page numbers to the addresses of frames. -/
abbrev Space := Nat → Option Nat

def Space.address (space : Space) (virt : Nat) : Nat :=
  match space (pageOf virt) with
  | some frame => frame + virt % pageSize
  | none => 0

/-- The part of a space that every new pagemap takes over. -/
def Space.kernelHalf (space : Space) : Space := fun page =>
  if UpperHalf page then space page else none

abbrev Spaces := Nat → Space

def Spaces.create (spaces : Spaces) (kernel new : Nat) : Spaces :=
  Function.update spaces new (spaces kernel).kernelHalf

def Spaces.write (spaces : Spaces) (root page : Nat) (value : Option Nat) : Spaces :=
  Function.update spaces root (Function.update (spaces root) page value)

theorem Spaces.write_apply (spaces : Spaces) (root page : Nat) (value : Option Nat)
    (other index : Nat) :
    spaces.write root page value other index =
      if other = root ∧ index = page then value else spaces other index := by
  unfold Spaces.write
  by_cases same : other = root
  · subst same
    simp only [Function.update_self, Function.update_apply, true_and]
  · rw [Function.update_of_ne same, if_neg fun hit => same hit.1]

def spacesOf (phys : Memory) : Spaces := fun root page => decode (leafWord phys root page)

theorem translate_eq (phys : Memory) (root virt : Nat) :
    translate phys root virt = (spacesOf phys root).address virt :=
  rfl

/-! ## Runs -/

/-- What the callers of `vmm_map_page` promise about a lower-half page. -/
structure MapRequest (virt frame flags : Nat) : Prop where
  lower : pml4Index virt < 256
  positive : 0 < frame
  small : frame < 2 ^ 52
  aligned : frame % pageSize = 0
  flagsSmall : flags < 2 ^ 64
  flagsDisjoint : flags &&& pteAddrMask = 0

/-- Runs over any number of pagemaps. `roots` are the pagemaps, `held` the frames that
clients have taken and not returned. A run starts in any state in which no table is free
or held. -/
inductive SpaceRun : Machine → Set Nat → Set Nat → Spaces → Prop where
  | start {machine : Machine} {roots held : Set Nat}
      (tables : Tables roots held machine.pmm machine.phys)
      (isKernel : machine.kernelPagemap ∈ roots) (unlockedPmm : machine.locked .pmm = false)
      (unlockedVmm : machine.locked .vmm = false) :
      SpaceRun machine roots held (spacesOf machine.phys)
  | create {machine after : Machine} {roots held : Set Nat} {spaces : Spaces} {new : Nat}
      (prior : SpaceRun machine roots held spaces) (run : vmmNewPagemap machine = .ok new after) :
      SpaceRun after (insert new roots) held (spaces.create machine.kernelPagemap new)
  | map {machine after : Machine} {roots held : Set Nat} {spaces : Spaces}
      {root virt frame flags : Nat} {mapped : Bool} (prior : SpaceRun machine roots held spaces)
      (isRoot : root ∈ roots) (request : MapRequest virt frame flags)
      (run : vmmMapPage root virt frame flags machine = .ok mapped after) :
      SpaceRun after roots held (spaces.write root (pageOf virt) (some frame))
  | unmap {machine after : Machine} {roots held : Set Nat} {spaces : Spaces} {root virt : Nat}
      {done : Bool} (prior : SpaceRun machine roots held spaces) (isRoot : root ∈ roots)
      (lower : pml4Index virt < 256) (aligned : virt % pageSize = 0)
      (run : vmmUnmapPage root virt machine = .ok done after) :
      SpaceRun after roots held (spaces.write root (pageOf virt) none)
  | allocate {machine after : Machine} {roots held : Set Nat} {spaces : Spaces} {frame : Nat}
      (prior : SpaceRun machine roots held spaces) (run : pmmAllocate machine = .ok frame after) :
      SpaceRun after roots (insert frame held) spaces
  | free {machine after : Machine} {roots held : Set Nat} {spaces : Spaces} {frame : Nat}
      (prior : SpaceRun machine roots held spaces) (owned : frame ∈ held)
      (run : pmmFree frame machine = .ok ⟨⟩ after) :
      SpaceRun after roots (held \ {frame}) spaces
  | write {machine : Machine} {roots held : Set Nat} {spaces : Spaces} {phys : Memory}
      (prior : SpaceRun machine roots held spaces)
      (inside : ∀ address, pageFloor address ∉ held → phys address = machine.phys address) :
      SpaceRun { machine with phys } roots held spaces

/-- The invariant of every run: the tables in memory spell the abstract maps. -/
structure Refines (machine : Machine) (roots held : Set Nat) (spaces : Spaces) : Prop where
  tables : Tables roots held machine.pmm machine.phys
  isKernel : machine.kernelPagemap ∈ roots
  unlockedPmm : machine.locked .pmm = false
  unlockedVmm : machine.locked .vmm = false
  view : ∀ root, root ∈ roots → ∀ page, page < 512 ^ 4 →
    spacesOf machine.phys root page = spaces root page

section Steps

variable {machine after : Machine} {roots held : Set Nat} {spaces : Spaces}

section

variable (refines : Refines machine roots held spaces)

include refines

theorem Refines.translate_eq {root : Nat} (isRoot : root ∈ roots) (virt : Nat) :
    translate machine.phys root virt = (spaces root).address virt := by
  rw [AddressSpaces.translate_eq, Space.address, Space.address,
    refines.view root isRoot (pageOf virt) (page_of_lt virt)]

theorem Refines.of_kept {more : Set Nat} (tables : Tables roots more after.pmm after.phys)
    (kept : TablesKept roots machine.phys after.phys)
    (kernel : after.kernelPagemap = machine.kernelPagemap) (locked : after.locked = machine.locked) :
    Refines after roots more spaces where
  tables := tables
  isKernel := by
    rw [kernel]
    exact refines.isKernel
  unlockedPmm := by
    rw [locked]
    exact refines.unlockedPmm
  unlockedVmm := by
    rw [locked]
    exact refines.unlockedVmm
  view := by
    intro root isRoot page bounded
    rw [spacesOf, refines.tables.leaf_kept kept isRoot bounded]
    exact refines.view root isRoot page bounded

theorem Refines.create {new : Nat} (run : vmmNewPagemap machine = .ok new after) :
    Refines after (insert new roots) held (spaces.create machine.kernelPagemap new) := by
  have created := (ends_vmmNewPagemap refines.tables refines.isKernel refines.unlockedPmm
    refines.unlockedVmm).returns run
  refine ⟨created.tables, ?_, ?_, ?_, ?_⟩
  · rw [created.kernelPagemap]
    exact Set.mem_insert_of_mem _ refines.isKernel
  · rw [created.locked .pmm (by decide)]
    exact refines.unlockedPmm
  · rw [created.locked .vmm (by decide)]
    exact refines.unlockedVmm
  · intro root isRoot page bounded
    by_cases same : root = new
    · subst same
      rw [spacesOf, created.newLeaves page bounded, Spaces.create, Function.update_self,
        Space.kernelHalf, ← refines.view _ refines.isKernel page bounded]
      split
      · rfl
      · exact decode_zero
    · have old : root ∈ roots := isRoot.resolve_left same
      rw [spacesOf, created.leaves root old page bounded, Spaces.create,
        Function.update_of_ne same]
      exact refines.view root old page bounded

end

theorem upper_half_iff (virt : Nat) : UpperHalf (pageOf virt) ↔ 256 ≤ pml4Index virt := by
  rw [(page_of_digits virt).2.2.2]
  unfold UpperHalf
  omega

theorem lower_page {virt : Nat} (lower : pml4Index virt < 256) : ¬UpperHalf (pageOf virt) := by
  rw [upper_half_iff]
  omega

theorem MapRequest.decoded {virt frame flags : Nat} (request : MapRequest virt frame flags) :
    decode (pageFloor frame ||| flags ||| ptePresent) = some frame := by
  rw [page_floor_of_aligned request.aligned]
  exact decode_mapped request.aligned request.small request.flagsDisjoint

theorem Refines.leaf_set (refines : Refines machine roots held spaces) {root page word : Nat}
    {value : Option Nat} (lower : ¬UpperHalf page)
    (set : LeafSet roots root page word machine.phys after.phys) (decoded : decode word = value)
    (tables : Tables roots held after.pmm after.phys)
    (kernel : after.kernelPagemap = machine.kernelPagemap) (locked : after.locked = machine.locked) :
    Refines after roots held (spaces.write root page value) := by
  refine ⟨tables, ?_, ?_, ?_, ?_⟩
  · rw [kernel]
    exact refines.isKernel
  · rw [locked]
    exact refines.unlockedPmm
  · rw [locked]
    exact refines.unlockedVmm
  · intro other isRoot index bounded
    rw [spacesOf, set other isRoot index bounded, Spaces.write_apply]
    by_cases hit : other = root ∧ index = page
    · rw [if_pos hit, if_pos ⟨hit.2, Or.inl hit.1⟩, decoded]
    · rw [if_neg hit, if_neg]
      · exact refines.view other isRoot index bounded
      · rintro ⟨rfl, same | upper⟩
        · exact hit ⟨same, rfl⟩
        · exact lower upper

theorem Refines.map (refines : Refines machine roots held spaces) {root virt frame flags : Nat}
    {mapped : Bool} (isRoot : root ∈ roots) (request : MapRequest virt frame flags)
    (run : vmmMapPage root virt frame flags machine = .ok mapped after) :
    Refines after roots held (spaces.write root (pageOf virt) (some frame)) := by
  have lower := lower_page request.lower
  obtain ⟨-, done⟩ := (ends_vmmMapPage refines.tables isRoot refines.unlockedPmm
    refines.unlockedVmm (fun upper => absurd upper lower) (request.small.trans (by decide))
    request.flagsSmall).returns run
  exact refines.leaf_set lower done.leaf request.decoded done.grown.tables
    done.grown.elsewhere.kernelPagemap done.locked

theorem decode_cleared (word : Nat) : decode (clearedWord word) = none := by
  unfold clearedWord decode
  split
  · next absent => rw [if_neg fun present => present absent]
  · exact decode_zero

theorem Refines.unmap (refines : Refines machine roots held spaces) {root virt : Nat} {done : Bool}
    (isRoot : root ∈ roots) (lower : pml4Index virt < 256) (aligned : virt % pageSize = 0)
    (run : vmmUnmapPage root virt machine = .ok done after) :
    Refines after roots held (spaces.write root (pageOf virt) none) := by
  obtain ⟨-, unmapped⟩ := (ends_vmmUnmapPage refines.tables isRoot refines.unlockedPmm
    refines.unlockedVmm aligned).returns run
  exact refines.leaf_set (lower_page lower) unmapped.leaf (decode_cleared _) unmapped.tables
    unmapped.elsewhere.kernelPagemap unmapped.locked

theorem allocated_page (unlocked : machine.locked .pmm = false) {frame : Nat}
    (run : pmmAllocate machine = .ok frame after) :
    ∃ page, page ∈ freeSet machine.pmm ∧ frame = page * pageSize ∧ after = takePage machine page := by
  have allocated : Ends pmmAllocate (fun frame after => ∃ page, page ∈ freeSet machine.pmm ∧
      frame = page * pageSize ∧ after = takePage machine page) (fun _ _ => True) machine :=
    ends_pmmAllocate unlocked (fun page least => ⟨page, least.1, rfl, rfl⟩) fun _ => trivial
  exact allocated.returns run

theorem freed_page {frame : Nat} (handed : Frame machine.pmm frame)
    (unlocked : machine.locked .pmm = false) (run : pmmFree frame machine = .ok ⟨⟩ after) :
    after = returnPage machine (frame / pageSize) := by
  rw [handed.pmm_free unlocked] at run
  cases run
  rfl

theorem Refines.allocate (refines : Refines machine roots held spaces) {frame : Nat}
    (run : pmmAllocate machine = .ok frame after) :
    Refines after roots (insert frame held) spaces := by
  obtain ⟨page, member, rfl, rfl⟩ := allocated_page refines.unlockedPmm run
  exact refines.of_kept (refines.tables.take member) (refines.tables.take_kept member) rfl rfl

theorem Refines.free (refines : Refines machine roots held spaces) {frame : Nat}
    (owned : frame ∈ held) (run : pmmFree frame machine = .ok ⟨⟩ after) :
    Refines after roots (held \ {frame}) spaces := by
  rw [freed_page (refines.tables.heldFrames frame owned) refines.unlockedPmm run]
  exact refines.of_kept (refines.tables.release owned) (fun _ _ => rfl) rfl rfl

/-- Every state of every run refines the abstract model. -/
theorem refines_of_run (run : SpaceRun machine roots held spaces) :
    Refines machine roots held spaces := by
  induction run with
  | start tables isKernel unlockedPmm unlockedVmm =>
    exact ⟨tables, isKernel, unlockedPmm, unlockedVmm, fun _ _ _ _ => rfl⟩
  | create _ run induction => exact induction.create run
  | map _ isRoot request run induction => exact induction.map isRoot request run
  | unmap _ isRoot lower aligned run induction => exact induction.unmap isRoot lower aligned run
  | allocate _ run induction => exact induction.allocate run
  | free _ owned run induction => exact induction.free owned run
  | write _ inside induction =>
    have kept := induction.tables.kept_of_held inside
    exact induction.of_kept (induction.tables.rewritten kept) kept rfl rfl

theorem Refines.maps (refines : Refines machine roots held spaces) {root virt frame flags : Nat}
    (isRoot : root ∈ roots) (request : MapRequest virt frame flags)
    (enough : 3 ≤ (freeSet machine.pmm).card) :
    ∃ after, vmmMapPage root virt frame flags machine = .ok true after := by
  have ends : Ends (vmmMapPage root virt frame flags) (fun mapped _ => mapped = true)
      (fun _ _ => False) machine := by
    apply ends_mono (ends_vmmMapPage refines.tables isRoot refines.unlockedPmm refines.unlockedVmm
      (fun upper => absurd upper (lower_page request.lower)) (request.small.trans (by decide))
      request.flagsSmall)
    · exact fun _ _ done => done.1
    · rintro _ _ ⟨-, few, -⟩
      omega
  obtain ⟨_, after, run, rfl⟩ := ends.exists_ok
  exact ⟨after, run⟩

theorem Refines.unmaps (refines : Refines machine roots held spaces) {root virt : Nat}
    (isRoot : root ∈ roots) (aligned : virt % pageSize = 0) :
    ∃ after, vmmUnmapPage root virt machine = .ok true after := by
  obtain ⟨_, after, run, rfl, -⟩ := (ends_vmmUnmapPage refines.tables isRoot refines.unlockedPmm
    refines.unlockedVmm aligned).exists_ok
  exact ⟨after, run⟩

theorem address_write_other {root page : Nat} {value : Option Nat} {other virt : Nat}
    (elsewhere : other ≠ root ∨ pageOf virt ≠ page) :
    ((spaces.write root page value) other).address virt = (spaces other).address virt := by
  have same : spaces.write root page value other (pageOf virt) = spaces other (pageOf virt) := by
    rw [Spaces.write_apply, if_neg]
    rintro ⟨rfl, rfl⟩
    cases elsewhere with
    | inl different => exact different rfl
    | inr different => exact different rfl
  rw [Space.address, same]
  rfl

end Steps

/-- One call of `vmm_map_page` or `vmm_unmap_page` on a lower-half page. -/
inductive LowerStep (root virt : Nat) (machine after : Machine) : Prop where
  | map {frame flags : Nat} {mapped : Bool} (request : MapRequest virt frame flags)
      (run : vmmMapPage root virt frame flags machine = .ok mapped after)
  | unmap {done : Bool} (lower : pml4Index virt < 256) (aligned : virt % pageSize = 0)
      (run : vmmUnmapPage root virt machine = .ok done after)

/-- Page tables are finite maps: in every state of every run translation is lookup in the
abstract map, the next call returns if three frames are free, it changes one page of one
pagemap, and no table is in two places or is also a frame of a client. -/
theorem address_spaces_refine_maps {machine : Machine} {roots held : Set Nat} {spaces : Spaces}
    (run : SpaceRun machine roots held spaces) :
    (∀ root ∈ roots, ∀ virt,
      vmmVirtToPhys root virt machine = .ok ((spaces root).address virt) machine) ∧
    (∀ root ∈ roots, ∀ virt after, LowerStep root virt machine after →
      ∀ other ∈ roots, ∀ address, other ≠ root ∨ pageOf address ≠ pageOf virt →
        vmmVirtToPhys other address after = .ok ((spaces other).address address) after) ∧
    (∀ root ∈ roots, ∀ virt frame flags, MapRequest virt frame flags →
      3 ≤ (freeSet machine.pmm).card →
        ∃ after, vmmMapPage root virt frame flags machine = .ok true after) ∧
    (∀ root ∈ roots, ∀ virt, virt % pageSize = 0 →
      ∃ after, vmmUnmapPage root virt machine = .ok true after) ∧
    (∀ left ∈ roots, ∀ right ∈ roots, ∀ depth depth' key key' table, depth < 4 → depth' < 4 →
      key < 512 ^ depth → key' < 512 ^ depth' →
      tableAt machine.phys left depth key = some table →
      tableAt machine.phys right depth' key' = some table →
        depth = depth' ∧ key = key' ∧ (left = right ∨ SharedAt depth key)) ∧
    ∀ frame ∈ held, ¬IsTable roots machine.phys frame := by
  have refines := refines_of_run run
  refine ⟨?_, ?_, ?_, ?_, ?_, refines.tables.apart⟩
  · intro root isRoot virt
    rw [vmm_virt_to_phys_ok, refines.translate_eq isRoot]
  · intro root isRoot virt after step other otherRoot address elsewhere
    rw [vmm_virt_to_phys_ok]
    cases step with
    | map request run =>
      rw [(refines.map isRoot request run).translate_eq otherRoot, address_write_other elsewhere]
    | unmap lower aligned run =>
      rw [(refines.unmap isRoot lower aligned run).translate_eq otherRoot,
        address_write_other elsewhere]
  · exact fun root isRoot virt frame flags request enough => refines.maps isRoot request enough
  · exact fun root isRoot virt aligned => refines.unmaps isRoot aligned
  · intro left leftRoot right rightRoot depth depth' key key' table inner inner' bounded bounded'
      place place'
    exact refines.tables.separated left right depth depth' key key' table leftRoot rightRoot inner
      inner' bounded bounded' place place'

/-- The small machine with a heap of one free block. -/
def readyMachine : Machine :=
  { smallMachine with
    heap :=
      { start := kernelHeapStart, size := 4096, head := kernelHeapStart,
        memory := fun address => if address = kernelHeapStart + 1 then 16 else 0 } }

theorem ready_machine_creates : ∃ new after, vmmNewPagemap readyMachine = .ok new after ∧
    3 ≤ (freeSet after.pmm).card := by
  have many : 2040 ≤ (freeSet readyMachine.pmm).card := small_machine_free
  have frames : (freeSet readyMachine.pmm).Nonempty := Finset.card_pos.mp (by omega)
  have tables : Tables {4096} ∅ readyMachine.pmm readyMachine.phys := small_machine_tables
  have created := ends_vmmNewPagemap tables rfl rfl rfl
  have returns : Ends vmmNewPagemap (fun _ _ => True) (fun _ _ => False) readyMachine :=
    vmm_new_pagemap_returns small_machine_tables.lowPage rfl frames (by decide) (by decide)
  obtain ⟨new, after, run, -⟩ := returns.exists_ok
  have budget := (created.returns run).budget
  exact ⟨new, after, run, by omega⟩

/-- A new pagemap translates the page that is mapped in it. -/
theorem address_spaces_refine_maps_ready :
    ∃ new created mapped, vmmNewPagemap readyMachine = .ok new created ∧
      vmmMapPage new 0x400000 0x5000 7 created = .ok true mapped ∧
      vmmVirtToPhys new 0x400123 mapped = .ok 0x5123 mapped := by
  obtain ⟨new, created, creation, enough⟩ := ready_machine_creates
  have started : SpaceRun readyMachine {4096} ∅ (spacesOf readyMachine.phys) :=
    SpaceRun.start small_machine_tables rfl rfl rfl
  have request : MapRequest 0x400000 0x5000 7 :=
    ⟨by decide, by decide, by decide, by decide, by decide, by decide⟩
  have run := SpaceRun.create started creation
  obtain ⟨mapped, mapping⟩ := (address_spaces_refine_maps run).2.2.1 new (Set.mem_insert _ _)
    0x400000 0x5000 7 request enough
  have translated := (address_spaces_refine_maps
    (SpaceRun.map run (Set.mem_insert _ _) request mapping)).1 new (Set.mem_insert _ _) 0x400123
  refine ⟨new, created, mapped, creation, mapping, ?_⟩
  rw [translated, Space.address, Spaces.write_apply, if_pos ⟨rfl, by decide⟩]
  rfl

end RiriaKernel.AddressSpaces
