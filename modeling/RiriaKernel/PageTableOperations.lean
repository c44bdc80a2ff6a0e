import RiriaKernel.ConfinedPrograms
import RiriaKernel.PageTableForests

/-!
# Walks through the page tables

What the walks of `vmm.c` can do to all pagemaps: `vmm_map_page` changes one leaf entry and turns at
most three free frames into tables; `vmm_unmap_page` clears one leaf entry and returns the tables
it leaves empty. Neither touches the bytes of a held frame. The reading walk and the single steps
of the two others are specified here.
-/

namespace RiriaKernel.PageTableOperations

open ByteMemory HaltingPrograms ConfinedPrograms KernelState PhysicalAllocator RadixForests PageTables
open PageTableForests

/-- Everything outside physical memory, the page allocator, the locks and the interrupt
state. -/
structure Elsewhere (before after : Machine) : Prop where
  heap : after.heap = before.heap
  hhdm : after.hhdm = before.hhdm
  kernelPagemap : after.kernelPagemap = before.kernelPagemap
  highestPage : after.pmm.highestPage = before.pmm.highestPage

structure Grown (roots held : Set Nat) (spent : Nat) (before after : Machine) : Prop where
  tables : Tables roots held after.pmm after.phys
  bytes : ∀ address, pageFloor address ∈ held → after.phys address = before.phys address
  free : freeSet after.pmm ⊆ freeSet before.pmm
  budget : (freeSet before.pmm).card ≤ (freeSet after.pmm).card + spent
  elsewhere : Elsewhere before after

def LeavesKept (roots : Set Nat) (before after : Memory) : Prop :=
  ∀ root, root ∈ roots → ∀ page, page < 512 ^ 4 →
    leafWord after root page = leafWord before root page

/-- One leaf entry is written, in `root` and in every pagemap that shares it. -/
def LeafSet (roots : Set Nat) (root page word : Nat) (before after : Memory) : Prop :=
  ∀ other, other ∈ roots → ∀ index, index < 512 ^ 4 →
    leafWord after other index =
      if index = page ∧ (other = root ∨ UpperHalf index) then word else leafWord before other index

/-- `key` is the prefix of `page` at `level`, where `other` and `root` have one table. -/
def OnPath (root page other level key : Nat) : Prop :=
  0 < level ∧ key = page / 512 ^ (4 - level) ∧ (other = root ∨ UpperHalf page)

def TablesAdded (roots : Set Nat) (root page : Nat) (before after : Memory) : Prop :=
  ∀ other, other ∈ roots → ∀ level key, level ≤ 3 → key < 512 ^ level →
    tableAt after other level key = tableAt before other level key ∨
      (tableAt before other level key = none ∧ OnPath root page other level key)

def TablesDropped (roots : Set Nat) (root page : Nat) (before after : Memory) : Prop :=
  ∀ other, other ∈ roots → ∀ level key, level ≤ 3 → key < 512 ^ level →
    tableAt after other level key = tableAt before other level key ∨
      (tableAt after other level key = none ∧ OnPath root page other level key)

def missingTables (phys : Memory) (root page : Nat) : Nat :=
  (if tableAt phys root 1 (page / 512 ^ 3) = none then 1 else 0) +
    (if tableAt phys root 2 (page / 512 ^ 2) = none then 1 else 0) +
    (if tableAt phys root 3 (page / 512) = none then 1 else 0)

theorem Elsewhere.refl (machine : Machine) : Elsewhere machine machine := ⟨rfl, rfl, rfl, rfl⟩

theorem Elsewhere.trans {first second third : Machine} (left : Elsewhere first second)
    (right : Elsewhere second third) : Elsewhere first third :=
  ⟨right.heap.trans left.heap, right.hhdm.trans left.hhdm,
    right.kernelPagemap.trans left.kernelPagemap,
    right.highestPage.trans left.highestPage⟩

theorem Grown.refl {roots held : Set Nat} {machine : Machine}
    (tables : Tables roots held machine.pmm machine.phys) : Grown roots held 0 machine machine :=
  ⟨tables, fun _ _ => rfl, Finset.Subset.refl _, Nat.le_refl _, Elsewhere.refl _⟩

theorem Grown.trans {roots held : Set Nat} {spent more : Nat} {first second third : Machine}
    (left : Grown roots held spent first second) (right : Grown roots held more second third) :
    Grown roots held (spent + more) first third where
  tables := right.tables
  bytes := fun address owned => (right.bytes address owned).trans (left.bytes address owned)
  free := right.free.trans left.free
  budget := by
    have leftBudget := left.budget
    have rightBudget := right.budget
    omega
  elsewhere := left.elsewhere.trans right.elsewhere

theorem Grown.mono {roots held : Set Nat} {spent more : Nat} {before after : Machine}
    (grown : Grown roots held spent before after) (less : spent ≤ more) :
    Grown roots held more before after :=
  { grown with budget := grown.budget.trans (Nat.add_le_add_left less _) }

/-- Two machines that differ in their locks and interrupt state only. -/
structure SameMemory (before after : Machine) : Prop extends Elsewhere before after where
  pmm : after.pmm = before.pmm
  phys : after.phys = before.phys

theorem same_memory_locked (machine : Machine) (locked : Lock → Bool) :
    SameMemory machine { machine with locked } :=
  ⟨⟨rfl, rfl, rfl, rfl⟩, rfl, rfl⟩

theorem same_memory_interrupts (machine : Machine) (interrupts : Interrupts) :
    SameMemory machine { machine with interrupts } :=
  ⟨⟨rfl, rfl, rfl, rfl⟩, rfl, rfl⟩

theorem Grown.of_same {roots held : Set Nat} {spent : Nat} {first second third fourth : Machine}
    (grown : Grown roots held spent second third) (left : SameMemory first second)
    (right : SameMemory third fourth) : Grown roots held spent first fourth := by
  refine ⟨?_, ?_, ?_, ?_, (left.toElsewhere.trans grown.elsewhere).trans right.toElsewhere⟩
  · rw [right.pmm, right.phys]
    exact grown.tables
  · rw [right.phys, ← left.phys]
    exact grown.bytes
  · rw [right.pmm, ← left.pmm]
    exact grown.free
  · rw [right.pmm, ← left.pmm]
    exact grown.budget

theorem SameMemory.refl (machine : Machine) : SameMemory machine machine :=
  ⟨Elsewhere.refl machine, rfl, rfl⟩

theorem Grown.of_same_right {roots held : Set Nat} {spent : Nat} {first second third : Machine}
    (grown : Grown roots held spent first second) (right : SameMemory second third) :
    Grown roots held spent first third :=
  grown.of_same (SameMemory.refl first) right

/-! ## Reading -/

@[simp] theorem ends_readEntry {returned : Nat → Machine → Prop} {stopped : Stop → Machine → Prop}
    {machine : Machine} (table index : Nat) :
    Ends (readEntry table index) returned stopped machine =
      returned (entryAt machine.phys table index) machine := by
  simp only [readEntry, ends_bind, ends_get, ends_pure]

@[simp] theorem ends_writeEntry {returned : PUnit → Machine → Prop}
    {stopped : Stop → Machine → Prop} {machine : Machine} (table index value : Nat) :
    Ends (writeEntry table index value) returned stopped machine =
      returned ⟨⟩ { machine with phys := written machine.phys table index value } :=
  ends_modify _

@[simp] theorem ends_next_level_read {returned : Option Nat → Machine → Prop}
    {stopped : Stop → Machine → Prop} {machine : Machine} (table index flags : Nat) :
    Ends (vmmGetNextLevel table index false flags) returned stopped machine =
      returned (child machine.phys table index) machine := by
  simp only [vmmGetNextLevel, ends_bind, ends_readEntry, ends_ite, ends_pure, child, decode]
  split <;> simp

theorem tableAt_succ (phys : Memory) (root depth key : Nat) :
    tableAt phys root (depth + 1) key =
      (tableAt phys root depth (key / 512)).bind fun table => child phys table (key % 512) :=
  walk_succ _ _ _ _ _

theorem table_at_one (phys : Memory) (root key : Nat) :
    tableAt phys root 1 key = child phys root (key % 512) := by
  rw [tableAt_succ, tableAt, walk_zero, Option.bind_some]

theorem table_at_pt (phys : Memory) (root virt : Nat) :
    tableAt phys root 3 (pageOf virt / 512) =
      (child phys root (pml4Index virt)).bind fun pdpt =>
        (child phys pdpt (pdptIndex virt)).bind fun pd => child phys pd (pdIndex virt) := by
  obtain ⟨-, pd, pdpt, pml4⟩ := page_of_digits virt
  have top : pageOf virt / 512 / 512 / 512 % 512 = pml4Index virt := by
    rw [pml4]
    apply Nat.mod_eq_of_lt
    have bounded := page_of_lt virt
    omega
  rw [tableAt_succ, tableAt_succ, table_at_one, top, ← pd, ← pdpt, Option.bind_assoc]

theorem ends_vmmVirtToPhys {returned : Nat → Machine → Prop} {stopped : Stop → Machine → Prop}
    {machine : Machine} (pagemap virt : Nat) :
    Ends (vmmVirtToPhys pagemap virt) returned stopped machine =
      returned (translate machine.phys pagemap virt) machine := by
  have index := (page_of_digits virt).1
  simp only [vmmVirtToPhys, ends_bind, ends_next_level_read, PageTableForests.translate, leafWord,
    table_at_pt]
  cases child machine.phys pagemap (pml4Index virt) with
  | none => simp [tableWord, decode_zero]
  | some pdpt =>
    simp only [Option.bind_some, ends_bind, ends_next_level_read]
    cases child machine.phys pdpt (pdptIndex virt) with
    | none => simp [tableWord, decode_zero]
    | some pd =>
      simp only [Option.bind_some, ends_bind, ends_next_level_read]
      cases child machine.phys pd (pdIndex virt) with
      | none => simp [tableWord, decode_zero]
      | some pt =>
        simp only [ends_bind, ends_readEntry, ends_ite, ends_pure, tableWord, index, decode]
        split <;> simp_all

theorem vmm_virt_to_phys_ok (machine : Machine) (pagemap virt : Nat) :
    vmmVirtToPhys pagemap virt machine = .ok (translate machine.phys pagemap virt) machine := by
  have ends : Ends (vmmVirtToPhys pagemap virt)
      (fun address after => address = translate machine.phys pagemap virt ∧ after = machine)
      (fun _ _ => False) machine := by
    rw [ends_vmmVirtToPhys]
    exact ⟨rfl, rfl⟩
  obtain ⟨address, after, run, rfl, rfl⟩ := ends.exists_ok
  exact run

/-! ## One level of a growing walk -/

section Growing

variable {roots held : Set Nat} {machine : Machine} {root target depth first digit : Nat}

def hangTable (machine : Machine) (page target digit word : Nat) : Machine :=
  { takePage machine page with phys := written (takePage machine page).phys target digit word }

theorem ends_next_level_fresh {returned : Option Nat → Machine → Prop}
    {stopped : Stop → Machine → Prop} {flags : Nat} (unlocked : machine.locked .pmm = false)
    (nonzero : flags ≠ 0) (missing : child machine.phys target digit = none)
    (lowPage : 0 ∉ freeSet machine.pmm)
    (onPage : ∀ page, page ∈ freeSet machine.pmm →
      returned (some (page * pageSize))
        (hangTable machine page target digit (page * pageSize ||| flags)))
    (onFull : freeSet machine.pmm = ∅ →
      stopped (.panic "out of memory in pmm_allocate!")
        { machine with interrupts := intResume (intDisable machine.interrupts) }) :
    Ends (vmmGetNextLevel target digit true flags) returned stopped machine := by
  have absent : ¬(entryAt machine.phys target digit &&& ptePresent ≠ 0) := by
    intro present
    rw [child, decode, if_pos present] at missing
    cases missing
  simp only [vmmGetNextLevel, ends_bind, ends_readEntry, if_neg absent, Bool.true_eq_false,
    if_false]
  apply ends_pmmAllocate unlocked
  · intro page least
    have positive : page ≠ 0 := by
      rintro rfl
      exact lowPage least.1
    have address : page * pageSize ≠ 0 := Nat.mul_ne_zero positive (by decide)
    have cleared : memset (takePage machine page).phys (page * pageSize) 0 pageSize =
        (takePage machine page).phys := by
      rw [take_page_phys, memset_memset]
    simp only [ends_bind, ends_require, if_pos address, ends_modify, ends_writeEntry, ends_pure,
      if_pos nonzero, cleared]
    exact onPage page least.1
  · exact onFull

theorem ends_next_level_present {returned : Option Nat → Machine → Prop}
    {stopped : Stop → Machine → Prop} {flags table : Nat}
    (found : child machine.phys target digit = some table)
    (onTable : returned (some table) machine) :
    Ends (vmmGetNextLevel target digit true flags) returned stopped machine := by
  unfold child decode at found
  split at found
  · next present =>
      obtain rfl := Option.some.inj found
      simpa only [vmmGetNextLevel, ends_bind, ends_readEntry, ends_ite, if_pos present,
        ends_pure] using onTable
  · cases found

structure LinkFlags (flags : Nat) : Prop where
  disjoint : flags &&& pteAddrMask = 0
  present : flags % 2 = 1
  small : flags < 2 ^ 64

theorem alloc_flags_link (flags : Nat) : LinkFlags (allocFlags flags) := by
  unfold allocFlags
  split
  · exact ⟨by decide, by decide, by decide⟩
  · exact ⟨by decide, by decide, by decide⟩

theorem link_word_lt {frame flags : Nat} (small : frame < 2 ^ 52) (flagsSmall : flags < 2 ^ 64) :
    frame ||| flags < 2 ^ 64 :=
  Nat.or_lt_two_pow (small.trans (by decide)) flagsSmall

theorem fresh_table_hung (tables : Tables roots held machine.pmm machine.phys)
    (slot : Slot roots machine.phys root target depth first digit) {flags page : Nat}
    (link : LinkFlags flags) (missing : child machine.phys target digit = none)
    (member : page ∈ freeSet machine.pmm) :
    BlankHung (insert (page * pageSize) held) (takePage machine page).phys target depth digit
      (page * pageSize ||| flags) := by
  have small := tables.free_page_small member
  have found := decode_or (Nat.mul_mod_left page pageSize) small link.disjoint link.present
  have targetKept : child (takePage machine page).phys target digit = none := by
    rw [tables.agrees (tables.take_kept member) target digit slot.isTable slot.small, missing]
  constructor
  · intro _ table same
    rw [targetKept] at same
    cases same
  · intro _ table same
    rw [found] at same
    obtain rfl := Option.some.inj same
    exact ⟨Set.mem_insert _ _, fun index small =>
      entry_of_cleared small fun offset inside => take_page_cleared inside⟩

theorem hang_table_grown (tables : Tables roots held machine.pmm machine.phys)
    (slot : Slot roots machine.phys root target depth first digit)
    (unshared : Unshared roots root depth digit) {flags page : Nat} (link : LinkFlags flags)
    (missing : child machine.phys target digit = none) (member : page ∈ freeSet machine.pmm) :
    Grown roots held 1 machine (hangTable machine page target digit (page * pageSize ||| flags)) := by
  have taken := tables.take member
  have small := tables.free_page_small member
  have found := decode_or (Nat.mul_mod_left page pageSize) small link.disjoint link.present
  have notHeld := tables.free_not_held member
  have linked := (slot.kept tables (tables.take_kept member)).link taken (link_word_lt small link.small)
    unshared (fresh_table_hung tables slot link missing member) found
  refine ⟨linked.mono ?_, ?_, ?_, ?_, ⟨rfl, rfl, rfl, rfl⟩⟩
  · intro address owned
    refine ⟨Or.inr owned, ?_⟩
    rintro rfl
    exact notHeld owned
  · intro address owned
    change written (takePage machine page).phys target digit _ address = _
    rw [written_apply_other (tables.frames target slot.isTable).aligned slot.small,
      take_page_phys_other]
    · rintro same
      rw [same] at owned
      exact notHeld owned
    · rintro same
      rw [same] at owned
      exact tables.apart target owned slot.isTable
  · change freeSet (takePage machine page).pmm ⊆ freeSet machine.pmm
    rw [freeSet_takePage]
    exact Finset.erase_subset _ _
  · change (freeSet machine.pmm).card ≤ (freeSet (takePage machine page).pmm).card + 1
    rw [freeSet_takePage]
    exact Nat.le_add_of_sub_le Finset.pred_card_le_card_erase

end Growing

/-! ## Typed walks -/

/-- `vmm_map_page` for whatever is known of the machine by levels of its walk, as long as physical
memory does not matter: the walk takes the latch, draws a frame or none at each level, and
gives the latch back. -/
theorem typed_vmmMapPage {Index : Type} {holds : Index → Machine → Prop} {stops : Stop → Machine → Prop}
    {level : Nat → Index} {before after : Index} {pagemap virt phys flags : Nat}
    (lock : Typed holds stops before (spinLock .vmm) (level 0))
    (drawn : ∀ count < 3, ∀ machine, holds (level count) machine →
      holds (level (count + 1)) machine ∧ Ends pmmAllocate (fun page taken =>
        holds (level (count + 1)) taken ∧ (page = 0 → ∀ message, stops (.panic message) taken)) stops
        machine)
    (quiet : ∀ count machine phys, holds (level count) machine →
      holds (level count) { machine with phys })
    (failed : pagemap = 0 → Typed holds stops (level 0) mapFailure after)
    (unlock : Typed holds stops (level 3) (spinUnlock .vmm) after) :
    Typed holds stops before (vmmMapPage pagemap virt phys flags) after := by
  have grow : ∀ {table index allocFlags : Nat} (count : Nat), count < 3 → ∀ {machine : Machine},
      holds (level count) machine → Ends (vmmGetNextLevel table index true allocFlags)
        (fun next result => (∃ below, next = some below) ∧ holds (level (count + 1)) result) stops
        machine := by
    intro table index allocFlags count few machine here
    simp only [vmmGetNextLevel, ends_bind, ends_readEntry, ends_ite, ends_pure, Bool.true_eq_false,
      if_false]
    split
    · exact ⟨⟨_, rfl⟩, (drawn count few machine here).1⟩
    · apply ends_mono (drawn count few machine here).2 _ fun _ _ => id
      rintro page taken ⟨there, zero⟩
      rw [ends_bind, ends_require]
      split
      · simp only [ends_modify, ends_bind, ends_writeEntry, ends_pure]
        exact ⟨⟨_, rfl⟩, quiet _ _ _ there⟩
      · next null => exact zero (not_not.mp null) _
  intro machine here
  rw [vmmMapPage, ends_bind]
  apply ends_mono (lock machine here) _ fun _ _ => id
  intro _ locked there
  rw [ends_ite]
  split
  · next null => exact failed null locked there
  · rw [ends_bind]
    apply ends_mono (grow 0 (by decide) there) _ fun _ _ => id
    rintro _ first ⟨⟨pdpt, rfl⟩, there⟩
    rw [ends_bind]
    apply ends_mono (grow 1 (by decide) there) _ fun _ _ => id
    rintro _ second ⟨⟨pd, rfl⟩, there⟩
    rw [ends_bind]
    apply ends_mono (grow 2 (by decide) there) _ fun _ _ => id
    rintro _ third ⟨⟨pt, rfl⟩, there⟩
    rw [ends_bind, ends_writeEntry, ends_bind]
    apply ends_mono (unlock _ (quiet _ _ _ there)) _ fun _ _ => id
    intro _ result done
    rwa [ends_pure]

/-! ## Mapping -/

section Mapping

variable {roots held : Set Nat} {start machine : Machine} {root page depth table : Nat}

/-- The entry of the PML4 that covers an upper-half page exists, or there is one pagemap. -/
def TopReady (roots : Set Nat) (root page : Nat) (phys : Memory) : Prop :=
  UpperHalf page →
    (∀ other, other ∈ roots → other = root) ∨ child phys root (page / 512 ^ 3) ≠ none

structure Walked (roots held : Set Nat) (start : Machine) (root page spent : Nat)
    (machine : Machine) : Prop where
  grown : Grown roots held spent start machine
  leaves : LeavesKept roots start.phys machine.phys
  upper : ¬UpperHalf page ∨ child start.phys root (page / 512 ^ 3) ≠ none →
    UpperKept roots start.phys machine.phys

theorem page_digit {page depth : Nat} (upper : depth < 4) :
    page / 512 ^ (4 - depth) * 512 + page / 512 ^ (3 - depth) % 512 = page / 512 ^ (3 - depth) := by
  have split : 4 - depth = 3 - depth + 1 := by omega
  rw [split, pow_succ, ← Nat.div_div_eq_div_mul, Nat.div_add_mod']

theorem page_prefix_lt {page depth : Nat} (bounded : page < 512 ^ 4) (upper : depth ≤ 4) :
    page / 512 ^ (4 - depth) < 512 ^ depth := by
  apply Nat.div_lt_of_lt_mul
  rwa [← pow_add, Nat.sub_add_cancel upper]

theorem top_digit {page : Nat} (bounded : page < 512 ^ 4) :
    page / 512 ^ 3 % 512 = page / 512 ^ 3 :=
  Nat.mod_eq_of_lt (by omega)

theorem page_of_levels (virt : Nat) :
    pml4Index virt = pageOf virt / 512 ^ (3 - 0) % 512 ∧
      pdptIndex virt = pageOf virt / 512 ^ (3 - 1) % 512 ∧
      pdIndex virt = pageOf virt / 512 ^ (3 - 2) % 512 ∧ ptIndex virt = pageOf virt % 512 := by
  obtain ⟨pt, pd, pdpt, pml4⟩ := page_of_digits virt
  have bounded := page_of_lt virt
  refine ⟨?_, ?_, ?_, pt⟩
  · rw [top_digit bounded, pml4, Nat.div_div_eq_div_mul, Nat.div_div_eq_div_mul,
      show 512 * (512 * 512) = 512 ^ 3 by decide]
  · rw [pdpt, Nat.div_div_eq_div_mul, show 512 * 512 = 512 ^ (3 - 1) by decide]
  · rw [pd, pow_one]

theorem slot_of_place {phys : Memory} (isRoot : root ∈ roots) (bounded : page < 512 ^ 4)
    (inner : depth < 4)
    (place : tableAt phys root depth (page / 512 ^ (4 - depth)) = some table) :
    Slot roots phys root table depth (page / 512 ^ (4 - depth))
      (page / 512 ^ (3 - depth) % 512) where
  isRoot := isRoot
  inner := inner
  bounded := page_prefix_lt bounded (Nat.le_of_lt inner)
  small := Nat.mod_lt _ (by decide)
  place := place

theorem upper_half_of_shared {page depth : Nat} (upper : depth ≤ 3)
    (shared : SharedAt depth (page / 512 ^ (4 - depth))) : UpperHalf page := by
  have cases : depth = 0 ∨ depth = 1 ∨ depth = 2 ∨ depth = 3 := by omega
  rcases cases with rfl | rfl | rfl | rfl
  · exact shared.elim
  all_goals
    simp only [SharedAt, Shared] at shared
    unfold UpperHalf
    omega

structure Mapped (roots held : Set Nat) (root page word : Nat) (before after : Machine) : Prop where
  grown : Grown roots held 3 before after
  locked : after.locked = before.locked
  leaf : LeafSet roots root page word before.phys after.phys
  upper : ¬UpperHalf page ∨ child before.phys root (page / 512 ^ 3) ≠ none →
    UpperKept roots before.phys after.phys

theorem missing_tables_le (phys : Memory) (root page : Nat) : missingTables phys root page ≤ 3 := by
  unfold missingTables
  split <;> split <;> split <;> omega

end Mapping

/-! ## Unmapping -/

section Unmapping

variable {roots held : Set Nat} {machine : Machine} {root page : Nat}

theorem child_of_places {phys : Memory} {depth table below : Nat}
    (tables : Tables roots held machine.pmm phys) (isRoot : root ∈ roots)
    (bounded : page < 512 ^ 4) (inner : depth < 4)
    (place : tableAt phys root depth (page / 512 ^ (4 - depth)) = some table)
    (placeBelow : tableAt phys root (depth + 1) (page / 512 ^ (4 - (depth + 1))) = some below) :
    child phys table (page / 512 ^ (3 - depth) % 512) = some below := by
  have slot := slot_of_place isRoot bounded inner place
  rw [← slot.walk_before tables isRoot (Or.inl rfl), page_digit inner,
    show 3 - depth = 4 - (depth + 1) by omega]
  exact placeBelow

structure Path (phys : Memory) (root page pdpt pd pt : Nat) : Prop where
  atPdpt : tableAt phys root 1 (page / 512 ^ (4 - 1)) = some pdpt
  atPd : tableAt phys root 2 (page / 512 ^ (4 - 2)) = some pd
  atPt : tableAt phys root 3 (page / 512 ^ (4 - 3)) = some pt

def clearedWord (word : Nat) : Nat := if word &&& ptePresent = 0 then word else 0

structure Unmapped (roots held : Set Nat) (root page : Nat) (before after : Machine) : Prop where
  tables : Tables roots held after.pmm after.phys
  bytes : ∀ address, pageFloor address ∈ held → after.phys address = before.phys address
  free : freeSet before.pmm ⊆ freeSet after.pmm
  leaf : LeafSet roots root page (clearedWord (leafWord before.phys root page)) before.phys after.phys
  upper : UpperKept roots before.phys after.phys
  elsewhere : Elsewhere before after
  locked : after.locked = before.locked

theorem leaf_shared {phys : Memory} {pmm : Pmm} (tables : Tables roots held pmm phys) {other : Nat}
    (isRoot : root ∈ roots) (otherRoot : other ∈ roots) (bounded : page < 512 ^ 4)
    (upper : UpperHalf page) : leafWord phys other page = leafWord phys root page := by
  have same : tableAt phys other 3 (page / 512) = tableAt phys root 3 (page / 512) :=
    tables.coherent other root 3 (page / 512) otherRoot isRoot (Nat.le_succ 3)
      (page_table_key_lt bounded) (shared_iff.mpr upper)
  rw [leafWord, leafWord, same]

theorem path_of_children {phys : Memory} {virt pdpt pd pt : Nat}
    (atPml4 : child phys root (pml4Index virt) = some pdpt)
    (atPdpt : child phys pdpt (pdptIndex virt) = some pd)
    (atPd : child phys pd (pdIndex virt) = some pt) : Path phys root (pageOf virt) pdpt pd pt := by
  have levels := page_of_levels virt
  rw [levels.1] at atPml4
  rw [levels.2.1] at atPdpt
  rw [levels.2.2.1] at atPd
  have first : tableAt phys root 1 (pageOf virt / 512 ^ (4 - 1)) = some pdpt := by
    rw [table_at_one]
    exact atPml4
  have second : tableAt phys root 2 (pageOf virt / 512 ^ (4 - 2)) = some pd := by
    rw [tableAt_succ, Nat.div_div_eq_div_mul, ← pow_succ, first, Option.bind_some]
    exact atPdpt
  refine ⟨first, second, ?_⟩
  rw [tableAt_succ, Nat.div_div_eq_div_mul, ← pow_succ, second, Option.bind_some]
  exact atPd

theorem Path.leaf_word {phys : Memory} {pdpt pd pt : Nat} (path : Path phys root page pdpt pd pt) :
    leafWord phys root page = entryAt phys pt (page % 512) := by
  have atPt := path.atPt
  rw [show 4 - 3 = 1 by decide, pow_one] at atPt
  rw [leafWord, atPt]
  rfl

theorem decode_some {entry frame : Nat} (found : decode entry = some frame) :
    pteGetAddr entry = frame := by
  unfold decode at found
  split at found
  · exact Option.some.inj found
  · cases found

end Unmapping

theorem missing_tables_kept {roots held : Set Nat} {root page : Nat} {machine : Machine}
    {after : Memory} (tables : Tables roots held machine.pmm machine.phys) (isRoot : root ∈ roots)
    (bounded : page < 512 ^ 4) (kept : TablesKept roots machine.phys after) :
    missingTables after root page = missingTables machine.phys root page := by
  have walk := @(tables.agrees kept).walk
  have first : tableAt after root 1 (page / 512 ^ 3) = tableAt machine.phys root 1 (page / 512 ^ 3) :=
    walk isRoot (show 1 ≤ 4 by decide) (page_prefix_lt bounded (show 1 ≤ 4 by decide))
  have second : tableAt after root 2 (page / 512 ^ 2) = tableAt machine.phys root 2 (page / 512 ^ 2) :=
    walk isRoot (show 2 ≤ 4 by decide) (page_prefix_lt bounded (show 2 ≤ 4 by decide))
  have third : tableAt after root 3 (page / 512) = tableAt machine.phys root 3 (page / 512) :=
    walk isRoot (show 3 ≤ 4 by decide) (page_table_key_lt bounded)
  rw [missingTables, missingTables, first, second, third]

end RiriaKernel.PageTableOperations
