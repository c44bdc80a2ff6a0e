import Mathlib.Data.Set.Insert
import RiriaKernel.PageTables

/-!
# Page tables as a forest

The pagemaps of the kernel are read as a forest of radix trees over page numbers: the
child pointers are the present entries, and the upper half of every PML4 is shared. Every
frame is free, held by some client, or a table. The lemmas of this file say what a single
write to an entry, a page taken and a page returned do to that picture; the walks of
`vmm.c` are composed from them.
-/

namespace RiriaKernel.PageTableForests

open ByteMemory KernelState PhysicalAllocator RadixForests PageTables

def decode (entry : Nat) : Option Nat :=
  if entry &&& ptePresent ≠ 0 then some (pteGetAddr entry) else none

def child (phys : Memory) (table index : Nat) : Option Nat := decode (entryAt phys table index)

def pageShape (roots : Set Nat) : Shape Nat where
  fan := 512
  height := 4
  roots := fun root => root ∈ roots
  top := fun digit => 256 ≤ digit
  fanPositive := by decide

abbrev tableAt (phys : Memory) (root depth key : Nat) : Option Nat :=
  walk (child phys) 512 root depth key

abbrev IsTable (roots : Set Nat) (phys : Memory) (table : Nat) : Prop :=
  (pageShape roots).Inner (child phys) table

abbrev SharedAt (depth key : Nat) : Prop := Shared (fun digit => 256 ≤ digit) 512 depth key

/-- The pages below the shared entries of the PML4. -/
abbrev UpperHalf (page : Nat) : Prop := 256 * 512 ^ 3 ≤ page

def tableWord (phys : Memory) (table : Option Nat) (index : Nat) : Nat :=
  match table with
  | some table => entryAt phys table index
  | none => 0

/-- The leaf entry of a page, zero where no page table covers it. -/
def leafWord (phys : Memory) (root page : Nat) : Nat :=
  tableWord phys (tableAt phys root 3 (page / 512)) (page % 512)

/-- The page number that the four indices of a virtual address spell. -/
def pageOf (virt : Nat) : Nat := virt / 4096 % 512 ^ 4

def translate (phys : Memory) (root virt : Nat) : Nat :=
  match decode (leafWord phys root (pageOf virt)) with
  | some frame => frame + virt % pageSize
  | none => 0

/-- A frame of the page allocator that is handed out. -/
structure Frame (pmm : Pmm) (address : Nat) : Prop where
  aligned : address % pageSize = 0
  nonzero : address ≠ 0
  tracked : address / pageSize ≤ pmm.highestPage
  taken : bitmapGet pmm.bitmap (address / pageSize) = true

/-- The tables below `roots` form a forest of taken frames, none of them in `held`. -/
structure Tables (roots held : Set Nat) (pmm : Pmm) (phys : Memory) : Prop where
  separated : (pageShape roots).Separated (child phys)
  coherent : (pageShape roots).Coherent (child phys)
  frames : ∀ table, IsTable roots phys table → Frame pmm table
  heldFrames : ∀ address, address ∈ held → Frame pmm address
  apart : ∀ address, address ∈ held → ¬IsTable roots phys address
  lowPage : 0 ∉ freeSet pmm
  physical : pmm.highestPage < 2 ^ 40

/-! ## Entries -/

theorem decode_zero : decode 0 = none := by decide

theorem decode_aligned {entry frame : Nat} (found : decode entry = some frame) :
    frame % pageSize = 0 := by
  unfold decode at found
  split at found
  · obtain rfl := Option.some.inj found
    exact pte_get_addr_aligned entry
  · cases found

theorem decode_small {entry frame : Nat} (found : decode entry = some frame) : frame < 2 ^ 52 := by
  unfold decode at found
  split at found
  · obtain rfl := Option.some.inj found
    exact Nat.lt_of_le_of_lt Nat.and_le_right (by decide)
  · cases found

theorem decode_or {frame flags : Nat} (aligned : frame % pageSize = 0) (small : frame < 2 ^ 52)
    (disjoint : flags &&& pteAddrMask = 0) (present : flags % 2 = 1) :
    decode (frame ||| flags) = some frame := by
  have odd : (frame ||| flags) % 2 = 1 := by
    have low : (frame ||| flags) % 2 ^ 1 = frame % 2 ^ 1 ||| flags % 2 ^ 1 := Nat.or_mod_two_pow
    have even : frame % 2 ^ 1 = 0 := by
      unfold pageSize at aligned
      omega
    rw [even, Nat.zero_or, pow_one] at low
    exact low.trans present
  rw [decode, if_pos ((present_iff _).mpr odd), pte_get_addr_or aligned small disjoint]

theorem decode_mapped {frame flags : Nat} (aligned : frame % pageSize = 0) (small : frame < 2 ^ 52)
    (disjoint : flags &&& pteAddrMask = 0) :
    decode (frame ||| flags ||| ptePresent) = some frame := by
  rw [Nat.or_assoc]
  apply decode_or aligned small
  · rw [Nat.and_or_distrib_right, disjoint]
    decide
  · have low : (flags ||| ptePresent) % 2 ^ 1 = flags % 2 ^ 1 ||| ptePresent % 2 ^ 1 :=
      Nat.or_mod_two_pow
    rw [pow_one] at low
    rw [low]
    rcases Nat.mod_two_eq_zero_or_one flags with even | odd
    · rw [even]
      decide
    · rw [odd]
      decide

theorem flag_of_or {frame flags flag : Nat} (aligned : frame % pageSize = 0)
    (small : frame < 2 ^ 52) (outside : pteAddrMask &&& flag = 0) :
    (frame ||| flags) &&& flag = flags &&& flag := by
  have whole : frame &&& pteAddrMask = frame := by
    have masked := pte_get_addr_or aligned small (Nat.zero_and pteAddrMask)
    rwa [Nat.or_zero] at masked
  rw [Nat.and_or_distrib_right, ← whole, Nat.and_assoc, outside, Nat.and_zero, Nat.zero_or]

theorem entry_store_same {phys : Memory} {table index word : Nat} (bounded : word < 2 ^ 64) :
    entryAt (store64 phys (entryAddress table index) word) table index = word :=
  load64_store64 bounded

/-- Entries of page-aligned tables do not overlap. -/
theorem entry_store_other {phys : Memory} {table index word other otherIndex : Nat}
    (aligned : table % pageSize = 0) (otherAligned : other % pageSize = 0)
    (small : index < 512) (otherSmall : otherIndex < 512)
    (different : ¬(other = table ∧ otherIndex = index)) :
    entryAt (store64 phys (entryAddress table index) word) other otherIndex =
      entryAt phys other otherIndex := by
  apply load64_store64_other
  unfold pageSize at aligned otherAligned
  unfold entryAddress
  omega

theorem page_floor_entry {table index offset : Nat} (aligned : table % pageSize = 0)
    (small : index < 512) (inside : offset < 8) :
    pageFloor (entryAddress table index + offset) = table := by
  unfold pageFloor entryAddress pageSize at *
  omega

theorem entry_congr {before after : Memory} {table index : Nat} (aligned : table % pageSize = 0)
    (small : index < 512)
    (same : ∀ address, pageFloor address = table → after address = before address) :
    entryAt after table index = entryAt before table index := by
  apply load64_congr
  intro position lower upper
  apply same
  have floor := page_floor_entry aligned small (show position - entryAddress table index < 8 by omega)
  rwa [Nat.add_sub_of_le lower] at floor

theorem entry_of_cleared {phys : Memory} {table index : Nat} (small : index < 512)
    (cleared : ∀ offset, offset < pageSize → phys (table + offset) = 0) :
    entryAt phys table index = 0 := by
  apply load64_eq_zero
  intro position lower upper
  have zero := cleared (position - table) (by unfold entryAddress pageSize at *; omega)
  rwa [Nat.add_sub_of_le (by unfold entryAddress at lower; omega)] at zero

theorem blank_childless {phys : Memory} {table : Nat} (blank : BlankTable phys table)
    {index : Nat} (small : index < 512) : child phys table index = none := by
  rw [child, blank index small]
  exact decode_zero

/-! ## Page numbers -/

section PageNumbers

variable (virt : Nat)

theorem page_of_lt : pageOf virt < 512 ^ 4 := Nat.mod_lt _ (by decide)

theorem page_of_digits :
    ptIndex virt = pageOf virt % 512 ∧ pdIndex virt = pageOf virt / 512 % 512 ∧
      pdptIndex virt = pageOf virt / 512 / 512 % 512 ∧
      pml4Index virt = pageOf virt / 512 / 512 / 512 := by
  simp only [ptIndex, pdIndex, pdptIndex, pml4Index, index_eq, pageOf]
  refine ⟨?_, ?_, ?_, ?_⟩ <;> omega

theorem page_of_floor : pageOf (pageFloor virt) = pageOf virt := by
  unfold pageOf pageFloor pageSize
  congr 1
  omega

end PageNumbers

theorem shared_iff {page : Nat} : SharedAt 3 (page / 512) ↔ UpperHalf page := by
  simp only [SharedAt, Shared, UpperHalf]
  omega

/-! ## Writes the tables do not see -/

section Invisible

variable {roots held : Set Nat} {pmm : Pmm} {before after : Memory}

def TablesKept (roots : Set Nat) (before after : Memory) : Prop :=
  ∀ address, IsTable roots before (pageFloor address) → after address = before address

theorem Tables.entry_kept (tables : Tables roots held pmm before)
    (kept : TablesKept roots before after) {table index : Nat}
    (isTable : IsTable roots before table) (small : index < 512) :
    entryAt after table index = entryAt before table index := by
  apply entry_congr (tables.frames table isTable).aligned small
  intro address floor
  apply kept
  rwa [floor]

theorem Tables.agrees (tables : Tables roots held pmm before)
    (kept : TablesKept roots before after) :
    Agrees (pageShape roots) (child before) (child after) := by
  intro table index isTable small
  exact congrArg decode (tables.entry_kept kept isTable small)

theorem Tables.rewritten (tables : Tables roots held pmm before)
    (kept : TablesKept roots before after) : Tables roots held pmm after := by
  have agrees := tables.agrees kept
  exact
    { separated := agrees.separated tables.separated
      coherent := agrees.coherent tables.coherent
      frames := fun table isTable => tables.frames table (agrees.inner.mp isTable)
      heldFrames := tables.heldFrames
      apart := fun address member isTable =>
        tables.apart address member (agrees.inner.mp isTable)
      lowPage := tables.lowPage
      physical := tables.physical }

theorem isTable_of_place {roots : Set Nat} {phys : Memory} {root depth key table : Nat}
    (isRoot : root ∈ roots) (inside : depth < 4) (bounded : key < 512 ^ depth)
    (place : tableAt phys root depth key = some table) : IsTable roots phys table :=
  ⟨root, depth, key, isRoot, inside, bounded, place⟩

theorem page_table_key_lt {page : Nat} (bounded : page < 512 ^ 4) : page / 512 < 512 ^ 3 := by
  omega

theorem Tables.leaf_kept (tables : Tables roots held pmm before)
    (kept : TablesKept roots before after) {root page : Nat} (isRoot : root ∈ roots)
    (bounded : page < 512 ^ 4) : leafWord after root page = leafWord before root page := by
  have same : tableAt after root 3 (page / 512) = tableAt before root 3 (page / 512) :=
    (tables.agrees kept).walk isRoot (Nat.le_succ 3) (page_table_key_lt bounded)
  rw [leafWord, leafWord, same]
  cases place : tableAt before root 3 (page / 512) with
  | none => rfl
  | some table =>
    exact tables.entry_kept kept
      (isTable_of_place isRoot (by decide) (page_table_key_lt bounded) place)
      (Nat.mod_lt _ (by decide))

theorem Tables.kept_of_held (tables : Tables roots held pmm before)
    (outside : ∀ address, pageFloor address ∉ held → after address = before address) :
    TablesKept roots before after := by
  intro address isTable
  apply outside
  intro member
  exact tables.apart _ member isTable

end Invisible

theorem Tables.mono {roots held fewer : Set Nat} {pmm : Pmm} {phys : Memory}
    (tables : Tables roots held pmm phys) (subset : fewer ⊆ held) : Tables roots fewer pmm phys :=
  { tables with
    heldFrames := fun address owned => tables.heldFrames address (subset owned)
    apart := fun address owned => tables.apart address (subset owned) }

/-! ## Taking and returning frames -/

section Frames

variable {roots held : Set Nat} {machine : Machine} {page : Nat}

theorem Frame.not_free {pmm : Pmm} {address : Nat} (frame : Frame pmm address) :
    address / pageSize ∉ freeSet pmm := by
  intro member
  have clear := (mem_freeSet.mp member).2
  rw [frame.taken] at clear
  cases clear

theorem Frame.address_eq {pmm : Pmm} {address : Nat} (frame : Frame pmm address) :
    address / pageSize * pageSize = address :=
  Nat.div_mul_cancel (Nat.dvd_of_mod_eq_zero frame.aligned)

theorem Frame.pmm_free {machine : Machine} {address : Nat} (frame : Frame machine.pmm address)
    (unlocked : machine.locked .pmm = false) :
    pmmFree address machine = .ok ⟨⟩ (returnPage machine (address / pageSize)) := by
  have page : address / pageSize ≠ 0 := by
    intro zero
    apply frame.nonzero
    rw [← frame.address_eq, zero, Nat.zero_mul]
  have run := pmm_free_of_taken unlocked page frame.tracked frame.taken
  rwa [frame.address_eq] at run

theorem page_address_div (page : Nat) : page * pageSize / pageSize = page :=
  Nat.mul_div_cancel _ (by decide)

theorem Tables.free_not_table {pmm : Pmm} {phys : Memory} (tables : Tables roots held pmm phys)
    (member : page ∈ freeSet pmm) : ¬IsTable roots phys (page * pageSize) := by
  intro isTable
  have taken := (tables.frames _ isTable).not_free
  rw [page_address_div] at taken
  exact taken member

theorem Tables.free_not_held {pmm : Pmm} {phys : Memory} (tables : Tables roots held pmm phys)
    (member : page ∈ freeSet pmm) : page * pageSize ∉ held := by
  intro owned
  have taken := (tables.heldFrames _ owned).not_free
  rw [page_address_div] at taken
  exact taken member

theorem Tables.free_page_small {pmm : Pmm} {phys : Memory}
    (tables : Tables roots held pmm phys) (member : page ∈ freeSet pmm) : page * pageSize < 2 ^ 52 := by
  have tracked := (mem_freeSet.mp member).1
  have physical := tables.physical
  unfold pageSize
  omega

theorem page_floor_inside {page offset : Nat} (inside : offset < pageSize) :
    pageFloor (page * pageSize + offset) = page * pageSize := by
  unfold pageFloor pageSize at *
  omega

theorem take_page_phys :
    (takePage machine page).phys = memset machine.phys (page * pageSize) 0 pageSize :=
  rfl

theorem take_page_phys_other {address : Nat} (other : pageFloor address ≠ page * pageSize) :
    (takePage machine page).phys address = machine.phys address := by
  rw [take_page_phys, memset_apply, if_neg]
  rintro ⟨lower, upper⟩
  apply other
  have floor : pageFloor (page * pageSize + (address - page * pageSize)) = page * pageSize :=
    page_floor_inside (by omega)
  rwa [Nat.add_sub_of_le lower] at floor

theorem take_page_cleared {offset : Nat} (inside : offset < pageSize) :
    (takePage machine page).phys (page * pageSize + offset) = 0 := by
  rw [take_page_phys, memset_apply, if_pos (by omega)]

theorem frame_take {address : Nat} (frame : Frame machine.pmm address) :
    Frame (takePage machine page).pmm address := by
  refine ⟨frame.aligned, frame.nonzero, frame.tracked, ?_⟩
  simp [takePage, bitmap_get_set, frame.taken]

section

variable (tables : Tables roots held machine.pmm machine.phys)

include tables

theorem Tables.take_kept (member : page ∈ freeSet machine.pmm) :
    TablesKept roots machine.phys (takePage machine page).phys := by
  intro address isTable
  apply take_page_phys_other
  intro same
  rw [same] at isTable
  exact tables.free_not_table member isTable

theorem Tables.take (member : page ∈ freeSet machine.pmm) :
    Tables roots (insert (page * pageSize) held) (takePage machine page).pmm
      (takePage machine page).phys := by
  have agrees := tables.agrees (tables.take_kept member)
  have nonzero : page ≠ 0 := by
    rintro rfl
    exact tables.lowPage member
  have taken : Frame (takePage machine page).pmm (page * pageSize) := by
    refine ⟨Nat.mul_mod_left _ _, ?_, ?_, ?_⟩
    · exact Nat.mul_ne_zero nonzero (by decide)
    · rw [page_address_div]
      exact (mem_freeSet.mp member).1
    · rw [page_address_div]
      simp [takePage, bitmap_get_set]
  refine
    { separated := agrees.separated tables.separated
      coherent := agrees.coherent tables.coherent
      frames := fun table isTable => frame_take (tables.frames table (agrees.inner.mp isTable))
      heldFrames := ?_
      apart := ?_
      lowPage := ?_
      physical := tables.physical }
  · intro address owned
    cases owned with
    | inl new => rwa [new]
    | inr old => exact frame_take (tables.heldFrames address old)
  · intro address owned isTable
    have before := agrees.inner.mp isTable
    cases owned with
    | inl new =>
      rw [new] at before
      exact tables.free_not_table member before
    | inr old => exact tables.apart address old before
  · rw [freeSet_takePage]
    intro zero
    exact tables.lowPage (Finset.mem_of_mem_erase zero)

theorem Tables.release {address : Nat} (owned : address ∈ held) :
    Tables roots (held \ {address}) (returnPage machine (address / pageSize)).pmm
      (returnPage machine (address / pageSize)).phys := by
  have frame := tables.heldFrames address owned
  have kept : ∀ other, other ≠ address → Frame machine.pmm other →
      Frame (returnPage machine (address / pageSize)).pmm other := by
    intro other different otherFrame
    refine ⟨otherFrame.aligned, otherFrame.nonzero, otherFrame.tracked, ?_⟩
    have differentPage : other / pageSize ≠ address / pageSize := by
      intro same
      apply different
      rw [← otherFrame.address_eq, same, frame.address_eq]
    simp [returnPage, bitmap_get_clear, otherFrame.taken, differentPage]
  refine
    { separated := tables.separated
      coherent := tables.coherent
      frames := ?_
      heldFrames := fun other member => kept other member.2 (tables.heldFrames other member.1)
      apart := fun other member => tables.apart other member.1
      lowPage := ?_
      physical := tables.physical }
  · intro table isTable
    apply kept table _ (tables.frames table isTable)
    rintro rfl
    exact tables.apart _ owned isTable
  · rw [freeSet_returnPage frame.tracked, Finset.mem_insert]
    rintro (zero | free)
    · apply frame.nonzero
      rw [← frame.address_eq, ← zero, Nat.zero_mul]
    · exact tables.lowPage free

end

end Frames

/-! ## One entry written -/

section SlotWrites

variable {roots held : Set Nat} {pmm : Pmm} {phys : Memory}
  {root target depth first digit word : Nat}

/-- The entry `digit` of the table at `first`, `depth` levels below `root`. -/
structure Slot (roots : Set Nat) (phys : Memory) (root target depth first digit : Nat) : Prop where
  isRoot : root ∈ roots
  inner : depth < 4
  bounded : first < 512 ^ depth
  small : digit < 512
  place : tableAt phys root depth first = some target

theorem Slot.kept {after : Memory} (slot : Slot roots phys root target depth first digit)
    (tables : Tables roots held pmm phys) (kept : TablesKept roots phys after) :
    Slot roots after root target depth first digit :=
  { slot with
    place := ((tables.agrees kept).walk slot.isRoot (Nat.le_of_lt slot.inner)
      slot.bounded).trans slot.place }

/-- A shared entry of a PML4 may change only while there is a single PML4. -/
def Unshared (roots : Set Nat) (root depth digit : Nat) : Prop :=
  depth = 0 → 256 ≤ digit → ∀ other, other ∈ roots → other = root

abbrev written (phys : Memory) (target digit word : Nat) : Memory :=
  store64 phys (entryAddress target digit) word

theorem written_apply_other {address : Nat} (aligned : target % pageSize = 0) (small : digit < 512)
    (other : pageFloor address ≠ target) : written phys target digit word address = phys address := by
  apply store64_apply_other
  by_contra inside
  apply other
  have floor := page_floor_entry aligned small
    (show address - entryAddress target digit < 8 by omega)
  rwa [Nat.add_sub_of_le (by omega)] at floor

theorem Slot.isTable (slot : Slot roots phys root target depth first digit) :
    IsTable roots phys target :=
  isTable_of_place slot.isRoot slot.inner slot.bounded slot.place

theorem Slot.child_written (_ : Slot roots phys root target depth first digit)
    (fits : word < 2 ^ 64) : child (written phys target digit word) target digit = decode word :=
  congrArg decode (entry_store_same fits)

theorem Slot.entry_other (slot : Slot roots phys root target depth first digit)
    (tables : Tables roots held pmm phys) {other index : Nat} (aligned : other % pageSize = 0)
    (small : index < 512) (different : ¬(other = target ∧ index = digit)) :
    entryAt (written phys target digit word) other index = entryAt phys other index :=
  entry_store_other (tables.frames _ slot.isTable).aligned aligned slot.small small different

structure BlankHung (held : Set Nat) (phys : Memory) (target depth digit word : Nat) : Prop where
  before : depth < 3 → ∀ table, child phys target digit = some table → BlankTable phys table
  after : depth < 3 → ∀ table, decode word = some table → table ∈ held ∧ BlankTable phys table

theorem BlankHung.blank_after (hung : BlankHung held phys target depth digit word)
    (slot : Slot roots phys root target depth first digit) (tables : Tables roots held pmm phys)
    (upper : depth < 3) {table : Nat} (found : decode word = some table) :
    BlankTable (written phys target digit word) table := by
  obtain ⟨owned, blank⟩ := hung.after upper table found
  intro index small
  rw [slot.entry_other tables (tables.heldFrames table owned).aligned small]
  · exact blank index small
  · rintro ⟨rfl, -⟩
    exact tables.apart _ owned slot.isTable

theorem Slot.grafts (slot : Slot roots phys root target depth first digit)
    (tables : Tables roots held pmm phys) (fits : word < 2 ^ 64)
    (unshared : Unshared roots root depth digit)
    (hung : BlankHung held phys target depth digit word) :
    Grafts (pageShape roots) (child phys) (child (written phys target digit word))
      root target depth first digit where
  isRoot := slot.isRoot
  inner := slot.inner
  bounded := slot.bounded
  small := slot.small
  place := slot.place
  others := fun table index isTable small different =>
    congrArg decode
      (slot.entry_other tables (tables.frames table isTable).aligned small different)
  childlessBefore := fun inside table found _ small =>
    blank_childless (hung.before (Nat.lt_of_succ_lt_succ inside) table found) small
  childlessAfter := fun inside table found _ small => by
    rw [slot.child_written fits] at found
    exact blank_childless
      (hung.blank_after slot tables (Nat.lt_of_succ_lt_succ inside) found) small
  alone := unshared

theorem table_word_blank {phys : Memory} {table : Option Nat} {index : Nat} (small : index < 512)
    (blank : ∀ found, table = some found → BlankTable phys found) :
    tableWord phys table index = 0 := by
  cases table with
  | none => rfl
  | some found => exact blank found rfl index small

section

variable (slot : Slot roots phys root target depth first digit)
  (tables : Tables roots held pmm phys)

include slot tables

theorem Slot.walk_before {other : Nat} (isRoot : other ∈ roots)
    (sharing : other = root ∨ SharedAt depth first) :
    tableAt phys other (depth + 1) (first * 512 + digit) = child phys target digit := by
  have unchanged : Rewrites (pageShape roots) (child phys) (child phys) root target depth first
      digit :=
    { isRoot := slot.isRoot
      inner := slot.inner
      bounded := slot.bounded
      small := slot.small
      place := slot.place
      others := fun _ _ _ _ _ => rfl }
  exact walk_at_slot tables.separated tables.coherent unchanged isRoot sharing

theorem Slot.walk_after (fits : word < 2 ^ 64) (unshared : Unshared roots root depth digit)
    (hung : BlankHung held phys target depth digit word) {other level key : Nat}
    (isRoot : other ∈ roots) (reached : level ≤ 4) (bounded : key < 512 ^ level) :
    (level = depth + 1 ∧ key = first * 512 + digit ∧ (other = root ∨ SharedAt depth first) ∧
        tableAt (written phys target digit word) other level key = decode word) ∨
      (¬(level = depth + 1 ∧ key = first * 512 + digit ∧ (other = root ∨ SharedAt depth first)) ∧
        tableAt (written phys target digit word) other level key = tableAt phys other level key) := by
  rcases graft_walk tables.separated tables.coherent (slot.grafts tables fits unshared hung) isRoot reached
    bounded with ⟨⟨sameLevel, sameKey, sharing⟩, after⟩ | ⟨off, same⟩
  · exact Or.inl ⟨sameLevel, sameKey, sharing, after.trans (slot.child_written fits)⟩
  · exact Or.inr ⟨off, same⟩

theorem Slot.isTable_written (fits : word < 2 ^ 64) (unshared : Unshared roots root depth digit)
    (hung : BlankHung held phys target depth digit word) {table : Nat}
    (isTable : IsTable roots (written phys target digit word) table) :
    (IsTable roots phys table ∧ (depth < 3 → child phys target digit ≠ some table)) ∨
      depth < 3 ∧ decode word = some table := by
  rcases graft_inner tables.separated tables.coherent (slot.grafts tables fits unshared hung) isTable with
    ⟨before, unhung⟩ | ⟨upper, found⟩
  · exact Or.inl ⟨before, fun upper => unhung (Nat.succ_lt_succ upper)⟩
  · rw [slot.child_written fits] at found
    exact Or.inr ⟨Nat.lt_of_succ_lt_succ upper, found⟩

theorem Slot.tables_written (fits : word < 2 ^ 64) (unshared : Unshared roots root depth digit)
    (hung : BlankHung held phys target depth digit word) {held' : Set Nat}
    (heldFrames : ∀ address, address ∈ held' → Frame pmm address)
    (apart : ∀ address, address ∈ held' → ¬IsTable roots (written phys target digit word) address) :
    Tables roots held' pmm (written phys target digit word) where
  separated := by
    apply graft_separated tables.separated tables.coherent (slot.grafts tables fits unshared hung)
    intro upper table found
    rw [slot.child_written fits] at found
    exact tables.apart table (hung.after (Nat.lt_of_succ_lt_succ upper) table found).1
  coherent := graft_coherent tables.separated tables.coherent (slot.grafts tables fits unshared hung)
  frames := by
    intro table isTable
    rcases slot.isTable_written tables fits unshared hung isTable with ⟨before, -⟩ | ⟨upper, found⟩
    · exact tables.frames table before
    · exact tables.heldFrames table (hung.after upper table found).1
  heldFrames := heldFrames
  apart := apart
  lowPage := tables.lowPage
  physical := tables.physical

end

theorem Slot.write_leaf (slot : Slot roots phys root target 3 first digit)
    (tables : Tables roots held pmm phys) (fits : word < 2 ^ 64) :
    Tables roots held pmm (written phys target digit word) := by
  have hung : BlankHung held phys target 3 digit word := ⟨by omega, by omega⟩
  have unshared : Unshared roots root 3 digit := fun top => by omega
  apply slot.tables_written tables fits unshared hung tables.heldFrames
  intro address owned isTable
  rcases slot.isTable_written tables fits unshared hung isTable with ⟨before, -⟩ | ⟨upper, -⟩
  · exact tables.apart address owned before
  · omega

theorem Slot.link (slot : Slot roots phys root target depth first digit)
    (tables : Tables roots held pmm phys) (fits : word < 2 ^ 64)
    (unshared : Unshared roots root depth digit)
    (hung : BlankHung held phys target depth digit word) {table : Nat}
    (found : decode word = some table) :
    Tables roots (held \ {table}) pmm (written phys target digit word) := by
  apply slot.tables_written tables fits unshared hung
  · exact fun address owned => tables.heldFrames address owned.1
  · intro address owned isTable
    rcases slot.isTable_written tables fits unshared hung isTable with ⟨before, -⟩ | ⟨-, same⟩
    · exact tables.apart address owned.1 before
    · rw [found] at same
      exact owned.2 (Option.some.inj same).symm

theorem blank_hung_zero (held : Set Nat) {target digit table : Nat} (depth : Nat)
    (found : child phys target digit = some table) (blank : BlankTable phys table) :
    BlankHung held phys target depth digit 0 := by
  refine ⟨?_, ?_⟩
  · intro _ other same
    rw [found] at same
    obtain rfl := Option.some.inj same
    exact blank
  · intro _ other same
    rw [decode_zero] at same
    cases same

theorem Slot.unlink (slot : Slot roots phys root target depth first digit)
    (tables : Tables roots held pmm phys) (upper : depth < 3)
    (unshared : Unshared roots root depth digit) {table : Nat}
    (found : child phys target digit = some table) (blank : BlankTable phys table) :
    Tables roots (insert table held) pmm (written phys target digit 0) := by
  have fits : 0 < 2 ^ 64 := by decide
  have hung := blank_hung_zero held depth found blank
  have isTable : IsTable roots phys table := by
    apply isTable_of_place slot.isRoot (Nat.succ_lt_succ upper)
      (digit_lt slot.bounded slot.small)
    rw [slot.walk_before tables slot.isRoot (Or.inl rfl), found]
  apply slot.tables_written tables fits unshared hung
  · intro address owned
    cases owned with
    | inl same =>
      rw [same]
      exact tables.frames table isTable
    | inr old => exact tables.heldFrames address old
  · intro address owned still
    rcases slot.isTable_written tables fits unshared hung still with ⟨before, unhung⟩ | ⟨-, same⟩
    · cases owned with
      | inl same =>
        apply unhung upper
        rw [found, same]
      | inr old => exact tables.apart address old before
    · rw [decode_zero] at same
      cases same

/-- The upper half of every PML4 is unchanged, word by word. -/
def UpperKept (roots : Set Nat) (before after : Memory) : Prop :=
  ∀ root, root ∈ roots → ∀ digit, 256 ≤ digit → digit < 512 →
    entryAt after root digit = entryAt before root digit

theorem UpperKept.trans {roots : Set Nat} {first second third : Memory}
    (left : UpperKept roots first second) (right : UpperKept roots second third) :
    UpperKept roots first third := fun root isRoot digit upper small =>
  (right root isRoot digit upper small).trans (left root isRoot digit upper small)

theorem isTable_of_root {roots : Set Nat} {phys : Memory} {root : Nat} (isRoot : root ∈ roots) :
    IsTable roots phys root :=
  isTable_of_place isRoot (by decide) (show 0 < 512 ^ 0 by decide) (walk_zero _ _ _ _)

theorem Tables.upper_kept (tables : Tables roots held pmm phys) {after : Memory}
    (kept : TablesKept roots phys after) : UpperKept roots phys after := fun _ isRoot _ _ small =>
  tables.entry_kept kept (isTable_of_root isRoot) small

end SlotWrites

/-! ## A single empty pagemap -/

section SingleRoot

variable {root : Nat} {phys : Memory}

theorem isTable_single (blank : BlankTable phys root) {table : Nat}
    (isTable : IsTable {root} phys table) : table = root := by
  obtain ⟨other, depth, key, isRoot, -, -, place⟩ := isTable
  obtain rfl : other = root := isRoot
  cases depth with
  | zero => exact (Option.some.inj ((walk_zero _ _ _ _).symm.trans place)).symm
  | succ depth =>
    have missing : (pageShape {other}).at_ (child phys) other (depth + 1) key = none :=
      walk_blank (fun digit small => blank_childless blank small) depth key
    cases missing.symm.trans place

theorem tables_single {pmm : Pmm} (frame : Frame pmm root) (blank : BlankTable phys root)
    (lowPage : 0 ∉ freeSet pmm) (physical : pmm.highestPage < 2 ^ 40) :
    Tables {root} ∅ pmm phys where
  separated := separated_blank (fun _ isRoot => isRoot) fun _ small => blank_childless blank small
  coherent := coherent_single fun _ isRoot => isRoot
  frames := by
    intro table isTable
    rwa [isTable_single blank isTable]
  heldFrames := fun _ owned => owned.elim
  apart := fun _ owned => owned.elim
  lowPage := lowPage
  physical := physical

theorem leaf_word_single (blank : BlankTable phys root) (page : Nat) :
    leafWord phys root page = 0 := by
  have missing : (pageShape {root}).at_ (child phys) root 3 (page / 512) = none :=
    walk_blank (fun digit small => blank_childless blank small) 2 _
  rw [leafWord, show tableAt phys root 3 (page / 512) = none from missing]
  rfl

end SingleRoot

end RiriaKernel.PageTableForests
