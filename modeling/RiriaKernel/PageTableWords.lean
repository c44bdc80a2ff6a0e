import RiriaKernel.PageTableOperations

/-!
# Mapping and unmapping, word by word

A pagemap is read as one word for each place of its tree, zero where no table holds the place.
`vmm_map_page` changes the words on the way to its page from the first missing table on, and
`vmm_unmap_page` those up to the last table it leaves empty; no other word of any pagemap
changes. The frames that the first takes come off the allocator in the order in which the second
gives them back. What happens to the leaf entries and to the tables follows from the words, and so
does the state that a call leaves behind when it runs out of frames.
-/

namespace RiriaKernel.PageTableWords

open ByteMemory HaltingPrograms KernelState PhysicalAllocator RadixForests PageTables
open PageTableForests PageTableOperations

/-- The entry that digit `key % 512` selects in the table at `key / 512`, `level` levels down. -/
def wordAt (phys : Memory) (root level key : Nat) : Nat :=
  tableWord phys (tableAt phys root level (key / 512)) (key % 512)

theorem leaf_word_eq (phys : Memory) (root page : Nat) :
    leafWord phys root page = wordAt phys root 3 page :=
  rfl

theorem table_at_word (phys : Memory) (root level key : Nat) :
    tableAt phys root (level + 1) key = decode (wordAt phys root level key) := by
  rw [tableAt_succ, wordAt]
  cases tableAt phys root level (key / 512) with
  | none => exact decode_zero.symm
  | some table => rfl

theorem word_of_missing {phys : Memory} {root level key : Nat}
    (missing : tableAt phys root level (key / 512) = none) : wordAt phys root level key = 0 := by
  rw [wordAt, missing, tableWord]

theorem word_of_table {phys : Memory} {root level first digit table : Nat} (small : digit < 512)
    (place : tableAt phys root level first = some table) :
    wordAt phys root level (first * 512 + digit) = entryAt phys table digit := by
  obtain ⟨quotient, remainder⟩ := (key_eq_iff small).mp
    (rfl : first * 512 + digit = first * 512 + digit)
  rw [wordAt, quotient, remainder, place, tableWord]

theorem blank_iff {phys : Memory} {root level first table : Nat}
    (place : tableAt phys root level first = some table) :
    BlankTable phys table ↔ ∀ digit < 512, wordAt phys root level (first * 512 + digit) = 0 := by
  constructor
  · intro blank digit small
    rw [word_of_table small place]
    exact blank digit small
  · intro zero digit small
    rw [← word_of_table small place]
    exact zero digit small

section Writes

variable {roots held : Set Nat} {pmm : Pmm} {phys : Memory}
  {root target depth first digit word other level key : Nat}

theorem word_kept {after : Memory} (tables : Tables roots held pmm phys)
    (kept : TablesKept roots phys after) (isRoot : other ∈ roots) (inner : level < 4)
    (bounded : key < 512 ^ (level + 1)) : wordAt after other level key = wordAt phys other level key := by
  have above : key / 512 < 512 ^ level := prefix_lt bounded
  have same : tableAt after other level (key / 512) = tableAt phys other level (key / 512) :=
    (tables.agrees kept).walk isRoot (Nat.le_of_lt inner) above
  rw [wordAt, wordAt, same]
  cases place : tableAt phys other level (key / 512) with
  | none => rfl
  | some table =>
    exact tables.entry_kept kept (isTable_of_place isRoot inner above place)
      (Nat.mod_lt _ (by decide))

/-- Which pagemaps share the table at a place. -/
def Sees (root depth first other : Nat) : Prop := other = root ∨ SharedAt depth first

theorem word_written (slot : Slot roots phys root target depth first digit)
    (tables : Tables roots held pmm phys) (fits : word < 2 ^ 64)
    (unshared : Unshared roots root depth digit)
    (hung : BlankHung held phys target depth digit word) (isRoot : other ∈ roots)
    (inner : level < 4) (bounded : key < 512 ^ (level + 1)) :
    (level = depth ∧ key = first * 512 + digit ∧ Sees root depth first other ∧
        wordAt (written phys target digit word) other level key = word) ∨
      (¬(level = depth ∧ key = first * 512 + digit ∧ Sees root depth first other) ∧
        wordAt (written phys target digit word) other level key = wordAt phys other level key) := by
  have above : key / 512 < 512 ^ level := prefix_lt bounded
  have small : key % 512 < 512 := Nat.mod_lt _ (by decide)
  rcases slot.walk_after tables fits unshared hung isRoot (Nat.le_of_lt inner) above with
    ⟨below, place, sharing, after⟩ | ⟨-, same⟩
  · -- the table of this place was hung or taken off, and is empty either way
    have upper : depth < 3 := by omega
    have before := slot.walk_before tables isRoot sharing
    rw [← below, ← place] at before
    refine Or.inr ⟨fun hit => by omega, ?_⟩
    rw [wordAt, wordAt, before, after, table_word_blank small (hung.before upper),
      table_word_blank small fun _ found => hung.blank_after slot tables upper found]
  · rw [wordAt, same]
    by_cases hit : level = depth ∧ key = first * 512 + digit ∧ Sees root depth first other
    · obtain ⟨rfl, here, sharing⟩ := hit
      obtain ⟨quotient, remainder⟩ := (key_eq_iff slot.small).mp here
      have place : tableAt phys other level first = some target := by
        rcases sharing with rfl | shared
        · exact slot.place
        · exact (tables.coherent other root level first isRoot slot.isRoot (Nat.le_of_lt inner)
            slot.bounded shared).trans slot.place
      refine Or.inl ⟨rfl, here, sharing, ?_⟩
      rw [quotient, remainder, place]
      exact entry_store_same fits
    · refine Or.inr ⟨hit, ?_⟩
      rw [wordAt]
      cases place : tableAt phys other level (key / 512) with
      | none => rfl
      | some table =>
        have isTable := isTable_of_place isRoot inner above place
        apply slot.entry_other tables (tables.frames table isTable).aligned small
        rintro ⟨rfl, sameDigit⟩
        obtain ⟨sameLevel, sameKey, sharing⟩ := tables.separated other root level depth (key / 512)
          first table isRoot slot.isRoot inner slot.inner above slot.bounded place slot.place
        apply hit
        subst sameLevel
        rw [sameKey] at sharing
        exact ⟨rfl, (key_eq_iff slot.small).mpr ⟨sameKey, sameDigit⟩, sharing⟩

end Writes

/-! ## Frames taken and given back -/

def takenPmm (pmm : Pmm) (page : Nat) : Pmm :=
  { pmm with
    bitmap := bitmapSet pmm.bitmap page
    usedPages := add64 pmm.usedPages 1
    freePages := sub64 pmm.freePages 1 }

def returnedPmm (pmm : Pmm) (page : Nat) : Pmm :=
  { pmm with
    bitmap := bitmapClear pmm.bitmap page
    usedPages := sub64 pmm.usedPages 1
    freePages := add64 pmm.freePages 1 }

structure Counted (pmm : Pmm) : Prop where
  used : pmm.usedPages < 2 ^ 64
  free : pmm.freePages < 2 ^ 64

theorem taken_counted (pmm : Pmm) (page : Nat) : Counted (takenPmm pmm page) :=
  ⟨Nat.mod_lt _ (by decide), Nat.mod_lt _ (by decide)⟩

theorem returned_counted (pmm : Pmm) (page : Nat) : Counted (returnedPmm pmm page) :=
  ⟨Nat.mod_lt _ (by decide), Nat.mod_lt _ (by decide)⟩

theorem bitmap_ext {left right : Nat → UInt8}
    (same : ∀ index, bitmapGet left index = bitmapGet right index) : left = right := by
  funext byte
  apply UInt8.toNat_inj.mp
  apply Nat.eq_of_testBit_eq
  intro bit
  by_cases inside : bit < 8
  · have here := same (byte * 8 + bit)
    rw [bitmap_get_eq_testBit, bitmap_get_eq_testBit] at here
    rwa [show (byte * 8 + bit) / 8 = byte by omega, show (byte * 8 + bit) % 8 = bit by omega] at here
  · have high : ∀ word : UInt8, word.toNat.testBit bit = false := fun word =>
      Nat.testBit_lt_two_pow (word.toNat_lt.trans_le (Nat.pow_le_pow_right (by decide) (by omega)))
    rw [high, high]

theorem bitmap_restored {bitmap : Nat → UInt8} {page : Nat} (clear : bitmapGet bitmap page = false) :
    bitmapClear (bitmapSet bitmap page) page = bitmap := by
  apply bitmap_ext
  intro index
  rw [bitmap_get_clear, bitmap_get_set]
  by_cases same : index = page
  · simp [same, clear]
  · simp [same]

theorem returned_taken {pmm : Pmm} {page : Nat} (counted : Counted pmm)
    (free : page ∈ freeSet pmm) : returnedPmm (takenPmm pmm page) page = pmm := by
  have bitmap := bitmap_restored (mem_freeSet.mp free).2
  have used : sub64 (add64 pmm.usedPages 1) 1 = pmm.usedPages := by
    have small := counted.used
    unfold sub64 add64
    omega
  have frees : add64 (sub64 pmm.freePages 1) 1 = pmm.freePages := by
    have small := counted.free
    unfold sub64 add64
    omega
  simp only [returnedPmm, takenPmm, bitmap, used, frees]

def returnAll (pmm : Pmm) (pages : List Nat) : Pmm := pages.foldl returnedPmm pmm

/-! ## Down to a page -/

def OnWay (root page other level key : Nat) : Prop :=
  key = page / 512 ^ (3 - level) ∧ Sees root level (page / 512 ^ (4 - level)) other

theorem page_key_lt {page level : Nat} (bounded : page < 512 ^ 4) (inner : level < 4) :
    page / 512 ^ (3 - level) < 512 ^ (level + 1) := by
  have prefixed := page_prefix_lt bounded (show level + 1 ≤ 4 by omega)
  rwa [show 4 - (level + 1) = 3 - level by omega] at prefixed

/-- The words on the way to `page` are new at the chosen levels; no other word has changed. -/
def WordsSet (roots : Set Nat) (root page : Nat) (chosen : Nat → Prop) (word : Nat → Nat)
    (before after : Memory) : Prop :=
  ∀ other ∈ roots, ∀ level key, level < 4 → key < 512 ^ (level + 1) →
    (OnWay root page other level key ∧ chosen level ∧ wordAt after other level key = word level) ∨
      (¬(OnWay root page other level key ∧ chosen level) ∧
        wordAt after other level key = wordAt before other level key)

/-- Links to new tables, with the flags of a request, are the only words above the leaves that
have changed. -/
def LinksAdded (roots : Set Nat) (page flags : Nat) (before after : Memory) : Prop :=
  ∀ other ∈ roots, ∀ level key, level < 3 → key < 512 ^ (level + 1) →
    wordAt after other level key = wordAt before other level key ∨
      key = page / 512 ^ (3 - level) ∧ ∃ frame, decode (frame ||| allocFlags flags) = some frame ∧
        wordAt after other level key = frame ||| allocFlags flags

section WordsSet

variable {roots held : Set Nat} {pmm : Pmm} {before after : Memory} {root page : Nat}
  {chosen : Nat → Prop} {word : Nat → Nat}

theorem on_way_leaf_iff {other index : Nat} :
    OnWay root page other 3 index ↔ index = page ∧ (other = root ∨ UpperHalf index) := by
  rw [OnWay, Nat.sub_self, pow_zero, Nat.div_one, Sees, show 4 - 3 = 1 by decide, pow_one]
  constructor
  · rintro ⟨rfl, sees⟩
    exact ⟨rfl, sees.imp_right shared_iff.mp⟩
  · rintro ⟨rfl, sees⟩
    exact ⟨rfl, sees.imp_right shared_iff.mpr⟩

theorem OnWay.path {other level key : Nat} (way : OnWay root page other level key) (inner : level ≤ 3) :
    OnPath root page other (level + 1) key :=
  ⟨Nat.succ_pos level, by rw [way.1, show 4 - (level + 1) = 3 - level by omega],
    way.2.imp_right (upper_half_of_shared inner)⟩

theorem OnWay.table {other level key : Nat} (way : OnWay root page other level key)
    (tables : Tables roots held pmm before) (isRoot : root ∈ roots) (otherRoot : other ∈ roots)
    (bounded : page < 512 ^ 4) (inner : level < 4) :
    tableAt before other (level + 1) key =
      tableAt before root (level + 1) (page / 512 ^ (3 - level)) := by
  obtain ⟨rfl, rfl | shared⟩ := way
  · rfl
  · have above : page / 512 ^ (3 - level) / 512 = page / 512 ^ (4 - level) := by
      rw [Nat.div_div_eq_div_mul, ← pow_succ, show 3 - level + 1 = 4 - level by omega]
    have same : tableAt before other level (page / 512 ^ (4 - level)) =
        tableAt before root level (page / 512 ^ (4 - level)) :=
      tables.coherent other root level _ otherRoot isRoot (Nat.le_of_lt inner)
        (page_prefix_lt bounded (Nat.le_of_lt inner)) shared
    rw [tableAt_succ, tableAt_succ, above, same]

section

variable (set : WordsSet roots root page chosen word before after)

include set

theorem WordsSet.leaf (last : chosen 3) : LeafSet roots root page (word 3) before after := by
  intro other isRoot index bounded
  rw [leaf_word_eq, leaf_word_eq]
  rcases set other isRoot 3 index (by decide) bounded with ⟨way, -, here⟩ | ⟨off, same⟩
  · rw [if_pos (on_way_leaf_iff.mp way), here]
  · rw [if_neg fun hit => off ⟨on_way_leaf_iff.mpr hit, last⟩, same]

theorem WordsSet.leaves (last : ¬chosen 3) : LeavesKept roots before after := by
  intro other isRoot index bounded
  rcases set other isRoot 3 index (by decide) bounded with ⟨-, hit, -⟩ | ⟨-, same⟩
  · exact absurd hit last
  · exact same

theorem WordsSet.upper (lower : UpperHalf page → ¬chosen 0) : UpperKept roots before after := by
  intro other isRoot digit high small
  have entry : ∀ phys, wordAt phys other 0 (0 * 512 + digit) = entryAt phys other digit := fun phys =>
    word_of_table small (walk_zero _ _ _ _)
  rw [← entry, ← entry]
  rcases set other isRoot 0 (0 * 512 + digit) (by decide) (by omega) with ⟨way, top, -⟩ | ⟨-, same⟩
  · refine absurd top (lower ?_)
    have here := way.1
    unfold UpperHalf
    omega
  · exact same

theorem WordsSet.added (tables : Tables roots held pmm before) (isRoot : root ∈ roots)
    (bounded : page < 512 ^ 4)
    (missing : ∀ level < 3, chosen level →
      tableAt before root (level + 1) (page / 512 ^ (3 - level)) = none) :
    TablesAdded roots root page before after := by
  intro other otherRoot level key shallow small
  cases level with
  | zero => exact Or.inl ((walk_zero _ _ _ _).trans (walk_zero _ _ _ _).symm)
  | succ level =>
    rcases set other otherRoot level key (by omega) small with ⟨way, far, -⟩ | ⟨-, same⟩
    · refine Or.inr ⟨?_, way.path (by omega)⟩
      rw [way.table tables isRoot otherRoot bounded (by omega)]
      exact missing level (by omega) far
    · rw [table_at_word, table_at_word, same]
      exact Or.inl rfl

end

theorem WordsSet.dropped (set : WordsSet roots root page chosen (fun _ => 0) before after) :
    TablesDropped roots root page before after := by
  intro other otherRoot level key shallow small
  cases level with
  | zero => exact Or.inl ((walk_zero _ _ _ _).trans (walk_zero _ _ _ _).symm)
  | succ level =>
    rw [table_at_word, table_at_word]
    rcases set other otherRoot level key (by omega) small with ⟨way, -, zero⟩ | ⟨-, same⟩
    · rw [zero]
      exact Or.inr ⟨decode_zero, way.path (by omega)⟩
    · rw [same]
      exact Or.inl rfl

end WordsSet

section Descending

variable {roots held : Set Nat} {start machine : Machine} {frames : Nat → Nat}
  {root page flags depth added table : Nat}

theorem hang_table_words (tables : Tables roots held machine.pmm machine.phys)
    (slot : Slot roots machine.phys root table depth (page / 512 ^ (4 - depth))
      (page / 512 ^ (3 - depth) % 512))
    (unshared : Unshared roots root depth (page / 512 ^ (3 - depth) % 512)) {fresh : Nat}
    (link : LinkFlags flags)
    (missing : child machine.phys table (page / 512 ^ (3 - depth) % 512) = none)
    (member : fresh ∈ freeSet machine.pmm) {other level key : Nat} (isRoot : other ∈ roots)
    (inner : level < 4) (bounded : key < 512 ^ (level + 1)) :
    (level = depth ∧ OnWay root page other level key ∧
        wordAt (hangTable machine fresh table (page / 512 ^ (3 - depth) % 512)
          (fresh * pageSize ||| flags)).phys other level key = fresh * pageSize ||| flags) ∨
      (¬(level = depth ∧ OnWay root page other level key) ∧
        wordAt (hangTable machine fresh table (page / 512 ^ (3 - depth) % 512)
          (fresh * pageSize ||| flags)).phys other level key =
            wordAt machine.phys other level key) := by
  have kept := tables.take_kept member
  have fits := link_word_lt (tables.free_page_small member) link.small
  have hung := fresh_table_hung tables slot link missing member
  have digits := @page_digit page depth slot.inner
  rcases word_written (slot.kept tables kept) (tables.take member) fits unshared hung isRoot inner
    bounded with ⟨rfl, here, sees, after⟩ | ⟨off, same⟩
  · rw [digits] at here
    exact Or.inl ⟨rfl, ⟨here, sees⟩, after⟩
  · refine Or.inr ⟨?_, same.trans (word_kept tables kept isRoot inner bounded)⟩
    rintro ⟨rfl, here, sees⟩
    exact off ⟨rfl, here.trans digits.symm, sees⟩

theorem leaf_words {phys : Memory} {pmm : Pmm} {word : Nat} (tables : Tables roots held pmm phys)
    (isRoot : root ∈ roots) (bounded : page < 512 ^ 4)
    (place : tableAt phys root 3 (page / 512 ^ (4 - 3)) = some table) (fits : word < 2 ^ 64)
    {other level key : Nat} (otherRoot : other ∈ roots) (inner : level < 4)
    (small : key < 512 ^ (level + 1)) :
    (level = 3 ∧ OnWay root page other level key ∧
        wordAt (written phys table (page % 512) word) other level key = word) ∨
      (¬(level = 3 ∧ OnWay root page other level key) ∧
        wordAt (written phys table (page % 512) word) other level key =
          wordAt phys other level key) := by
  have slot := slot_of_place isRoot bounded (show 3 < 4 by decide) place
  rw [show 3 - 3 = 0 by decide, pow_zero, Nat.div_one] at slot
  have hung : BlankHung held phys table 3 (page % 512) word := ⟨by omega, by omega⟩
  have unshared : Unshared roots root 3 (page % 512) := fun top => by omega
  have digits : page / 512 ^ (4 - 3) * 512 + page % 512 = page / 512 ^ (3 - 3) := by
    rw [show 4 - 3 = 1 by decide, pow_one, Nat.div_add_mod', Nat.sub_self, pow_zero, Nat.div_one]
  rcases word_written slot tables fits unshared hung otherRoot inner small with
    ⟨rfl, here, sees, after⟩ | ⟨off, same⟩
  · exact Or.inl ⟨rfl, ⟨here.trans digits, sees⟩, after⟩
  · refine Or.inr ⟨?_, same⟩
    rintro ⟨rfl, here, sees⟩
    exact off ⟨rfl, here.trans digits.symm, sees⟩

/-- The walk down to `page` has reached `depth`, the last `added` tables of the way are new, and
`frames` gives their addresses. -/
structure Descent (roots held : Set Nat) (start : Machine) (root page flags : Nat)
    (frames : Nat → Nat) (depth added table : Nat) (machine : Machine) : Prop where
  grown : Grown roots held added start machine
  cost : (freeSet machine.pmm).card + added = (freeSet start.pmm).card
  locked : machine.locked = start.locked
  few : added ≤ depth
  place : tableAt machine.phys root depth (page / 512 ^ (4 - depth)) = some table
  missing : ∀ level < depth,
    tableAt start.phys root (level + 1) (page / 512 ^ (3 - level)) = none ↔ depth ≤ level + added
  framed : ∀ level < depth, depth ≤ level + added →
    decode (frames (level + 1) ||| allocFlags flags) = some (frames (level + 1))
  restored : Counted start.pmm → Counted machine.pmm ∧ returnAll machine.pmm
    ((List.range added).map fun step => frames (depth - step) / pageSize) = start.pmm
  words : WordsSet roots root page (fun level => level < depth ∧ depth ≤ level + added)
    (fun level => frames (level + 1) ||| allocFlags flags) start.phys machine.phys

theorem descent_start (tables : Tables roots held start.pmm start.phys) :
    Descent roots held start root page flags frames 0 0 root start where
  grown := Grown.refl tables
  cost := rfl
  locked := rfl
  few := Nat.le_refl _
  place := walk_zero _ _ _ _
  missing := fun level below => absurd below (Nat.not_lt_zero level)
  framed := fun level below => absurd below (Nat.not_lt_zero level)
  restored := fun counted => ⟨counted, rfl⟩
  words := fun _ _ level _ _ _ => Or.inr ⟨fun way => Nat.not_lt_zero level way.2.1, rfl⟩

section

variable (descent : Descent roots held start root page flags frames depth added table machine)
  (isRoot : root ∈ roots) (bounded : page < 512 ^ 4)

include descent isRoot bounded

/-- The word behind the tables that the walk has reached is still the first one. -/
theorem Descent.next_word (inner : depth < 4) :
    wordAt machine.phys root depth (page / 512 ^ (3 - depth)) =
      wordAt start.phys root depth (page / 512 ^ (3 - depth)) := by
  rcases descent.words root isRoot depth _ inner (page_key_lt bounded inner) with ⟨-, hit, -⟩ | ⟨-, same⟩
  · exact absurd hit.1 (Nat.lt_irrefl depth)
  · exact same

theorem Descent.added_zero (inner : depth < 4)
    (present : wordAt machine.phys root depth (page / 512 ^ (3 - depth)) ≠ 0) : added = 0 := by
  by_contra new
  have few := descent.few
  have above := (descent.missing (depth - 1) (by omega)).mpr (by omega)
  rw [show depth - 1 + 1 = depth by omega, show 3 - (depth - 1) = 3 - depth + 1 by omega, pow_succ,
    ← Nat.div_div_eq_div_mul] at above
  apply present
  rw [descent.next_word isRoot bounded inner]
  exact word_of_missing above

theorem Descent.present (upper : depth < 3) {below : Nat}
    (found : tableAt machine.phys root (depth + 1) (page / 512 ^ (3 - depth)) = some below) :
    Descent roots held start root page flags frames (depth + 1) 0 below machine := by
  have word := found
  rw [table_at_word] at word
  have none : added = 0 := by
    apply descent.added_zero isRoot bounded (by omega)
    intro zero
    rw [zero, decode_zero] at word
    cases word
  subst none
  have here : tableAt start.phys root (depth + 1) (page / 512 ^ (3 - depth)) = some below := by
    rw [table_at_word, ← descent.next_word isRoot bounded (by omega)]
    exact word
  refine
    { descent with
      few := Nat.zero_le _
      place := ?_
      missing := ?_
      framed := fun level below far => by omega
      words := ?_ }
  · rwa [show 4 - (depth + 1) = 3 - depth by omega]
  · intro level below
    by_cases last : level = depth
    · subst last
      rw [here]
      constructor
      · intro impossible
        cases impossible
      · omega
    · rw [descent.missing level (by omega)]
      omega
  · intro other otherRoot level key inner small
    rcases descent.words other otherRoot level key inner small with ⟨-, hit, -⟩ | ⟨-, same⟩
    · omega
    · exact Or.inr ⟨fun way => by omega, same⟩

theorem Descent.hang (upper : depth < 3)
    (unshared : Unshared roots root depth (page / 512 ^ (3 - depth) % 512)) {fresh : Nat}
    (absent : child machine.phys table (page / 512 ^ (3 - depth) % 512) = none)
    (member : fresh ∈ freeSet machine.pmm) :
    Descent roots held start root page flags (Function.update frames (depth + 1) (fresh * pageSize))
      (depth + 1) (added + 1) (fresh * pageSize)
      (hangTable machine fresh table (page / 512 ^ (3 - depth) % 512)
        (fresh * pageSize ||| allocFlags flags)) := by
  have link := alloc_flags_link flags
  have tables := descent.grown.tables
  have slot := slot_of_place isRoot bounded (show depth < 4 by omega) descent.place
  have walked := slot.walk_before tables isRoot (Or.inl rfl)
  rw [page_digit (show depth < 4 by omega), absent] at walked
  have found := decode_or (Nat.mul_mod_left fresh pageSize) (tables.free_page_small member)
    link.disjoint link.present
  have few := descent.few
  have cost := descent.cost
  refine
    { grown := descent.grown.trans (hang_table_grown tables slot unshared link absent member)
      cost := ?_
      locked := descent.locked
      few := Nat.succ_le_succ few
      place := ?_
      missing := ?_
      framed := ?_
      restored := ?_
      words := ?_ }
  · change (freeSet (takePage machine fresh).pmm).card + (added + 1) = _
    have taken := Finset.card_erase_add_one member
    rw [freeSet_takePage]
    omega
  · rcases hang_table_words tables slot unshared link absent member isRoot (show depth < 4 by omega)
      (page_key_lt bounded (by omega)) with ⟨-, -, word⟩ | ⟨off, -⟩
    · rw [show 4 - (depth + 1) = 3 - depth by omega, table_at_word, word, found]
    · exact absurd ⟨rfl, rfl, Or.inl rfl⟩ off
  · intro level below
    by_cases last : level = depth
    · subst last
      rw [table_at_word, ← descent.next_word isRoot bounded (by omega), ← table_at_word, walked]
      constructor
      · omega
      · exact fun _ => rfl
    · rw [descent.missing level (by omega)]
      omega
  · intro level below far
    by_cases last : level = depth
    · rw [last, Function.update_self]
      exact found
    · rw [Function.update_of_ne (by omega)]
      exact descent.framed level (by omega) (by omega)
  · -- the fresh frame is the first that is given back
    intro counted
    obtain ⟨countedNow, restored⟩ := descent.restored counted
    refine ⟨taken_counted _ _, ?_⟩
    have back : returnedPmm (takenPmm machine.pmm fresh) fresh = machine.pmm :=
      returned_taken countedNow member
    have older : (List.range added).map (fun step =>
          Function.update frames (depth + 1) (fresh * pageSize) (depth + 1 - (step + 1)) / pageSize) =
        (List.range added).map fun step => frames (depth - step) / pageSize := by
      apply List.map_congr_left
      intro step _
      rw [Function.update_of_ne (by omega), show depth + 1 - (step + 1) = depth - step by omega]
    rw [List.range_succ_eq_map, List.map_cons, List.map_map, Nat.sub_zero, Function.update_self,
      page_address_div, returnAll, List.foldl_cons]
    change returnAll (returnedPmm (takenPmm machine.pmm fresh) fresh) ((List.range added).map fun step =>
      Function.update frames (depth + 1) (fresh * pageSize) (depth + 1 - (step + 1)) / pageSize) = _
    rw [back, older]
    exact restored
  · intro other otherRoot level key inner small
    rcases hang_table_words tables slot unshared link absent member otherRoot inner small with
      ⟨rfl, way, word⟩ | ⟨off, kept⟩
    · dsimp only
      rw [Function.update_self]
      exact Or.inl ⟨way, by omega, word⟩
    · rw [kept]
      rcases descent.words other otherRoot level key inner small with ⟨way, hit, word⟩ | ⟨out, same⟩
      · dsimp only
        rw [Function.update_of_ne (by omega)]
        exact Or.inl ⟨way, by omega, word⟩
      · refine Or.inr ⟨?_, same⟩
        rintro ⟨way, hit⟩
        have last : level ≠ depth := fun last => off ⟨last, way⟩
        exact out ⟨way, by omega⟩

theorem Descent.unshared (ready : TopReady roots root page start.phys)
    (absent : tableAt machine.phys root (depth + 1) (page / 512 ^ (3 - depth)) = none) :
    Unshared roots root depth (page / 512 ^ (3 - depth) % 512) := by
  rintro rfl high
  rw [top_digit bounded] at high
  have upperHalf : UpperHalf page := by
    unfold UpperHalf
    omega
  cases ready upperHalf with
  | inl alone => exact alone
  | inr top =>
    rw [table_at_word, descent.next_word isRoot bounded (by decide), ← table_at_word, table_at_one,
      top_digit bounded] at absent
    exact absurd absent top

end

/-- A walk that stands before a missing table with no frame left. -/
def Stranded (roots held : Set Nat) (start : Machine) (root page flags : Nat) (after : Machine) :
    Prop :=
  ∃ depth < 3, ∃ frames added table machine,
    Descent roots held start root page flags frames depth added table machine ∧
      tableAt machine.phys root (depth + 1) (page / 512 ^ (3 - depth)) = none ∧
      freeSet machine.pmm = ∅ ∧
      after = { machine with interrupts := intResume (intDisable machine.interrupts) }

/-- One call of `vmm_get_next_level` on the way down. -/
theorem Descent.next (descent : Descent roots held start root page flags frames depth added table machine)
    (isRoot : root ∈ roots) (bounded : page < 512 ^ 4) (upper : depth < 3)
    (unlocked : start.locked .pmm = false) (ready : TopReady roots root page start.phys) :
    Ends (vmmGetNextLevel table (page / 512 ^ (3 - depth) % 512) true (allocFlags flags))
      (fun next after => ∃ below added' frames', next = some below ∧
        Descent roots held start root page flags frames' (depth + 1) added' below after)
      (fun stop after => stop = .panic "out of memory in pmm_allocate!" ∧
        Stranded roots held start root page flags after) machine := by
  have slot := slot_of_place isRoot bounded (show depth < 4 by omega) descent.place
  have walked := slot.walk_before descent.grown.tables isRoot (Or.inl rfl)
  rw [page_digit (show depth < 4 by omega)] at walked
  cases found : child machine.phys table (page / 512 ^ (3 - depth) % 512) with
  | some below =>
    rw [found] at walked
    apply ends_next_level_present found
    exact ⟨below, 0, frames, rfl, descent.present isRoot bounded upper walked⟩
  | none =>
    rw [found] at walked
    have unshared := descent.unshared isRoot bounded ready walked
    have nonzero : allocFlags flags ≠ 0 := by
      have present := (alloc_flags_link flags).present
      omega
    have unlockedNow : machine.locked .pmm = false := by
      rw [descent.locked]
      exact unlocked
    apply ends_next_level_fresh unlockedNow nonzero found descent.grown.tables.lowPage
    · intro fresh member
      exact ⟨_, _, _, rfl, descent.hang isRoot bounded upper unshared found member⟩
    · intro empty
      exact ⟨rfl, depth, upper, frames, added, table, machine, descent, walked, empty, rfl⟩

def pathTable (phys : Memory) (root page level : Nat) : Nat :=
  (tableAt phys root level (page / 512 ^ (4 - level))).getD 0

/-- What `vmm_map_page` does to the words of all pagemaps and to the allocator: the last `added`
tables on the way to `page` are new, and giving their frames back restores the allocator. -/
structure Entered (roots : Set Nat) (root page flags word added : Nat) (before after : Machine) :
    Prop where
  few : added ≤ 3
  missing : ∀ level < 3,
    tableAt before.phys root (level + 1) (page / 512 ^ (3 - level)) = none ↔ 3 ≤ level + added
  linked : ∀ level < 3, 3 ≤ level + added →
    decode (pathTable after.phys root page (level + 1) ||| allocFlags flags) =
      some (pathTable after.phys root page (level + 1))
  restored : returnAll after.pmm
    ((List.range added).map fun step => pathTable after.phys root page (3 - step) / pageSize) =
      before.pmm
  counted : Counted after.pmm
  words : WordsSet roots root page (fun level => 3 ≤ level + added)
    (fun level =>
      if level = 3 then word else pathTable after.phys root page (level + 1) ||| allocFlags flags)
    before.phys after.phys

theorem Descent.leaf_set (descent : Descent roots held start root page flags frames 3 added table machine)
    (isRoot : root ∈ roots) (bounded : page < 512 ^ 4) {word : Nat} (fits : word < 2 ^ 64) :
    WordsSet roots root page (fun level => 3 ≤ level + added)
      (fun level => if level = 3 then word else frames (level + 1) ||| allocFlags flags) start.phys
      (written machine.phys table (page % 512) word) := by
  intro other otherRoot level key inner small
  rcases leaf_words descent.grown.tables isRoot bounded descent.place fits otherRoot inner small with
    ⟨rfl, way, after⟩ | ⟨off, same⟩
  · exact Or.inl ⟨way, by omega, after⟩
  · rcases descent.words other otherRoot level key inner small with ⟨way, hit, here⟩ | ⟨out, kept⟩
    · refine Or.inl ⟨way, hit.2, ?_⟩
      dsimp only
      rw [if_neg (by omega)]
      exact same.trans here
    · refine Or.inr ⟨?_, same.trans kept⟩
      rintro ⟨way, far⟩
      have last : level ≠ 3 := fun last => off ⟨last, way⟩
      exact out ⟨way, by omega, far⟩

theorem Descent.links (descent : Descent roots held start root page flags frames 3 added table machine)
    (isRoot : root ∈ roots) (bounded : page < 512 ^ 4) {word : Nat} (fits : word < 2 ^ 64) :
    LinksAdded roots page flags start.phys (written machine.phys table (page % 512) word) := by
  intro other otherRoot level key inner small
  rcases descent.leaf_set isRoot bounded fits other otherRoot level key (by omega) small with
    ⟨way, far, here⟩ | ⟨-, same⟩
  · dsimp only at here
    rw [if_neg (Nat.ne_of_lt inner)] at here
    exact Or.inr ⟨way.1, _, descent.framed level inner far, here⟩
  · exact Or.inl same

theorem Descent.write_leaf (descent : Descent roots held start root page flags frames 3 added table machine)
    (isRoot : root ∈ roots) (bounded : page < 512 ^ 4) {word : Nat} (fits : word < 2 ^ 64)
    (counted : Counted start.pmm) :
    Entered roots root page flags word added start
      { machine with phys := written machine.phys table (page % 512) word } := by
  obtain ⟨countedNow, restored⟩ := descent.restored counted
  have set := descent.leaf_set isRoot bounded fits
  have framed : ∀ level < 3, 3 ≤ level + added →
      pathTable (written machine.phys table (page % 512) word) root page (level + 1) =
        frames (level + 1) := by
    intro level below far
    rcases set root isRoot level _ (by omega) (page_key_lt bounded (by omega)) with
      ⟨-, -, here⟩ | ⟨out, -⟩
    · rw [pathTable, show 4 - (level + 1) = 3 - level by omega, table_at_word, here]
      dsimp only
      rw [if_neg (by omega), descent.framed level below far, Option.getD_some]
    · exact absurd ⟨⟨rfl, Or.inl rfl⟩, far⟩ out
  refine ⟨descent.few, descent.missing, ?_, ?_, countedNow, ?_⟩
  · intro level below far
    rw [framed level below far]
    exact descent.framed level below far
  · have same : (List.range added).map (fun step =>
          pathTable (written machine.phys table (page % 512) word) root page (3 - step) / pageSize) =
        (List.range added).map fun step => frames (3 - step) / pageSize := by
      apply List.map_congr_left
      intro step inside
      have less := List.mem_range.mp inside
      have few := descent.few
      have here := framed (2 - step) (by omega) (by omega)
      rw [show 2 - step + 1 = 3 - step by omega] at here
      rw [here]
    change returnAll machine.pmm _ = _
    rw [same]
    exact restored
  · intro other otherRoot level key inner small
    refine (set other otherRoot level key inner small).imp_left fun ⟨way, far, here⟩ => ⟨way, far, ?_⟩
    rw [here]
    by_cases last : level = 3
    · simp only [if_pos last]
    · simp only [if_neg last]
      rw [framed level (by omega) far]

theorem missing_tables_eq {phys : Memory} (few : added ≤ 3)
    (missing : ∀ level < 3, tableAt phys root (level + 1) (page / 512 ^ (3 - level)) = none ↔
      3 ≤ level + added) : missingTables phys root page = added := by
  have third := missing 2 (by decide)
  rw [show 3 - 2 = 1 by decide, pow_one] at third
  simp only [missingTables, show _ = none ↔ _ from missing 0 (by decide),
    show _ = none ↔ _ from missing 1 (by decide), show _ = none ↔ _ from third]
  split_ifs <;> omega

theorem Descent.top_kept (descent : Descent roots held start root page flags frames depth added table machine)
    (bounded : page < 512 ^ 4)
    (kept : ¬UpperHalf page ∨ child start.phys root (page / 512 ^ 3) ≠ none) (upper : UpperHalf page) :
    ¬(0 < depth ∧ depth ≤ 0 + added) := by
  rintro ⟨below, far⟩
  have absent := (descent.missing 0 below).mpr far
  rw [table_at_one, Nat.sub_zero, top_digit bounded] at absent
  exact kept.elim (fun lower => lower upper) fun present => present absent

theorem Descent.mapped (descent : Descent roots held start root page flags frames 3 added table machine)
    (before : Tables roots held start.pmm start.phys) (isRoot : root ∈ roots)
    (bounded : page < 512 ^ 4) {word : Nat} (fits : word < 2 ^ 64) :
    Mapped roots held root page word start
        { machine with phys := written machine.phys table (page % 512) word } ∧
      TablesAdded roots root page start.phys (written machine.phys table (page % 512) word) := by
  have grown := descent.grown
  have tables := grown.tables
  have slot := slot_of_place isRoot bounded (show 3 < 4 by decide) descent.place
  rw [Nat.sub_self, pow_zero, Nat.div_one] at slot
  have set := descent.leaf_set isRoot bounded fits
  have few := descent.few
  refine ⟨⟨⟨slot.write_leaf tables fits, ?_, grown.free, ?_, ?_⟩, descent.locked, ?_, ?_⟩, ?_⟩
  · intro address owned
    change written machine.phys table (page % 512) word address = _
    rw [written_apply_other (tables.frames table slot.isTable).aligned slot.small,
      grown.bytes address owned]
    intro same
    rw [same] at owned
    exact tables.apart table owned slot.isTable
  · exact grown.budget.trans (Nat.add_le_add_left few _)
  · exact grown.elsewhere.trans ⟨rfl, rfl, rfl, rfl⟩
  · exact set.leaf (Nat.le_add_right 3 added)
  · exact fun kept => set.upper fun upper far => descent.top_kept bounded kept upper ⟨by decide, far⟩
  · exact set.added before isRoot bounded fun level below far => (descent.missing level below).mpr far

theorem Stranded.walked {after : Machine} (stranded : Stranded roots held start root page flags after)
    (before : Tables roots held start.pmm start.phys) (isRoot : root ∈ roots) (bounded : page < 512 ^ 4) :
    (freeSet start.pmm).card < missingTables start.phys root page ∧ after.locked = start.locked ∧
      TablesAdded roots root page start.phys after.phys ∧ Walked roots held start root page 3 after := by
  obtain ⟨depth, upper, frames, added, table, machine, descent, absent, empty, rfl⟩ := stranded
  have few := descent.few
  have cost := descent.cost
  have missing := descent.missing
  rw [table_at_word, descent.next_word isRoot bounded (by omega), ← table_at_word] at absent
  rw [empty, Finset.card_empty] at cost
  refine ⟨?_, descent.locked, ?_, ⟨?_, ?_, ?_⟩⟩
  · -- the tables of the way that are new were missing, and so is the one the walk stands before
    obtain rfl | rfl | rfl : depth = 0 ∨ depth = 1 ∨ depth = 2 := by omega
    · rw [missingTables, if_pos absent]
      omega
    · rw [missingTables, if_pos (show tableAt start.phys root 2 _ = none from absent)]
      simp only [show _ = none ↔ _ from missing 0 (by decide)]
      split_ifs <;> omega
    · rw [show 3 - 2 = 1 by decide, pow_one] at absent
      rw [missingTables, if_pos (show tableAt start.phys root 3 _ = none from absent)]
      simp only [show _ = none ↔ _ from missing 0 (by decide),
        show _ = none ↔ _ from missing 1 (by decide)]
      split_ifs <;> omega
  · exact descent.words.added before isRoot bounded fun level _ hit => (missing level hit.1).mpr hit.2
  · exact (descent.grown.mono (by omega)).of_same_right (same_memory_interrupts _ _)
  · exact descent.words.leaves fun hit => by omega
  · exact fun kept => descent.words.upper (descent.top_kept bounded kept)

/-- `vmm_map_page` walks down to the page and writes its leaf entry, or it strands on the way. -/
theorem ends_vmmMapPage_descends {virt frame : Nat}
    (tables : Tables roots held machine.pmm machine.phys) (isRoot : root ∈ roots)
    (unlockedPmm : machine.locked .pmm = false) (unlockedVmm : machine.locked .vmm = false)
    (ready : TopReady roots root (pageOf virt) machine.phys)
    (start : Machine) (entered : start = { machine with
      locked := Function.update machine.locked .vmm true }) :
    Ends (vmmMapPage root virt frame flags)
      (fun mapped after => mapped = true ∧ ∃ frames added table third,
        Descent roots held start root (pageOf virt) flags frames 3 added table third ∧
          after = { third with
            phys := written third.phys table (pageOf virt % 512) (pageFloor frame ||| flags ||| ptePresent)
            locked := Function.update third.locked .vmm false })
      (fun stop after => stop = .panic "out of memory in pmm_allocate!" ∧
        Stranded roots held start root (pageOf virt) flags after) machine := by
  have rootFrame := tables.frames root (isTable_of_root isRoot)
  have bounded := page_of_lt virt
  obtain ⟨pml4, pdpt, pd, pt⟩ := page_of_levels (pageFloor virt)
  rw [page_of_floor] at pml4 pdpt pd pt
  have unlocked : start.locked .pmm = false := by
    rw [entered]
    simpa using unlockedPmm
  have atPml4 : Descent roots held start root (pageOf virt) flags id 0 0 root start :=
    descent_start (by rwa [entered])
  have readyThere : TopReady roots root (pageOf virt) start.phys := by rwa [entered]
  simp only [vmmMapPage, ends_bind, ends_spinLock, unlockedVmm, Bool.false_eq_true, if_false,
    if_neg rootFrame.nonzero, ← entered]
  rw [pml4]
  apply ends_mono (atPml4.next isRoot bounded (by decide) unlocked readyThere) _ fun _ _ => id
  rintro _ first ⟨pdptTable, _, _, rfl, atPdpt⟩
  simp only [ends_bind, pdpt]
  apply ends_mono (atPdpt.next isRoot bounded (by decide) unlocked readyThere) _ fun _ _ => id
  rintro _ second ⟨pdTable, _, _, rfl, atPd⟩
  simp only [ends_bind, pd]
  apply ends_mono (atPd.next isRoot bounded (by decide) unlocked readyThere) _ fun _ _ => id
  rintro _ third ⟨ptTable, added, _, rfl, atPt⟩
  simp only [ends_bind, ends_writeEntry, ends_spinUnlock, ends_pure, pt]
  exact ⟨trivial, _, added, ptTable, third, atPt, rfl⟩

theorem leaf_entry_lt {frame : Nat} (frameSmall : frame < 2 ^ 64) (flagsSmall : flags < 2 ^ 64) :
    pageFloor frame ||| flags ||| ptePresent < 2 ^ 64 := by
  apply Nat.or_lt_two_pow _ (by decide)
  exact Nat.or_lt_two_pow (Nat.lt_of_le_of_lt (page_floor_le frame) frameSmall) flagsSmall

section

variable (tables : Tables roots held machine.pmm machine.phys) (isRoot : root ∈ roots)

include tables isRoot

theorem ends_vmmMapPage_words {virt frame : Nat} (counted : Counted machine.pmm)
    (unlockedPmm : machine.locked .pmm = false) (unlockedVmm : machine.locked .vmm = false)
    (ready : TopReady roots root (pageOf virt) machine.phys) (frameSmall : frame < 2 ^ 64)
    (flagsSmall : flags < 2 ^ 64) :
    Ends (vmmMapPage root virt frame flags)
      (fun mapped after => mapped = true ∧ ∃ added, Entered roots root (pageOf virt) flags
        (pageFloor frame ||| flags ||| ptePresent) added machine after)
      (fun _ _ => True) machine := by
  apply ends_mono (ends_vmmMapPage_descends tables isRoot unlockedPmm unlockedVmm ready _ rfl) _
    fun _ _ _ => trivial
  rintro _ _ ⟨done, frames, added, table, third, descent, rfl⟩
  have entered := descent.write_leaf isRoot (page_of_lt virt) (leaf_entry_lt frameSmall flagsSmall) counted
  exact ⟨done, added, entered.few, entered.missing, entered.linked, entered.restored, entered.counted,
    entered.words⟩

variable {virt frame : Nat} (unlockedPmm : machine.locked .pmm = false)
  (unlockedVmm : machine.locked .vmm = false)
  (ready : TopReady roots root (pageOf virt) machine.phys) (frameSmall : frame < 2 ^ 64)
  (flagsSmall : flags < 2 ^ 64)

include unlockedPmm unlockedVmm ready frameSmall flagsSmall

/-- `vmm_map_page` adds the tables that are missing and writes the leaf entry. If there are
fewer free frames than missing tables it panics with its latch held and nothing mapped. -/
theorem ends_vmmMapPage_walks :
    Ends (vmmMapPage root virt frame flags)
      (fun mapped after => mapped = true ∧
        Mapped roots held root (pageOf virt) (pageFloor frame ||| flags ||| ptePresent) machine after ∧
        TablesAdded roots root (pageOf virt) machine.phys after.phys ∧
        (freeSet after.pmm).card + missingTables machine.phys root (pageOf virt) =
          (freeSet machine.pmm).card ∧
        LinksAdded roots (pageOf virt) flags machine.phys after.phys)
      (fun stop after => stop = .panic "out of memory in pmm_allocate!" ∧
        (freeSet machine.pmm).card < missingTables machine.phys root (pageOf virt) ∧
        after.locked = Function.update machine.locked .vmm true ∧
        TablesAdded roots root (pageOf virt) machine.phys after.phys ∧
        Walked roots held machine root (pageOf virt) 3 after) machine := by
  have bounded := page_of_lt virt
  have same : SameMemory machine { machine with locked := Function.update machine.locked .vmm true } :=
    same_memory_locked _ _
  apply ends_mono (ends_vmmMapPage_descends tables isRoot unlockedPmm unlockedVmm ready _ rfl)
  · rintro _ _ ⟨done, frames, added, table, third, descent, rfl⟩
    obtain ⟨mapped, walks⟩ := descent.mapped tables isRoot bounded (leaf_entry_lt frameSmall flagsSmall)
    refine ⟨done, ⟨mapped.grown.of_same same (same_memory_locked _ _), ?_, mapped.leaf, mapped.upper⟩,
      walks, ?_, descent.links isRoot bounded (leaf_entry_lt frameSmall flagsSmall)⟩
    · change Function.update third.locked .vmm false = machine.locked
      rw [descent.locked]
      exact relock_unlocked unlockedVmm
    · rw [show missingTables machine.phys root _ = added from
        missing_tables_eq descent.few descent.missing]
      exact descent.cost
  · rintro stop after ⟨message, stranded⟩
    obtain ⟨short, locked, walks, walked⟩ := stranded.walked tables isRoot bounded
    exact ⟨message, short, locked, walks, walked.grown.of_same same (SameMemory.refl after),
      walked.leaves, walked.upper⟩

theorem ends_vmmMapPage :
    Ends (vmmMapPage root virt frame flags)
      (fun mapped after => mapped = true ∧
        Mapped roots held root (pageOf virt) (pageFloor frame ||| flags ||| ptePresent) machine after)
      (fun stop after => stop = .panic "out of memory in pmm_allocate!" ∧
        (freeSet machine.pmm).card < 3 ∧
        Walked roots held machine root (pageOf virt) 3 after) machine := by
  have few := missing_tables_le machine.phys root (pageOf virt)
  apply ends_mono (ends_vmmMapPage_walks tables isRoot unlockedPmm unlockedVmm ready frameSmall
    flagsSmall)
  · exact fun _ _ done => ⟨done.1, done.2.1⟩
  · exact fun _ _ out => ⟨out.1, Nat.lt_of_lt_of_le out.2.1 few, out.2.2.2.2⟩

end

end Descending

/-! ## Up from a page -/

/-- All other words in the table of a place are zero. -/
def Alone (phys : Memory) (root level key : Nat) : Prop :=
  ∀ digit < 512, digit ≠ key % 512 → wordAt phys root level (key / 512 * 512 + digit) = 0

section Ascending

variable {roots held : Set Nat} {start machine : Machine} {root page dropped : Nat}

/-- Frames may have been given back; no held byte has changed. -/
structure Pruned (roots held : Set Nat) (before after : Machine) : Prop where
  tables : Tables roots held after.pmm after.phys
  bytes : ∀ address, pageFloor address ∈ held → after.phys address = before.phys address
  free : freeSet before.pmm ⊆ freeSet after.pmm
  elsewhere : Elsewhere before after
  locked : after.locked = before.locked

theorem free_unlinked {target depth first digit table : Nat} (pruned : Pruned roots held start machine)
    (slot : Slot roots machine.phys root target depth first digit) (upper : depth < 3)
    (lower : 0 < depth ∨ digit < 256) (found : child machine.phys target digit = some table)
    (blank : BlankTable machine.phys table) (unlocked : start.locked .pmm = false) :
    ∃ after, pmmFree table { machine with phys := written machine.phys target digit 0 } =
        .ok ⟨⟩ after ∧ Pruned roots held start after ∧
      after.pmm = returnedPmm machine.pmm (table / pageSize) ∧
      after.phys = written machine.phys target digit 0 := by
  have tables := pruned.tables
  have isTable : IsTable roots machine.phys table := by
    apply isTable_of_place slot.isRoot (Nat.succ_lt_succ upper) (digit_lt slot.bounded slot.small)
    rw [slot.walk_before tables slot.isRoot (Or.inl rfl), found]
  have frame := tables.frames table isTable
  have unlockedNow : machine.locked .pmm = false := by
    rw [pruned.locked]
    exact unlocked
  let cut : Machine := { machine with phys := written machine.phys target digit 0 }
  have freed : pmmFree table cut = .ok ⟨⟩ (returnPage cut (table / pageSize)) :=
    Frame.pmm_free frame unlockedNow
  have released : Tables roots (insert table held \ {table}) (returnPage cut (table / pageSize)).pmm
      (returnPage cut (table / pageSize)).phys := by
    apply Tables.release _ (Set.mem_insert _ _)
    exact slot.unlink tables upper (fun top high => by omega) found blank
  have freeNow : freeSet (returnPage cut (table / pageSize)).pmm =
      insert (table / pageSize) (freeSet machine.pmm) := freeSet_returnPage frame.tracked
  refine ⟨_, freed, ⟨released.mono ?_, ?_, ?_, pruned.elsewhere.trans ⟨rfl, rfl, rfl, rfl⟩,
    pruned.locked⟩, rfl, rfl⟩
  · intro address owned
    refine ⟨Or.inr owned, ?_⟩
    rintro rfl
    exact tables.apart _ owned isTable
  · intro address owned
    refine (written_apply_other (tables.frames target slot.isTable).aligned slot.small ?_).trans
      (pruned.bytes address owned)
    intro same
    rw [same] at owned
    exact tables.apart target owned slot.isTable
  · rw [freeNow]
    exact pruned.free.trans (Finset.subset_insert _ _)

/-- The leaf entry of `page` is cleared and the `dropped` lowest tables on the way to it, each of
which held nothing else, have been given back. -/
structure Ascent (roots held : Set Nat) (start : Machine) (root page dropped : Nat)
    (machine : Machine) : Prop where
  pruned : Pruned roots held start machine
  few : dropped ≤ 3
  shared : UpperHalf page → dropped < 3
  alone : ∀ level ≤ 3, 3 < level + dropped → Alone start.phys root level (page / 512 ^ (3 - level))
  pmm : machine.pmm = returnAll start.pmm
    ((List.range dropped).map fun step => pathTable start.phys root page (3 - step) / pageSize)
  words : WordsSet roots root page (fun level => 3 ≤ level + dropped) (fun _ => 0) start.phys
    machine.phys

theorem ascent_start {table : Nat} (tables : Tables roots held start.pmm start.phys)
    (isRoot : root ∈ roots) (bounded : page < 512 ^ 4)
    (place : tableAt start.phys root 3 (page / 512 ^ (4 - 3)) = some table) :
    Ascent roots held start root page 0
      { start with phys := written start.phys table (page % 512) 0 } := by
  have slot := slot_of_place isRoot bounded (show 3 < 4 by decide) place
  rw [Nat.sub_self, pow_zero, Nat.div_one] at slot
  refine ⟨⟨slot.write_leaf tables (by decide), ?_, Finset.Subset.refl _, ⟨rfl, rfl, rfl, rfl⟩, rfl⟩,
    Nat.zero_le _, fun _ => by decide, fun level shallow far => by omega, rfl, ?_⟩
  · intro address owned
    apply written_apply_other (tables.frames table slot.isTable).aligned slot.small
    intro same
    rw [same] at owned
    exact tables.apart table owned slot.isTable
  · intro other otherRoot level key inner small
    rcases leaf_words tables isRoot bounded place (show 0 < 2 ^ 64 by decide) otherRoot inner small with
      ⟨rfl, way, zero⟩ | ⟨off, same⟩
    · exact Or.inl ⟨way, by decide, zero⟩
    · exact Or.inr ⟨fun hit => off ⟨by omega, hit.1⟩, same⟩

section

variable (ascent : Ascent roots held start root page dropped machine) (isRoot : root ∈ roots)
  (bounded : page < 512 ^ 4)

include ascent isRoot bounded

theorem Ascent.table {level : Nat} (above : level + dropped < 3) :
    tableAt machine.phys root (level + 1) (page / 512 ^ (3 - level)) =
      tableAt start.phys root (level + 1) (page / 512 ^ (3 - level)) := by
  have inner : level < 4 := by omega
  rcases ascent.words root isRoot level _ inner (page_key_lt bounded inner) with ⟨-, far, -⟩ | ⟨-, same⟩
  · omega
  · rw [table_at_word, same, ← table_at_word]

theorem Ascent.blank_iff_alone (few : dropped < 3) {table : Nat}
    (place : tableAt machine.phys root (3 - dropped) (page / 512 ^ (4 - (3 - dropped))) = some table) :
    BlankTable machine.phys table ↔
      Alone start.phys root (3 - dropped) (page / 512 ^ (3 - (3 - dropped))) := by
  have inner : 3 - dropped < 4 := by omega
  have digits := @page_digit page (3 - dropped) inner
  have quotient : page / 512 ^ (3 - (3 - dropped)) / 512 = page / 512 ^ (4 - (3 - dropped)) := by
    rw [Nat.div_div_eq_div_mul, ← pow_succ, show 3 - (3 - dropped) + 1 = 4 - (3 - dropped) by omega]
  have prefixed := page_prefix_lt bounded (Nat.le_of_lt inner)
  rw [blank_iff place, Alone, quotient]
  constructor
  · intro zero digit small other
    rcases ascent.words root isRoot (3 - dropped) _ inner (digit_lt prefixed small) with
      ⟨way, -⟩ | ⟨-, same⟩
    · exact absurd ((key_eq_iff small).mp way.1.symm).2.symm other
    · rw [← same]
      exact zero digit small
  · intro zero digit small
    rcases ascent.words root isRoot (3 - dropped) _ inner (digit_lt prefixed small) with
      ⟨-, -, cleared⟩ | ⟨off, same⟩
    · exact cleared
    · rw [same]
      apply zero digit small
      intro here
      apply off
      refine ⟨⟨?_, Or.inl rfl⟩, by omega⟩
      rw [← digits, here]

theorem Ascent.next (few : dropped < 3) (lower : 0 < 2 - dropped ∨ page / 512 ^ 3 < 256)
    (unlocked : start.locked .pmm = false) {target table : Nat}
    (place : tableAt machine.phys root (2 - dropped) (page / 512 ^ (4 - (2 - dropped))) = some target)
    (below : tableAt machine.phys root (3 - dropped) (page / 512 ^ (4 - (3 - dropped))) = some table)
    (blank : BlankTable machine.phys table) :
    ∃ after, pmmFree table
        { machine with phys := written machine.phys target (page / 512 ^ (3 - (2 - dropped)) % 512) 0 } =
        .ok ⟨⟩ after ∧ Ascent roots held start root page (dropped + 1) after := by
  have alone := (ascent.blank_iff_alone isRoot bounded few below).mp blank
  have slot := slot_of_place isRoot bounded (show 2 - dropped < 4 by omega) place
  have deeper : 3 - dropped = 2 - dropped + 1 := by omega
  rw [deeper] at below
  have found := child_of_places ascent.pruned.tables isRoot bounded (show 2 - dropped < 4 by omega) place
    below
  have digit : 0 < 2 - dropped ∨ page / 512 ^ (3 - (2 - dropped)) % 512 < 256 := by
    by_cases top : 2 - dropped = 0
    · rw [top] at lower ⊢
      exact lower.imp_right fun small => Nat.lt_of_le_of_lt (Nat.mod_le _ _) small
    · exact Or.inl (Nat.pos_of_ne_zero top)
  obtain ⟨after, freed, pruned, pmm, phys⟩ := free_unlinked ascent.pruned slot (by omega) digit found
    blank unlocked
  have tableEq : pathTable start.phys root page (3 - dropped) = table := by
    have same := ascent.table isRoot bounded (show 2 - dropped + dropped < 3 by omega)
    rw [show 3 - (2 - dropped) = 4 - (2 - dropped + 1) by omega, below] at same
    rw [pathTable, deeper, ← same]
    rfl
  refine ⟨after, freed, pruned, by omega, ?_, ?_, ?_, ?_⟩
  · unfold UpperHalf
    omega
  · intro level shallow far
    by_cases last : level = 3 - dropped
    · rw [last]
      exact alone
    · exact ascent.alone level shallow (by omega)
  · rw [pmm, ascent.pmm, List.range_succ, List.map_append, returnAll, returnAll, List.foldl_append,
      List.map_singleton, List.foldl_cons, List.foldl_nil, tableEq]
  · have hung := blank_hung_zero held (2 - dropped) found blank
    have unshared : Unshared roots root (2 - dropped) (page / 512 ^ (3 - (2 - dropped)) % 512) :=
      fun top high => by omega
    have digits := @page_digit page (2 - dropped) (by omega)
    intro other otherRoot level key inner small
    rw [phys]
    rcases word_written slot ascent.pruned.tables (by decide) unshared hung otherRoot inner small with
      ⟨rfl, here, sees, cleared⟩ | ⟨off, same⟩
    · exact Or.inl ⟨⟨here.trans digits, sees⟩, by omega, cleared⟩
    · rw [same]
      rcases ascent.words other otherRoot level key inner small with ⟨way, far, zero⟩ | ⟨out, kept⟩
      · exact Or.inl ⟨way, by omega, zero⟩
      · refine Or.inr ⟨?_, kept⟩
        rintro ⟨way, far⟩
        by_cases last : level = 2 - dropped
        · subst last
          exact off ⟨rfl, way.1.trans digits.symm, way.2⟩
        · exact out ⟨way, by omega⟩

end

/-- What `vmm_unmap_page` does to the words of all pagemaps and to the allocator where the page
is mapped: as many tables as hold nothing else are given back, from the page table up. -/
structure Removed (roots : Set Nat) (root page dropped : Nat) (before after : Machine) : Prop where
  few : dropped ≤ 3
  alone : ∀ level ≤ 3, 3 < level + dropped →
    Alone before.phys root level (page / 512 ^ (3 - level))
  crowded : dropped = 3 ∨ UpperHalf page ∨
    ¬Alone before.phys root (3 - dropped) (page / 512 ^ (3 - (3 - dropped)))
  pmm : after.pmm = returnAll before.pmm
    ((List.range dropped).map fun step => pathTable before.phys root page (3 - step) / pageSize)
  words : WordsSet roots root page (fun level => 3 ≤ level + dropped) (fun _ => 0) before.phys
    after.phys

theorem Ascent.unmapped (ascent : Ascent roots held start root page dropped machine)
    (present : leafWord start.phys root page &&& ptePresent ≠ 0)
    (crowded : dropped = 3 ∨ UpperHalf page ∨
      ¬Alone start.phys root (3 - dropped) (page / 512 ^ (3 - (3 - dropped)))) :
    Removed roots root page dropped start machine ∧ Unmapped roots held root page start machine := by
  have pruned := ascent.pruned
  refine ⟨⟨ascent.few, ascent.alone, crowded, ascent.pmm, ascent.words⟩, pruned.tables, pruned.bytes,
    pruned.free, ?_, ascent.words.upper fun upper far => ?_, pruned.elsewhere, pruned.locked⟩
  · rw [clearedWord, if_neg present]
    exact ascent.words.leaf (Nat.le_add_right 3 dropped)
  · have less := ascent.shared upper
    omega

/-- The pruning code goes up as long as it finds an empty table. -/
theorem ends_pruneTables_ascends {virt pdpt pd pt pdptEntry pdEntry ptEntry : Nat}
    (ascent : Ascent roots held start root (pageOf virt) 0 machine) (isRoot : root ∈ roots)
    (path : Path start.phys root (pageOf virt) pdpt pd pt)
    (pdptAddr : pteGetAddr pdptEntry = pdpt) (pdAddr : pteGetAddr pdEntry = pd)
    (ptAddr : pteGetAddr ptEntry = pt) (unlocked : start.locked .pmm = false) :
    Ends (pruneTables virt root pdpt pd pt pdptEntry pdEntry ptEntry)
      (fun _ after => ∃ dropped, Ascent roots held start root (pageOf virt) dropped after ∧
        (dropped = 3 ∨ UpperHalf (pageOf virt) ∨
          ¬Alone start.phys root (3 - dropped) (pageOf virt / 512 ^ (3 - (3 - dropped)))))
      (fun _ _ => False) machine := by
  have levels := page_of_levels virt
  have bounded := page_of_lt virt
  have atPd := (ascent.table isRoot bounded (show 1 + 0 < 3 by decide)).trans path.atPd
  have atPt := (ascent.table isRoot bounded (show 2 + 0 < 3 by decide)).trans path.atPt
  simp only [pruneTables, ends_bind, ends_get, ends_ite, levels.1, levels.2.1, levels.2.2.1, pdptAddr,
    pdAddr, ptAddr, ends_pure, ends_writeEntry]
  by_cases ptEmpty : vmmIsTableEmpty machine.phys pt = true
  · obtain ⟨first, freedPt, upPt⟩ := ascent.next isRoot bounded (by decide) (Or.inl (by decide)) unlocked
      atPd atPt ((is_table_empty_iff _ _).mp ptEmpty)
    have atPdpt := (upPt.table isRoot bounded (show 0 + 1 < 3 by decide)).trans path.atPdpt
    have atPd' := (upPt.table isRoot bounded (show 1 + 1 < 3 by decide)).trans path.atPd
    rw [if_pos ptEmpty, ends_of_ok freedPt]
    simp only [ends_bind, ends_get, ends_ite, ends_pure, ends_writeEntry]
    by_cases pdEmpty : vmmIsTableEmpty first.phys pd = true
    · obtain ⟨second, freedPd, upPd⟩ := upPt.next isRoot bounded (by decide) (Or.inl (by decide)) unlocked
        atPdpt atPd' ((is_table_empty_iff _ _).mp pdEmpty)
      have atPdpt' := (upPd.table isRoot bounded (show 0 + 2 < 3 by decide)).trans path.atPdpt
      rw [if_pos pdEmpty, ends_of_ok freedPd]
      simp only [ends_bind, ends_get, ends_ite, ends_pure, ends_writeEntry]
      by_cases pdptEmpty : vmmIsTableEmpty second.phys pdpt = true
      · rw [if_pos pdptEmpty]
        by_cases shared : pageOf virt / 512 ^ (3 - 0) % 512 ≥ 256
        · rw [if_pos shared]
          refine ⟨2, upPd, Or.inr (Or.inl ?_)⟩
          rw [Nat.sub_zero, top_digit bounded] at shared
          unfold UpperHalf
          omega
        · rw [Nat.sub_zero, top_digit bounded] at shared
          obtain ⟨third, freedPdpt, upPdpt⟩ := upPd.next isRoot bounded (by decide)
            (Or.inr (Nat.lt_of_not_ge shared)) unlocked (walk_zero _ _ _ _) atPdpt'
            ((is_table_empty_iff _ _).mp pdptEmpty)
          rw [if_neg (by rwa [Nat.sub_zero, top_digit bounded]), ends_of_ok freedPdpt]
          exact ⟨3, upPdpt, Or.inl rfl⟩
      · rw [if_neg pdptEmpty]
        refine ⟨2, upPd, Or.inr (Or.inr ?_)⟩
        rw [← upPd.blank_iff_alone isRoot bounded (by decide) atPdpt', ← is_table_empty_iff]
        exact pdptEmpty
    · rw [if_neg pdEmpty]
      refine ⟨1, upPt, Or.inr (Or.inr ?_)⟩
      rw [← upPt.blank_iff_alone isRoot bounded (by decide) atPd', ← is_table_empty_iff]
      exact pdEmpty
  · rw [if_neg ptEmpty]
    refine ⟨0, ascent, Or.inr (Or.inr ?_)⟩
    rw [← ascent.blank_iff_alone isRoot bounded (by decide) atPt, ← is_table_empty_iff]
    exact ptEmpty

section

variable (tables : Tables roots held machine.pmm machine.phys) (isRoot : root ∈ roots)

include tables isRoot

/-- `vmm_unmap_page` returns at once if the page is not mapped; otherwise it clears the leaf entry
of an aligned address and gives back the tables that are empty now. It always returns. -/
theorem ends_vmmUnmapPage_removes {virt : Nat} (unlockedPmm : machine.locked .pmm = false)
    (unlockedVmm : machine.locked .vmm = false) (aligned : virt % pageSize = 0) :
    Ends (vmmUnmapPage root virt)
      (fun done after => done = true ∧
        ((leafWord machine.phys root (pageOf virt) &&& ptePresent = 0 ∧ after = machine) ∨
          (leafWord machine.phys root (pageOf virt) &&& ptePresent ≠ 0 ∧
            Unmapped roots held root (pageOf virt) machine after ∧
            ∃ dropped, Removed roots root (pageOf virt) dropped machine after)))
      (fun _ _ => False) machine := by
  have bounded := page_of_lt virt
  have index := (page_of_levels virt).2.2.2
  have absent : tableAt machine.phys root 3 (pageOf virt / 512) = none →
      leafWord machine.phys root (pageOf virt) &&& ptePresent = 0 := by
    intro missing
    rw [leafWord, missing, tableWord, Nat.zero_and]
  rw [table_at_pt] at absent
  simp only [vmmUnmapPage, ends_bind, ends_require, if_pos aligned, ends_next_level_read]
  cases atPml4 : child machine.phys root (pml4Index virt) with
  | none =>
    rw [ends_pure]
    exact ⟨rfl, Or.inl ⟨absent (by rw [atPml4, Option.bind_none]), rfl⟩⟩
  | some pdpt =>
    simp only [ends_bind, ends_next_level_read, ends_readEntry]
    cases atPdpt : child machine.phys pdpt (pdptIndex virt) with
    | none =>
      rw [ends_pure]
      exact ⟨rfl, Or.inl ⟨absent (by rw [atPml4, Option.bind_some, atPdpt, Option.bind_none]), rfl⟩⟩
    | some pd =>
      simp only [ends_bind, ends_next_level_read, ends_readEntry]
      cases atPd : child machine.phys pd (pdIndex virt) with
      | none =>
        rw [ends_pure]
        exact ⟨rfl, Or.inl ⟨absent (by
          rw [atPml4, Option.bind_some, atPdpt, Option.bind_some, atPd]), rfl⟩⟩
      | some pt =>
        have path := path_of_children atPml4 atPdpt atPd
        have word := path.leaf_word
        simp only [ends_bind, ends_readEntry, ends_ite, index, ends_pure, ends_spinLock,
          unlockedVmm, Bool.false_eq_true, if_false, ends_writeEntry]
        by_cases present : entryAt machine.phys pt (pageOf virt % 512) &&& ptePresent = 0
        · rw [if_pos present]
          rw [← word] at present
          exact ⟨trivial, Or.inl ⟨present, trivial⟩⟩
        · rw [if_neg present]
          rw [← word] at present
          let start : Machine :=
            { machine with locked := Function.update machine.locked .vmm true }
          have unlocked : start.locked .pmm = false := by
            simpa [start] using unlockedPmm
          have ascent : Ascent roots held start root (pageOf virt) 0
              { start with phys := written machine.phys pt (pageOf virt % 512) 0 } :=
            ascent_start tables isRoot bounded path.atPt
          apply ends_mono (ends_pruneTables_ascends ascent isRoot path (decode_some atPml4)
            (decode_some atPdpt) (decode_some atPd) unlocked) _ fun _ _ => id
          rintro _ after ⟨dropped, up, crowded⟩
          obtain ⟨removed, unmapped⟩ := up.unmapped present crowded
          rw [ends_bind, ends_spinUnlock, ends_pure]
          refine ⟨rfl, Or.inr ⟨present, ⟨unmapped.tables, unmapped.bytes, unmapped.free,
            unmapped.leaf, unmapped.upper, ?_, ?_⟩, dropped, removed.few, removed.alone,
            removed.crowded, removed.pmm, removed.words⟩⟩
          · have elsewhere := unmapped.elsewhere
            exact ⟨elsewhere.heap, elsewhere.hhdm, elsewhere.kernelPagemap,
              elsewhere.highestPage⟩
          · change Function.update after.locked .vmm false = machine.locked
            rw [unmapped.locked]
            exact relock_unlocked unlockedVmm

theorem ends_vmmUnmapPage_words {virt : Nat} (unlockedPmm : machine.locked .pmm = false)
    (unlockedVmm : machine.locked .vmm = false) (aligned : virt % pageSize = 0) :
    Ends (vmmUnmapPage root virt)
      (fun _ after =>
        (leafWord machine.phys root (pageOf virt) &&& ptePresent = 0 ∧ after = machine) ∨
          (leafWord machine.phys root (pageOf virt) &&& ptePresent ≠ 0 ∧
            ∃ dropped, Removed roots root (pageOf virt) dropped machine after))
      (fun _ _ => False) machine :=
  ends_mono (ends_vmmUnmapPage_removes tables isRoot unlockedPmm unlockedVmm aligned)
    (fun _ _ done => done.2.imp_right fun there => ⟨there.1, there.2.2⟩) fun _ _ => id

theorem unmapped_refl (absent : leafWord machine.phys root page &&& ptePresent = 0) :
    Unmapped roots held root page machine machine := by
  refine ⟨tables, fun _ _ => rfl, Finset.Subset.refl _, ?_, fun _ _ _ _ _ => rfl, Elsewhere.refl _, rfl⟩
  intro other otherRoot index bounded
  rw [clearedWord, if_pos absent]
  split
  · next hit =>
      obtain ⟨rfl, rfl | upper⟩ := hit
      · rfl
      · exact leaf_shared tables isRoot otherRoot bounded upper
  · rfl

/-- `vmm_unmap_page` clears the leaf entry of an aligned address, takes off tables that are
empty now, and always returns. -/
theorem ends_vmmUnmapPage_walks {virt : Nat} (unlockedPmm : machine.locked .pmm = false)
    (unlockedVmm : machine.locked .vmm = false) (aligned : virt % pageSize = 0) :
    Ends (vmmUnmapPage root virt)
      (fun done after => done = true ∧ Unmapped roots held root (pageOf virt) machine after ∧
        TablesDropped roots root (pageOf virt) machine.phys after.phys)
      (fun _ _ => False) machine := by
  apply ends_mono (ends_vmmUnmapPage_removes tables isRoot unlockedPmm unlockedVmm aligned) _
    fun _ _ => id
  rintro _ after ⟨done, ⟨absent, rfl⟩ | ⟨-, unmapped, dropped, removed⟩⟩
  · exact ⟨done, unmapped_refl tables isRoot absent, fun _ _ _ _ _ _ => Or.inl rfl⟩
  · exact ⟨done, unmapped, removed.words.dropped⟩

theorem ends_vmmUnmapPage {virt : Nat} (unlockedPmm : machine.locked .pmm = false)
    (unlockedVmm : machine.locked .vmm = false) (aligned : virt % pageSize = 0) :
    Ends (vmmUnmapPage root virt)
      (fun done after => done = true ∧ Unmapped roots held root (pageOf virt) machine after)
      (fun _ _ => False) machine :=
  ends_mono (ends_vmmUnmapPage_walks tables isRoot unlockedPmm unlockedVmm aligned)
    (fun _ _ done => ⟨done.1, done.2.1⟩) fun _ _ => id

end

end Ascending

/-! ## One pagemap -/

section Root

variable {roots : Set Nat} {before after : Machine} {root page flags word added dropped level key : Nat}

theorem Entered.word_at (entered : Entered roots root page flags word added before after)
    (isRoot : root ∈ roots) (inner : level < 4) (bounded : key < 512 ^ (level + 1)) :
    wordAt after.phys root level key =
      if key = page / 512 ^ (3 - level) ∧ 3 ≤ level + added then
        if level = 3 then word else pathTable after.phys root page (level + 1) ||| allocFlags flags
      else wordAt before.phys root level key := by
  rcases entered.words root isRoot level key inner bounded with ⟨way, far, here⟩ | ⟨off, same⟩
  · rw [if_pos ⟨way.1, far⟩]
    exact here
  · rw [if_neg fun hit => off ⟨⟨hit.1, Or.inl rfl⟩, hit.2⟩]
    exact same

theorem Removed.word_at (removed : Removed roots root page dropped before after)
    (isRoot : root ∈ roots) (inner : level < 4) (bounded : key < 512 ^ (level + 1)) :
    wordAt after.phys root level key =
      if key = page / 512 ^ (3 - level) ∧ 3 ≤ level + dropped then 0
      else wordAt before.phys root level key := by
  rcases removed.words root isRoot level key inner bounded with ⟨way, far, here⟩ | ⟨off, same⟩
  · rw [if_pos ⟨way.1, far⟩]
    exact here
  · rw [if_neg fun hit => off ⟨⟨hit.1, Or.inl rfl⟩, hit.2⟩]
    exact same

end Root

end RiriaKernel.PageTableWords
