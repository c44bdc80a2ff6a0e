import RiriaKernel.AddressSpaces

/-!
# Unmapping undoes mapping

The lower half of a pagemap belongs to its process. From `vmm_new_pagemap` on, whatever is mapped
and unmapped there, no table of it is empty: a table is made on the way to a page, and it is given
back with the last page below it. So mapping a page and unmapping it again leaves the pagemap and
the page allocator as they were, and unmapping all pages gives back every table but the PML4.
-/

namespace RiriaKernel.PagemapRoundTrips

open ByteMemory HaltingPrograms KernelState PhysicalAllocator RadixForests PageTables
open PageTableForests PageTableOperations PageTableWords Pagemaps AddressSpaces KernelHeapTables

abbrev LowerPlace (level key : Nat) : Prop := key < 256 * 512 ^ level

theorem lower_place_lt {level key : Nat} (lower : LowerPlace level key) : key < 512 ^ (level + 1) := by
  rw [pow_succ, Nat.mul_comm]
  exact lower.trans_le (Nat.mul_le_mul_right _ (by decide))

theorem lower_place_child {level key digit : Nat} (lower : LowerPlace level key) (small : digit < 512) :
    LowerPlace (level + 1) (key * 512 + digit) := by
  unfold LowerPlace at *
  rw [pow_succ, ← Nat.mul_assoc]
  omega

theorem lower_place_page {page level : Nat} (lower : ¬UpperHalf page) (inner : level < 4) :
    LowerPlace level (page / 512 ^ (3 - level)) := by
  apply Nat.div_lt_of_lt_mul
  have split : 512 ^ 3 = 512 ^ (3 - level) * 512 ^ level := by
    rw [← pow_add, Nat.sub_add_cancel (by omega)]
  unfold UpperHalf at lower
  rw [split] at lower
  calc
    page < 256 * (512 ^ (3 - level) * 512 ^ level) := Nat.lt_of_not_ge lower
    _ = 512 ^ (3 - level) * (256 * 512 ^ level) := Nat.mul_left_comm _ _ _

/-- Lower-half words are zero or present, and none leads to an empty table. -/
structure Tidy (phys : Memory) (root : Nat) : Prop where
  clean : ∀ level key, level < 4 → LowerPlace level key →
    decode (wordAt phys root level key) = none → wordAt phys root level key = 0
  occupied : ∀ level key, level < 3 → LowerPlace level key → wordAt phys root level key ≠ 0 →
    ∃ digit < 512, wordAt phys root (level + 1) (key * 512 + digit) ≠ 0

/-- `root` is one of the pagemaps in memory, and its calls can be made. -/
structure Ready (root : Nat) (roots held : Set Nat) (machine : Machine) : Prop where
  tables : Tables roots held machine.pmm machine.phys
  isRoot : root ∈ roots
  counted : Counted machine.pmm
  unlockedPmm : machine.locked .pmm = false
  unlockedVmm : machine.locked .vmm = false

/-- The life of a pagemap: it is created, pages of its lower half are mapped to any frame with any
flags and unmapped, and in between the rest of the kernel does anything that leaves its lower half
alone and none of the tables free. -/
inductive PagemapRun (root : Nat) : Machine → Set Nat → Set Nat → Prop where
  | create {machine after : Machine} {roots held : Set Nat}
      (tables : Tables roots held machine.pmm machine.phys)
      (isKernel : machine.kernelPagemap ∈ roots) (unlockedPmm : machine.locked .pmm = false)
      (unlockedVmm : machine.locked .vmm = false) (run : vmmNewPagemap machine = .ok root after) :
      PagemapRun root after (insert root roots) held
  | map {machine after : Machine} {roots held : Set Nat} {virt frame flags : Nat} {mapped : Bool}
      (prior : PagemapRun root machine roots held) (lower : pml4Index virt < 256)
      (frameSmall : frame < 2 ^ 64) (flagsSmall : flags < 2 ^ 64)
      (run : vmmMapPage root virt frame flags machine = .ok mapped after) :
      PagemapRun root after roots held
  | unmap {machine after : Machine} {roots held : Set Nat} {virt : Nat} {done : Bool}
      (prior : PagemapRun root machine roots held) (lower : pml4Index virt < 256)
      (run : vmmUnmapPage root virt machine = .ok done after) : PagemapRun root after roots held
  | elsewhere {machine after : Machine} {roots held roots' held' : Set Nat}
      (prior : PagemapRun root machine roots held) (ready : Ready root roots' held' after)
      (kept : ∀ level key, level < 4 → LowerPlace level key →
        wordAt after.phys root level key = wordAt machine.phys root level key) :
      PagemapRun root after roots' held'

/-! ## The words on the way -/

section Words

variable {roots held : Set Nat} {before after : Machine} {root page flags word added dropped : Nat}

theorem decode_ne_zero {entry : Nat} (present : decode entry ≠ none) : entry ≠ 0 := by
  rintro rfl
  exact present decode_zero

theorem way_present {phys : Memory} (mapped : decode (leafWord phys root page) ≠ none) {level : Nat}
    (inner : level < 4) : decode (wordAt phys root level (page / 512 ^ (3 - level))) ≠ none := by
  intro missing
  by_cases last : level = 3
  · rw [last, Nat.sub_self, pow_zero, Nat.div_one] at missing
    exact mapped missing
  · rw [← table_at_word] at missing
    have absent := walk_none_below missing (2 - level) (page / 512) (by
      rw [Nat.div_div_eq_div_mul, ← pow_succ', show 2 - level + 1 = 3 - level by omega])
    rw [show level + 1 + (2 - level) = 3 by omega] at absent
    apply mapped
    rw [leaf_word_eq, word_of_missing absent, decode_zero]

theorem entered_present (entered : Entered roots root page flags word added before after)
    (isRoot : root ∈ roots) (bounded : page < 512 ^ 4) (mapped : decode word ≠ none) {level : Nat}
    (inner : level < 4) :
    decode (wordAt after.phys root level (page / 512 ^ (3 - level))) ≠ none := by
  rw [entered.word_at isRoot inner (page_key_lt bounded inner)]
  by_cases far : 3 ≤ level + added
  · rw [if_pos ⟨rfl, far⟩]
    by_cases last : level = 3
    · rwa [if_pos last]
    · rw [if_neg last, entered.linked level (by omega) far]
      exact Option.some_ne_none _
  · have present := mt (entered.missing level (by omega)).mp far
    rw [if_neg fun hit => far hit.2, ← table_at_word]
    exact present

theorem off_way_child {page level key digit : Nat} (inner : level < 3) (small : digit < 512)
    (off : key ≠ page / 512 ^ (3 - level)) : key * 512 + digit ≠ page / 512 ^ (3 - (level + 1)) := by
  intro same
  obtain ⟨quotient, -⟩ := (key_eq_iff small).mp same.symm
  apply off
  rw [← quotient, Nat.div_div_eq_div_mul, ← pow_succ, show 3 - (level + 1) + 1 = 3 - level by omega]

theorem on_way_child {page level : Nat} (inner : level < 3) :
    page / 512 ^ (3 - level) * 512 + page / 512 ^ (3 - (level + 1)) % 512 =
      page / 512 ^ (3 - (level + 1)) := by
  have digits := @page_digit page (level + 1) (by omega)
  rwa [show 4 - (level + 1) = 3 - level by omega] at digits

theorem Tidy.of_same {first second : Memory} (tidy : Tidy first root)
    (same : ∀ level key, level < 4 → LowerPlace level key →
      wordAt second root level key = wordAt first root level key) : Tidy second root := by
  constructor
  · intro level key inner lower absent
    rw [same level key inner lower] at absent ⊢
    exact tidy.clean level key inner lower absent
  · intro level key inner lower nonzero
    rw [same level key (by omega) lower] at nonzero
    obtain ⟨digit, small, here⟩ := tidy.occupied level key inner lower nonzero
    exact ⟨digit, small, by rwa [same _ _ (by omega) (lower_place_child lower small)]⟩

theorem Tidy.map (tidy : Tidy before.phys root)
    (entered : Entered roots root page flags word added before after) (isRoot : root ∈ roots)
    (bounded : page < 512 ^ 4) (mapped : decode word ≠ none) : Tidy after.phys root := by
  constructor
  · intro level key inner lower absent
    by_cases way : key = page / 512 ^ (3 - level)
    · rw [way] at absent
      exact absurd absent (entered_present entered isRoot bounded mapped inner)
    · rw [entered.word_at isRoot inner (lower_place_lt lower), if_neg fun hit => way hit.1] at absent ⊢
      exact tidy.clean level key inner lower absent
  · intro level key inner lower nonzero
    by_cases way : key = page / 512 ^ (3 - level)
    · refine ⟨page / 512 ^ (3 - (level + 1)) % 512, Nat.mod_lt _ (by decide), ?_⟩
      rw [way, on_way_child inner]
      exact decode_ne_zero (entered_present entered isRoot bounded mapped (by omega))
    · rw [entered.word_at isRoot (by omega) (lower_place_lt lower), if_neg fun hit => way hit.1] at nonzero
      obtain ⟨digit, small, here⟩ := tidy.occupied level key inner lower nonzero
      refine ⟨digit, small, ?_⟩
      rw [entered.word_at isRoot (by omega) (lower_place_lt (lower_place_child lower small)),
        if_neg fun hit => off_way_child inner small way hit.1]
      exact here

theorem Tidy.unmap (tidy : Tidy before.phys root)
    (removed : Removed roots root page dropped before after) (isRoot : root ∈ roots)
    (lowerPage : ¬UpperHalf page) (mapped : decode (leafWord before.phys root page) ≠ none) :
    Tidy after.phys root := by
  constructor
  · intro level key inner lower absent
    rw [removed.word_at isRoot inner (lower_place_lt lower)] at absent ⊢
    split at absent
    · next hit => rw [if_pos hit]
    · next off =>
        rw [if_neg off]
        exact tidy.clean level key inner lower absent
  · intro level key inner lower nonzero
    rw [removed.word_at isRoot (by omega) (lower_place_lt lower)] at nonzero
    split at nonzero
    · exact absurd rfl nonzero
    · next off =>
        have unchanged : ∀ digit, digit < 512 →
            (key = page / 512 ^ (3 - level) → digit = page / 512 ^ (3 - (level + 1)) % 512 →
              level + 1 + dropped < 3) →
            wordAt after.phys root (level + 1) (key * 512 + digit) =
              wordAt before.phys root (level + 1) (key * 512 + digit) := by
          intro digit small free
          rw [removed.word_at isRoot (by omega) (lower_place_lt (lower_place_child lower small)), if_neg]
          rintro ⟨here, far⟩
          by_cases way : key = page / 512 ^ (3 - level)
          · have same := ((key_eq_iff small).mp here.symm).2
            have near := free way same.symm
            omega
          · exact off_way_child inner small way here
        by_cases way : key = page / 512 ^ (3 - level)
        · have near : level + dropped < 3 := by
            by_contra far
            exact off ⟨way, by omega⟩
          by_cases above : level + 1 + dropped < 3
          · -- the next table on the way is left as well
            refine ⟨page / 512 ^ (3 - (level + 1)) % 512, Nat.mod_lt _ (by decide), ?_⟩
            rw [unchanged _ (Nat.mod_lt _ (by decide)) fun _ _ => above, way, on_way_child inner]
            exact decode_ne_zero (way_present mapped (by omega))
          · -- the next table stays because it holds another word
            have level_eq : 3 - dropped = level + 1 := by omega
            have crowded := removed.crowded.resolve_left (by omega)
            have notAlone := crowded.resolve_left lowerPage
            rw [level_eq, Alone] at notAlone
            push Not at notAlone
            obtain ⟨digit, small, other, here⟩ := notAlone
            refine ⟨digit, small, ?_⟩
            rw [unchanged digit small fun _ same => absurd same other]
            have quotient := ((key_eq_iff (Nat.mod_lt _ (by decide))).mp
              (@on_way_child page level inner).symm).1
            rw [quotient] at here
            rwa [way]
        · obtain ⟨digit, small, here⟩ := tidy.occupied level key inner lower nonzero
          refine ⟨digit, small, ?_⟩
          rw [unchanged digit small fun hit => absurd hit way]
          exact here

end Words

/-! ## Runs -/

section Runs

variable {roots held : Set Nat} {machine after : Machine} {root virt : Nat}

theorem mapped_word_present (frame flags : Nat) :
    decode (pageFloor frame ||| flags ||| ptePresent) ≠ none := by
  have odd : (pageFloor frame ||| flags ||| ptePresent) &&& ptePresent ≠ 0 := by
    rw [Nat.and_or_distrib_right, Nat.and_self]
    intro zero
    exact absurd (Nat.or_eq_zero_iff.mp zero).2 (by decide)
  rw [decode, if_pos odd]
  exact Option.some_ne_none _

theorem lower_place_above {level key : Nat} (lower : LowerPlace (level + 1) key) :
    LowerPlace level (key / 512) := by
  apply Nat.div_lt_of_lt_mul
  calc
    key < 256 * 512 ^ (level + 1) := lower
    _ = 512 * (256 * 512 ^ level) := by rw [pow_succ]; omega

theorem lower_not_shared {level key : Nat} (lower : LowerPlace level key) :
    ¬SharedAt (level + 1) key := by
  induction level generalizing key with
  | zero =>
    rw [LowerPlace, pow_zero, Nat.mul_one] at lower
    exact Nat.not_le.mpr lower
  | succ level induction => exact induction (lower_place_above lower)

theorem renewed_word {page : Nat} (renewed : Renewed machine page after)
    (tables : Tables roots held machine.pmm machine.phys)
    (isKernel : machine.kernelPagemap ∈ roots) {level key : Nat} (inner : level < 4)
    (lower : LowerPlace level key) : wordAt after.phys (page * pageSize) level key = 0 := by
  cases level with
  | zero =>
    have digit : key < 256 := by
      have small := lower
      rwa [LowerPlace, pow_zero, Nat.mul_one] at small
    rw [wordAt, tableAt, walk_zero, renewed.phys]
    exact adopted_lower (Nat.lt_of_le_of_lt (Nat.mod_le _ _) digit)
  | succ level =>
    apply word_of_missing
    have above := lower_place_above lower
    exact renewed.table_none tables isKernel (lower_place_lt above) (lower_not_shared above)

theorem unmap_aligned {done : Bool} (run : vmmUnmapPage root virt machine = .ok done after) :
    virt % pageSize = 0 := by
  by_contra unaligned
  have panics : Ends (vmmUnmapPage root virt) (fun _ _ => False) (fun _ _ => True) machine := by
    rw [vmmUnmapPage, ends_bind, ends_require, if_neg unaligned]
    trivial
  exact panics.returns run

theorem lower_ready {phys : Memory} (lower : pml4Index virt < 256) :
    TopReady roots root (pageOf virt) phys := fun upper => absurd upper (lower_page lower)

theorem Ready.map (ready : Ready root roots held machine) {frame flags : Nat} {mapped : Bool}
    (top : TopReady roots root (pageOf virt) machine.phys) (frameSmall : frame < 2 ^ 64)
    (flagsSmall : flags < 2 ^ 64) (run : vmmMapPage root virt frame flags machine = .ok mapped after) :
    Ready root roots held after ∧ ∃ added, Entered roots root (pageOf virt) flags
      (pageFloor frame ||| flags ||| ptePresent) added machine after := by
  obtain ⟨-, done⟩ := (ends_vmmMapPage ready.tables ready.isRoot ready.unlockedPmm ready.unlockedVmm
    top frameSmall flagsSmall).returns run
  obtain ⟨-, added, entered⟩ := (ends_vmmMapPage_words ready.tables ready.isRoot ready.counted
    ready.unlockedPmm ready.unlockedVmm top frameSmall flagsSmall).returns run
  refine ⟨⟨done.grown.tables, ready.isRoot, entered.counted, ?_, ?_⟩, added, entered⟩
  · rw [done.locked]
    exact ready.unlockedPmm
  · rw [done.locked]
    exact ready.unlockedVmm

theorem returned_all_counted {pmm : Pmm} (counted : Counted pmm) (pages : List Nat) :
    Counted (returnAll pmm pages) := by
  induction pages generalizing pmm with
  | nil => exact counted
  | cons page rest induction => exact induction (returned_counted pmm page)

theorem Ready.unmap (ready : Ready root roots held machine) (aligned : virt % pageSize = 0) :
    ∃ after, vmmUnmapPage root virt machine = .ok true after ∧ Ready root roots held after ∧
      ((decode (leafWord machine.phys root (pageOf virt)) = none ∧ after = machine) ∨
        (decode (leafWord machine.phys root (pageOf virt)) ≠ none ∧
          ∃ dropped, Removed roots root (pageOf virt) dropped machine after)) := by
  obtain ⟨_, after, run, rfl, unmapped⟩ := (ends_vmmUnmapPage ready.tables ready.isRoot
    ready.unlockedPmm ready.unlockedVmm aligned).exists_ok
  have words := (ends_vmmUnmapPage_words ready.tables ready.isRoot ready.unlockedPmm
    ready.unlockedVmm aligned).returns run
  refine ⟨after, run, ⟨unmapped.tables, ready.isRoot, ?_, ?_, ?_⟩, ?_⟩
  · rcases words with ⟨-, rfl⟩ | ⟨-, dropped, removed⟩
    · exact ready.counted
    · rw [removed.pmm]
      exact returned_all_counted ready.counted _
  · rw [unmapped.locked]
    exact ready.unlockedPmm
  · rw [unmapped.locked]
    exact ready.unlockedVmm
  · rcases words with ⟨absent, same⟩ | ⟨present, removed⟩
    · refine Or.inl ⟨?_, same⟩
      rw [decode, if_neg fun present => present absent]
    · refine Or.inr ⟨?_, removed⟩
      rw [decode, if_pos present]
      exact Option.some_ne_none _

theorem run_tidy (run : PagemapRun root machine roots held) :
    Ready root roots held machine ∧ Tidy machine.phys root := by
  induction run with
  | @create machine after roots held tables isKernel unlockedPmm unlockedVmm run =>
    obtain ⟨page, rfl, renewed⟩ := (ends_vmmNewPagemap_renewed tables.lowPage unlockedPmm
      unlockedVmm).returns run
    have created := renewed.created tables isKernel
    have zero := fun level key (inner : level < 4) (lower : LowerPlace level key) =>
      renewed_word renewed tables isKernel inner lower
    refine ⟨⟨created.tables, Set.mem_insert _ _, ?_, ?_, ?_⟩, ?_, ?_⟩
    · rw [renewed.pmm]
      exact taken_counted machine.pmm page
    · rw [created.locked .pmm (by decide)]
      exact unlockedPmm
    · rw [created.locked .vmm (by decide)]
      exact unlockedVmm
    · exact fun level key inner lower _ => zero level key inner lower
    · exact fun level key inner lower nonzero => absurd (zero level key (by omega) lower) nonzero
  | map _ lower frameSmall flagsSmall run induction =>
    obtain ⟨ready, tidy⟩ := induction
    obtain ⟨readyAfter, added, entered⟩ := ready.map (lower_ready lower) frameSmall flagsSmall run
    exact ⟨readyAfter, tidy.map entered ready.isRoot (page_of_lt _) (mapped_word_present _ _)⟩
  | unmap _ lower run induction =>
    obtain ⟨ready, tidy⟩ := induction
    obtain ⟨after', run', readyAfter, words⟩ := ready.unmap (unmap_aligned run)
    rw [run] at run'
    cases run'
    refine ⟨readyAfter, ?_⟩
    rcases words with ⟨-, rfl⟩ | ⟨present, dropped, removed⟩
    · exact tidy
    · exact tidy.unmap removed ready.isRoot (lower_page lower) present
  | elsewhere _ ready kept induction => exact ⟨ready, induction.2.of_same kept⟩

end Runs

/-! ## There and back -/

section RoundTrip

variable {roots : Set Nat} {machine middle after : Machine}
  {root page flags word added dropped : Nat}

/-- Every table of the pagemap is where it was, with the same entries. -/
def SameTables (root : Nat) (before after : Memory) : Prop :=
  ∀ level key, level < 4 → key < 512 ^ level →
    tableAt after root level key = tableAt before root level key ∧
      ∀ table, tableAt before root level key = some table → ∀ index < 512,
        entryAt after table index = entryAt before table index

theorem same_tables {before after : Memory}
    (same : ∀ level key, level < 4 → key < 512 ^ (level + 1) →
      wordAt after root level key = wordAt before root level key) : SameTables root before after := by
  intro level key inner bounded
  have place : tableAt after root level key = tableAt before root level key := by
    cases level with
    | zero => rw [tableAt, tableAt, walk_zero, walk_zero]
    | succ level => rw [table_at_word, table_at_word, same level key (by omega) bounded]
  refine ⟨place, ?_⟩
  intro table here index small
  rw [← word_of_table small here, ← word_of_table small (place.trans here)]
  exact same level _ inner (digit_lt bounded small)

theorem Tidy.fresh_zero (tidy : Tidy machine.phys root)
    (entered : Entered roots root page flags word added machine middle) (lower : ¬UpperHalf page)
    (unmapped : decode (leafWord machine.phys root page) = none) {level : Nat} (inner : level < 4)
    (far : 3 ≤ level + added) : wordAt machine.phys root level (page / 512 ^ (3 - level)) = 0 := by
  apply tidy.clean level _ inner (lower_place_page lower inner)
  by_cases last : level = 3
  · rwa [last, Nat.sub_self, pow_zero, Nat.div_one]
  · rw [← table_at_word]
    exact (entered.missing level (by omega)).mpr far

/-- The tables that a call of `vmm_map_page` made are those that `vmm_unmap_page` gives back. -/
theorem dropped_eq_added (tidy : Tidy machine.phys root)
    (entered : Entered roots root page flags word added machine middle)
    (removed : Removed roots root page dropped middle after) (isRoot : root ∈ roots)
    (bounded : page < 512 ^ 4) (lower : ¬UpperHalf page)
    (unmapped : decode (leafWord machine.phys root page) = none) : dropped = added := by
  have few := entered.few
  have fewer := removed.few
  have sibling : ∀ level digit, level < 4 → digit < 512 → digit ≠ page / 512 ^ (3 - level) % 512 →
      wordAt middle.phys root level (page / 512 ^ (3 - level) / 512 * 512 + digit) =
        wordAt machine.phys root level (page / 512 ^ (3 - level) / 512 * 512 + digit) := by
    intro level digit inner small other
    have above : page / 512 ^ (3 - level) / 512 < 512 ^ level := prefix_lt (page_key_lt bounded inner)
    rw [entered.word_at isRoot inner (digit_lt above small), if_neg]
    rintro ⟨here, -⟩
    exact other ((key_eq_iff small).mp here.symm).2.symm
  rcases Nat.lt_trichotomy dropped added with less | same | more
  · -- the table above the last one given back would be new, and new tables hold one word only
    exfalso
    have crowded := (removed.crowded.resolve_left (by omega)).resolve_left lower
    apply crowded
    intro digit small other
    rw [sibling _ digit (by omega) small other]
    apply word_of_missing
    have absent := (entered.missing (2 - dropped) (by omega)).mpr (by omega)
    rw [Nat.mul_comm, Nat.mul_add_div (by decide), Nat.div_eq_of_lt small, Nat.add_zero,
      Nat.div_div_eq_div_mul, ← pow_succ, show 3 - (3 - dropped) + 1 = 3 - (2 - dropped) by omega,
      show 3 - dropped = 2 - dropped + 1 by omega]
    exact absent
  · exact same
  · -- the lowest old table on the way held another page
    exfalso
    have alone := removed.alone (3 - added) (by omega) (by omega)
    have level_eq : 3 - added = 2 - added + 1 := by omega
    have present : wordAt machine.phys root (2 - added) (page / 512 ^ (3 - (2 - added))) ≠ 0 := by
      apply decode_ne_zero
      rw [← table_at_word]
      exact mt (entered.missing (2 - added) (by omega)).mp (by omega)
    obtain ⟨digit, small, here⟩ := tidy.occupied (2 - added) _ (by omega)
      (lower_place_page lower (by omega)) present
    rw [← level_eq] at here
    have quotient : page / 512 ^ (3 - (3 - added)) / 512 = page / 512 ^ (3 - (2 - added)) := by
      rw [Nat.div_div_eq_div_mul, ← pow_succ, show 3 - (3 - added) + 1 = 3 - (2 - added) by omega]
    have other : digit ≠ page / 512 ^ (3 - (3 - added)) % 512 := by
      intro same
      apply here
      rw [same, ← quotient, Nat.div_add_mod']
      exact tidy.fresh_zero entered lower unmapped (by omega) (by omega)
    have zero := alone digit small other
    rw [sibling _ digit (by omega) small other, quotient] at zero
    exact here zero

theorem round_trip (tidy : Tidy machine.phys root)
    (entered : Entered roots root page flags word added machine middle)
    (removed : Removed roots root page dropped middle after) (isRoot : root ∈ roots)
    (bounded : page < 512 ^ 4) (lower : ¬UpperHalf page)
    (unmapped : decode (leafWord machine.phys root page) = none) :
    after.pmm = machine.pmm ∧ SameTables root machine.phys after.phys := by
  obtain rfl := dropped_eq_added tidy entered removed isRoot bounded lower unmapped
  refine ⟨removed.pmm.trans entered.restored, same_tables ?_⟩
  intro level key inner small
  rw [removed.word_at isRoot inner small, entered.word_at isRoot inner small]
  by_cases hit : key = page / 512 ^ (3 - level) ∧ 3 ≤ level + dropped
  · rw [if_pos hit, hit.1]
    exact (tidy.fresh_zero entered lower unmapped inner hit.2).symm
  · rw [if_neg hit, if_neg hit]

end RoundTrip

/-! ## Unmapping everything -/

def unmapAll (root : Nat) : List Nat → Kernel PUnit
  | [] => pure ⟨⟩
  | virt :: rest => do
      let _ ← vmmUnmapPage root virt
      unmapAll root rest

/-- The tables of the lower half, without the PML4. -/
def lowerTables (phys : Memory) (root : Nat) : Set Nat :=
  {table | ∃ level key, level < 3 ∧ LowerPlace level key ∧
    tableAt phys root (level + 1) key = some table}

/-- Tables of the lower half have been given back, and no other frame has. -/
structure Shrunk (root : Nat) (before after : Machine) : Prop where
  subset : lowerTables after.phys root ⊆ lowerTables before.phys root
  freed : ∀ index, index ∈ freeSet after.pmm ↔ index ∈ freeSet before.pmm ∨
    (index * pageSize ∈ lowerTables before.phys root ∧ index * pageSize ∉ lowerTables after.phys root)

section Emptying

variable {roots held : Set Nat} {machine middle after : Machine} {root page dropped : Nat}

theorem Shrunk.refl (root : Nat) (machine : Machine) : Shrunk root machine machine :=
  ⟨fun _ member => member, fun _ => ⟨Or.inl, fun member =>
    member.elim id fun both => absurd both.1 both.2⟩⟩

theorem Shrunk.trans (left : Shrunk root machine middle) (right : Shrunk root middle after) :
    Shrunk root machine after := by
  refine ⟨right.subset.trans left.subset, ?_⟩
  intro index
  rw [right.freed, left.freed]
  constructor
  · rintro ((free | ⟨was, gone⟩) | ⟨was, gone⟩)
    · exact Or.inl free
    · exact Or.inr ⟨was, fun still => gone (right.subset still)⟩
    · exact Or.inr ⟨left.subset was, gone⟩
  · rintro (free | ⟨was, gone⟩)
    · exact Or.inl (Or.inl free)
    · by_cases still : index * pageSize ∈ lowerTables middle.phys root
      · exact Or.inr ⟨still, gone⟩
      · exact Or.inl (Or.inr ⟨was, still⟩)

theorem mem_freeSet_returnAll {pages : List Nat}
    (tracked : ∀ page ∈ pages, page ≤ machine.pmm.highestPage) (index : Nat) :
    index ∈ freeSet (returnAll machine.pmm pages) ↔ index ∈ freeSet machine.pmm ∨ index ∈ pages := by
  induction pages generalizing machine with
  | nil => simp [returnAll]
  | cons page rest induction =>
    have others : ∀ other ∈ rest, other ≤ (returnPage machine page).pmm.highestPage :=
      fun other member => tracked other (List.mem_cons_of_mem _ member)
    have first : returnAll machine.pmm (page :: rest) = returnAll (returnPage machine page).pmm rest :=
      rfl
    rw [first, induction others, freeSet_returnPage (tracked page (List.mem_cons_self ..)),
      Finset.mem_insert, List.mem_cons, or_assoc, or_left_comm]

theorem removed_shrunk (tables : Tables roots held machine.pmm machine.phys)
    (removed : Removed roots root page dropped machine after) (isRoot : root ∈ roots)
    (bounded : page < 512 ^ 4) (lower : ¬UpperHalf page)
    (mapped : decode (leafWord machine.phys root page) ≠ none) : Shrunk root machine after := by
  have few := removed.few
  have kept : ∀ level key, level < 3 → LowerPlace level key →
      ¬(key = page / 512 ^ (3 - level) ∧ 3 ≤ level + dropped) →
      tableAt after.phys root (level + 1) key = tableAt machine.phys root (level + 1) key := by
    intro level key inner place off
    rw [table_at_word, table_at_word, removed.word_at isRoot (by omega) (lower_place_lt place), if_neg off]
  have gone : ∀ level key, level < 3 → LowerPlace level key →
      key = page / 512 ^ (3 - level) ∧ 3 ≤ level + dropped →
      tableAt after.phys root (level + 1) key = none := by
    intro level key inner place hit
    rw [table_at_word, removed.word_at isRoot (by omega) (lower_place_lt place), if_pos hit, decode_zero]
  have subset : lowerTables after.phys root ⊆ lowerTables machine.phys root := by
    rintro table ⟨level, key, inner, place, found⟩
    refine ⟨level, key, inner, place, ?_⟩
    by_cases hit : key = page / 512 ^ (3 - level) ∧ 3 ≤ level + dropped
    · rw [gone level key inner place hit] at found
      cases found
    · rwa [kept level key inner place hit] at found
  have pathPlace : ∀ level, level < 3 →
      tableAt machine.phys root (level + 1) (page / 512 ^ (3 - level)) =
        some (pathTable machine.phys root page (level + 1)) := by
    intro level inner
    have present := way_present mapped (show level < 4 by omega)
    rw [← table_at_word] at present
    obtain ⟨table, found⟩ := Option.ne_none_iff_exists'.mp present
    rw [pathTable, show 4 - (level + 1) = 3 - level by omega, found]
    rfl
  have frame : ∀ level, 0 < level → level ≤ 3 →
      Frame machine.pmm (pathTable machine.phys root page level) := by
    intro level positive shallow
    have place := pathPlace (level - 1) (by omega)
    rw [show level - 1 + 1 = level by omega] at place
    have small := page_key_lt bounded (show level - 1 < 4 by omega)
    rw [show level - 1 + 1 = level by omega] at small
    exact tables.frames _ (isTable_of_place isRoot (by omega) small place)
  have framed := fun level (positive : 0 < level) (shallow : level ≤ 3) =>
    (frame level positive shallow).address_eq
  have returned : ∀ index, index ∈ (List.range dropped).map (fun step =>
        pathTable machine.phys root page (3 - step) / pageSize) ↔
      index * pageSize ∈ lowerTables machine.phys root ∧
        index * pageSize ∉ lowerTables after.phys root := by
    intro index
    rw [List.mem_map]
    constructor
    · rintro ⟨step, inside, rfl⟩
      have less := List.mem_range.mp inside
      have place := pathPlace (2 - step) (by omega)
      rw [show 2 - step + 1 = 3 - step by omega] at place
      have lowerPlace := lower_place_page lower (show 2 - step < 4 by omega)
      rw [framed (3 - step) (by omega) (by omega)]
      refine ⟨⟨2 - step, _, by omega, lowerPlace, by rwa [show 2 - step + 1 = 3 - step by omega]⟩, ?_⟩
      rintro ⟨level, key, inner, here, found⟩
      by_cases hit : key = page / 512 ^ (3 - level) ∧ 3 ≤ level + dropped
      · rw [gone level key inner here hit] at found
        cases found
      · rw [kept level key inner here hit] at found
        obtain ⟨sameLevel, sameKey, -⟩ := tables.separated root root (level + 1) (3 - step) key _ _ isRoot
          isRoot (show level + 1 < 4 by omega) (show 3 - step < 4 by omega) (lower_place_lt here)
          (by
            have small := lower_place_lt lowerPlace
            rwa [show 2 - step + 1 = 3 - step by omega] at small) found place
        have levelEq : level = 2 - step := by omega
        subst levelEq
        exact hit ⟨sameKey, by omega⟩
    · rintro ⟨⟨level, key, inner, place, found⟩, absent⟩
      by_cases hit : key = page / 512 ^ (3 - level) ∧ 3 ≤ level + dropped
      · refine ⟨2 - level, List.mem_range.mpr (by omega), ?_⟩
        rw [hit.1, pathPlace level inner] at found
        rw [show 3 - (2 - level) = level + 1 by omega, Option.some.inj found, page_address_div]
      · exact absurd ⟨level, key, inner, place, (kept level key inner place hit).trans found⟩ absent
  refine ⟨subset, ?_⟩
  intro index
  rw [removed.pmm, mem_freeSet_returnAll, returned]
  intro other member
  obtain ⟨step, inside, rfl⟩ := List.mem_map.mp member
  have less := List.mem_range.mp inside
  exact (frame (3 - step) (by omega) (by omega)).tracked

structure Cleared (root : Nat) (roots held : Set Nat) (pages : List Nat) (before after : Machine) :
    Prop where
  ready : Ready root roots held after
  tidy : Tidy after.phys root
  shrunk : Shrunk root before after
  leaves : ∀ page, LowerPlace 3 page → leafWord after.phys root page = 0 ∨
    (page ∉ pages ∧ leafWord after.phys root page = leafWord before.phys root page)

theorem unmap_clears {virt : Nat} (ready : Ready root roots held machine)
    (tidy : Tidy machine.phys root) (lower : pml4Index virt < 256) (aligned : virt % pageSize = 0) :
    ∃ after, vmmUnmapPage root virt machine = .ok true after ∧
      Cleared root roots held [pageOf virt] machine after := by
  obtain ⟨after, run, readyAfter, words⟩ := ready.unmap aligned
  have lowerPage := lower_page lower
  rcases words with ⟨absent, rfl⟩ | ⟨present, dropped, removed⟩
  · refine ⟨after, run, readyAfter, tidy, Shrunk.refl root after, ?_⟩
    intro page place
    by_cases same : page = pageOf virt
    · rw [same] at place ⊢
      exact Or.inl (tidy.clean 3 _ (by decide) place absent)
    · exact Or.inr ⟨fun member => same (List.mem_singleton.mp member), rfl⟩
  · refine ⟨after, run, readyAfter, tidy.unmap removed ready.isRoot lowerPage present,
      removed_shrunk ready.tables removed ready.isRoot (page_of_lt _) lowerPage present, ?_⟩
    intro page place
    rw [leaf_word_eq, removed.word_at ready.isRoot (by decide) (lower_place_lt place), Nat.sub_self,
      pow_zero, Nat.div_one]
    split
    · exact Or.inl rfl
    · next off =>
        exact Or.inr ⟨fun member => off ⟨List.mem_singleton.mp member, by omega⟩, rfl⟩

theorem ends_unmapAll {addresses : List Nat} (ready : Ready root roots held machine)
    (tidy : Tidy machine.phys root)
    (valid : ∀ virt ∈ addresses, pml4Index virt < 256 ∧ virt % pageSize = 0) :
    ∃ after, unmapAll root addresses machine = .ok ⟨⟩ after ∧
      Cleared root roots held (addresses.map pageOf) machine after := by
  induction addresses generalizing machine with
  | nil =>
    refine ⟨machine, rfl, ready, tidy, Shrunk.refl root machine, ?_⟩
    exact fun page _ => Or.inr ⟨List.not_mem_nil, rfl⟩
  | cons virt rest induction =>
    obtain ⟨lower, aligned⟩ := valid virt (List.mem_cons_self ..)
    obtain ⟨middle, first, cleared⟩ := unmap_clears ready tidy lower aligned
    obtain ⟨after, others, rested⟩ := induction cleared.ready cleared.tidy fun other member =>
      valid other (List.mem_cons_of_mem _ member)
    refine ⟨after, ?_, rested.ready, rested.tidy, cleared.shrunk.trans rested.shrunk, ?_⟩
    · rw [unmapAll]
      simp only [bind, EStateM.bind, first]
      exact others
    · intro page place
      rcases rested.leaves page place with zero | ⟨later, kept⟩
      · exact Or.inl zero
      · rw [kept]
        rcases cleared.leaves page place with zero | ⟨now, same⟩
        · exact Or.inl zero
        · refine Or.inr ⟨?_, same⟩
          rw [List.map_cons, List.mem_cons]
          rintro (here | member)
          · exact now (List.mem_singleton.mpr here)
          · exact later member

/-- Below a word that is not zero there is a mapped page. -/
theorem Tidy.leaf_below {phys : Memory} (tidy : Tidy phys root) {level : Nat} (inner : level < 4)
    {key : Nat} (lower : LowerPlace level key) (nonzero : wordAt phys root level key ≠ 0) :
    ∃ page, LowerPlace 3 page ∧ page / 512 ^ (3 - level) = key ∧ leafWord phys root page ≠ 0 := by
  obtain ⟨height, sum⟩ : ∃ height, level + height = 3 := ⟨3 - level, by omega⟩
  induction height generalizing level key with
  | zero =>
    obtain rfl : level = 3 := sum
    exact ⟨key, lower, by rw [Nat.sub_self, pow_zero, Nat.div_one], nonzero⟩
  | succ height induction =>
    obtain ⟨digit, small, here⟩ := tidy.occupied level key (by omega) lower nonzero
    obtain ⟨page, place, above, mapped⟩ := induction (by omega) (lower_place_child lower small) here
      (by omega)
    refine ⟨page, place, ?_, mapped⟩
    rw [show 3 - level = 3 - (level + 1) + 1 by omega, pow_succ, ← Nat.div_div_eq_div_mul, above]
    omega

theorem Tidy.no_tables {phys : Memory} (tidy : Tidy phys root)
    (leaves : ∀ page, LowerPlace 3 page → leafWord phys root page = 0) :
    lowerTables phys root = ∅ := by
  apply Set.eq_empty_of_forall_notMem
  rintro table ⟨level, key, inner, lower, found⟩
  have nonzero : wordAt phys root level key ≠ 0 := by
    apply decode_ne_zero
    rw [← table_at_word, found]
    exact Option.some_ne_none table
  obtain ⟨page, place, -, mapped⟩ := tidy.leaf_below (by omega) lower nonzero
  exact mapped (leaves page place)

end Emptying

/-! ## The result -/

/-- Mapping an unmapped page returns if there are frames for its tables, and unmapping it again
restores the page allocator and every table. -/
structure Undoes (root : Nat) (machine : Machine) : Prop where
  returns : ∀ virt frame flags, pml4Index virt < 256 → frame < 2 ^ 64 → flags < 2 ^ 64 →
    missingTables machine.phys root (pageOf virt) ≤ (freeSet machine.pmm).card →
      ∃ middle, vmmMapPage root virt frame flags machine = .ok true middle
  undone : ∀ virt frame flags, pml4Index virt < 256 → virt % pageSize = 0 → frame < 2 ^ 64 →
    flags < 2 ^ 64 → decode (leafWord machine.phys root (pageOf virt)) = none →
    ∀ mapped middle, vmmMapPage root virt frame flags machine = .ok mapped middle →
      ∃ after, vmmUnmapPage root virt middle = .ok true after ∧ after.pmm = machine.pmm ∧
        SameTables root machine.phys after.phys

/-- Unmapping all mapped pages, in any order, gives back the tables of the lower half and nothing
else. -/
def Empties (root : Nat) (machine : Machine) : Prop :=
  ∀ addresses, (∀ virt ∈ addresses, pml4Index virt < 256 ∧ virt % pageSize = 0) →
    (∀ page, LowerPlace 3 page → decode (leafWord machine.phys root page) ≠ none →
      ∃ virt ∈ addresses, pageOf virt = page) →
    ∃ after, unmapAll root addresses machine = .ok ⟨⟩ after ∧ lowerTables after.phys root = ∅ ∧
      ∀ index, index ∈ freeSet after.pmm ↔
        index ∈ freeSet machine.pmm ∨ index * pageSize ∈ lowerTables machine.phys root

/-- In every state of a pagemap's life `vmm_unmap_page` undoes `vmm_map_page`, no table of the
lower half is empty, and unmapping everything gives back all tables but the PML4. -/
theorem unmap_undoes_map {root : Nat} {machine : Machine} {roots held : Set Nat}
    (run : PagemapRun root machine roots held) :
    Undoes root machine ∧
      (∀ table ∈ lowerTables machine.phys root, vmmIsTableEmpty machine.phys table = false) ∧
      Empties root machine := by
  obtain ⟨ready, tidy⟩ := run_tidy run
  refine ⟨⟨?_, ?_⟩, ?_, ?_⟩
  · intro virt frame flags lower frameSmall flagsSmall enough
    have ends := ends_vmmMapPage_walks ready.tables ready.isRoot ready.unlockedPmm ready.unlockedVmm
      (lower_ready lower) frameSmall flagsSmall
    have returns := ends_mono ends (fun _ _ done => done.1) fun _ _ stopped =>
      (absurd enough (Nat.not_le.mpr stopped.2.1) : False)
    obtain ⟨_, middle, mapped, rfl⟩ := returns.exists_ok
    exact ⟨middle, mapped⟩
  · intro virt frame flags lower aligned frameSmall flagsSmall unmapped mapped middle mapping
    obtain ⟨readyMiddle, added, entered⟩ := ready.map (lower_ready lower) frameSmall flagsSmall mapping
    obtain ⟨after, unmapping, -, words⟩ := readyMiddle.unmap aligned
    have present := entered_present entered ready.isRoot (page_of_lt virt)
      (mapped_word_present frame flags) (show 3 < 4 by decide)
    rw [Nat.sub_self, pow_zero, Nat.div_one, ← leaf_word_eq] at present
    obtain ⟨dropped, removed⟩ := (words.resolve_left fun absent => present absent.1).2
    exact ⟨after, unmapping, round_trip tidy entered removed ready.isRoot (page_of_lt virt)
      (lower_page lower) unmapped⟩
  · rintro table ⟨level, key, inner, lower, found⟩
    have nonzero : wordAt machine.phys root level key ≠ 0 := by
      apply decode_ne_zero
      rw [← table_at_word, found]
      exact Option.some_ne_none table
    obtain ⟨digit, small, here⟩ := tidy.occupied level key inner lower nonzero
    apply Bool.eq_false_iff.mpr
    rw [Ne, is_table_empty_iff, blank_iff found]
    exact fun blank => here (blank digit small)
  · intro addresses valid every
    obtain ⟨after, unmapping, cleared⟩ := ends_unmapAll ready tidy valid
    have leaves : ∀ page, LowerPlace 3 page → leafWord after.phys root page = 0 := by
      intro page lower
      rcases cleared.leaves page lower with zero | ⟨missed, same⟩
      · exact zero
      · rw [same]
        apply tidy.clean 3 page (by decide) lower
        by_contra mapped
        obtain ⟨virt, member, here⟩ := every page lower mapped
        exact missed (List.mem_map.mpr ⟨virt, member, here⟩)
    have none := cleared.tidy.no_tables leaves
    refine ⟨after, unmapping, none, ?_⟩
    intro index
    rw [cleared.shrunk.freed, none]
    simp only [Set.mem_empty_iff_false, not_false_eq_true, and_true]

/-- A page of a new pagemap is mapped, and unmapping it returns its three tables. -/
theorem unmap_undoes_map_ready :
    ∃ new created mapped after, vmmNewPagemap readyMachine = .ok new created ∧
      vmmMapPage new 0x400000 0x5000 7 created = .ok true mapped ∧
      vmmUnmapPage new 0x400000 mapped = .ok true after ∧ after.pmm = created.pmm := by
  obtain ⟨new, created, creation, enough⟩ := ready_machine_creates
  have tables : Tables {4096} ∅ readyMachine.pmm readyMachine.phys := small_machine_tables
  have run : PagemapRun new created (insert new {4096}) ∅ :=
    PagemapRun.create tables rfl rfl rfl creation
  have undoes := (unmap_undoes_map run).1
  have few := missing_tables_le created.phys new (pageOf 0x400000)
  obtain ⟨mapped, mapping⟩ := undoes.returns 0x400000 0x5000 7 (by decide) (by decide) (by decide)
    (few.trans enough)
  have unmapped : decode (leafWord created.phys new (pageOf 0x400000)) = none := by
    have made := (ends_vmmNewPagemap tables rfl rfl rfl).returns creation
    rw [made.newLeaves _ (page_of_lt _), if_neg (lower_page (by decide)), decode_zero]
  obtain ⟨after, unmapping, same, -⟩ := undoes.undone 0x400000 0x5000 7 (by decide) (by decide)
    (by decide) (by decide) unmapped true mapped mapping
  exact ⟨new, created, mapped, after, creation, mapping, unmapping, same⟩

end RiriaKernel.PagemapRoundTrips
