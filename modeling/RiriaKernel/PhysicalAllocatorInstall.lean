import RiriaKernel.PhysicalAllocator

/-!
# The state `pmm_install` leaves

The installer first clears the bits of reclaimable entries and counts them, then sets
the bits of the kernel image, of the bitmap itself and of the first mebibyte. Both loops
keep the counters equal to the number of clear bits, whatever the memory map says:
entries may overlap, be unaligned, wrap around, or lie above the last tracked page.
-/

namespace RiriaKernel.PhysicalAllocator

open KernelState

theorem forPages_invariant {step : Pmm → Nat → Pmm} (invariant : Pmm → Prop)
    (preserved : ∀ pmm index, invariant pmm → invariant (step pmm index))
    (count first : Nat) {pmm : Pmm} (initial : invariant pmm) :
    invariant (forPages step count first pmm) := by
  induction count generalizing first pmm with
  | zero => exact initial
  | succ count induction =>
    exact induction (first + 1) (preserved pmm first initial)

/-- What every loop of the installer keeps: the last tracked page stays inside the bitmap,
the pages above it stay taken, and `count` is the number of clear bits. -/
structure Counted (highest : Nat) (count : Pmm → Nat) (pmm : Pmm) : Prop where
  highestPage : pmm.highestPage = highest
  above : ∀ index, highest < index → bitmapGet pmm.bitmap index = true
  counted : count pmm = (freeSet pmm).card

theorem freeSet_card_le (pmm : Pmm) : (freeSet pmm).card ≤ pmm.highestPage + 1 := by
  have bound := Finset.card_filter_le (Finset.range (pmm.highestPage + 1))
    (fun index => bitmapGet pmm.bitmap index = false)
  rwa [Finset.card_range] at bound

theorem installed_highest_page_lt (entries : List MemmapEntry) :
    installedHighestPage entries < pmmBitmapSize * 8 := by
  simp only [installedHighestPage]
  split
  · have positive : 0 < pmmBitmapSize * 8 := by decide
    omega
  · omega

theorem reclaim_page_counted {highest : Nat} (bounded : highest < pmmBitmapSize * 8)
    (pmm : Pmm) (index : Nat) (counted : Counted highest Pmm.totalRamPages pmm) :
    Counted highest Pmm.totalRamPages (reclaimPage pmm index) := by
  unfold reclaimPage
  split
  · next reclaimed =>
      obtain ⟨tracked, taken⟩ := reclaimed
      have grown : freeSet { pmm with
          bitmap := bitmapClear pmm.bitmap index
          totalRamPages := add64 pmm.totalRamPages 1 } = insert index (freeSet pmm) := by
        ext other
        rw [Finset.mem_insert, mem_freeSet, mem_freeSet]
        simp only [bitmap_get_clear, Bool.and_eq_false_iff, decide_eq_false_iff_not, not_not]
        constructor
        · rintro ⟨upper, rfl | clear⟩
          · exact Or.inl rfl
          · exact Or.inr ⟨upper, clear⟩
        · rintro (rfl | ⟨upper, clear⟩)
          · exact ⟨tracked, Or.inl rfl⟩
          · exact ⟨upper, Or.inr clear⟩
      have fresh : index ∉ freeSet pmm := by
        intro member
        rw [(mem_freeSet.mp member).2] at taken
        cases taken
      refine ⟨counted.highestPage, ?_, ?_⟩
      · intro other higher
        have untouched : other ≠ index := by
          have := counted.highestPage
          omega
        simp [bitmap_get_clear, untouched, counted.above other higher]
      · have size := freeSet_card_le pmm
        have total := counted.counted
        have highestPage := counted.highestPage
        have noWrap : pmmBitmapSize * 8 < 2 ^ 64 := by decide
        rw [grown, Finset.card_insert_of_notMem fresh]
        simp only [add64]
        rw [Nat.mod_eq_of_lt (by omega)]
        omega
  · exact counted

theorem reclaim_entry_counted {highest : Nat} (bounded : highest < pmmBitmapSize * 8)
    (pmm : Pmm) (entry : MemmapEntry) (counted : Counted highest Pmm.totalRamPages pmm) :
    Counted highest Pmm.totalRamPages (reclaimEntry pmm entry) := by
  unfold reclaimEntry
  split
  · dsimp only
    split
    · exact counted
    · exact forPages_invariant _ (reclaim_page_counted bounded) _ _ counted
  · exact counted

theorem reclaim_entries_counted {highest : Nat} (bounded : highest < pmmBitmapSize * 8)
    (entries : List MemmapEntry) (pmm : Pmm) (counted : Counted highest Pmm.totalRamPages pmm) :
    Counted highest Pmm.totalRamPages (entries.foldl reclaimEntry pmm) := by
  induction entries generalizing pmm with
  | nil => exact counted
  | cons entry entries induction =>
    exact induction (reclaimEntry pmm entry) (reclaim_entry_counted bounded pmm entry counted)

theorem blank_bitmap_get (index : Nat) : bitmapGet (fun _ => 0xFF) index = true := by
  rw [bitmap_get_eq_testBit]
  have bound : index % 8 < 8 := Nat.mod_lt _ (by decide)
  interval_cases index % 8 <;> rfl

theorem blank_counted (entries : List MemmapEntry) :
    Counted (installedHighestPage entries) Pmm.totalRamPages (blankPmm entries) := by
  refine ⟨rfl, fun index _ => blank_bitmap_get index, ?_⟩
  have empty : freeSet (blankPmm entries) = ∅ := by
    rw [Finset.eq_empty_iff_forall_notMem]
    intro index member
    have clear := (mem_freeSet.mp member).2
    rw [show (blankPmm entries).bitmap = fun _ => 0xFF from rfl, blank_bitmap_get] at clear
    cases clear
  rw [empty]
  rfl

structure Reserving (highest total : Nat) (pmm : Pmm) : Prop
    extends Counted highest Pmm.freePages pmm where
  totalPages : pmm.totalRamPages = total
  covered : pmm.freePages ≤ total

theorem Reserving.count_used {highest total : Nat} {pmm : Pmm}
    (reserving : Reserving highest total pmm) : Reserving highest total (countUsed pmm) :=
  ⟨⟨reserving.highestPage, reserving.above, reserving.counted⟩, reserving.totalPages,
    reserving.covered⟩

theorem count_used_total {highest total : Nat} {pmm : Pmm}
    (reserving : Reserving highest total pmm) (bounded : pmm.totalRamPages < 2 ^ 64) :
    (countUsed pmm).usedPages + (countUsed pmm).freePages = (countUsed pmm).totalRamPages := by
  have covered := reserving.covered
  have totalPages := reserving.totalPages
  simp only [countUsed, sub64]
  omega

theorem freeSet_count_used (pmm : Pmm) : freeSet (countUsed pmm) = freeSet pmm := rfl

theorem freeSet_reserve (pmm : Pmm) (index freePages : Nat) :
    freeSet { pmm with bitmap := bitmapSet pmm.bitmap index, freePages := freePages } =
      (freeSet pmm).erase index := by
  ext other
  rw [Finset.mem_erase, mem_freeSet, mem_freeSet]
  simp only [bitmap_get_set, Bool.or_eq_false_iff, decide_eq_false_iff_not]
  tauto

theorem reserve_page_reserving {highest total : Nat} (bounded : highest < pmmBitmapSize * 8)
    (pmm : Pmm) (index : Nat) (reserving : Reserving highest total pmm) :
    Reserving highest total (reservePage pmm index) := by
  unfold reservePage
  split
  · next tracked =>
      have above : ∀ other, highest < other →
          bitmapGet (bitmapSet pmm.bitmap index) other = true := by
        intro other higher
        simp [bitmap_get_set, reserving.above other higher]
      have counted := reserving.counted
      have covered := reserving.covered
      cases taken : bitmapGet pmm.bitmap index with
      | true =>
        have absent : index ∉ freeSet pmm := by
          intro member
          rw [(mem_freeSet.mp member).2] at taken
          cases taken
        refine ⟨⟨reserving.highestPage, above, ?_⟩, reserving.totalPages, ?_⟩
        · rw [freeSet_reserve, Finset.erase_eq_of_notMem absent]
          exact counted
        · exact covered
      | false =>
        have member : index ∈ freeSet pmm := mem_freeSet.mpr ⟨tracked, taken⟩
        have positive := Finset.card_pos.mpr ⟨index, member⟩
        have size := freeSet_card_le pmm
        have highestPage := reserving.highestPage
        have noWrap : pmmBitmapSize * 8 < 2 ^ 64 := by decide
        have decremented : sub64 pmm.freePages 1 = pmm.freePages - 1 := by
          simp only [sub64]
          omega
        refine ⟨⟨reserving.highestPage, above, ?_⟩, reserving.totalPages, ?_⟩
        · rw [freeSet_reserve, Finset.card_erase_of_mem member]
          simp only [Bool.false_eq_true, if_false, decremented]
          omega
        · simp only [Bool.false_eq_true, if_false, decremented]
          omega
  · exact reserving

theorem reserve_range_reserving {highest total : Nat} (bounded : highest < pmmBitmapSize * 8)
    (first last : Nat) (pmm : Pmm) (reserving : Reserving highest total pmm) :
    Reserving highest total (reserveRange first last pmm) :=
  forPages_invariant _ (reserve_page_reserving bounded) _ _ reserving

theorem reserve_page_get (pmm : Pmm) (index other : Nat) (tracked : other ≤ pmm.highestPage) :
    bitmapGet (reservePage pmm index).bitmap other =
      (decide (other = index) || bitmapGet pmm.bitmap other) := by
  unfold reservePage
  split
  · exact bitmap_get_set _ _ _
  · next untracked =>
      have different : other ≠ index := by omega
      simp [different]

/-- A reservation loop sets exactly the tracked pages of its range. -/
theorem reserve_pages_get (count first : Nat) (pmm : Pmm) (index : Nat)
    (tracked : index ≤ pmm.highestPage) :
    bitmapGet (forPages reservePage count first pmm).bitmap index =
      (decide (first ≤ index ∧ index < first + count) || bitmapGet pmm.bitmap index) := by
  induction count generalizing first pmm with
  | zero => simp [forPages]
  | succ count induction =>
    have kept : (reservePage pmm first).highestPage = pmm.highestPage := by
      unfold reservePage
      split <;> rfl
    rw [forPages, induction _ _ (by rw [kept]; exact tracked), reserve_page_get _ _ _ tracked,
      ← Bool.or_assoc, ← Bool.decide_or]
    congr 1
    rw [decide_eq_decide]
    omega

section

variable (entries : List MemmapEntry)

include entries

theorem reclaimed_reserving :
    Reserving (installedHighestPage entries) (reclaimedPmm entries).totalRamPages
      (reclaimedPmm entries) := by
  have counted := reclaim_entries_counted (installed_highest_page_lt entries) entries _
    (blank_counted entries)
  exact ⟨⟨counted.highestPage, counted.above, counted.counted⟩, rfl, Nat.le_refl _⟩

theorem reserved_reserving (layout : KernelLayout) :
    Reserving (installedHighestPage entries) (reclaimedPmm entries).totalRamPages
      (reservedPmm entries layout) := by
  have bounded := installed_highest_page_lt entries
  exact reserve_range_reserving bounded 0 pagesBelow1Mb _
    (reserve_range_reserving bounded (bitmapFirstPage layout) (bitmapLastPage layout) _
      (reserve_range_reserving bounded (kernelFirstPage layout) (kernelLastPage layout) _
        (reclaimed_reserving entries)))

theorem pmm_install_reserving (layout : KernelLayout) :
    Reserving (installedHighestPage entries) (reclaimedPmm entries).totalRamPages
      (pmmInstall entries layout) :=
  (reserved_reserving entries layout).count_used

theorem reserved_total_lt (layout : KernelLayout) :
    (reservedPmm entries layout).totalRamPages < 2 ^ 64 := by
  have counted := reclaim_entries_counted (installed_highest_page_lt entries) entries _
    (blank_counted entries)
  have total : (reclaimedPmm entries).totalRamPages =
      (entries.foldl reclaimEntry (blankPmm entries)).totalRamPages := by
    rw [reclaimedPmm]
  have size := freeSet_card_le (entries.foldl reclaimEntry (blankPmm entries))
  have highest := installed_highest_page_lt entries
  have noWrap : pmmBitmapSize * 8 < 2 ^ 64 := by decide
  rw [(reserved_reserving entries layout).totalPages, total, counted.counted]
  rw [counted.highestPage] at size
  omega

theorem pmm_install_used (layout : KernelLayout) :
    (pmmInstall entries layout).usedPages + (pmmInstall entries layout).freePages =
      (pmmInstall entries layout).totalRamPages :=
  count_used_total (reserved_reserving entries layout) (reserved_total_lt entries layout)

end

/-! ## Where the free pages lie -/

/-- Page `index` lies wholly inside an entry that the installer reclaims. -/
def Reclaims (entry : MemmapEntry) (index : Nat) : Prop :=
  (entry.type = limineMemmapUsable ∨ entry.type = limineMemmapBootloaderReclaimable) ∧
    pageCeil entry.base.toNat / pageSize ≤ index ∧ index < pageFloor (entryTop entry) / pageSize

theorem reclaim_page_highest (pmm : Pmm) (index : Nat) :
    (reclaimPage pmm index).highestPage = pmm.highestPage := by
  unfold reclaimPage
  split <;> rfl

theorem mem_free_reclaim_page {pmm : Pmm} {index page : Nat} :
    page ∈ freeSet (reclaimPage pmm index) ↔
      page ∈ freeSet pmm ∨ (page = index ∧ page ≤ pmm.highestPage) := by
  rw [mem_freeSet, mem_freeSet, reclaim_page_highest]
  unfold reclaimPage
  split
  · simp only [bitmap_get_clear, Bool.and_eq_false_iff, decide_eq_false_iff_not, not_not]
    tauto
  · next kept =>
      -- the page was free before, or is not tracked at all
      constructor
      · exact Or.inl
      · intro reclaimed
        rcases reclaimed with free | ⟨same, tracked⟩
        · exact free
        · subst same
          exact ⟨tracked, by simpa [tracked] using kept⟩

theorem reclaim_pages_highest (count first : Nat) (pmm : Pmm) :
    (forPages reclaimPage count first pmm).highestPage = pmm.highestPage := by
  apply forPages_invariant fun reclaimed => reclaimed.highestPage = pmm.highestPage
  · intro reclaimed index same
    rw [reclaim_page_highest, same]
  · rfl

theorem mem_free_reclaim_pages {count first page : Nat} {pmm : Pmm} :
    page ∈ freeSet (forPages reclaimPage count first pmm) ↔
      page ∈ freeSet pmm ∨
        ((first ≤ page ∧ page < first + count) ∧ page ≤ pmm.highestPage) := by
  induction count generalizing first pmm with
  | zero =>
    rw [forPages]
    constructor
    · exact Or.inl
    · intro free
      rcases free with free | ⟨inside, -⟩
      · exact free
      · omega
  | succ count induction =>
    rw [forPages, induction, mem_free_reclaim_page, reclaim_page_highest, or_assoc,
      ← or_and_right]
    have split : (page = first ∨ (first + 1 ≤ page ∧ page < first + 1 + count)) ↔
        (first ≤ page ∧ page < first + (count + 1)) := by omega
    rw [split]

theorem reclaim_entry_highest (pmm : Pmm) (entry : MemmapEntry) :
    (reclaimEntry pmm entry).highestPage = pmm.highestPage := by
  unfold reclaimEntry
  split
  · dsimp only
    split
    · rfl
    · exact reclaim_pages_highest _ _ _
  · rfl

theorem mem_free_reclaim_entry {entry : MemmapEntry} {page : Nat} {pmm : Pmm} :
    page ∈ freeSet (reclaimEntry pmm entry) ↔
      page ∈ freeSet pmm ∨ (Reclaims entry page ∧ page ≤ pmm.highestPage) := by
  unfold reclaimEntry Reclaims
  split
  · next usable =>
      dsimp only
      split
      · next empty =>
          -- an entry without a whole page
          have ordered := Nat.div_le_div_right (c := pageSize) empty
          constructor
          · exact Or.inl
          · intro free
            rcases free with free | ⟨⟨-, lower, upper⟩, -⟩
            · exact free
            · omega
      · next some =>
          have ordered := Nat.div_le_div_right (c := pageSize) (Nat.le_of_not_le some)
          rw [mem_free_reclaim_pages]
          have inside : (pageCeil entry.base.toNat / pageSize ≤ page ∧
              page < pageCeil entry.base.toNat / pageSize +
                (pageFloor (entryTop entry) / pageSize - pageCeil entry.base.toNat / pageSize)) ↔
              (pageCeil entry.base.toNat / pageSize ≤ page ∧
                page < pageFloor (entryTop entry) / pageSize) := by omega
          rw [inside, and_iff_right usable]
  · next other =>
      constructor
      · exact Or.inl
      · intro free
        exact free.resolve_right fun reclaimed => other reclaimed.1.1

theorem mem_free_reclaim_entries {entries : List MemmapEntry} {page : Nat} {pmm : Pmm} :
    page ∈ freeSet (entries.foldl reclaimEntry pmm) ↔
      page ∈ freeSet pmm ∨ ((∃ entry ∈ entries, Reclaims entry page) ∧ page ≤ pmm.highestPage) := by
  induction entries generalizing pmm with
  | nil => simp
  | cons entry rest induction =>
    rw [List.foldl_cons, induction, mem_free_reclaim_entry, reclaim_entry_highest,
      or_assoc, ← or_and_right]
    simp only [List.mem_cons, exists_eq_or_imp]

theorem reserve_pages_highest (count first : Nat) (pmm : Pmm) :
    (forPages reservePage count first pmm).highestPage = pmm.highestPage := by
  apply forPages_invariant fun reserved => reserved.highestPage = pmm.highestPage
  · intro reserved index same
    unfold reservePage
    split
    · exact same
    · exact same
  · rfl

theorem mem_free_reserve_range {first last page : Nat} {pmm : Pmm} :
    page ∈ freeSet (reserveRange first last pmm) ↔
      page ∈ freeSet pmm ∧ ¬(first ≤ page ∧ page < last) := by
  rw [mem_freeSet, mem_freeSet, reserveRange, reserve_pages_highest]
  have range : (first ≤ page ∧ page < first + (last - first)) ↔
      (first ≤ page ∧ page < last) := by omega
  constructor
  · intro free
    rw [reserve_pages_get _ _ _ _ free.1, Bool.or_eq_false_iff, decide_eq_false_iff_not,
      range] at free
    exact ⟨⟨free.1, free.2.2⟩, free.2.1⟩
  · intro free
    rw [reserve_pages_get _ _ _ _ free.1.1, Bool.or_eq_false_iff, decide_eq_false_iff_not, range]
    exact ⟨free.1.1, free.2, free.1.2⟩

/-- The pages the installation leaves free: tracked, wholly inside a usable or reclaimable
entry, and outside the kernel image, the bitmap and the first mebibyte. -/
structure Released (entries : List MemmapEntry) (layout : KernelLayout) (page : Nat) : Prop where
  reclaimed : ∃ entry ∈ entries, Reclaims entry page
  tracked : page ≤ installedHighestPage entries
  outsideKernel : ¬(kernelFirstPage layout ≤ page ∧ page < kernelLastPage layout)
  outsideBitmap : ¬(bitmapFirstPage layout ≤ page ∧ page < bitmapLastPage layout)
  high : pagesBelow1Mb ≤ page

theorem mem_free_pmm_install {entries : List MemmapEntry} {layout : KernelLayout} {page : Nat} :
    page ∈ freeSet (pmmInstall entries layout) ↔ Released entries layout page := by
  have blank : page ∉ freeSet (blankPmm entries) := by
    intro member
    have clear : bitmapGet (fun _ => 0xFF) page = false := (mem_freeSet.mp member).2
    rw [blank_bitmap_get] at clear
    cases clear
  have reclaimed : page ∈ freeSet (reclaimedPmm entries) ↔
      (∃ entry ∈ entries, Reclaims entry page) ∧ page ≤ installedHighestPage entries := by
    rw [reclaimedPmm]
    change page ∈ freeSet (entries.foldl reclaimEntry (blankPmm entries)) ↔ _
    rw [mem_free_reclaim_entries]
    constructor
    · intro free
      exact free.resolve_left blank
    · exact Or.inr
  rw [pmmInstall, freeSet_count_used, reservedPmm, mem_free_reserve_range,
    mem_free_reserve_range, mem_free_reserve_range, reclaimed]
  constructor
  · intro free
    obtain ⟨⟨⟨⟨inside, tracked⟩, kernel⟩, bitmap⟩, high⟩ := free
    exact ⟨inside, tracked, kernel, bitmap, by omega⟩
  · intro released
    have high := released.high
    exact ⟨⟨⟨⟨released.reclaimed, released.tracked⟩, released.outsideKernel⟩,
      released.outsideBitmap⟩, by omega⟩

end RiriaKernel.PhysicalAllocator
