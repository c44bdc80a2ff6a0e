import Mathlib.Data.Set.Card
import RiriaKernel.BootMemory

/-!
# What `pmm_install` should compute

The memory the installer is meant to hand out, in terms of the bytes each entry of the memory
map covers: a page is memory when it lies wholly inside a usable or reclaimable entry. The
installer rounds an entry's base up in 64 bits, which wraps for a base in the last page of the
address space; such an entry then reaches down to page zero. The kernel image is reserved by
the distance from `_text_begin` to `_bss_end`, which is less than what is loaded at
`physical_base` when sections lie in front of the text.
-/

namespace RiriaKernel.InstalledMemory

open KernelState PhysicalAllocator PhysicalAllocatorRuns BootMemory

/-! ## The highest tracked page -/

def Tops (entries : List MemmapEntry) : Set Nat :=
  {top | ∃ entry ∈ entries, top = entry.base.toNat + entry.length.toNat}

def Fits (entry : MemmapEntry) : Prop := entry.base.toNat + entry.length.toNat < 2 ^ 64

theorem entry_top_fits {entry : MemmapEntry} (fits : Fits entry) :
    entryTop entry = entry.base.toNat + entry.length.toNat :=
  Nat.mod_eq_of_lt fits

theorem highest_fold (entries : List MemmapEntry) (start : Nat) :
    let highest := entries.foldl
      (fun highest entry => if entryTop entry > highest then entryTop entry else highest) start
    start ≤ highest ∧ (∀ entry ∈ entries, entryTop entry ≤ highest) ∧
      (highest = start ∨ ∃ entry ∈ entries, highest = entryTop entry) := by
  induction entries generalizing start with
  | nil => simp
  | cons entry entries induction =>
    obtain ⟨above, bounds, attained⟩ :=
      induction (if entryTop entry > start then entryTop entry else start)
    have next : start ≤ (if entryTop entry > start then entryTop entry else start) ∧
        entryTop entry ≤ (if entryTop entry > start then entryTop entry else start) := by
      split <;> omega
    simp only [List.foldl_cons, List.mem_cons, forall_eq_or_imp, exists_eq_or_imp]
    refine ⟨next.1.trans above, ⟨next.2.trans above, bounds⟩, ?_⟩
    rcases attained with same | later
    · rw [same]
      split
      · exact Or.inr (Or.inl rfl)
      · exact Or.inl rfl
    · exact Or.inr (Or.inr later)

theorem highest_address_isGreatest {entries : List MemmapEntry} (some : entries ≠ [])
    (fits : ∀ entry ∈ entries, Fits entry) : IsGreatest (Tops entries) (highestAddress entries) := by
  obtain ⟨-, bounds, attained⟩ := highest_fold entries 0
  constructor
  · rcases attained with zero | ⟨entry, member, same⟩
    · -- every top is zero, the first one included
      obtain ⟨entry, member⟩ := List.exists_mem_of_ne_nil entries some
      have bound := bounds entry member
      refine ⟨entry, member, ?_⟩
      rw [← entry_top_fits (fits entry member)]
      exact le_antisymm (by rw [highestAddress, zero]; exact Nat.zero_le _) bound
    · exact ⟨entry, member, same.trans (entry_top_fits (fits entry member))⟩
  · intro top isTop
    obtain ⟨entry, member, same⟩ := isTop
    rw [same, ← entry_top_fits (fits entry member)]
    exact bounds entry member

theorem installed_highest_page_eq {entries : List MemmapEntry} (small : highestAddress entries < 2 ^ 64)
    (positive : 0 < highestAddress entries) :
    installedHighestPage entries =
      min ((highestAddress entries - 1) / pageSize) (8 * pmmBitmapSize - 1) := by
  have lower : sub64 (highestAddress entries) 1 = highestAddress entries - 1 := by
    unfold sub64
    omega
  unfold installedHighestPage
  rw [lower]
  dsimp only
  split <;> omega

theorem installed_highest_page_zero {entries : List MemmapEntry} (zero : highestAddress entries = 0) :
    installedHighestPage entries = 8 * pmmBitmapSize - 1 := by
  have wrapped : sub64 (highestAddress entries) 1 / pageSize = 2 ^ 52 - 1 := by
    rw [zero]
    decide
  unfold installedHighestPage
  rw [wrapped]
  decide

/-! ## The pages of the memory map -/

def Reclaimable (entry : MemmapEntry) : Prop :=
  entry.type = limineMemmapUsable ∨ entry.type = limineMemmapBootloaderReclaimable

def InMemory (entries : List MemmapEntry) (page : Nat) : Prop :=
  ∃ entry ∈ entries, Reclaimable entry ∧ entry.base.toNat ≤ page * pageSize ∧
    (page + 1) * pageSize ≤ entry.base.toNat + entry.length.toNat

/-- Rounding the entry's base up does not leave the address space. -/
def Rounds (entry : MemmapEntry) : Prop := entry.base.toNat ≤ 2 ^ 64 - pageSize

theorem reclaims_of_inside {entry : MemmapEntry} {page : Nat} (fits : Fits entry)
    (lower : entry.base.toNat ≤ page * pageSize)
    (upper : (page + 1) * pageSize ≤ entry.base.toNat + entry.length.toNat)
    (reclaimable : Reclaimable entry) : Reclaims entry page := by
  refine ⟨reclaimable, ?_, ?_⟩
  · unfold Fits at fits
    unfold pageCeil pageFloor add64 pageSize at *
    omega
  · rw [entry_top_fits fits]
    unfold pageFloor pageSize at *
    omega

theorem inside_of_reclaims {entry : MemmapEntry} {page : Nat} (fits : Fits entry)
    (rounds : Rounds entry) (reclaims : Reclaims entry page) :
    Reclaimable entry ∧ entry.base.toNat ≤ page * pageSize ∧
      (page + 1) * pageSize ≤ entry.base.toNat + entry.length.toNat := by
  obtain ⟨reclaimable, lower, upper⟩ := reclaims
  rw [entry_top_fits fits] at upper
  unfold Rounds at rounds
  refine ⟨reclaimable, ?_, ?_⟩
  · unfold pageCeil pageFloor add64 pageSize at *
    omega
  · unfold pageFloor pageSize at *
    omega

theorem reclaims_everything {entry : MemmapEntry} {page : Nat} (fits : Fits entry)
    (reclaimable : Reclaimable entry) (wraps : ¬Rounds entry) (low : page < 2 ^ 52 - 1) :
    Reclaims entry page := by
  unfold Rounds at wraps
  refine ⟨reclaimable, ?_, ?_⟩
  · have bound := entry.base.toNat_lt
    unfold pageCeil pageFloor add64 pageSize at *
    omega
  · rw [entry_top_fits fits]
    unfold Fits at fits
    unfold pageFloor pageSize at *
    omega

/-! ## The installed state -/

def bitmapBytes (layout : KernelLayout) : Set Nat :=
  {byte | bitmapPhysStart layout ≤ byte ∧ byte < bitmapPhysStart layout + pmmBitmapSize}

/-- The free set and the counters `pmm_install` is meant to leave. -/
structure Computes (entries : List MemmapEntry) (layout : KernelLayout) (pmm : Pmm) : Prop where
  highestPage : ∀ top, IsGreatest (Tops entries) top →
    pmm.highestPage = min ((top - 1) / pageSize) (8 * pmmBitmapSize - 1)
  clear : ∀ page, bitmapGet pmm.bitmap page = false ↔
    page ≤ pmm.highestPage ∧ InMemory entries page ∧
      ¬(kernelFirstPage layout ≤ page ∧ page < kernelLastPage layout) ∧
      ¬Overlaps (bitmapBytes layout) (page * pageSize) ∧ 256 ≤ page
  total : pmm.totalRamPages = {page | page ≤ pmm.highestPage ∧ InMemory entries page}.ncard
  free : pmm.freePages = {page | bitmapGet pmm.bitmap page = false}.ncard
  used : pmm.usedPages + pmm.freePages = pmm.totalRamPages

theorem bitmap_get_installed {entries : List MemmapEntry} {layout : KernelLayout} {page : Nat} :
    bitmapGet (pmmInstall entries layout).bitmap page = false ↔ Released entries layout page := by
  have reserving := pmm_install_reserving entries layout
  rw [← mem_free_pmm_install, mem_freeSet, reserving.highestPage]
  constructor
  · intro clear
    refine ⟨?_, clear⟩
    by_contra higher
    rw [reserving.above page (Nat.lt_of_not_le higher)] at clear
    cases clear
  · exact And.right

/-- A tracked page is in the bitmap's page range exactly when the bitmap touches it, also for a
bitmap whose end wraps: its pages are then far above the tracked ones. -/
theorem overlaps_bitmap_iff {layout : KernelLayout} {page : Nat}
    (tracked : page < pmmBitmapSize * 8) :
    Overlaps (bitmapBytes layout) (page * pageSize) ↔
      bitmapFirstPage layout ≤ page ∧ page < bitmapLastPage layout := by
  have small : bitmapPhysStart layout < 2 ^ 64 := Nat.mod_lt _ (by decide)
  rw [overlaps_page]
  unfold bitmapBytes bitmapFirstPage bitmapLastPage
  generalize bitmapPhysStart layout = start at small ⊢
  unfold pmmBitmapSize at tracked
  constructor
  · intro touched
    obtain ⟨byte, ⟨lower, upper⟩, same⟩ := touched
    unfold add64 pageSize pmmBitmapSize at *
    omega
  · intro range
    refine ⟨max start (page * pageSize), ⟨le_max_left _ _, ?_⟩, ?_⟩
    · unfold add64 pageSize pmmBitmapSize at *
      omega
    · unfold add64 pageSize pmmBitmapSize at *
      omega

theorem installed_total (entries : List MemmapEntry) (layout : KernelLayout) :
    (pmmInstall entries layout).totalRamPages =
      {page | page ≤ installedHighestPage entries ∧ ∃ entry ∈ entries, Reclaims entry page}.ncard := by
  have counted := reclaim_entries_counted (installed_highest_page_lt entries) entries _
    (blank_counted entries)
  have members : {page | page ≤ installedHighestPage entries ∧ ∃ entry ∈ entries, Reclaims entry page} =
      (freeSet (entries.foldl reclaimEntry (blankPmm entries)) : Set Nat) := by
    ext page
    have blank : page ∉ freeSet (blankPmm entries) := by
      intro member
      have clear : bitmapGet (fun _ => 0xFF) page = false := (mem_freeSet.mp member).2
      rw [blank_bitmap_get] at clear
      cases clear
    rw [Finset.mem_coe, mem_free_reclaim_entries, or_iff_right blank, and_comm]
    rfl
  rw [(pmm_install_reserving entries layout).totalPages, members, Set.ncard_coe_finset]
  exact counted.counted

theorem installed_free (entries : List MemmapEntry) (layout : KernelLayout) :
    (pmmInstall entries layout).freePages =
      {page | bitmapGet (pmmInstall entries layout).bitmap page = false}.ncard := by
  have members : {page | bitmapGet (pmmInstall entries layout).bitmap page = false} =
      (freeSet (pmmInstall entries layout) : Set Nat) := by
    ext page
    exact bitmap_get_installed.trans mem_free_pmm_install.symm
  rw [members, Set.ncard_coe_finset]
  exact (pmm_install_reserving entries layout).counted

theorem computes_of_reclaims {entries : List MemmapEntry} {layout : KernelLayout}
    (some : entries ≠ []) (fits : ∀ entry ∈ entries, Fits entry)
    (positive : 0 < highestAddress entries)
    (same : ∀ page ≤ installedHighestPage entries,
      (∃ entry ∈ entries, Reclaims entry page) ↔ InMemory entries page) :
    Computes entries layout (pmmInstall entries layout) := by
  have reserving := pmm_install_reserving entries layout
  have greatest := highest_address_isGreatest some fits
  have small : highestAddress entries < 2 ^ 64 := by
    obtain ⟨entry, member, top⟩ := greatest.1
    rw [top]
    exact fits entry member
  have limit := installed_highest_page_lt entries
  refine ⟨?_, ?_, ?_, installed_free entries layout, pmm_install_used entries layout⟩
  · intro top isGreatest
    rw [reserving.highestPage, isGreatest.unique greatest]
    exact installed_highest_page_eq small positive
  · intro page
    rw [bitmap_get_installed, reserving.highestPage]
    constructor
    · intro released
      refine ⟨released.tracked, (same page released.tracked).mp released.reclaimed,
        released.outsideKernel, ?_, released.high⟩
      rw [overlaps_bitmap_iff (by have := released.tracked; omega)]
      exact released.outsideBitmap
    · intro free
      obtain ⟨tracked, memory, kernel, bitmap, high⟩ := free
      rw [overlaps_bitmap_iff (by omega)] at bitmap
      exact ⟨(same page tracked).mpr memory, tracked, kernel, bitmap, high⟩
  · rw [installed_total, reserving.highestPage]
    congr 1
    ext page
    exact and_congr_right (same page)

theorem highest_of_wrapping {entries : List MemmapEntry} (some : entries ≠ [])
    (fits : ∀ entry ∈ entries, Fits entry) {entry : MemmapEntry} (member : entry ∈ entries)
    (wraps : ¬Rounds entry) : installedHighestPage entries = 8 * pmmBitmapSize - 1 := by
  obtain ⟨⟨top, topMember, same⟩, bounds⟩ := highest_address_isGreatest some fits
  have bound := bounds ⟨entry, member, rfl⟩
  have small := fits top topMember
  unfold Rounds at wraps
  unfold Fits at small
  rw [installed_highest_page_eq (by omega) (by omega)]
  apply min_eq_right
  unfold pageSize pmmBitmapSize at *
  omega

/-- `pmm_install` computes the memory it should exactly when the memory map does not end at
address zero and rounding no reclaimable entry wraps, or every page of the bitmap is memory
anyway. -/
theorem pmm_install_computes_iff (entries : List MemmapEntry) (layout : KernelLayout)
    (some : entries ≠ []) (fits : ∀ entry ∈ entries, Fits entry) :
    Computes entries layout (pmmInstall entries layout) ↔
      (∃ entry ∈ entries, 0 < entry.base.toNat + entry.length.toNat) ∧
        ((∀ entry ∈ entries, Reclaimable entry → Rounds entry) ∨
          ∀ page < 8 * pmmBitmapSize, InMemory entries page) := by
  have greatest := highest_address_isGreatest some fits
  have reserving := pmm_install_reserving entries layout
  constructor
  · intro computes
    constructor
    · by_contra none
      push Not at none
      have zero : highestAddress entries = 0 := by
        obtain ⟨entry, member, top⟩ := greatest.1
        rw [top]
        exact Nat.le_zero.mp (none entry member)
      have highest := computes.highestPage _ greatest
      rw [reserving.highestPage, installed_highest_page_zero zero, zero] at highest
      revert highest
      decide
    · by_contra neither
      push Not at neither
      obtain ⟨⟨entry, member, reclaimable, wraps⟩, page, low, absent⟩ := neither
      -- the entry makes every tracked page count as memory, this one too
      have highest := highest_of_wrapping some fits member wraps
      have all : {page | page ≤ installedHighestPage entries ∧
          ∃ entry ∈ entries, Reclaims entry page} =
          {page | page ≤ installedHighestPage entries} := by
        ext other
        refine ⟨And.left, fun tracked => ⟨tracked, entry, member, ?_⟩⟩
        apply reclaims_everything (fits entry member) reclaimable wraps
        have tracked : other ≤ installedHighestPage entries := tracked
        unfold pmmBitmapSize at highest
        omega
      have total := computes.total
      rw [installed_total, all, reserving.highestPage] at total
      have subset : {page | page ≤ installedHighestPage entries ∧ InMemory entries page} ⊆
          {page | page ≤ installedHighestPage entries} := fun _ inside => inside.1
      have equal := Set.eq_of_subset_of_ncard_le subset total.le (Set.finite_le_nat _)
      have inside : page ∈ {page | page ≤ installedHighestPage entries} := by
        change page ≤ installedHighestPage entries
        omega
      rw [← equal] at inside
      exact absent inside.2
  · rintro ⟨⟨entry, member, above⟩, rounding⟩
    have positive : 0 < highestAddress entries := above.trans_le (greatest.2 ⟨entry, member, rfl⟩)
    apply computes_of_reclaims some fits positive
    intro page tracked
    constructor
    · intro reclaimed
      rcases rounding with rounds | everything
      · obtain ⟨entry, member, reclaims⟩ := reclaimed
        exact ⟨entry, member, inside_of_reclaims (fits entry member)
          (rounds entry member reclaims.1) reclaims⟩
      · have limit := installed_highest_page_lt entries
        exact everything page (by omega)
    · intro memory
      obtain ⟨entry, member, reclaimable, lower, upper⟩ := memory
      exact ⟨entry, member, reclaims_of_inside (fits entry member) lower upper reclaimable⟩

theorem two_mebibyte_map_computed :
    Computes twoMebibyteMap lowLayout (pmmInstall twoMebibyteMap lowLayout) := by
  apply (pmm_install_computes_iff twoMebibyteMap lowLayout (by decide)
    (by unfold Fits; decide)).mpr
  refine ⟨by decide, Or.inl ?_⟩
  unfold Reclaimable Rounds
  decide

def lastBytes : MemmapEntry := { base := 0xFFFFFFFFFFFFFF9C, length := 50, type := 0 }

/-- With those fifty bytes as the only memory, a page without any memory is free. -/
theorem last_bytes_free_everything :
    Fits lastBytes ∧ 0x300 ∈ freeSet (pmmInstall [lastBytes] lowLayout) ∧
      ¬InMemory [lastBytes] 0x300 ∧
      ¬Computes [lastBytes] lowLayout (pmmInstall [lastBytes] lowLayout) := by
  have released : Released [lastBytes] lowLayout 0x300 := by
    refine ⟨⟨lastBytes, List.mem_singleton_self _, ?_⟩, by decide, by decide, by decide, by decide⟩
    unfold Reclaims
    decide
  have absent : ¬InMemory [lastBytes] 0x300 := by
    rintro ⟨entry, member, -, lower, -⟩
    rw [List.mem_singleton.mp member] at lower
    revert lower
    decide
  refine ⟨by unfold Fits; decide, mem_free_pmm_install.mpr released, absent, ?_⟩
  intro computes
  exact absent ((computes.clear 0x300).mp (bitmap_get_installed.mpr released)).2.1

/-! ## The kernel image -/

/-- The physical bytes of the image `vmm_install` maps, from `virtual_base` to `_bss_end`. -/
def imageBytes (layout : KernelLayout) : Set Nat :=
  {byte | layout.physicalBase.toNat ≤ byte ∧
    byte < layout.physicalBase.toNat + (layout.bssEnd.toNat - layout.virtualBase.toNat)}

/-- No page of the image is free after the installation, and none is ever allocated. -/
structure ImageReserved (layout : KernelLayout) (entries : List MemmapEntry) : Prop where
  installed : ∀ page ∈ freeSet (pmmInstall entries layout),
    ¬Overlaps (imageBytes layout) (page * pageSize)
  allocated : ∀ machine held address after, PmmRun entries layout machine held →
    pmmAllocate machine = .ok address after → ¬Overlaps (imageBytes layout) address

theorem image_reserved_of_installed {layout : KernelLayout} {entries : List MemmapEntry}
    (installed : ∀ page ∈ freeSet (pmmInstall entries layout),
      ¬Overlaps (imageBytes layout) (page * pageSize)) : ImageReserved layout entries := by
  refine ⟨installed, ?_⟩
  intro machine held address after run allocated
  have fresh := pmm_run_fresh_page run allocated
  have aligned : address / pageSize * pageSize = address :=
    Nat.div_mul_cancel (Nat.dvd_of_mod_eq_zero fresh.aligned)
  rw [← aligned]
  exact installed _ fresh.installed

def onePageMap (page : Nat) : List MemmapEntry :=
  [{ base := UInt64.ofNat (page * pageSize), length := 4096, type := limineMemmapUsable }]

theorem one_page_map_reclaims {page : Nat} (tracked : page < 8 * pmmBitmapSize) :
    (∃ entry ∈ onePageMap page, Reclaims entry page) ∧
      page ≤ installedHighestPage (onePageMap page) := by
  have base : (UInt64.ofNat (page * pageSize)).toNat = page * pageSize := by
    rw [UInt64.toNat_ofNat']
    unfold pageSize pmmBitmapSize at *
    omega
  have fits : ∀ entry ∈ onePageMap page, Fits entry := by
    intro entry member
    rw [List.mem_singleton.mp member, Fits, base]
    change page * pageSize + 4096 < 2 ^ 64
    unfold pageSize pmmBitmapSize at *
    omega
  have greatest := highest_address_isGreatest (by simp [onePageMap]) fits
  have top : highestAddress (onePageMap page) = page * pageSize + 4096 := by
    obtain ⟨entry, member, same⟩ := greatest.1
    rw [same, List.mem_singleton.mp member, base]
    rfl
  constructor
  · refine ⟨_, List.mem_singleton_self _, reclaims_of_inside (fits _ (List.mem_singleton_self _))
      ?_ ?_ (Or.inl rfl)⟩
    · rw [base]
    · rw [base]
      change (page + 1) * pageSize ≤ page * pageSize + 4096
      unfold pageSize
      omega
  · have small : highestAddress (onePageMap page) < 2 ^ 64 := by
      unfold pageSize pmmBitmapSize at *
      omega
    rw [installed_highest_page_eq small (by omega), top]
    unfold pageSize pmmBitmapSize at *
    omega

/-- The image is reserved under every memory map exactly when each of its tracked pages behind
the reserved range lies in the bitmap or in the first mebibyte. The range ends where the image
would end if it started at `_text_begin`. -/
theorem image_reserved_iff (layout : KernelLayout) :
    (∀ entries, ImageReserved layout entries) ↔
      ∀ page, Overlaps (imageBytes layout) (page * pageSize) → kernelLastPage layout ≤ page →
        256 ≤ page → page < 8 * pmmBitmapSize →
        Overlaps (bitmapBytes layout) (page * pageSize) := by
  constructor
  · intro reserved page image behind high tracked
    by_contra outside
    rw [overlaps_bitmap_iff (by omega)] at outside
    obtain ⟨reclaimed, highest⟩ := one_page_map_reclaims tracked
    have released : Released (onePageMap page) layout page :=
      ⟨reclaimed, highest, by omega, outside, high⟩
    exact (reserved _).installed page (mem_free_pmm_install.mpr released) image
  · intro covered entries
    apply image_reserved_of_installed
    intro page member image
    have released := mem_free_pmm_install.mp member
    have limit := installed_highest_page_lt entries
    have tracked := released.tracked
    have first : kernelFirstPage layout ≤ page := by
      obtain ⟨byte, ⟨lower, -⟩, same⟩ := overlaps_page.mp image
      rw [← same]
      exact Nat.div_le_div_right lower
    have behind : kernelLastPage layout ≤ page := by
      by_contra before
      exact released.outsideKernel ⟨first, Nat.lt_of_not_le before⟩
    have touched := covered page image behind released.high (by omega)
    rw [overlaps_bitmap_iff (by omega)] at touched
    exact released.outsideBitmap touched

/-- One page of boot loader requests in front of the text, the bitmap inside the bss. -/
def requestLayout : KernelLayout where
  physicalBase := 0x200000
  virtualBase := 0xFFFFFFFF80000000
  textBegin := 0xFFFFFFFF80001000
  bssEnd := 0xFFFFFFFF80106000
  bitmapAddress := 0xFFFFFFFF80004000

def fourMebibyteMap : List MemmapEntry :=
  [{ base := 0x100000, length := 0x400000, type := limineMemmapUsable }]

/-- The last page of that image is free after the installation, and a run of allocations
returns it. -/
theorem image_last_page_allocated :
    requestLayout.virtualBase ≤ requestLayout.textBegin ∧
      requestLayout.textBegin ≤ requestLayout.bssEnd ∧
      Overlaps (imageBytes requestLayout) (0x305 * pageSize) ∧
      0x305 ∈ freeSet (pmmInstall fourMebibyteMap requestLayout) ∧
      ∃ machine held after, PmmRun fourMebibyteMap requestLayout machine held ∧
        pmmAllocate machine = .ok (0x305 * pageSize) after := by
  have released : Released fourMebibyteMap requestLayout 0x305 := by
    refine ⟨⟨_, List.mem_singleton_self _, ?_⟩, by decide, by decide, by decide, by decide⟩
    unfold Reclaims
    decide
  have free := mem_free_pmm_install.mpr released
  have start : PmmRun fourMebibyteMap requestLayout
      (machineWith (pmmInstall fourMebibyteMap requestLayout)) [] := PmmRun.installed _ rfl rfl
  refine ⟨by decide, by decide, overlaps_page.mpr ⟨0x305000, ?_, by decide⟩, free,
    pmm_run_reaches _ start rfl free⟩
  unfold imageBytes
  decide

end RiriaKernel.InstalledMemory
