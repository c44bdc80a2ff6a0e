import RiriaKernel.PhysicalAllocatorInstall

/-!
# Runs of the physical page allocator

A run starts in a state `pmm_install` leaves and takes any number of `pmm_allocate` and
`pmm_free` calls, with arbitrary other activity in between: other code may change every
byte of physical memory, but not the allocator's own variables. The list carried along is
the addresses handed out and not given back. One invariant ties the bitmap, the three
counters and that list together; every statement about a reachable state is read off it.
-/

namespace RiriaKernel.PhysicalAllocatorRuns

open ByteMemory HaltingPrograms KernelState PhysicalAllocator

inductive PmmRun (entries : List MemmapEntry) (layout : KernelLayout) :
    Machine → List Nat → Prop where
  | installed (machine : Machine) (fresh : machine.pmm = pmmInstall entries layout)
      (unlocked : machine.locked .pmm = false) : PmmRun entries layout machine []
  | allocate {machine after : Machine} {held : List Nat} {address : Nat}
      (prior : PmmRun entries layout machine held)
      (run : pmmAllocate machine = .ok address after) :
      PmmRun entries layout after (address :: held)
  | free {machine after : Machine} {held : List Nat} {address : Nat}
      (prior : PmmRun entries layout machine held) (owned : address ∈ held)
      (run : pmmFree address machine = .ok ⟨⟩ after) :
      PmmRun entries layout after (held.erase address)
  | elsewhere {machine after : Machine} {held : List Nat}
      (prior : PmmRun entries layout machine held)
      (samePmm : after.pmm = machine.pmm)
      (sameLock : after.locked .pmm = machine.locked .pmm) :
      PmmRun entries layout after held

structure Accounts (installed : Pmm) (machine : Machine) (held : List Nat) : Prop where
  unlocked : machine.locked .pmm = false
  highestPage : machine.pmm.highestPage = installed.highestPage
  above : ∀ index, installed.highestPage < index → bitmapGet machine.pmm.bitmap index = true
  counted : machine.pmm.freePages = (freeSet machine.pmm).card
  total : machine.pmm.usedPages + machine.pmm.freePages = machine.pmm.totalRamPages
  sameTotal : machine.pmm.totalRamPages = installed.totalRamPages
  stillInstalled : freeSet machine.pmm ⊆ freeSet installed
  heldPages : ∀ address ∈ held, ∃ page, address = page * pageSize ∧
    page ∈ freeSet installed ∧ page ∉ freeSet machine.pmm
  distinct : held.Nodup
  conserved : (freeSet machine.pmm).card + held.length = (freeSet installed).card

structure Installed (pmm : Pmm) : Prop where
  tracked : pmm.highestPage < pmmBitmapSize * 8
  above : ∀ index, pmm.highestPage < index → bitmapGet pmm.bitmap index = true
  counted : pmm.freePages = (freeSet pmm).card
  total : pmm.usedPages + pmm.freePages = pmm.totalRamPages
  totalBounded : pmm.totalRamPages < 2 ^ 64
  high : ∀ page ∈ freeSet pmm, pagesBelow1Mb ≤ page

theorem pmm_install_installed (entries : List MemmapEntry) (layout : KernelLayout) :
    Installed (pmmInstall entries layout) := by
  have reserving := pmm_install_reserving entries layout
  refine ⟨?_, ?_, reserving.counted, pmm_install_used entries layout, ?_,
    fun page member => (mem_free_pmm_install.mp member).high⟩
  · rw [reserving.highestPage]
    exact installed_highest_page_lt entries
  · intro index higher
    rw [reserving.highestPage] at higher
    exact reserving.above index higher
  · rw [reserving.totalPages, ← (reserved_reserving entries layout).totalPages]
    exact reserved_total_lt entries layout

theorem page_address_injective {left right : Nat} (same : left * pageSize = right * pageSize) :
    left = right :=
  Nat.eq_of_mul_eq_mul_right (by decide) same

section Steps

variable {installed : Pmm} {machine : Machine} {held : List Nat}

theorem accounts_allocate (promises : Installed installed) (accounts : Accounts installed machine held)
    {page : Nat} (member : page ∈ freeSet machine.pmm) :
    Accounts installed (takePage machine page) (page * pageSize :: held) := by
  have size := freeSet_takePage machine page
  have positive := Finset.card_pos.mpr ⟨page, member⟩
  have erased := Finset.card_erase_of_mem member
  have counted := accounts.counted
  have total := accounts.total
  have sameTotal := accounts.sameTotal
  have totalBounded := promises.totalBounded
  have freeLess : (takePage machine page).pmm.freePages = machine.pmm.freePages - 1 := by
    simp only [takePage, sub64]
    omega
  have usedMore : (takePage machine page).pmm.usedPages = machine.pmm.usedPages + 1 := by
    simp only [takePage, add64]
    omega
  refine ⟨accounts.unlocked, accounts.highestPage, ?_, ?_, ?_, sameTotal, ?_, ?_, ?_, ?_⟩
  · intro index higher
    simp [takePage, bitmap_get_set, accounts.above index higher]
  · rw [freeLess, size, erased, counted]
  · rw [freeLess, usedMore]
    change machine.pmm.usedPages + 1 + (machine.pmm.freePages - 1) = machine.pmm.totalRamPages
    omega
  · rw [size]
    exact (Finset.erase_subset _ _).trans accounts.stillInstalled
  · intro address owned
    rw [size]
    cases List.mem_cons.mp owned with
    | inl new =>
      exact ⟨page, new, accounts.stillInstalled member, Finset.notMem_erase page _⟩
    | inr old =>
      obtain ⟨other, rfl, wasFree, taken⟩ := accounts.heldPages address old
      exact ⟨other, rfl, wasFree, fun remains => taken (Finset.mem_of_mem_erase remains)⟩
  · rw [List.nodup_cons]
    refine ⟨?_, accounts.distinct⟩
    intro old
    obtain ⟨other, same, -, taken⟩ := accounts.heldPages _ old
    rw [page_address_injective same] at member
    exact taken member
  · rw [size, erased, List.length_cons]
    have conserved := accounts.conserved
    omega

theorem accounts_free (promises : Installed installed) (accounts : Accounts installed machine held)
    {page : Nat} (owned : page * pageSize ∈ held) :
    page ≠ 0 ∧ page ≤ machine.pmm.highestPage ∧ bitmapGet machine.pmm.bitmap page = true ∧
      Accounts installed (returnPage machine page) (held.erase (page * pageSize)) := by
  obtain ⟨other, same, wasFree, taken⟩ := accounts.heldPages _ owned
  obtain rfl := page_address_injective same
  have tracked : page ≤ machine.pmm.highestPage := by
    rw [accounts.highestPage]
    exact (mem_freeSet.mp wasFree).1
  have set : bitmapGet machine.pmm.bitmap page = true := by
    cases bit : bitmapGet machine.pmm.bitmap page with
    | true => rfl
    | false => exact absurd (mem_freeSet.mpr ⟨tracked, bit⟩) taken
  have high := promises.high page wasFree
  have low : 0 < pagesBelow1Mb := by decide
  refine ⟨by omega, tracked, set, ?_⟩
  have size := freeSet_returnPage tracked
  have grown := Finset.card_insert_of_notMem taken
  have length := List.length_erase_of_mem owned
  have some := List.length_pos_of_mem owned
  have counted := accounts.counted
  have total := accounts.total
  have sameTotal := accounts.sameTotal
  have conserved := accounts.conserved
  have totalBounded := promises.totalBounded
  have installedTotal := promises.total
  have installedCounted := promises.counted
  have freeMore : (returnPage machine page).pmm.freePages = machine.pmm.freePages + 1 := by
    simp only [returnPage, add64]
    omega
  have usedLess : (returnPage machine page).pmm.usedPages = machine.pmm.usedPages - 1 := by
    simp only [returnPage, sub64]
    omega
  refine ⟨accounts.unlocked, accounts.highestPage, ?_, ?_, ?_, sameTotal, ?_, ?_, ?_, ?_⟩
  · intro index higher
    have different : index ≠ page := by
      rw [accounts.highestPage] at tracked
      omega
    simp [returnPage, bitmap_get_clear, different, accounts.above index higher]
  · rw [freeMore, size, grown, counted]
  · rw [freeMore, usedLess]
    change machine.pmm.usedPages - 1 + (machine.pmm.freePages + 1) = machine.pmm.totalRamPages
    omega
  · rw [size]
    exact Finset.insert_subset wasFree accounts.stillInstalled
  · intro address remains
    rw [accounts.distinct.mem_erase_iff] at remains
    obtain ⟨other, rfl, otherFree, otherTaken⟩ := accounts.heldPages address remains.2
    refine ⟨other, rfl, otherFree, ?_⟩
    rw [size, Finset.mem_insert]
    intro cases
    cases cases with
    | inl equal => exact remains.1 (by rw [equal])
    | inr free => exact otherTaken free
  · exact accounts.distinct.erase _
  · rw [size, grown, length]
    omega

end Steps

theorem pmm_run_accounts {entries : List MemmapEntry} {layout : KernelLayout}
    {machine : Machine} {held : List Nat} (run : PmmRun entries layout machine held) :
    Accounts (pmmInstall entries layout) machine held := by
  have promises := pmm_install_installed entries layout
  induction run with
  | installed machine fresh unlocked =>
    rw [← fresh] at promises ⊢
    exact ⟨unlocked, rfl, promises.above, promises.counted, promises.total, rfl,
      Finset.Subset.refl _, by simp, List.nodup_nil, by simp⟩
  | @allocate machine after held address prior run accounts =>
    have ends : Ends pmmAllocate
        (fun address after => Accounts (pmmInstall entries layout) after (address :: held))
        (fun _ _ => True) machine :=
      ends_pmmAllocate accounts.unlocked
        (fun page least => accounts_allocate promises accounts least.1) (fun _ => trivial)
    exact ends.returns run
  | @free machine after held address prior owned run accounts =>
    obtain ⟨page, rfl, -, -⟩ := accounts.heldPages address owned
    obtain ⟨nonzero, tracked, taken, next⟩ := accounts_free promises accounts owned
    rw [pmm_free_of_taken accounts.unlocked nonzero tracked taken] at run
    cases run
    exact next
  | elsewhere prior samePmm sameLock accounts =>
    refine ⟨?_, ?_, ?_, ?_, ?_, ?_, ?_, ?_, accounts.distinct, ?_⟩ <;>
      simp only [samePmm, sameLock]
    · exact accounts.unlocked
    · exact accounts.highestPage
    · exact accounts.above
    · exact accounts.counted
    · exact accounts.total
    · exact accounts.sameTotal
    · exact accounts.stillInstalled
    · exact accounts.heldPages
    · exact accounts.conserved

structure FreshPage (entries : List MemmapEntry) (layout : KernelLayout) (machine : Machine)
    (held : List Nat) (address : Nat) (after : Machine) : Prop where
  lowest : IsLeast (freeSet machine.pmm : Set Nat) (address / pageSize)
  aligned : address % pageSize = 0
  high : 0x100000 ≤ address
  cleared : ∀ offset, offset < pageSize → after.phys (address + offset) = 0
  installed : address / pageSize ∈ freeSet (pmmInstall entries layout)
  exclusive : address ∉ held

theorem pmm_run_fresh_page {entries : List MemmapEntry} {layout : KernelLayout}
    {machine after : Machine} {held : List Nat} {address : Nat}
    (run : PmmRun entries layout machine held)
    (allocated : pmmAllocate machine = .ok address after) :
    FreshPage entries layout machine held address after := by
  have accounts := pmm_run_accounts run
  have promises := pmm_install_installed entries layout
  have ends : Ends pmmAllocate (FreshPage entries layout machine held) (fun _ _ => True)
      machine := by
    apply ends_pmmAllocate accounts.unlocked
    · intro page least
      have wasFree := accounts.stillInstalled least.1
      have high := promises.high page wasFree
      have low : pagesBelow1Mb * pageSize = 0x100000 := by decide
      have size : 0 < pageSize := by decide
      refine ⟨?_, Nat.mul_mod_left _ _, ?_, ?_, ?_, ?_⟩
      · rwa [Nat.mul_div_cancel _ size]
      · rw [← low]
        exact Nat.mul_le_mul_right _ high
      · intro offset bound
        simp only [takePage]
        rw [memset_apply, if_pos (by omega)]
      · rwa [Nat.mul_div_cancel _ size]
      · intro owned
        obtain ⟨other, same, -, taken⟩ := accounts.heldPages _ owned
        rw [page_address_injective same] at least
        exact taken least.1
    · exact fun _ => trivial
  exact ends.returns allocated

/-- The allocator's invariant in every reachable state: the counters agree with the bitmap,
an allocation returns a cleared page that nobody holds and panics exactly when no page is
free, and giving a held page back succeeds. -/
theorem pmm_runs_keep_accounts (entries : List MemmapEntry) (layout : KernelLayout)
    (machine : Machine) (held : List Nat) (run : PmmRun entries layout machine held) :
    machine.pmm.freePages = (freeSet machine.pmm).card ∧
      machine.pmm.usedPages + machine.pmm.freePages = machine.pmm.totalRamPages ∧
      (∀ index, machine.pmm.highestPage < index → bitmapGet machine.pmm.bitmap index = true) ∧
      (∀ address after, pmmAllocate machine = .ok address after →
        FreshPage entries layout machine held address after) ∧
      ((∃ after, pmmAllocate machine = .error (.panic "out of memory in pmm_allocate!") after) ↔
        machine.pmm.freePages = 0) ∧
      (machine.pmm.freePages ≠ 0 → ∃ address after, pmmAllocate machine = .ok address after) ∧
      (∀ address ∈ held, ∃ after, pmmFree address machine = .ok ⟨⟩ after) := by
  have accounts := pmm_run_accounts run
  have promises := pmm_install_installed entries layout
  have returns : machine.pmm.freePages ≠ 0 →
      ∃ address after, pmmAllocate machine = .ok address after := by
    intro some
    rw [accounts.counted] at some
    have nonempty := Finset.card_pos.mp (Nat.pos_of_ne_zero some)
    obtain ⟨page, least⟩ := exists_least_free nonempty
    exact ⟨_, _, pmm_allocate_of_least accounts.unlocked least⟩
  refine ⟨accounts.counted, accounts.total, ?_, ?_, ?_, returns, ?_⟩
  · rw [accounts.highestPage]
    exact accounts.above
  · intro address after allocated
    exact pmm_run_fresh_page run allocated
  · constructor
    · intro stopped
      obtain ⟨after, stopped⟩ := stopped
      by_contra some
      obtain ⟨address, other, allocated⟩ := returns some
      rw [allocated] at stopped
      cases stopped
    · intro none
      rw [accounts.counted, Finset.card_eq_zero] at none
      exact ⟨_, pmm_allocate_of_empty accounts.unlocked none⟩
  · intro address owned
    obtain ⟨page, rfl, -, -⟩ := accounts.heldPages address owned
    obtain ⟨nonzero, tracked, taken, -⟩ := accounts_free promises accounts owned
    exact ⟨_, pmm_free_of_taken accounts.unlocked nonzero tracked taken⟩

/-- A machine with cleared memory, no lock taken and a given page allocator. -/
def machineWith (pmm : Pmm) : Machine where
  pmm := pmm
  phys := fun _ => 0
  hhdm := 0xFFFF800000000000
  kernelPagemap := 0
  heap := { start := 0, size := 0, head := 0, memory := fun _ => 0 }
  interrupts := { syncDepth := 0, syncWasEnabled := true, enabled := true }
  locked := fun _ => false

def twoMebibyteMap : List MemmapEntry :=
  [{ base := 0x1000, length := 0x9F000, type := 0 },
    { base := 0x100000, length := 0x100000, type := 0 }]

def lowLayout : KernelLayout where
  physicalBase := 0x100000
  virtualBase := 0xFFFFFFFF80000000
  textBegin := 0xFFFFFFFF80001000
  bssEnd := 0xFFFFFFFF80009000
  bitmapAddress := 0xFFFFFFFF80004000

def fourMebibytes : List MemmapEntry := [{ base := 0x100000, length := 0x300000, type := 0 }]

theorem four_mebibytes_free :
    freeSet (pmmInstall fourMebibytes lowLayout) = Finset.Ico 516 1024 := by
  have highest : installedHighestPage fourMebibytes = 1023 := by decide
  have kernel : kernelFirstPage lowLayout = 256 ∧ kernelLastPage lowLayout = 264 := by decide
  have bitmap : bitmapFirstPage lowLayout = 260 ∧ bitmapLastPage lowLayout = 516 := by decide
  have low : pagesBelow1Mb = 256 := by decide
  ext page
  rw [mem_free_pmm_install, Finset.mem_Ico]
  constructor
  · intro released
    obtain ⟨-, tracked, outsideKernel, outsideBitmap, high⟩ := released
    omega
  · intro inside
    exact ⟨⟨_, List.mem_cons_self, Or.inl rfl, inside.1.trans' (by decide), inside.2⟩, by omega,
      by omega, by omega, by omega⟩

/-- Two pages are taken, the first one is given back and taken again. -/
theorem run_reuses_page {entries : List MemmapEntry} {layout : KernelLayout} {machine : Machine}
    {page stop : Nat} (fresh : machine.pmm = pmmInstall entries layout)
    (unlocked : machine.locked .pmm = false) (free : freeSet machine.pmm = Finset.Ico page stop)
    (positive : page ≠ 0) (room : page + 1 < stop) :
    ∃ after, PmmRun entries layout after [page * pageSize, (page + 1) * pageSize] ∧
      freeSet after.pmm = Finset.Ico (page + 2) stop := by
  have member : page ∈ freeSet machine.pmm := by
    rw [free, Finset.mem_Ico]
    omega
  let one := takePage machine page
  let two := takePage one (page + 1)
  have oneFree : freeSet one.pmm = Finset.Ico (page + 1) stop := by
    rw [freeSet_takePage, free]
    grind
  have twoFree : freeSet two.pmm = Finset.Ico (page + 2) stop := by
    rw [freeSet_takePage, oneFree]
    grind
  have tracked : page ≤ two.pmm.highestPage := (mem_freeSet.mp member).1
  have backFree : freeSet (returnPage two page).pmm = insert page (Finset.Ico (page + 2) stop) := by
    rw [freeSet_returnPage tracked, twoFree]
  have least : ∀ {first : Nat}, first < stop → IsLeast (Finset.Ico first stop : Set Nat) first :=
    fun below => by simpa using isLeast_Ico below
  have taken : bitmapGet two.pmm.bitmap page = true := by
    simp [two, one, takePage, bitmap_get_set]
  have given := PmmRun.free (.allocate (.allocate (.installed _ fresh unlocked)
    (pmm_allocate_of_least unlocked (free ▸ least (by omega))))
    (pmm_allocate_of_least unlocked (oneFree ▸ least room)))
    (List.mem_cons_of_mem _ List.mem_cons_self) (pmm_free_of_taken unlocked positive tracked taken)
  rw [show [(page + 1) * pageSize, page * pageSize].erase (page * pageSize) =
    [(page + 1) * pageSize] by simp [pageSize]] at given
  refine ⟨takePage (returnPage two page) page, ?_, ?_⟩
  · exact .allocate given (pmm_allocate_of_least unlocked
      (backFree ▸ ⟨by simp, by simp [lowerBounds]; omega⟩))
  · rw [freeSet_takePage, backFree]
    grind

theorem pmm_runs_keep_accounts_reused : ∃ machine,
    PmmRun fourMebibytes lowLayout machine [516 * pageSize, 517 * pageSize] ∧
      machine.pmm.freePages = 506 ∧
      machine.pmm.usedPages + machine.pmm.freePages = machine.pmm.totalRamPages ∧
      ∃ address after, pmmAllocate machine = .ok address after := by
  obtain ⟨machine, run, free⟩ := @run_reuses_page _ _ (machineWith _) _ _ rfl rfl
    four_mebibytes_free (by decide) (by decide)
  obtain ⟨counted, total, -, -, -, returns, -⟩ := pmm_runs_keep_accounts _ _ _ _ run
  rw [free, Nat.card_Ico] at counted
  exact ⟨machine, run, counted, total, returns (by omega)⟩

end RiriaKernel.PhysicalAllocatorRuns
