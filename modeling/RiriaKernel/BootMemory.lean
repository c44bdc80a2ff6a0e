import RiriaKernel.PhysicalAllocatorRuns

/-!
# Memory the boot loader still uses

`pmm_install` makes the pages of BOOTLOADER_RECLAIMABLE entries free together with those of
usable ones. The boot loader's responses lie in such entries, and the kernel keeps reading
them: the direct map's offset on every use of `VMM_HIGHER_HALF`, the memory map itself in
`vmm_install`. The structures are a set of physical bytes here, wherever the boot loader put
them. The allocator takes the lowest free page, so a free page is handed out, and cleared,
once the lower ones are gone.
-/

namespace RiriaKernel.BootMemory

open KernelState PhysicalAllocator PhysicalAllocatorRuns

def LiesIn (entry : MemmapEntry) (byte : Nat) : Prop :=
  entry.base.toNat ≤ byte ∧ byte < entry.base.toNat + entry.length.toNat

/-- The page at `address` holds a byte of `structures`. -/
def Overlaps (structures : Set Nat) (address : Nat) : Prop :=
  ∃ byte ∈ structures, address ≤ byte ∧ byte < address + pageSize

theorem overlaps_page {structures : Set Nat} {page : Nat} :
    Overlaps structures (page * pageSize) ↔ ∃ byte ∈ structures, byte / pageSize = page := by
  unfold Overlaps pageSize
  constructor
  · intro overlap
    obtain ⟨byte, member, lower, upper⟩ := overlap
    exact ⟨byte, member, by omega⟩
  · intro inside
    obtain ⟨byte, member, same⟩ := inside
    exact ⟨byte, member, by omega, by omega⟩

/-- Allocating over and over reaches every free page: the induction is on how many pages are
free, since a call that returns another page takes that one away. -/
theorem pmm_run_reaches {entries : List MemmapEntry} {layout : KernelLayout} {page : Nat}
    (count : Nat) {machine : Machine} {held : List Nat} (run : PmmRun entries layout machine held)
    (size : (freeSet machine.pmm).card = count) (free : page ∈ freeSet machine.pmm) :
    ∃ machine held after, PmmRun entries layout machine held ∧
      pmmAllocate machine = .ok (page * pageSize) after := by
  induction count generalizing machine held with
  | zero =>
    rw [Finset.card_eq_zero.mp size] at free
    exact absurd free (Finset.notMem_empty page)
  | succ count induction =>
    have accounts := pmm_run_accounts run
    obtain ⟨least, isLeast⟩ := exists_least_free ⟨page, free⟩
    have allocated := pmm_allocate_of_least accounts.unlocked isLeast
    by_cases same : least = page
    · rw [same] at allocated
      exact ⟨machine, held, _, run, allocated⟩
    · have shrunk := freeSet_takePage machine least
      apply induction (PmmRun.allocate run allocated)
      · rw [shrunk, Finset.card_erase_of_mem isLeast.1]
        omega
      · rw [shrunk]
        exact Finset.mem_erase.mpr ⟨Ne.symm same, free⟩

/-- No page `pmm_allocate` ever returns holds a byte of the boot loader's structures exactly
when none of their pages is one the installation makes free. -/
theorem boot_structures_kept_iff (entries : List MemmapEntry) (layout : KernelLayout)
    (structures : Set Nat) :
    (∀ machine held address after, PmmRun entries layout machine held →
        pmmAllocate machine = .ok address after → ¬Overlaps structures address) ↔
      ∀ byte ∈ structures, ¬Released entries layout (byte / pageSize) := by
  constructor
  · intro kept byte member released
    have start : PmmRun entries layout (machineWith (pmmInstall entries layout)) [] :=
      PmmRun.installed _ rfl rfl
    obtain ⟨machine, held, after, run, allocated⟩ :=
      pmm_run_reaches _ start rfl (mem_free_pmm_install.mpr released)
    exact kept machine held _ after run allocated (overlaps_page.mpr ⟨byte, member, rfl⟩)
  · intro kept machine held address after run allocated overlap
    have fresh := pmm_run_fresh_page run allocated
    have aligned : address / pageSize * pageSize = address :=
      Nat.div_mul_cancel (Nat.dvd_of_mod_eq_zero fresh.aligned)
    rw [← aligned] at overlap
    obtain ⟨byte, member, same⟩ := overlaps_page.mp overlap
    apply kept byte member
    rw [same]
    exact mem_free_pmm_install.mp fresh.installed

def reclaimableMap : List MemmapEntry :=
  [{ base := 0x100000, length := 0x200000, type := 0 },
    { base := 0x300000, length := 0x200000, type := limineMemmapBootloaderReclaimable }]

/-- A response at the start of the reclaimable entry is overwritten. -/
theorem boot_structure_cleared :
    ∃ entry ∈ reclaimableMap, entry.type = limineMemmapBootloaderReclaimable ∧
      LiesIn entry 0x300010 ∧
      ∃ machine held address after, PmmRun reclaimableMap lowLayout machine held ∧
        pmmAllocate machine = .ok address after ∧ Overlaps {0x300010} address ∧
        after.phys 0x300010 = 0 := by
  have released : Released reclaimableMap lowLayout 0x300 := by
    refine ⟨⟨{ base := 0x300000, length := 0x200000, type := 5 }, by decide, by decide, ?_⟩,
      ?_, ?_, ?_, ?_⟩ <;> decide
  have start : PmmRun reclaimableMap lowLayout
      (machineWith (pmmInstall reclaimableMap lowLayout)) [] := PmmRun.installed _ rfl rfl
  obtain ⟨machine, held, after, run, allocated⟩ :=
    pmm_run_reaches _ start rfl (mem_free_pmm_install.mpr released)
  have cleared := (pmm_run_fresh_page run allocated).cleared 0x10 (by decide)
  exact ⟨{ base := 0x300000, length := 0x200000, type := 5 }, by decide, rfl,
    by unfold LiesIn; decide, machine, held, _, after, run, allocated,
    overlaps_page.mpr ⟨0x300010, rfl, by decide⟩, cleared⟩

end RiriaKernel.BootMemory
