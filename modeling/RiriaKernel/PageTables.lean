import Mathlib.Data.Nat.Bitwise
import RiriaKernel.PhysicalAllocator
import RiriaKernel.RadixForests

/-!
# Four-level page tables

The table walks of `vmm.c`. A pagemap is represented by the physical address of its PML4,
and a `NULL` one by zero, which the page allocator never hands out. Entries are 64-bit
words in physical memory. Translation caches are not modelled, so `vmm_invalidate_page`
has no counterpart.
-/

namespace RiriaKernel.PageTables

open ByteMemory KernelState PhysicalAllocator

def ptePresent : Nat := 1 <<< 0
def pteWritable : Nat := 1 <<< 1
def pteUser : Nat := 1 <<< 2
def pteNx : Nat := 1 <<< 63

def pteAddrMask : Nat := 0x000ffffffffff000

def pteGetAddr (entry : Nat) : Nat := entry &&& pteAddrMask

def entryAddress (table index : Nat) : Nat := table + 8 * index

def entryAt (phys : Memory) (table index : Nat) : Nat := load64 phys (entryAddress table index)

def readEntry (table index : Nat) : Kernel Nat := do
  return entryAt (← get).phys table index

def writeEntry (table index value : Nat) : Kernel PUnit :=
  modify fun machine =>
    { machine with phys := store64 machine.phys (entryAddress table index) value }

def pml4Index (virt : Nat) : Nat := (virt >>> 39) &&& 0x1FF
def pdptIndex (virt : Nat) : Nat := (virt >>> 30) &&& 0x1FF
def pdIndex (virt : Nat) : Nat := (virt >>> 21) &&& 0x1FF
def ptIndex (virt : Nat) : Nat := (virt >>> 12) &&& 0x1FF

def vmmIsTableEmpty (phys : Memory) (table : Nat) : Bool :=
  (List.range 512).all fun index => entryAt phys table index == 0

def vmmGetNextLevel (current index : Nat) (allocate : Bool) (allocEntryFlags : Nat) :
    Kernel (Option Nat) := do
  let entry ← readEntry current index
  if entry &&& ptePresent ≠ 0 then return some (pteGetAddr entry)
  else if allocate = false then return none
  else
    let nextLevel ← pmmAllocate
    require (nextLevel ≠ 0) "failed to allocate page for vmm_get_next_level"
    modify fun machine =>
      { machine with phys := memset machine.phys nextLevel 0 pageSize }
    let newEntryFlags :=
      if allocEntryFlags ≠ 0 then allocEntryFlags else ptePresent ||| pteWritable
    writeEntry current index (nextLevel ||| newEntryFlags)
    return some nextLevel

/-- The `fail` label of `vmm_map_page`. -/
def mapFailure : Kernel Bool := do
  spinUnlock .vmm
  panicWith "vmm_map_page failure"

def allocFlags (flags : Nat) : Nat :=
  if flags &&& pteUser ≠ 0 then ptePresent ||| pteWritable ||| pteUser
  else ptePresent ||| pteWritable

def vmmMapPage (pagemap virt phys flags : Nat) : Kernel Bool := do
  let virt := pageFloor virt
  let phys := pageFloor phys
  spinLock .vmm
  if pagemap = 0 then mapFailure
  else
    match ← vmmGetNextLevel pagemap (pml4Index virt) true (allocFlags flags) with
    | none => mapFailure
    | some pdpt =>
        match ← vmmGetNextLevel pdpt (pdptIndex virt) true (allocFlags flags) with
        | none => mapFailure
        | some pd =>
            match ← vmmGetNextLevel pd (pdIndex virt) true (allocFlags flags) with
            | none => mapFailure
            | some pt =>
                writeEntry pt (ptIndex virt) (phys ||| flags ||| ptePresent)
                spinUnlock .vmm
                return true

/-- The pruning part of `vmm_unmap_page`, from the page table up. -/
def pruneTables (virt pml4 pdpt pd pt pdptEntry pdEntry ptEntry : Nat) : Kernel PUnit := do
  if vmmIsTableEmpty (← get).phys pt then
    writeEntry pd (pdIndex virt) 0
    pmmFree (pteGetAddr ptEntry)
    if vmmIsTableEmpty (← get).phys pd then
      writeEntry pdpt (pdptIndex virt) 0
      pmmFree (pteGetAddr pdEntry)
      if vmmIsTableEmpty (← get).phys pdpt then
        if pml4Index virt ≥ 256 then return ⟨⟩
        else
          writeEntry pml4 (pml4Index virt) 0
          pmmFree (pteGetAddr pdptEntry)

def vmmUnmapPage (pagemap virt : Nat) : Kernel Bool := do
  require (virt % pageSize = 0) "page not aligned in vmm_unmap_page"
  match ← vmmGetNextLevel pagemap (pml4Index virt) false 0 with
  | none => return true
  | some pdpt =>
      let pdptEntry ← readEntry pagemap (pml4Index virt)
      match ← vmmGetNextLevel pdpt (pdptIndex virt) false 0 with
      | none => return true
      | some pd =>
          let pdEntry ← readEntry pdpt (pdptIndex virt)
          match ← vmmGetNextLevel pd (pdIndex virt) false 0 with
          | none => return true
          | some pt =>
              let ptEntry ← readEntry pd (pdIndex virt)
              if (← readEntry pt (ptIndex virt)) &&& ptePresent = 0 then return true
              else
                spinLock .vmm
                writeEntry pt (ptIndex virt) 0
                pruneTables virt pagemap pdpt pd pt pdptEntry pdEntry ptEntry
                spinUnlock .vmm
                return true

def vmmVirtToPhys (pagemap virt : Nat) : Kernel Nat := do
  match ← vmmGetNextLevel pagemap (pml4Index virt) false 0 with
  | none => return 0
  | some pdpt =>
      match ← vmmGetNextLevel pdpt (pdptIndex virt) false 0 with
      | none => return 0
      | some pd =>
          match ← vmmGetNextLevel pd (pdIndex virt) false 0 with
          | none => return 0
          | some pt =>
              let entry ← readEntry pt (ptIndex virt)
              if entry &&& ptePresent = 0 then return 0
              else return pteGetAddr entry + virt % pageSize

/-! ## Words of an entry -/

def BlankTable (phys : Memory) (table : Nat) : Prop :=
  ∀ index, index < 512 → entryAt phys table index = 0

theorem is_table_empty_iff (phys : Memory) (table : Nat) :
    vmmIsTableEmpty phys table = true ↔ BlankTable phys table := by
  simp [vmmIsTableEmpty, BlankTable]

attribute [irreducible] vmmIsTableEmpty

theorem present_iff (entry : Nat) : entry &&& ptePresent ≠ 0 ↔ entry % 2 = 1 := by
  rw [ptePresent, Nat.shiftLeft_zero, Nat.and_one_is_mod]
  omega

theorem pte_get_addr_eq (entry : Nat) : pteGetAddr entry = entry / 4096 % 2 ^ 40 * 4096 := by
  have mask : pteAddrMask = (2 ^ 40 - 1) <<< 12 := by decide
  have shifted : entry / 4096 % 2 ^ 40 * 4096 = ((entry >>> 12) &&& (2 ^ 40 - 1)) <<< 12 := by
    rw [Nat.and_two_pow_sub_one_eq_mod, Nat.shiftLeft_eq, Nat.shiftRight_eq_div_pow]
  rw [shifted, pteGetAddr, mask]
  apply Nat.eq_of_testBit_eq
  intro bit
  rw [Nat.testBit_and, Nat.testBit_shiftLeft, Nat.testBit_shiftLeft, Nat.testBit_and,
    Nat.testBit_shiftRight]
  by_cases high : 12 ≤ bit
  · simp [high]
  · simp [high]

theorem pte_get_addr_aligned (entry : Nat) : pteGetAddr entry % pageSize = 0 := by
  rw [pte_get_addr_eq]
  exact Nat.mul_mod_left _ _

theorem index_eq (virt shift : Nat) : (virt >>> shift) &&& 0x1FF = virt / 2 ^ shift % 512 := by
  rw [show (0x1FF : Nat) = 2 ^ 9 - 1 by decide, Nat.and_two_pow_sub_one_eq_mod,
    Nat.shiftRight_eq_div_pow]

theorem pte_get_addr_or {address flags : Nat} (aligned : address % pageSize = 0)
    (small : address < 2 ^ 52) (disjoint : flags &&& pteAddrMask = 0) :
    pteGetAddr (address ||| flags) = address := by
  have whole : pteGetAddr address = address := by
    rw [pte_get_addr_eq]
    unfold pageSize at aligned
    omega
  have masked : flags &&& pteAddrMask = 0 := disjoint
  rw [pteGetAddr] at whole ⊢
  rw [Nat.and_or_distrib_right, whole, masked, Nat.or_zero]

end RiriaKernel.PageTables
