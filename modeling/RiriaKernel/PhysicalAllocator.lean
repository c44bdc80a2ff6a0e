import Mathlib.Data.Nat.Bitwise
import Mathlib.Data.Finset.Card
import Mathlib.Data.Finset.Max
import Mathlib.Order.Interval.Finset.Nat
import Mathlib.Tactic.IntervalCases
import RiriaKernel.KernelState

/-!
# The physical page allocator

`pmm_install`, `pmm_allocate` and `pmm_free` over the byte bitmap of `pmm.c`. A set bit
means the page is taken. The memory map and the linker layout are arbitrary 64-bit
values, so every sum of the installer wraps the way `uintptr_t` does. The lemmas say
what each call does to the set of free pages; runs of calls are in
`PhysicalAllocatorRuns`.
-/

namespace RiriaKernel.PhysicalAllocator

open ByteMemory HaltingPrograms KernelState

def pmmBitmapSize : Nat := 1024 * 1024

def pageBit (index : Nat) : UInt8 := 1 <<< UInt8.ofNat (index % 8)

def bitmapGet (bitmap : Nat → UInt8) (index : Nat) : Bool :=
  bitmap (index / 8) &&& pageBit index != 0

def bitmapSet (bitmap : Nat → UInt8) (index : Nat) : Nat → UInt8 :=
  Function.update bitmap (index / 8) (bitmap (index / 8) ||| pageBit index)

def bitmapClear (bitmap : Nat → UInt8) (index : Nat) : Nat → UInt8 :=
  Function.update bitmap (index / 8) (bitmap (index / 8) &&& ~~~pageBit index)

theorem page_bit_toNat (index : Nat) : (pageBit index).toNat = 2 ^ (index % 8) := by
  have bound : index % 8 < 8 := Nat.mod_lt _ (by decide)
  unfold pageBit
  interval_cases index % 8 <;> rfl

theorem page_bit_not_testBit (index other : Nat) :
    (~~~pageBit index).toNat.testBit (other % 8) = decide (other % 8 ≠ index % 8) := by
  have bound : index % 8 < 8 := Nat.mod_lt _ (by decide)
  have otherBound : other % 8 < 8 := Nat.mod_lt _ (by decide)
  unfold pageBit
  interval_cases index % 8 <;> interval_cases other % 8 <;> rfl

theorem and_page_bit (byte : UInt8) (index : Nat) :
    (byte &&& pageBit index != 0) = byte.toNat.testBit (index % 8) := by
  have masked : (byte &&& pageBit index).toNat =
      (byte.toNat.testBit (index % 8)).toNat * 2 ^ (index % 8) := by
    rw [UInt8.toNat_and, page_bit_toNat, Nat.and_two_pow]
  have vanishes : byte &&& pageBit index = 0 ↔ byte.toNat.testBit (index % 8) = false := by
    rw [← UInt8.toNat_inj, masked]
    cases byte.toNat.testBit (index % 8) <;> simp
  cases bit : byte.toNat.testBit (index % 8) with
  | false => simp [vanishes.mpr bit]
  | true =>
    have nonzero : byte &&& pageBit index ≠ 0 := by
      intro zero
      rw [vanishes.mp zero] at bit
      cases bit
    simpa using nonzero

theorem bitmap_get_eq_testBit (bitmap : Nat → UInt8) (index : Nat) :
    bitmapGet bitmap index = (bitmap (index / 8)).toNat.testBit (index % 8) :=
  and_page_bit _ _

theorem bitmap_get_set (bitmap : Nat → UInt8) (index other : Nat) :
    bitmapGet (bitmapSet bitmap index) other = (decide (other = index) || bitmapGet bitmap other) := by
  rw [bitmap_get_eq_testBit, bitmap_get_eq_testBit, bitmapSet]
  by_cases sameByte : other / 8 = index / 8
  · rw [sameByte, Function.update_self, UInt8.toNat_or, Nat.testBit_or, page_bit_toNat,
      Nat.testBit_two_pow, Bool.or_comm]
    congr 1
    rw [decide_eq_decide]
    omega
  · rw [Function.update_of_ne sameByte]
    have different : other ≠ index := by
      rintro rfl
      exact sameByte rfl
    simp [different]

theorem bitmap_get_clear (bitmap : Nat → UInt8) (index other : Nat) :
    bitmapGet (bitmapClear bitmap index) other =
      (decide (other ≠ index) && bitmapGet bitmap other) := by
  rw [bitmap_get_eq_testBit, bitmap_get_eq_testBit, bitmapClear]
  by_cases sameByte : other / 8 = index / 8
  · rw [sameByte, Function.update_self, UInt8.toNat_and, Nat.testBit_and, page_bit_not_testBit,
      Bool.and_comm]
    congr 1
    rw [decide_eq_decide]
    omega
  · rw [Function.update_of_ne sameByte]
    have different : other ≠ index := by
      rintro rfl
      exact sameByte rfl
    simp [different]

/-- The pages `pmm_allocate` can hand out. -/
def freeSet (pmm : Pmm) : Finset Nat :=
  (Finset.range (pmm.highestPage + 1)).filter fun index => bitmapGet pmm.bitmap index = false

theorem mem_freeSet {pmm : Pmm} {index : Nat} :
    index ∈ freeSet pmm ↔ index ≤ pmm.highestPage ∧ bitmapGet pmm.bitmap index = false := by
  rw [freeSet, Finset.mem_filter, Finset.mem_range, Nat.lt_succ_iff]

theorem exists_least_free {pmm : Pmm} (some : (freeSet pmm).Nonempty) :
    ∃ page, IsLeast (freeSet pmm : Set Nat) page :=
  ⟨_, (freeSet pmm).isLeast_min' some⟩

/-! ## Installation -/

structure MemmapEntry where
  base : UInt64
  length : UInt64
  type : UInt64
  deriving DecidableEq, Repr

def limineMemmapUsable : UInt64 := 0
def limineMemmapBootloaderReclaimable : UInt64 := 5

/-- The addresses `pmm_install` takes from the linker and from the boot loader. -/
structure KernelLayout where
  physicalBase : UInt64
  virtualBase : UInt64
  textBegin : UInt64
  bssEnd : UInt64
  bitmapAddress : UInt64
  deriving DecidableEq, Repr

def entryTop (entry : MemmapEntry) : Nat := add64 entry.base.toNat entry.length.toNat

def highestAddress (entries : List MemmapEntry) : Nat :=
  entries.foldl (fun highest entry => if entryTop entry > highest then entryTop entry else highest) 0

def installedHighestPage (entries : List MemmapEntry) : Nat :=
  let page := sub64 (highestAddress entries) 1 / pageSize
  if page ≥ pmmBitmapSize * 8 then pmmBitmapSize * 8 - 1 else page

/-- `for (page_idx = first; page_idx < first + count; ++page_idx) step`. -/
def forPages (step : Pmm → Nat → Pmm) : (count first : Nat) → Pmm → Pmm
  | 0, _, pmm => pmm
  | count + 1, first, pmm => forPages step count (first + 1) (step pmm first)

def reclaimPage (pmm : Pmm) (index : Nat) : Pmm :=
  if index ≤ pmm.highestPage ∧ bitmapGet pmm.bitmap index then
    { pmm with
      bitmap := bitmapClear pmm.bitmap index
      totalRamPages := add64 pmm.totalRamPages 1 }
  else pmm

def reservePage (pmm : Pmm) (index : Nat) : Pmm :=
  if index ≤ pmm.highestPage then
    { pmm with
      bitmap := bitmapSet pmm.bitmap index
      freePages :=
        if bitmapGet pmm.bitmap index then pmm.freePages else sub64 pmm.freePages 1 }
  else pmm

def reclaimEntry (pmm : Pmm) (entry : MemmapEntry) : Pmm :=
  if entry.type = limineMemmapUsable ∨ entry.type = limineMemmapBootloaderReclaimable then
    let base := pageCeil entry.base.toNat
    let top := pageFloor (entryTop entry)
    if top ≤ base then pmm
    else forPages reclaimPage (top / pageSize - base / pageSize) (base / pageSize) pmm
  else pmm

def reserveRange (first last : Nat) (pmm : Pmm) : Pmm :=
  forPages reservePage (last - first) first pmm

def kernelFirstPage (layout : KernelLayout) : Nat := layout.physicalBase.toNat / pageSize

def kernelLastPage (layout : KernelLayout) : Nat :=
  add64 layout.physicalBase.toNat
    (pageCeil (sub64 layout.bssEnd.toNat layout.textBegin.toNat)) / pageSize

def bitmapPhysStart (layout : KernelLayout) : Nat :=
  add64 (sub64 layout.bitmapAddress.toNat layout.virtualBase.toNat) layout.physicalBase.toNat

def bitmapFirstPage (layout : KernelLayout) : Nat := bitmapPhysStart layout / pageSize

def bitmapLastPage (layout : KernelLayout) : Nat :=
  add64 (add64 (bitmapPhysStart layout) pmmBitmapSize) (pageSize - 1) / pageSize

def pagesBelow1Mb : Nat := 0x100000 / pageSize

/-- The bitmap with every page taken, before any entry of the map is read. -/
def blankPmm (entries : List MemmapEntry) : Pmm where
  bitmap := fun _ => 0xFF
  highestPage := installedHighestPage entries
  usedPages := 0
  freePages := 0
  totalRamPages := 0

def reclaimedPmm (entries : List MemmapEntry) : Pmm :=
  let reclaimed := entries.foldl reclaimEntry (blankPmm entries)
  { reclaimed with freePages := reclaimed.totalRamPages }

def reservedPmm (entries : List MemmapEntry) (layout : KernelLayout) : Pmm :=
  reserveRange 0 pagesBelow1Mb
    (reserveRange (bitmapFirstPage layout) (bitmapLastPage layout)
      (reserveRange (kernelFirstPage layout) (kernelLastPage layout) (reclaimedPmm entries)))

def countUsed (pmm : Pmm) : Pmm :=
  { pmm with usedPages := sub64 pmm.totalRamPages pmm.freePages }

def pmmInstall (entries : List MemmapEntry) (layout : KernelLayout) : Pmm :=
  countUsed (reservedPmm entries layout)

/-! ## Allocation -/

/-- The scan `for (i = start; i < start + count; ++i) if (!BITMAP_GET(i))`. -/
def firstClear (bitmap : Nat → UInt8) : (count start : Nat) → Option Nat
  | 0, _ => none
  | count + 1, start =>
      if bitmapGet bitmap start then firstClear bitmap count (start + 1) else some start

def pmmAllocate : Kernel Nat := do
  irqOff
  spinLock .pmm
  let machine ← get
  match firstClear machine.pmm.bitmap (machine.pmm.highestPage + 1) 0 with
  | some index =>
      set { machine with pmm := { machine.pmm with
        bitmap := bitmapSet machine.pmm.bitmap index
        usedPages := add64 machine.pmm.usedPages 1
        freePages := sub64 machine.pmm.freePages 1 } }
      spinUnlock .pmm
      irqResume
      modify fun machine =>
        { machine with phys := memset machine.phys (index * pageSize) 0 pageSize }
      return index * pageSize
  | none =>
      spinUnlock .pmm
      irqResume
      panicWith "out of memory in pmm_allocate!"

def pmmFree (page : Nat) : Kernel PUnit := do
  require (page ≠ 0) "pmm_free called with NULL pointer!"
  require (page % pageSize = 0) "pmm_free called with unaligned address!"
  let machine ← get
  require (page / pageSize ≤ machine.pmm.highestPage)
    "pmm_free called with out-of-bounds address!"
  require (bitmapGet machine.pmm.bitmap (page / pageSize))
    "pmm_free called on already free page!"
  irqOff
  spinLock .pmm
  modify fun machine => { machine with pmm := { machine.pmm with
    bitmap := bitmapClear machine.pmm.bitmap (page / pageSize)
    usedPages := sub64 machine.pmm.usedPages 1
    freePages := add64 machine.pmm.freePages 1 } }
  spinUnlock .pmm
  irqResume

/-! ## What one call does -/

theorem first_clear_some {bitmap : Nat → UInt8} {count start index : Nat}
    (found : firstClear bitmap count start = some index) :
    start ≤ index ∧ index < start + count ∧ bitmapGet bitmap index = false ∧
      ∀ lower, start ≤ lower → lower < index → bitmapGet bitmap lower = true := by
  induction count generalizing start with
  | zero => simp [firstClear] at found
  | succ count induction =>
    rw [firstClear] at found
    split at found
    · next taken =>
        obtain ⟨lower, upper, clear, before⟩ := induction found
        refine ⟨by omega, by omega, clear, ?_⟩
        intro other otherLower otherUpper
        by_cases first : other = start
        · rw [first, taken]
        · exact before other (by omega) otherUpper
    · next clear =>
        obtain rfl := Option.some.inj found
        exact ⟨Nat.le_refl _, by omega, by simpa using clear, by omega⟩

theorem first_clear_none {bitmap : Nat → UInt8} {count start : Nat}
    (found : firstClear bitmap count start = none) (index : Nat)
    (lower : start ≤ index) (upper : index < start + count) :
    bitmapGet bitmap index = true := by
  induction count generalizing start with
  | zero => omega
  | succ count induction =>
    rw [firstClear] at found
    split at found
    · next taken =>
        by_cases first : index = start
        · rw [first, taken]
        · exact induction found (by omega) (by omega)
    · cases found

def takePage (machine : Machine) (page : Nat) : Machine :=
  { machine with
    pmm := { machine.pmm with
      bitmap := bitmapSet machine.pmm.bitmap page
      usedPages := add64 machine.pmm.usedPages 1
      freePages := sub64 machine.pmm.freePages 1 }
    phys := memset machine.phys (page * pageSize) 0 pageSize
    interrupts := intResume (intDisable machine.interrupts) }

def returnPage (machine : Machine) (page : Nat) : Machine :=
  { machine with
    pmm := { machine.pmm with
      bitmap := bitmapClear machine.pmm.bitmap page
      usedPages := sub64 machine.pmm.usedPages 1
      freePages := add64 machine.pmm.freePages 1 }
    interrupts := intResume (intDisable machine.interrupts) }

theorem relock_unlocked {machine : Machine} {lock : Lock} (unlocked : machine.locked lock = false) :
    Function.update (Function.update machine.locked lock true) lock false = machine.locked := by
  rw [Function.update_idem, ← unlocked, Function.update_eq_self]

/-- `pmm_allocate` returns the lowest free page, or panics when there is none. -/
theorem ends_pmmAllocate {machine : Machine} {returned : Nat → Machine → Prop}
    {stopped : Stop → Machine → Prop} (unlocked : machine.locked .pmm = false)
    (onPage : ∀ page, IsLeast (freeSet machine.pmm : Set Nat) page →
      returned (page * pageSize) (takePage machine page))
    (onFull : freeSet machine.pmm = ∅ →
      stopped (.panic "out of memory in pmm_allocate!")
        { machine with interrupts := intResume (intDisable machine.interrupts) }) :
    Ends pmmAllocate returned stopped machine := by
  simp only [pmmAllocate, ends_bind, ends_irqOff, ends_spinLock, unlocked, ends_get,
    Bool.false_eq_true, if_false]
  cases found : firstClear machine.pmm.bitmap (machine.pmm.highestPage + 1) 0 with
  | some index =>
    obtain ⟨-, upper, clear, before⟩ := first_clear_some found
    have least : IsLeast (freeSet machine.pmm : Set Nat) index := by
      constructor
      · exact mem_freeSet.mpr ⟨by omega, clear⟩
      · intro other member
        by_contra lower
        have taken := before other (Nat.zero_le _) (by omega)
        rw [(mem_freeSet.mp member).2] at taken
        cases taken
    simpa [relock_unlocked unlocked, takePage] using onPage index least
  | none =>
    have empty : freeSet machine.pmm = ∅ := by
      rw [Finset.eq_empty_iff_forall_notMem]
      intro index member
      obtain ⟨bound, clear⟩ := mem_freeSet.mp member
      rw [first_clear_none found index (Nat.zero_le _) (by omega)] at clear
      cases clear
    simpa [relock_unlocked unlocked] using onFull empty

theorem pmm_allocate_of_least {machine : Machine} {page : Nat}
    (unlocked : machine.locked .pmm = false)
    (least : IsLeast (freeSet machine.pmm : Set Nat) page) :
    pmmAllocate machine = .ok (page * pageSize) (takePage machine page) := by
  have ends : Ends pmmAllocate
      (fun address after => address = page * pageSize ∧ after = takePage machine page)
      (fun _ _ => False) machine := by
    apply ends_pmmAllocate unlocked
    · intro other otherLeast
      rw [otherLeast.unique least]
      exact ⟨rfl, rfl⟩
    · intro empty
      have member : page ∈ freeSet machine.pmm := least.1
      rw [empty] at member
      exact absurd member (Finset.notMem_empty page)
  obtain ⟨address, after, run, rfl, rfl⟩ := ends.exists_ok
  exact run

theorem pmm_allocate_of_empty {machine : Machine} (unlocked : machine.locked .pmm = false)
    (empty : freeSet machine.pmm = ∅) :
    pmmAllocate machine = .error (.panic "out of memory in pmm_allocate!")
      { machine with interrupts := intResume (intDisable machine.interrupts) } := by
  have ends : Ends pmmAllocate (fun _ _ => False)
      (fun stop after => stop = .panic "out of memory in pmm_allocate!" ∧
        after = { machine with interrupts := intResume (intDisable machine.interrupts) })
      machine := by
    apply ends_pmmAllocate unlocked
    · intro page least
      have member : page ∈ freeSet machine.pmm := least.1
      rw [empty] at member
      exact absurd member (Finset.notMem_empty page)
    · exact fun _ => ⟨rfl, rfl⟩
  obtain ⟨stop, after, run, rfl, rfl⟩ := ends.exists_error
  exact run

theorem pmm_free_of_taken {machine : Machine} {page : Nat}
    (unlocked : machine.locked .pmm = false) (nonzero : page ≠ 0)
    (bounded : page ≤ machine.pmm.highestPage)
    (taken : bitmapGet machine.pmm.bitmap page = true) :
    pmmFree (page * pageSize) machine = .ok ⟨⟩ (returnPage machine page) := by
  have size : 0 < pageSize := by decide
  have ends : Ends (pmmFree (page * pageSize)) (fun _ after => after = returnPage machine page)
      (fun _ _ => False) machine := by
    simp [pmmFree, ends_spinLock, unlocked, Nat.mul_div_cancel _ size, Nat.mul_mod_left,
      bounded, taken, nonzero, size.ne', relock_unlocked unlocked, returnPage]
  obtain ⟨⟨⟩, after, run, rfl⟩ := ends.exists_ok
  exact run

/-- `pmm_free` gives a taken page back and refuses everything else. -/
theorem ends_pmmFree {machine : Machine} {page : Nat} {returned : PUnit → Machine → Prop}
    {stopped : Stop → Machine → Prop} (unlocked : machine.locked .pmm = false)
    (onTaken : page ≠ 0 → page % pageSize = 0 → page / pageSize ≤ machine.pmm.highestPage →
      bitmapGet machine.pmm.bitmap (page / pageSize) = true →
      returned ⟨⟩ (returnPage machine (page / pageSize)))
    (refused : ∀ message, stopped (.panic message) machine) :
    Ends (pmmFree page) returned stopped machine := by
  by_cases accepted : page ≠ 0 ∧ page % pageSize = 0 ∧
      page / pageSize ≤ machine.pmm.highestPage ∧
      bitmapGet machine.pmm.bitmap (page / pageSize) = true
  · obtain ⟨nonzero, aligned, bounded, taken⟩ := accepted
    have whole : page / pageSize * pageSize = page :=
      Nat.div_mul_cancel (Nat.dvd_of_mod_eq_zero aligned)
    have indexNonzero : page / pageSize ≠ 0 := fun zero => nonzero (by rw [← whole, zero, Nat.zero_mul])
    have run := pmm_free_of_taken unlocked indexNonzero bounded taken
    rw [whole] at run
    rw [ends_of_ok run]
    exact onTaken nonzero aligned bounded taken
  · simp only [pmmFree, ends_bind, ends_require, ends_get]
    split_ifs with nonzero aligned bounded taken
    · exact absurd ⟨nonzero, aligned, bounded, taken⟩ accepted
    all_goals exact refused _

theorem freeSet_takePage (machine : Machine) (page : Nat) :
    freeSet (takePage machine page).pmm = (freeSet machine.pmm).erase page := by
  ext index
  rw [Finset.mem_erase, mem_freeSet, mem_freeSet]
  simp only [takePage, bitmap_get_set, Bool.or_eq_false_iff, decide_eq_false_iff_not]
  tauto

theorem freeSet_returnPage {machine : Machine} {page : Nat}
    (bounded : page ≤ machine.pmm.highestPage) :
    freeSet (returnPage machine page).pmm = insert page (freeSet machine.pmm) := by
  ext index
  rw [Finset.mem_insert, mem_freeSet, mem_freeSet]
  simp only [returnPage, bitmap_get_clear, Bool.and_eq_false_iff, decide_eq_false_iff_not,
    not_not]
  constructor
  · rintro ⟨upper, rfl | clear⟩
    · exact Or.inl rfl
    · exact Or.inr ⟨upper, clear⟩
  · rintro (rfl | ⟨upper, clear⟩)
    · exact ⟨bounded, Or.inl rfl⟩
    · exact ⟨upper, Or.inr clear⟩

end RiriaKernel.PhysicalAllocator
