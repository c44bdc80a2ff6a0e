import RiriaKernel.AddressSpaces
import RiriaKernel.UserProcesses

/-!
# Mapping the framebuffer

`mmap` of `/dev/fb0` asks the device for its physical address and maps as many pages from
there on as the caller wants. The length that the device reports is not looked at.
-/

namespace RiriaKernel.DeviceMappings

open ByteMemory HaltingPrograms KernelState PhysicalAllocator PageTables PageTableForests
open PageTableOperations PageTableWords KernelHeapTables AddressSpaces UserProcesses

/-! ## The pages behind `user_heap_position` -/

/-- The page that the call with number `index` maps. -/
def heapPage (position index : Nat) : Nat := pageOf (add64 position (index * pageSize))

theorem heap_page_lt (position index : Nat) : heapPage position index < 512 ^ 4 := page_of_lt _

/-- A request of less than `2 ^ 32` pages does not come back to a page. -/
theorem heap_page_injective {position left right : Nat} (leftSmall : left < 2 ^ 32)
    (rightSmall : right < 2 ^ 32) (same : heapPage position left = heapPage position right) :
    left = right := by
  unfold heapPage pageOf add64 pageSize at same
  omega

theorem heap_page_zero (position : Nat) : heapPage position 0 = pageOf position := by
  unfold heapPage pageOf add64 pageSize
  omega

theorem heap_page_succ {position index current : Nat}
    (here : pageOf current = heapPage position index) :
    pageOf (add64 current pageSize) = heapPage position (index + 1) := by
  unfold heapPage pageOf add64 pageSize at *
  omega

/-! ## The loop over the pages of a device -/

def deviceWord (data index : Nat) : Nat :=
  pageFloor (add64 data (index * pageSize)) ||| userFlags ||| ptePresent

structure DevicePages (root data position count : Nat) (before after : Memory) : Prop where
  inside : ∀ index, index < count →
    leafWord after root (heapPage position index) = deviceWord data index
  outside : ∀ page, page < 512 ^ 4 → (∀ index, index < count → page ≠ heapPage position index) →
    leafWord after root page = leafWord before root page

section Loop

variable {root data position count : Nat} {before middle after : Memory}

theorem DevicePages.next (pages : DevicePages root data position count before middle)
    (small : count < 2 ^ 32)
    (set : LeafSet {root} root (heapPage position count) (deviceWord data count) middle after) :
    DevicePages root data position (count + 1) before after := by
  have leaf : ∀ page, page < 512 ^ 4 → leafWord after root page =
      if page = heapPage position count then deviceWord data count else leafWord middle root page := by
    intro page bounded
    rw [set root rfl page bounded]
    simp only [true_or, and_true]
  refine ⟨?_, ?_⟩
  · intro index below
    rw [leaf _ (heap_page_lt _ _)]
    by_cases last : index = count
    · rw [last, if_pos rfl]
    · have earlier : index < count := by omega
      rw [if_neg fun same => last (heap_page_injective (earlier.trans small) small same)]
      exact pages.inside index earlier
  · intro page bounded other
    rw [leaf page bounded, if_neg (other count (Nat.lt_succ_self count))]
    exact pages.outside page bounded fun index below => other index (by omega)

end Loop

structure DeviceLoop (held : Set Nat) (data : Nat) (start : Caller) (index : Nat) (now : Caller) :
    Prop where
  tables : Tables {start.process.pagemap} held now.machine.pmm now.machine.phys
  locked : now.machine.locked = start.machine.locked
  pagemap : now.process.pagemap = start.process.pagemap
  place : pageOf now.process.userHeapPosition = heapPage start.process.userHeapPosition index
  budget : (freeSet start.machine.pmm).card ≤ (freeSet now.machine.pmm).card + 3 * index
  pages : DevicePages start.process.pagemap data start.process.userHeapPosition index
    start.machine.phys now.machine.phys

section Mmap

variable {held : Set Nat} {data count : Nat} {start now : Caller}

theorem device_loop_start
    (tables : Tables {start.process.pagemap} held start.machine.pmm start.machine.phys) :
    DeviceLoop held data start 0 start where
  tables := tables
  locked := rfl
  pagemap := rfl
  place := (heap_page_zero _).symm
  budget := Nat.le_add_right _ _
  pages := ⟨fun _ below => absurd below (Nat.not_lt_zero _), fun _ _ _ => rfl⟩

theorem user_flags_small : userFlags < 2 ^ 64 := by decide

theorem ends_mapDevicePage {index : Nat} (small : index < 2 ^ 32)
    (unlockedPmm : start.machine.locked .pmm = false)
    (unlockedVmm : start.machine.locked .vmm = false)
    (loop : DeviceLoop held data start index now) :
    Ends (mapDevicePage data index) (fun _ after => DeviceLoop held data start (index + 1) after)
      (fun _ _ => (freeSet start.machine.pmm).card < 3 * (index + 1)) now := by
  have alone : ∀ other, other ∈ ({start.process.pagemap} : Set Nat) →
      other = start.process.pagemap := fun _ member => member
  have fits : add64 data (index * pageSize) < 2 ^ 64 := Nat.mod_lt _ (by decide)
  have budget := loop.budget
  rw [mapDevicePage, ends_mapAtPosition, loop.pagemap]
  apply ends_mono (ends_vmmMapPage loop.tables rfl (by rw [loop.locked]; exact unlockedPmm)
    (by rw [loop.locked]; exact unlockedVmm) (fun _ => Or.inl alone) fits user_flags_small)
  · intro _ machine mapped
    obtain ⟨-, done⟩ := mapped
    have spent := done.grown.budget
    have set := done.leaf
    rw [loop.place] at set
    refine ⟨done.grown.tables, done.locked.trans loop.locked, ?_, ?_, ?_, loop.pages.next small set⟩
    · rw [Caller.advance_pagemap, loop.pagemap]
    · rw [Caller.advance_position]
      exact heap_page_succ loop.place
    · rw [Caller.advance_machine]
      omega
  · intro _ _ stopped
    have few := stopped.2.1
    omega

theorem ends_mapDevicePages (small : count ≤ 2 ^ 32)
    (tables : Tables {start.process.pagemap} held start.machine.pmm start.machine.phys)
    (unlockedPmm : start.machine.locked .pmm = false)
    (unlockedVmm : start.machine.locked .vmm = false) :
    Ends (forCount (mapDevicePage data) count 0)
      (fun _ after => DeviceLoop held data start count after)
      (fun _ _ => (freeSet start.machine.pmm).card < 3 * count) start := by
  have loop := ends_forCount (DeviceLoop held data start) count 0
    (fun index now _ below loop => ends_mono
      (ends_mapDevicePage (Nat.lt_of_lt_of_le (by omega) small) unlockedPmm unlockedVmm loop)
      (fun _ _ => id)
      (fun _ _ few => show (freeSet start.machine.pmm).card < 3 * count by omega))
    (device_loop_start tables)
  rwa [Nat.zero_add] at loop

end Mmap

/-! ## The pages of the device -/

def InPages (start size frame : Nat) : Prop :=
  ∃ byte, start ≤ byte ∧ byte < start + size ∧ frame = pageFloor byte

def pageCount (start size : Nat) : Nat :=
  if size = 0 then 0 else (start + size - 1) / pageSize + 1 - start / pageSize

section Pages

variable {start size index : Nat}

theorem in_pages_offset :
    InPages start size (pageFloor start + index * pageSize) ↔ index < pageCount start size := by
  unfold InPages pageCount pageFloor pageSize
  constructor
  · intro page
    obtain ⟨byte, above, below, same⟩ := page
    rw [if_neg (by omega)]
    omega
  · intro below
    by_cases empty : size = 0
    · rw [if_pos empty] at below
      omega
    · rw [if_neg empty] at below
      by_cases first : index = 0
      · exact ⟨start, by omega⟩
      · exact ⟨start - start % 4096 + index * 4096, by omega⟩

theorem device_word_eq (limit : start ≤ 2 ^ 52) (small : index < 2 ^ 32) :
    deviceWord start index = (pageFloor start + index * pageSize) ||| (userFlags ||| ptePresent) := by
  have floor : pageFloor (add64 start (index * pageSize)) = pageFloor start + index * pageSize := by
    unfold pageFloor add64 pageSize
    omega
  rw [deviceWord, floor, Nat.or_assoc]

theorem decode_device_word (limit : start ≤ 2 ^ 52) (small : index < 2 ^ 32)
    (physical : pageFloor start + index * pageSize < 2 ^ 52) :
    decode (deviceWord start index) = some (pageFloor start + index * pageSize) := by
  rw [device_word_eq limit small]
  apply decode_or _ physical (by decide) (by decide)
  unfold pageFloor pageSize
  omega

/-- An entry has no room for bit 52 of an address. -/
theorem decode_device_word_limit (limit : start ≤ 2 ^ 52) (small : index < 2 ^ 32)
    (last : pageFloor start + index * pageSize = 2 ^ 52) :
    decode (deviceWord start index) = some 0 := by
  rw [device_word_eq limit small, last]
  decide

theorem device_words_iff {count : Nat} (small : count < 2 ^ 32) (physical : start + size ≤ 2 ^ 52) :
    (∀ index, index < count →
      ∃ frame, decode (deviceWord start index) = some frame ∧ InPages start size frame) ↔
        count ≤ pageCount start size := by
  have limit : start ≤ 2 ^ 52 := by omega
  constructor
  · intro exposed
    by_contra more
    -- the first page behind the device is mapped as well
    have beyond : pageCount start size < count := by omega
    obtain ⟨frame, decoded, inside⟩ := exposed _ beyond
    have end_le : pageFloor start + pageCount start size * pageSize ≤ 2 ^ 52 := by
      unfold pageFloor pageCount pageSize
      split <;> omega
    rcases Nat.lt_or_eq_of_le end_le with below | last
    · rw [decode_device_word limit (beyond.trans small) below, Option.some.injEq] at decoded
      rw [← decoded, in_pages_offset] at inside
      exact Nat.lt_irrefl _ inside
    · rw [decode_device_word_limit limit (beyond.trans small) last, Option.some.injEq] at decoded
      obtain ⟨byte, above, -, same⟩ := inside
      unfold pageFloor pageSize at *
      omega
  · intro fits index below
    have inside := in_pages_offset.mpr (Nat.lt_of_lt_of_le below fits)
    refine ⟨_, decode_device_word limit (below.trans small) ?_, inside⟩
    obtain ⟨byte, -, bounded, same⟩ := inside
    rw [same]
    exact Nat.lt_of_le_of_lt (page_floor_le byte) (Nat.lt_of_lt_of_le bounded physical)

end Pages

/-! ## The system call -/

def fbPhys (files : Files) (machine : Machine) : Nat := sub64 files.fbInfo.addr machine.hhdm

def fbSize (files : Files) : Nat := files.fbInfo.pitch * files.fbInfo.height

theorem mmap_pages_lt (rsi : Nat) : mmapPages rsi < 2 ^ 32 := Nat.mod_lt _ (by decide)

section Syscall

variable {files : Files} {rsi r8 : Nat} {held : Set Nat} {caller : Caller}

theorem descriptor_ne (device : vfsGetFromFd files (toInt r8) = some .framebuffer) :
    toInt r8 ≠ -1 := by
  intro none
  rw [none, vfsGetFromFd, if_pos (Or.inl (by decide))] at device
  cases device

theorem ends_syscallMmap_device
    (tables : Tables {caller.process.pagemap} held caller.machine.pmm caller.machine.phys)
    (unlockedPmm : caller.machine.locked .pmm = false)
    (unlockedVmm : caller.machine.locked .vmm = false)
    (device : vfsGetFromFd files (toInt r8) = some .framebuffer) :
    Ends (syscallMmap files rsi r8)
      (fun _ after => DeviceLoop held (fbPhys files caller.machine) caller (mmapPages rsi) after)
      (fun _ _ => fbPhys files caller.machine = 0 ∨
        (freeSet caller.machine.pmm).card < 3 * mmapPages rsi) caller := by
  have data : vfsSysMmap files caller.machine.hhdm (toInt r8) rsi =
      (fbPhys files caller.machine, fbSize files % 2 ^ 32) := by
    rw [vfsSysMmap, device]
    rfl
  simp only [syscallMmap, ends_bind, ends_get, if_pos (descriptor_ne device), data,
    ends_kernel, ends_assertThat]
  by_cases some : fbPhys files caller.machine ≠ 0
  · rw [if_pos some]
    apply ends_mono (ends_mapDevicePages (mmap_pages_lt rsi).le tables unlockedPmm unlockedVmm)
    · intro _ after loop
      rwa [ends_pure]
    · exact fun _ _ few => Or.inr few
  · rw [if_neg some]
    exact Or.inl (not_not.mp some)

end Syscall

def onePageScreen : Files where
  openFiles := fun fd => if fd = 10 then some .framebuffer else none
  fbInfo := { addr := 0xFFFF8000E0000000, pitch := 4096, height := 1 }

def smallCaller : Caller where
  machine := smallMachine
  process :=
    { process := 0, stack := 0, node := 0, pagemap := 4096, entry := 0x400000,
      userStackTop := 0, userHeapStart := 0x500000, userHeapPosition := 0x500000 }

theorem small_caller_maps {rsi : Nat} (few : mmapPages rsi ≤ 2) :
    ∃ result after, syscallMmap onePageScreen rsi 10 smallCaller = .ok result after ∧
      DeviceLoop ∅ (fbPhys onePageScreen smallCaller.machine) smallCaller (mmapPages rsi) after := by
  have spec : Ends (syscallMmap onePageScreen rsi 10)
      (fun _ after =>
        DeviceLoop ∅ (fbPhys onePageScreen smallCaller.machine) smallCaller (mmapPages rsi) after)
      (fun _ _ => fbPhys onePageScreen smallCaller.machine = 0 ∨
        (freeSet smallCaller.machine.pmm).card < 3 * mmapPages rsi) smallCaller :=
    ends_syscallMmap_device small_machine_tables rfl rfl rfl
  have never : Ends (syscallMmap onePageScreen rsi 10)
      (fun _ after =>
        DeviceLoop ∅ (fbPhys onePageScreen smallCaller.machine) smallCaller (mmapPages rsi) after)
      (fun _ _ => False) smallCaller := by
    apply ends_mono spec (fun _ _ => id)
    intro _ _ stopped
    have many : 2040 ≤ (freeSet smallCaller.machine.pmm).card := small_machine_free
    have placed : fbPhys onePageScreen smallCaller.machine ≠ 0 := by decide
    have short := stopped.resolve_left placed
    omega
  exact never.exists_ok

/-- A successful `mmap` of the framebuffer changes the pages from `user_heap_position` on. It
maps pages of the framebuffer only if no more of them are asked for than there are. -/
theorem mmap_exposes_framebuffer_iff {files : Files} {rsi r8 : Nat} {held : Set Nat}
    {caller : Caller} {result : Int} {after : Caller}
    (tables : Tables {caller.process.pagemap} held caller.machine.pmm caller.machine.phys)
    (unlockedPmm : caller.machine.locked .pmm = false)
    (unlockedVmm : caller.machine.locked .vmm = false)
    (device : vfsGetFromFd files (toInt r8) = some .framebuffer)
    (physical : fbPhys files caller.machine + fbSize files ≤ 2 ^ 52)
    (run : syscallMmap files rsi r8 caller = .ok result after) :
    (∀ page, page < 512 ^ 4 →
      (∀ index, index < mmapPages rsi → page ≠ heapPage caller.process.userHeapPosition index) →
        spacesOf after.machine.phys caller.process.pagemap page =
          spacesOf caller.machine.phys caller.process.pagemap page) ∧
      ((∀ index, index < mmapPages rsi → ∃ frame,
        spacesOf after.machine.phys caller.process.pagemap
          (heapPage caller.process.userHeapPosition index) = some frame ∧
            InPages (fbPhys files caller.machine) (fbSize files) frame) ↔
        mmapPages rsi ≤ pageCount (fbPhys files caller.machine) (fbSize files)) := by
  have loop := (ends_syscallMmap_device tables unlockedPmm unlockedVmm device).returns run
  refine ⟨?_, ?_⟩
  · intro page bounded other
    rw [spacesOf, loop.pages.outside page bounded other, spacesOf]
  · rw [← device_words_iff (mmap_pages_lt rsi) physical]
    refine forall_congr' fun index => forall_congr' fun below => ?_
    rw [spacesOf, loop.pages.inside index below]

theorem mmap_exposes_framebuffer_iff_one_page :
    ∃ result after, syscallMmap onePageScreen 4096 10 smallCaller = .ok result after ∧
      ∃ frame, spacesOf after.machine.phys 4096 (heapPage 0x500000 0) = some frame ∧
        InPages 0xE0000000 4096 frame := by
  obtain ⟨result, after, run, -⟩ := small_caller_maps (show mmapPages 4096 ≤ 2 by decide)
  have exposed := (mmap_exposes_framebuffer_iff small_machine_tables rfl rfl rfl (by decide)
    run).2.mpr (by decide)
  exact ⟨result, after, run, exposed 0 (by decide)⟩

/-- A request for two pages maps the page behind the framebuffer. -/
theorem mmap_exposes_page_behind :
    ∃ result after, syscallMmap onePageScreen 8192 10 smallCaller = .ok result after ∧
      spacesOf smallMachine.phys 4096 0x501 = none ∧
        spacesOf after.machine.phys 4096 0x501 = some 0xE0001000 ∧
          ¬InPages 0xE0000000 4096 0xE0001000 := by
  obtain ⟨result, after, run, loop⟩ := small_caller_maps (show mmapPages 8192 ≤ 2 by decide)
  have second := loop.pages.inside 1 (by decide)
  have page : heapPage 0x500000 1 = 0x501 := by decide
  refine ⟨result, after, run, ?_, ?_, ?_⟩
  · rw [spacesOf, leaf_word_single (small_machine_blank 4096), decode_zero]
  · change leafWord after.machine.phys 4096 (heapPage 0x500000 1) = _ at second
    rw [page] at second
    rw [spacesOf, second]
    decide
  · intro inside
    have offset : InPages 0xE0000000 4096 (pageFloor 0xE0000000 + 1 * pageSize) := inside
    exact absurd (in_pages_offset.mp offset) (by decide)

end RiriaKernel.DeviceMappings
