import RiriaKernel.LockDiscipline
import RiriaKernel.PhysicalBuffers
import RiriaKernel.ProcessSpawning

/-!
# A process starts

With enough free frames and a first block of the heap that is large enough, every startable
image is started. The machine of the last section is one on which this happens.
-/

namespace RiriaKernel.ProcessStarts

open ByteMemory HaltingPrograms KernelState PhysicalAllocator PageTables PageTableForests
open AddressSpaces KernelHeap KernelHeapLayouts KernelHeapTables KernelHeapRuns
open Pagemaps ElfLoader ElfLoaderImages ElfImages UserProcesses UserMemory UserOwnership
open KernelService ProcessSpawning RegionLayouts LockDiscipline ConfinedPrograms

/-! ## Starting a process -/

section Starting

variable {size : Nat} {base : Finset Nat} {users device roots : Set Nat} {ledger : Ledger}
  {machine : Machine} {spawner : UserProcess} {root elfData len : Nat} {image : Image}

theorem request_size_pagemap : requestSize 8 = 32 := by decide

theorem ends_vmmNewPagemap_first (lowPage : 0 ∉ freeSet machine.pmm)
    (unlatched : Unlatched machine) (first : FirstBlock size machine)
    (frames : (freeSet machine.pmm).Nonempty) (fits : 48 ≤ size) :
    Ends vmmNewPagemap
      (fun _ after => FirstBlock (size - 32) after ∧
        after.pmm.highestPage = machine.pmm.highestPage)
      (fun _ _ => False) machine := by
  apply ends_vmmNewPagemap_by lowPage unlatched.pmm unlatched.vmm
    (fun empty _ => frames.ne_empty empty)
  intro page _
  have heapOpen : (halfCreated machine page).locked .heap = false :=
    (half_created_lock (by decide)).trans first.unlocked
  have halfFirst : FirstBlock size (halfCreated machine page) :=
    ⟨first.some, first.block, first.below, heapOpen⟩
  apply ends_mono (ends_kmalloc_first_block halfFirst (by decide)
    (by rw [request_size_pagemap]; exact fits)) _ fun _ _ => id
  rintro pointer after ⟨rfl, -, ⟨memory, rfl⟩, cut⟩
  rw [request_size_pagemap] at cut ⊢
  refine ⟨⟨cut.some, ?_, cut.below, ?_⟩, rfl⟩
  · -- the new pagemap's word lies inside the block that was cut off
    have apart : machine.heap.head + 16 + 8 ≤ machine.heap.head + 32 := by omega
    exact (load64_store64_other (Or.inr apart)).trans cut.block
  · exact (Function.update_of_ne (show Lock.heap ≠ .vmm by decide) false _).trans heapOpen

theorem ends_newProcess_first (first : FirstBlock size machine) (fits : 2 ^ 17 ≤ size)
    {entry pagemap top heap : Nat} :
    Ends (newProcess entry pagemap top heap)
      (fun process after => process.pagemap = pagemap ∧ FirstBlock (size - 66208) after ∧
        ∃ head memory, after = withHeap machine head memory) (fun _ _ => False) machine := by
  have sizes : requestSize processBytes = 624 ∧ requestSize stackSize = 65552 ∧
      requestSize nodeBytes = 32 := by decide
  obtain ⟨processSize, stackBytes, nodeSize⟩ := sizes
  have pointer : ∀ head : Nat, head + 16 ≠ 0 := fun _ => Nat.succ_ne_zero _
  rw [newProcess, ends_bind]
  apply ends_mono (ends_kmalloc_first_block first (by decide) (by omega)) _
    fun _ _ => id
  rintro _ _ ⟨rfl, -, ⟨memory, rfl⟩, second⟩
  rw [ends_bind, ends_assertThat, if_pos (pointer _), ends_bind]
  apply ends_mono (ends_kmalloc_first_block second (by decide) (by omega)) _
    fun _ _ => id
  rintro _ _ ⟨rfl, -, ⟨memory', rfl⟩, third⟩
  rw [ends_bind, ends_assertThat, if_pos (pointer _), ends_bind]
  apply ends_mono (ends_kmalloc_first_block third (by decide) (by omega)) _
    fun _ _ => id
  rintro _ _ ⟨rfl, -, ⟨memory'', rfl⟩, rest⟩
  rw [ends_pure]
  rw [processSize, stackBytes, nodeSize, Nat.sub_sub, Nat.sub_sub] at rest
  exact ⟨rfl, rest, _, _, rfl⟩

def startFrames (image : Image) : Nat := 4 * pageTotal (segments image) + 4 + 16 + 4 * 256

theorem ends_spawnInto_starts (startable : Startable image len)
    (serving : Serving base users device roots ledger machine) (isRoot : root ∈ roots)
    (settled : Settled roots (some spawner) machine)
    (first : FirstBlock size machine) (fits : 2 ^ 17 ≤ size)
    (empty : ∀ page, page < 2 ^ 35 → decode (leafWord machine.phys root page) = none)
    (placed : Placed image elfData len)
    (enough : startFrames image ≤ (freeSet machine.pmm).card) :
    Ends (spawnInto (some spawner) root elfData image len)
      (fun _ after => (freeSet machine.pmm).card ≤ (freeSet after.pmm).card + startFrames image ∧
        after.pmm.highestPage = machine.pmm.highestPage ∧ FirstBlock (size - 66208) after)
      (fun _ _ => False) machine := by
  have tables := serving.balanced.holdings.tables
  have rootNonzero : root ≠ 0 := (tables.frames root (isTable_of_root isRoot)).nonzero
  unfold startFrames at enough ⊢
  have loads := ends_mono (ends_and (ends_elf64Load_gains startable serving isRoot)
    (ends_elf64Load_image tables isRoot serving.unlatched.pmm serving.unlatched.vmm empty placed
      startable.toWellFormed (by omega)))
    (fun _ _ both => And.intro both.1.1 both.2.2.choose_spec.budget) fun _ _ both => both.2
  apply ends_spawnInto_maps startable serving isRoot settled loads
    (fun out => absurd (out.resolve_left (Option.some_ne_none _)) (by omega))
  intro entry ledger' spent third gained _ _ budget
  rw [processCreateUser, ends_bind, ends_assertThat, if_pos rootNonzero]
  apply ends_mono (ends_newProcess_first (first.of_same gained.lower.heap gained.lower.locked) fits) _
    fun _ _ => id
  rintro process after ⟨-, rest, head, memory, rfl⟩
  exact ⟨show _ ≤ (freeSet third.pmm).card + _ by omega, gained.lower.highestPage, rest⟩

/-- With enough memory a startable image is started. -/
theorem ends_processSpawnElf_starts (startable : Startable image len)
    (serving : Serving base users device roots ledger machine)
    (settled : Settled roots (some spawner) machine)
    (first : FirstBlock size machine) (fits : 2 ^ 18 ≤ size)
    (placed : Placed image elfData len)
    (enough : startFrames image + 1 ≤ (freeSet machine.pmm).card) :
    Ends (processSpawnElf (some spawner) elfData image len)
      (fun _ after =>
        (freeSet machine.pmm).card ≤ (freeSet after.pmm).card + (startFrames image + 1) ∧
          after.pmm.highestPage = machine.pmm.highestPage ∧ FirstBlock (size - 32 - 66208) after)
      (fun _ _ => False) machine := by
  have lowPage := serving.balanced.holdings.tables.lowPage
  rw [processSpawnElf, ends_bind]
  apply ends_mono (ends_and (ends_vmmNewPagemap_joins serving)
    (ends_vmmNewPagemap_first lowPage serving.unlatched first (Finset.card_pos.mp (by omega))
      (by omega))) _ fun _ _ both => both.2
  rintro new after ⟨joined, rest, highest⟩
  have budget := joined.budget
  have empty : ∀ page, page < 2 ^ 35 → decode (leafWord after.phys new page) = none := by
    intro page low
    have lower : ¬UpperHalf page := by
      unfold UpperHalf
      omega
    have view := joined.serving.balanced.holdings.view new (Set.mem_insert _ _) page lower
    rw [spacesOf] at view
    rw [view]
    exact created_none _ _ _ lower
  apply ends_mono (ends_spawnInto_starts startable joined.serving (Set.mem_insert _ _)
    (settled.joined serving joined) rest (by omega) empty placed (by omega)) _ fun _ _ => id
  rintro process last ⟨spent, same, left⟩
  exact ⟨by omega, same.trans highest, left⟩

end Starting

/-! ## A machine with room for processes -/

def roomyMachine : Machine :=
  { smallMachine with
    pmm := { smallMachine.pmm with highestPage := 8191, freePages := 8190, totalRamPages := 8192 } }

/-- A kernel that has booted and runs the idle process, which it has made right after its heap was
installed. -/
structure Booted (installed : Machine) (idle : UserProcess) (machine : Machine) : Prop where
  create : processCreate 0 0 installed = .ok idle machine
  whole : FirstBlock (2 ^ 20) installed
  serving : ∀ device : Set Nat, (∀ frame, frame ∈ device → frame / pageSize ∉ freeSet machine.pmm) →
    Serving (freeSet machine.pmm) ∅ device {4096} ⟨∅, spacesOf machine.phys⟩ machine
  settled : Settled {4096} (some idle) machine
  first : FirstBlock (2 ^ 20 - 66208) machine
  pmm : machine.pmm = installed.pmm
  free : 6000 ≤ (freeSet machine.pmm).card
  locked : machine.locked = fun _ => false
  highestPage : machine.pmm.highestPage = 8191
  hhdm : machine.hhdm = 0xFFFF800000000000

/-- A machine with 32 mebibytes boots if most of them are free, and the first two pages are not. -/
theorem machine_boots {pmm : Pmm} (highestPage : pmm.highestPage = 8191)
    (many : 7024 ≤ (freeSet pmm).card) (first : 0 ∉ freeSet pmm) (second : 1 ∉ freeSet pmm) :
    ∃ installed idle machine, heapInstall { smallMachine with pmm } = .ok ⟨⟩ installed ∧
      Booted installed idle machine ∧ freeSet machine.pmm ⊆ freeSet pmm := by
  have root : Frame pmm 4096 := frame_of_taken (by omega) one_ne_zero second
  have tables : Tables {4096} ∅ pmm smallMachine.phys :=
    tables_single root (small_machine_blank _) first (by omega)
  have tracked : pmm.highestPage < pmmBitmapSize * 8 := by
    rw [highestPage]
    decide
  have bare : BeforeHeap { smallMachine with pmm } := ⟨rfl, rfl, tracked, tables, rfl⟩
  obtain ⟨machine, run⟩ := heap_install_returns bare (Nat.le_trans (by decide) many)
  obtain ⟨-, expanded, slot, heapStart, size, -, whole, -⟩ := fresh_heap bare run
  have budget : (freeSet pmm).card ≤ (freeSet machine.pmm).card + 1024 := expanded.budget
  have kernel : machine.kernelPagemap = 4096 := expanded.kernelPagemap
  have highest : machine.pmm.highestPage = 8191 := expanded.highestPage.trans highestPage
  have frames := free_card_le machine.pmm
  rw [highest] at frames
  have creates : Ends (processCreate 0 0)
      (fun idle after => idle.pagemap = 4096 ∧ FirstBlock (2 ^ 20 - 66208) after ∧
        ∃ head memory, after = withHeap machine head memory) (fun _ _ => False) machine := by
    rw [processCreate, ends_bind, ends_get]
    dsimp only
    rw [if_pos rfl, kernel]
    exact ends_newProcess_first whole (by decide)
  obtain ⟨idle, _, create, own, rest, cut, memory, rfl⟩ := creates.exists_ok
  refine ⟨machine, idle, _, run, ⟨create, whole, ?_, ⟨own, ?_⟩, rest, rfl, ?_, expanded.locked,
    highest, expanded.hhdm⟩, expanded.free⟩
  · intro device outside
    refine ⟨balanced_without_users expanded.tables outside, ⟨?_, ?_⟩, kernel, ?_, heapStart, ?_⟩
    · exact congrFun expanded.locked _
    · exact congrFun expanded.locked _
    · change child machine.phys machine.kernelPagemap heapSlot ≠ none
      rw [kernel]
      exact slot
    · change machine.heap.size + _ ≤ _
      rw [size]
      exact (Nat.add_le_add_left (Nat.mul_le_mul_right pageSize frames) _).trans (by decide)
  · intro frame shown
    change decode (leafWord machine.phys idle.pagemap (stackStop - 1)) = some frame at shown
    rw [own, expanded.lower 4096 rfl _ (by decide) stack_page_lower, leaf_word_single
      (small_machine_blank _), decode_zero] at shown
    cases shown
  · change 6000 ≤ (freeSet machine.pmm).card
    omega

theorem roomy_machine_boots : ∃ installed idle machine,
    heapInstall roomyMachine = .ok ⟨⟩ installed ∧ Booted installed idle machine := by
  have free : freeSet roomyMachine.pmm = Finset.Icc 2 8191 := small_bitmap_free rfl
  obtain ⟨installed, idle, machine, run, booted, -⟩ := machine_boots rfl
    (by rw [free, Nat.card_Icc]; decide) (by rw [free, Finset.mem_Icc]; omega)
    (by rw [free, Finset.mem_Icc]; omega)
  exact ⟨installed, idle, machine, run, booted⟩

theorem small_image_heap : imageHeap smallImage = 0x401000 := by
  unfold imageHeap
  rw [small_image_segments]
  decide +kernel

theorem small_image_startable : Startable smallImage 128 where
  toWellFormed := small_image_well_formed
  size := by decide
  heapLower := by
    rw [small_image_heap]
    decide

theorem small_process_starts {size : Nat} {base : Finset Nat} {users device roots : Set Nat}
    {ledger : Ledger} {machine : Machine} {spawner : UserProcess}
    (serving : Serving base users device roots ledger machine)
    (settled : Settled roots (some spawner) machine) (first : FirstBlock size machine)
    (fits : 2 ^ 18 ≤ size) (many : 1049 ≤ (freeSet machine.pmm).card) :
    ∃ process after smaller ledger',
      processSpawnElf (some spawner) 0x100000 smallImage 128 machine = .ok process after ∧
      Spawned base users device roots ledger (some spawner) smallImage machine process smaller ledger'
        after ∧
      (freeSet machine.pmm).card ≤ (freeSet after.pmm).card + 1049 ∧
      after.pmm.highestPage = machine.pmm.highestPage ∧ FirstBlock (size - 66240) after := by
  have frames : startFrames smallImage = 1048 := by
    unfold startFrames
    rw [small_image_segments]
    decide
  obtain ⟨process, after, run, spent, highest, left⟩ := (ends_processSpawnElf_starts
    small_image_startable serving settled first fits small_image_placed (by omega)).exists_ok
  obtain ⟨smaller, ledger', spawned⟩ :=
    (ends_processSpawnElf_spawns small_image_startable serving settled).returns run
  rw [frames] at spent
  rw [Nat.sub_sub] at left
  exact ⟨process, after, smaller, ledger', run, spawned, spent, highest, left⟩

end RiriaKernel.ProcessStarts
