import RiriaKernel.AddressSpaces
import RiriaKernel.ElfLoader

/-!
# What the loader's loops do

The pages of a segment are backed by frames that the loader has just taken, so its two
filling loops are writes to virtual memory: byte `k` of the target gets byte `k` of the
source and nothing else changes.
-/

namespace RiriaKernel.ElfLoaderSteps

open ByteMemory HaltingPrograms KernelState PhysicalAllocator PageTables
open PageTableForests PageTableOperations PageTableWords ElfLoader

/-! ## Virtual memory backed by frames -/

/-- Where a virtual address lies when `frameOf` gives the frame of its page. -/
def place (frameOf : Nat → Nat) (virt : Nat) : Nat := frameOf (virt / pageSize) + virt % pageSize

/-- The pages from `first` on are backed by distinct frames that are held. -/
structure Backed (held : Set Nat) (phys : Memory) (root : Nat) (frameOf : Nat → Nat)
    (first count : Nat) : Prop where
  decoded : ∀ page, first ≤ page → page < first + count →
    decode (leafWord phys root page) = some (frameOf page)
  owned : ∀ page, first ≤ page → page < first + count → frameOf page ∈ held
  distinct : ∀ left right, first ≤ left → left < first + count → first ≤ right →
    right < first + count → frameOf left = frameOf right → left = right
  lower : first + count ≤ 2 ^ 35

section Places

variable {roots held : Set Nat} {pmm : Pmm} {phys : Memory} {root first count : Nat}
  {frameOf : Nat → Nat}

theorem page_of_lower {virt : Nat} (lower : virt / pageSize < 2 ^ 35) :
    pageOf virt = virt / pageSize := by
  unfold pageOf pageSize at *
  omega

theorem Backed.translate_eq (backed : Backed held phys root frameOf first count) {virt : Nat}
    (above : first ≤ virt / pageSize) (below : virt / pageSize < first + count) :
    translate phys root virt = place frameOf virt := by
  rw [PageTableForests.translate, page_of_lower (Nat.lt_of_lt_of_le below backed.lower),
    backed.decoded _ above below]
  rfl

theorem place_floor {virt : Nat} (aligned : frameOf (virt / pageSize) % pageSize = 0) :
    pageFloor (place frameOf virt) = frameOf (virt / pageSize) := by
  have inside : virt % pageSize < pageSize := Nat.mod_lt _ (by decide)
  unfold pageFloor place pageSize at *
  omega

theorem Backed.place_injective (backed : Backed held phys root frameOf first count)
    (aligned : ∀ address, address ∈ held → address % pageSize = 0) {left right : Nat}
    (leftAbove : first ≤ left / pageSize) (leftBelow : left / pageSize < first + count)
    (rightAbove : first ≤ right / pageSize) (rightBelow : right / pageSize < first + count)
    (same : place frameOf left = place frameOf right) : left = right := by
  have leftAligned := aligned _ (backed.owned _ leftAbove leftBelow)
  have rightAligned := aligned _ (backed.owned _ rightAbove rightBelow)
  have frames : frameOf (left / pageSize) = frameOf (right / pageSize) := by
    rw [← place_floor leftAligned, ← place_floor rightAligned, same]
  have pages := backed.distinct _ _ leftAbove leftBelow rightAbove rightBelow frames
  unfold place at same
  unfold pageSize at *
  omega

end Places

/-! ## Filling -/

structure Filled (frameOf : Nat → Nat) (virt len : Nat) (source : Nat → UInt8)
    (before after : Memory) : Prop where
  inside : ∀ index, index < len → after (place frameOf (virt + index)) = source index
  outside : ∀ address, (∀ index, index < len → address ≠ place frameOf (virt + index)) →
    after address = before address

def FillsWith (fill : Nat → Nat → Nat → Kernel PUnit) (source : Nat → UInt8) : Prop :=
  ∀ filled dest chunk machine, fill filled dest chunk machine = .ok ⟨⟩
    { machine with phys := copyIn machine.phys dest (fun index => source (filled + index)) chunk }

theorem chunk_size_bounds (virt : Nat) {remaining : Nat} (some : 0 < remaining) :
    0 < chunkSize virt remaining ∧ chunkSize virt remaining ≤ remaining ∧
      virt % pageSize + chunkSize virt remaining ≤ pageSize := by
  have inside : virt % pageSize < pageSize := Nat.mod_lt _ (by decide)
  unfold chunkSize
  simp only
  split <;> omega

theorem place_add (frameOf : Nat → Nat) {virt index : Nat} (inside : virt % pageSize + index < pageSize) :
    place frameOf (virt + index) = place frameOf virt + index := by
  have page : (virt + index) / pageSize = virt / pageSize := by
    unfold pageSize at *
    omega
  have offset : (virt + index) % pageSize = virt % pageSize + index := by
    unfold pageSize at *
    omega
  rw [place, place, page, offset, Nat.add_assoc]

section Filling

variable {roots held : Set Nat} {root first count virt len : Nat} {frameOf : Nat → Nat}
  {source : Nat → UInt8} {start machine : Machine}

structure FillState (frameOf : Nat → Nat) (virt filled : Nat) (source : Nat → UInt8)
    (start machine : Machine) : Prop where
  same : machine = { start with phys := machine.phys }
  filled : Filled frameOf virt filled source start.phys machine.phys

structure Range (first count virt len : Nat) : Prop where
  above : first * pageSize ≤ virt
  below : virt + len ≤ (first + count) * pageSize

theorem Range.page (range : Range first count virt len) {index : Nat} (inside : index < len) :
    first ≤ (virt + index) / pageSize ∧ (virt + index) / pageSize < first + count := by
  obtain ⟨above, below⟩ := range
  unfold pageSize at *
  omega

theorem filled_kept (tables : Tables roots held start.pmm start.phys)
    (backed : Backed held start.phys root frameOf first count)
    (range : Range first count virt len) {filled : Nat} (enough : filled ≤ len) {after : Memory}
    (written : Filled frameOf virt filled source start.phys after) :
    TablesKept roots start.phys after := by
  apply tables.kept_of_held
  intro address notHeld
  apply written.outside
  intro index inside same
  obtain ⟨above, below⟩ := range.page (Nat.lt_of_lt_of_le inside enough)
  have owned := backed.owned _ above below
  apply notHeld
  rw [same, place_floor (tables.heldFrames _ owned).aligned]
  exact owned

theorem Backed.kept (backed : Backed held start.phys root frameOf first count)
    (tables : Tables roots held start.pmm start.phys) (isRoot : root ∈ roots) {after : Memory}
    (kept : TablesKept roots start.phys after) : Backed held after root frameOf first count where
  decoded := by
    intro page above below
    have bounded : page < 512 ^ 4 := by
      have lower := backed.lower
      omega
    rw [tables.leaf_kept kept isRoot bounded]
    exact backed.decoded page above below
  owned := backed.owned
  distinct := backed.distinct
  lower := backed.lower

theorem Filled.extend {before middle : Memory} {filled chunk : Nat}
    (written : Filled frameOf virt filled source before middle)
    (inPage : (virt + filled) % pageSize + chunk ≤ pageSize)
    (apart : ∀ index, index < filled → ∀ later, later < chunk →
      place frameOf (virt + index) ≠ place frameOf (virt + (filled + later))) :
    Filled frameOf virt (filled + chunk) source before
      (copyIn middle (place frameOf (virt + filled)) (fun index => source (filled + index)) chunk) := by
  have placed : ∀ later, later < chunk →
      place frameOf (virt + (filled + later)) = place frameOf (virt + filled) + later := by
    intro later inside
    rw [← Nat.add_assoc, place_add frameOf (by omega)]
  constructor
  · intro index inside
    rw [copyIn_apply]
    by_cases old : index < filled
    · rw [if_neg]
      · exact written.inside index old
      · rintro ⟨lower, upper⟩
        apply apart index old (place frameOf (virt + index) - place frameOf (virt + filled)) (by omega)
        rw [placed _ (by omega)]
        omega
    · have split : index = filled + (index - filled) := by omega
      rw [split, placed _ (by omega), if_pos (by omega), Nat.add_sub_cancel_left]
  · intro address outside
    rw [copyIn_apply, if_neg]
    · exact written.outside address fun index inside => outside index (by omega)
    · rintro ⟨lower, upper⟩
      apply outside (filled + (address - place frameOf (virt + filled))) (by omega)
      rw [placed _ (by omega)]
      omega

theorem ends_fillLoop {message : String} {fill : Nat → Nat → Nat → Kernel PUnit}
    (fills : FillsWith fill source) (tables : Tables roots held start.pmm start.phys) (isRoot : root ∈ roots)
    (backed : Backed held start.phys root frameOf first count)
    (range : Range first count virt len) (fuel filled : Nat) (progress : filled ≤ len)
    (enough : len < filled + fuel)
    (state : FillState frameOf virt filled source start machine) :
    Ends (fillLoop root virt len message fill fuel filled)
      (fun _ after => FillState frameOf virt len source start after)
      (fun _ _ => False) machine := by
  induction fuel generalizing filled machine with
  | zero => omega
  | succ fuel induction =>
    rw [fillLoop, ends_ite]
    by_cases more : filled < len
    · have inRange := range.page more
      have kept := filled_kept tables backed range progress state.filled
      have backedNow := backed.kept tables isRoot kept
      have owned := tables.heldFrames _ (backed.owned _ inRange.1 inRange.2)
      have unwrapped : add64 virt filled = virt + filled := by
        have below := range.below
        have lower := backed.lower
        apply Nat.mod_eq_of_lt
        unfold pageSize at below
        omega
      have dest : translate machine.phys root (virt + filled) = place frameOf (virt + filled) :=
        backedNow.translate_eq inRange.1 inRange.2
      have nonzero : place frameOf (virt + filled) ≠ 0 := fun zero =>
        owned.nonzero (Nat.eq_zero_of_add_eq_zero_right zero)
      obtain ⟨positive, fits, inPage⟩ := chunk_size_bounds (virt + filled)
        (show 0 < len - filled by omega)
      rw [if_pos more, ends_bind, ends_vmmVirtToPhys, unwrapped, dest, ends_bind, ends_require,
        if_pos nonzero, ends_bind, ends_of_ok (fills _ _ _ _)]
      apply induction _ (by omega) (by omega)
      refine ⟨?_, ?_⟩
      · rw [state.same]
      · apply state.filled.extend inPage
        intro index old later small same
        have left := range.page (show index < len by omega)
        have right := range.page (show filled + later < len by omega)
        have equal := backed.place_injective (fun address member =>
          (tables.heldFrames address member).aligned) left.1 left.2 right.1 right.2 same
        omega
    · have finished : filled = len := by omega
      rw [if_neg more, ends_pure, ← finished]
      exact state

theorem copy_fills (image : Image) (src : Nat) :
    FillsWith (copyChunk image src) fun index => imageByte image (src + index) := by
  intro copied dest chunk machine
  simp only [← Nat.add_assoc]
  rfl

theorem clear_fills : FillsWith clearChunk fun _ => 0 := by
  intro cleared dest chunk machine
  have same : copyIn machine.phys dest (fun _ => 0) chunk = memset machine.phys dest 0 chunk := by
    funext position
    rw [copyIn_apply, memset_apply]
  rw [same]
  rfl

theorem ends_filling {message : String} {fill : Nat → Nat → Nat → Kernel PUnit}
    (fills : FillsWith fill source) (tables : Tables roots held start.pmm start.phys) (isRoot : root ∈ roots)
    (backed : Backed held start.phys root frameOf first count)
    (range : Range first count virt len) (unlocked : start.locked .vmm = false) :
    Ends (do
        spinLock .vmm
        fillLoop root virt len message fill (len + 1) 0
        spinUnlock .vmm)
      (fun _ after => FillState frameOf virt len source start after)
      (fun _ _ => False) start := by
  rw [ends_bind, ends_spinLock, unlocked, if_neg Bool.false_ne_true, ends_bind]
  let locked : Machine := { start with locked := Function.update start.locked .vmm true }
  have lockedTables : Tables roots held locked.pmm locked.phys := tables
  have empty : FillState frameOf virt 0 source locked locked :=
    ⟨rfl, fun _ none => absurd none (Nat.not_lt_zero _), fun _ _ => rfl⟩
  apply ends_mono (ends_fillLoop fills lockedTables isRoot backed range (len + 1) 0 (Nat.zero_le _)
    (by omega) empty) _ fun _ _ => id
  intro _ after state
  rw [ends_spinUnlock]
  refine ⟨?_, state.filled⟩
  rw [state.same]
  simp only [locked, relock_unlocked unlocked]

theorem ends_vmmMapCopy {image : Image} {src : Nat}
    (tables : Tables roots held start.pmm start.phys) (isRoot : root ∈ roots)
    (backed : Backed held start.phys root frameOf first count)
    (range : Range first count virt len) (unlocked : start.locked .vmm = false) :
    Ends (vmmMapCopy root virt image src len)
      (fun _ after => FillState frameOf virt len (fun index => imageByte image (src + index)) start
        after)
      (fun _ _ => False) start :=
  ends_filling (copy_fills image src) tables isRoot backed range unlocked

theorem ends_vmmMapZero (tables : Tables roots held start.pmm start.phys) (isRoot : root ∈ roots)
    (backed : Backed held start.phys root frameOf first count)
    (range : Range first count virt len) (unlocked : start.locked .vmm = false) :
    Ends (vmmMapZero root virt len)
      (fun _ after => FillState frameOf virt len (fun _ => 0) start after)
      (fun _ _ => False) start :=
  ends_filling clear_fills tables isRoot backed range unlocked

end Filling

/-! ## Mapping the pages of a segment -/

structure Beside (before after : Machine) : Prop where
  heap : after.heap = before.heap
  hhdm : after.hhdm = before.hhdm
  kernelPagemap : after.kernelPagemap = before.kernelPagemap
  highestPage : after.pmm.highestPage = before.pmm.highestPage
  locked : after.locked = before.locked

theorem Beside.refl (machine : Machine) : Beside machine machine := ⟨rfl, rfl, rfl, rfl, rfl⟩

theorem Beside.trans {first second third : Machine} (left : Beside first second)
    (right : Beside second third) : Beside first third :=
  ⟨right.heap.trans left.heap, right.hhdm.trans left.hhdm,
    right.kernelPagemap.trans left.kernelPagemap, right.highestPage.trans left.highestPage,
    right.locked.trans left.locked⟩

def framesOf (frameOf : Nat → Nat) (first count : Nat) : Set Nat :=
  {frame | ∃ page, first ≤ page ∧ page < first + count ∧ frameOf page = frame}

/-- The first `count` pages of a segment are mapped to fresh frames. -/
structure SegmentMapped (roots held : Set Nat) (root flags first count : Nat)
    (frameOf : Nat → Nat) (before after : Machine) : Prop where
  tables : Tables roots (held ∪ framesOf frameOf first count) after.pmm after.phys
  bytes : ∀ address, pageFloor address ∈ held → after.phys address = before.phys address
  fresh : ∀ page, first ≤ page → page < first + count → frameOf page ∉ held
  distinct : ∀ left right, first ≤ left → left < first + count → first ≤ right →
    right < first + count → frameOf left = frameOf right → left = right
  cleared : ∀ page, first ≤ page → page < first + count → ∀ offset, offset < pageSize →
    after.phys (frameOf page + offset) = 0
  leaf : ∀ other, other ∈ roots → ∀ page, page < 512 ^ 4 → leafWord after.phys other page =
    if other = root ∧ first ≤ page ∧ page < first + count then frameOf page ||| flags ||| ptePresent
    else leafWord before.phys other page
  budget : (freeSet before.pmm).card ≤ (freeSet after.pmm).card + 4 * count
  beside : Beside before after

section Mapping

variable {roots held : Set Nat} {root flags first count : Nat} {frameOf : Nat → Nat}
  {start machine : Machine}

theorem segment_mapped_none (frameOf : Nat → Nat)
    (tables : Tables roots held start.pmm start.phys) :
    SegmentMapped roots held root flags first 0 frameOf start start := by
  have none : ∀ page, first ≤ page → ¬page < first + 0 := by
    intro page above
    omega
  refine ⟨?_, fun _ _ => rfl, fun page above below => absurd below (none page above),
    fun left _ above below => absurd below (none left above),
    fun page above below => absurd below (none page above), ?_, Nat.le_refl _, Beside.refl start⟩
  · apply tables.mono
    rintro address (old | ⟨page, above, below, -⟩)
    · exact old
    · exact absurd below (none page above)
  · intro other _ page _
    rw [if_neg fun hit => none page hit.2.1 hit.2.2]

theorem frames_of_update (frameOf : Nat → Nat) (first done frame : Nat) :
    framesOf (Function.update frameOf (first + done) frame) first (done + 1) =
      insert frame (framesOf frameOf first done) := by
  ext address
  constructor
  · rintro ⟨page, above, below, rfl⟩
    by_cases last : page = first + done
    · rw [last, Function.update_self]
      exact Set.mem_insert _ _
    · rw [Function.update_of_ne last]
      exact Set.mem_insert_of_mem _ ⟨page, above, by omega, rfl⟩
  · rintro (rfl | ⟨page, above, below, rfl⟩)
    · exact ⟨first + done, by omega, by omega, Function.update_self _ _ _⟩
    · exact ⟨page, above, by omega, Function.update_of_ne (by omega) _ _⟩

theorem SegmentMapped.next {done page : Nat} {after : Machine}
    (mapped : SegmentMapped roots held root flags first done frameOf start machine)
    (member : page ∈ freeSet machine.pmm) (lower : first + done < 2 ^ 35)
    (step : Mapped roots (insert (page * pageSize) (held ∪ framesOf frameOf first done)) root
      (first + done) (page * pageSize ||| flags ||| ptePresent) (takePage machine page) after) :
    SegmentMapped roots held root flags first (done + 1)
      (Function.update frameOf (first + done) (page * pageSize)) start after := by
  have notOwned := mapped.tables.free_not_held member
  have kept := mapped.tables.take_kept member
  have own : ¬UpperHalf (first + done) := by
    unfold UpperHalf
    omega
  have earlier : ∀ {other : Nat}, other < first + (done + 1) → other ≠ first + done →
      other < first + done := by
    intro other below different
    omega
  -- a byte of a frame that was held before the step keeps its value
  have heldByte : ∀ address, pageFloor address ∈ held ∪ framesOf frameOf first done →
      after.phys address = machine.phys address := by
    intro address owned
    rw [step.grown.bytes address (Set.mem_insert_of_mem _ owned)]
    apply take_page_phys_other
    intro same
    rw [same] at owned
    exact notOwned owned
  refine ⟨?_, ?_, ?_, ?_, ?_, ?_, ?_, ?_⟩
  · rw [frames_of_update, Set.union_insert]
    exact step.grown.tables
  · intro address owned
    rw [heldByte address (Set.mem_union_left _ owned)]
    exact mapped.bytes address owned
  · intro other above below
    by_cases last : other = first + done
    · rw [last, Function.update_self]
      exact fun owned => notOwned (Set.mem_union_left _ owned)
    · rw [Function.update_of_ne last]
      exact mapped.fresh other above (earlier below last)
  · intro left right leftAbove leftBelow rightAbove rightBelow same
    by_cases leftLast : left = first + done <;> by_cases rightLast : right = first + done
    · rw [leftLast, rightLast]
    · rw [leftLast, Function.update_self, Function.update_of_ne rightLast] at same
      exact (notOwned (Set.mem_union_right _
        ⟨right, rightAbove, earlier rightBelow rightLast, same.symm⟩)).elim
    · rw [rightLast, Function.update_self, Function.update_of_ne leftLast] at same
      exact (notOwned (Set.mem_union_right _
        ⟨left, leftAbove, earlier leftBelow leftLast, same⟩)).elim
    · rw [Function.update_of_ne leftLast, Function.update_of_ne rightLast] at same
      exact mapped.distinct left right leftAbove (earlier leftBelow leftLast) rightAbove
        (earlier rightBelow rightLast) same
  · intro other above below offset inside
    by_cases last : other = first + done
    · rw [last, Function.update_self, step.grown.bytes _ (by
        rw [page_floor_inside inside]
        exact Set.mem_insert _ _)]
      exact take_page_cleared inside
    · rw [Function.update_of_ne last]
      have owned : frameOf other ∈ held ∪ framesOf frameOf first done :=
        Set.mem_union_right _ ⟨other, above, earlier below last, rfl⟩
      have frame := mapped.tables.heldFrames _ owned
      have floor : pageFloor (frameOf other + offset) = frameOf other := by
        rw [← frame.address_eq]
        exact page_floor_inside inside
      rw [heldByte _ (by rwa [floor])]
      exact mapped.cleared other above (earlier below last) offset inside
  · intro other isRoot index bounded
    rw [step.leaf other isRoot index bounded]
    by_cases last : index = first + done
    · rw [last, Function.update_self]
      by_cases same : other = root
      · rw [if_pos ⟨rfl, Or.inl same⟩, if_pos ⟨same, by omega, by omega⟩]
      · rw [if_neg fun hit => hit.2.elim same own, if_neg fun hit => same hit.1]
        have old := mapped.leaf other isRoot (first + done) (last ▸ bounded)
        rw [if_neg fun hit => same hit.1] at old
        rw [← old]
        exact mapped.tables.leaf_kept kept isRoot (last ▸ bounded)
    · rw [if_neg fun hit => last hit.1, Function.update_of_ne last]
      have old := mapped.leaf other isRoot index bounded
      rw [show leafWord (takePage machine page).phys other index = leafWord machine.phys other index
        from mapped.tables.leaf_kept kept isRoot bounded, old]
      apply if_congr _ rfl rfl
      constructor
      · exact fun hit => ⟨hit.1, hit.2.1, by omega⟩
      · exact fun hit => ⟨hit.1, hit.2.1, earlier hit.2.2 last⟩
  · have spent := step.grown.budget
    have erased := Finset.card_erase_add_one member
    have before := mapped.budget
    have taken : freeSet (takePage machine page).pmm = (freeSet machine.pmm).erase page :=
      freeSet_takePage machine page
    rw [taken] at spent
    omega
  · exact mapped.beside.trans ⟨step.grown.elsewhere.heap, step.grown.elsewhere.hhdm,
      step.grown.elsewhere.kernelPagemap, step.grown.elsewhere.highestPage, step.locked⟩

/-- Why the loader gives up while it maps a segment. -/
def Interrupted (root first count : Nat) (before : Machine) : Prop :=
  (∃ page, first ≤ page ∧ page < first + count ∧ decode (leafWord before.phys root page) ≠ none) ∨
    (freeSet before.pmm).card < 4 * count

theorem SegmentMapped.mapped_before {done : Nat}
    (mapped : SegmentMapped roots held root flags first done frameOf start machine)
    (isRoot : root ∈ roots) {virt : Nat} (page : pageOf virt = first + done)
    (taken : translate machine.phys root virt ≠ 0) :
    decode (leafWord start.phys root (first + done)) ≠ none := by
  intro absent
  have leaf := mapped.leaf root isRoot (first + done) (page ▸ page_of_lt virt)
  rw [if_neg (by omega)] at leaf
  apply taken
  rw [PageTableForests.translate, page, leaf, absent]

/-- The mapping loop maps the rest of the segment, or stops at a page that was mapped
before, or for want of frames. -/
theorem ends_mapSegment (isRoot : root ∈ roots)
    (unlockedPmm : start.locked .pmm = false) (unlockedVmm : start.locked .vmm = false)
    (flagsSmall : flags < 2 ^ 64) (lower : first + count ≤ 2 ^ 35) (fuel done : Nat)
    (progress : done ≤ count) (enough : count < done + fuel)
    (mapped : SegmentMapped roots held root flags first done frameOf start machine) :
    Ends (mapSegment root flags ((first + count) * pageSize) fuel ((first + done) * pageSize))
      (fun _ after => ∃ frameOf, SegmentMapped roots held root flags first count frameOf start after)
      (fun _ _ => Interrupted root first count start) machine := by
  induction fuel generalizing done frameOf machine with
  | zero => omega
  | succ fuel induction =>
    rw [mapSegment, ends_ite]
    by_cases more : done < count
    · have below : (first + done) * pageSize < (first + count) * pageSize :=
        Nat.mul_lt_mul_of_pos_right (by omega) (by decide)
      have index : pageOf ((first + done) * pageSize) = first + done := by
        rw [page_of_lower] <;> rw [page_address_div]
        omega
      have own : ¬UpperHalf (first + done) := by
        unfold UpperHalf
        omega
      have budget := mapped.budget
      rw [if_pos below, ends_bind, ends_vmmVirtToPhys, ends_bind, ends_require]
      by_cases vacant : translate machine.phys root ((first + done) * pageSize) = 0
      · rw [if_pos vacant, ends_bind]
        apply ends_pmmAllocate (mapped.beside.locked ▸ unlockedPmm)
        · intro page least
          have member : page ∈ freeSet machine.pmm := least.1
          have small := mapped.tables.free_page_small member
          have taken := mapped.tables.take member
          have nonzero := (taken.heldFrames _ (Set.mem_insert _ _)).nonzero
          have ready : TopReady roots root (pageOf ((first + done) * pageSize))
              (takePage machine page).phys := by
            rw [index]
            exact fun upper => absurd upper own
          have openPmm : (takePage machine page).locked .pmm = false :=
            mapped.beside.locked ▸ unlockedPmm
          have openVmm : (takePage machine page).locked .vmm = false :=
            mapped.beside.locked ▸ unlockedVmm
          rw [ends_bind, ends_assertThat, if_pos nonzero, ends_bind]
          apply ends_mono (ends_vmmMapPage taken isRoot openPmm openVmm ready
            (small.trans (by decide)) flagsSmall)
          · rintro _ after ⟨-, step⟩
            rw [index, page_floor_of_aligned (Nat.mul_mod_left page pageSize)] at step
            have advance : add64 ((first + done) * pageSize) pageSize =
                (first + (done + 1)) * pageSize := by
              unfold add64 pageSize
              omega
            rw [advance]
            exact induction (done + 1) more (by omega) (mapped.next member (by omega) step)
          · rintro _ after ⟨rfl, few, -⟩
            have erased := Finset.card_erase_add_one member
            rw [freeSet_takePage] at few
            exact Or.inr (by omega)
        · intro empty
          rw [empty, Finset.card_empty] at budget
          exact Or.inr (by omega)
      · rw [if_neg vacant]
        exact Or.inl ⟨first + done, by omega, by omega, mapped.mapped_before isRoot index vacant⟩
    · have finished : done = count := by omega
      have stop : ¬(first + done) * pageSize < (first + count) * pageSize := by
        rw [finished]
        exact Nat.lt_irrefl _
      rw [if_neg stop, ends_pure, ← finished]
      exact ⟨frameOf, mapped⟩

end Mapping

end RiriaKernel.ElfLoaderSteps
