import RiriaKernel.ElfLoaderSteps

/-!
# Copying through a pagemap

`vmm_map_copy` and `vmm_map_zero` translate the target page by page while they write to it. For
arbitrary page tables that is a write to virtual memory as long as it does not hit an entry that
one of its own translations reads; then the tables give the same frames at the end as at the
start. A page that is not mapped ends the loop before anything behind it is written.
-/

namespace RiriaKernel.PagemapCopies

open ByteMemory HaltingPrograms KernelState PageTables PageTableForests PageTableOperations
open ElfLoader ElfLoaderSteps KernelHeapTables

/-! ## What a translation reads -/

/-- The frame that the leaf entry of an address names, if the address is mapped. -/
def frameAt (phys : Memory) (root virt : Nat) : Option Nat :=
  decode (leafWord phys root (pageOf virt))

def follow (phys : Memory) : List Nat → Nat → Option Nat
  | [], table => some table
  | index :: rest, table => (child phys table index).bind (follow phys rest)

def entriesFrom (phys : Memory) : List Nat → Nat → List Nat
  | [], _ => []
  | index :: rest, table => entryAddress table index ::
      match child phys table index with
      | none => []
      | some next => entriesFrom phys rest next

def walkIndices (virt : Nat) : List Nat :=
  [pml4Index virt, pdptIndex virt, pdIndex virt, ptIndex virt]

def entriesRead (phys : Memory) (root virt : Nat) : List Nat :=
  entriesFrom phys (walkIndices virt) root

section Reads

variable {before after : Memory} {root virt : Nat}

theorem frame_at_eq (phys : Memory) (root virt : Nat) :
    frameAt phys root virt = follow phys (walkIndices virt) root := by
  have index := (page_of_digits virt).1
  have last : ∀ found : Option Nat, found = found.bind (follow phys []) := by
    intro found
    cases found <;> rfl
  rw [frameAt, leafWord, table_at_pt, walkIndices, follow]
  cases child phys root (pml4Index virt) with
  | none => exact decode_zero
  | some pdpt =>
    rw [Option.bind_some, Option.bind_some, follow]
    cases child phys pdpt (pdptIndex virt) with
    | none => exact decode_zero
    | some pd =>
      rw [Option.bind_some, Option.bind_some, follow]
      cases child phys pd (pdIndex virt) with
      | none => exact decode_zero
      | some pt =>
        rw [Option.bind_some, follow, ← index]
        exact last (child phys pt (ptIndex virt))

def EntryKept (before after : Memory) (entry : Nat) : Prop :=
  ∀ byte < 8, after (entry + byte) = before (entry + byte)

theorem child_kept {table index : Nat} (kept : EntryKept before after (entryAddress table index)) :
    child after table index = child before table index := by
  have word : entryAt after table index = entryAt before table index := by
    apply load64_congr
    intro position lower upper
    have same := kept (position - entryAddress table index) (by omega)
    rwa [Nat.add_sub_cancel' lower] at same
  rw [child, child, word]

theorem follow_kept {indices : List Nat} {table : Nat}
    (kept : ∀ entry ∈ entriesFrom before indices table, EntryKept before after entry) :
    follow after indices table = follow before indices table := by
  induction indices generalizing table with
  | nil => rfl
  | cons index rest induction =>
    rw [entriesFrom] at kept
    rw [follow, follow, child_kept (kept _ List.mem_cons_self)]
    cases found : child before table index with
    | none => rfl
    | some next =>
      rw [found] at kept
      exact induction fun entry member => kept entry (List.mem_cons_of_mem _ member)

theorem frame_at_kept
    (kept : ∀ entry ∈ entriesRead before root virt, EntryKept before after entry) :
    frameAt after root virt = frameAt before root virt := by
  rw [frame_at_eq, frame_at_eq]
  exact follow_kept kept

theorem translate_of_frame_at {phys : Memory} {frame : Nat}
    (mapped : frameAt phys root virt = some frame) :
    translate phys root virt = frame + virt % pageSize := by
  rw [frameAt] at mapped
  rw [PageTableForests.translate, mapped]

theorem translate_of_unmapped {phys : Memory} (unmapped : frameAt phys root virt = none) :
    translate phys root virt = 0 := by
  rw [frameAt] at unmapped
  rw [PageTableForests.translate, unmapped]

theorem frame_at_page {phys : Memory} {other : Nat} (same : virt / pageSize = other / pageSize) :
    frameAt phys root virt = frameAt phys root other := by
  unfold frameAt pageOf
  unfold pageSize at same
  rw [same]

end Reads

/-! ## Filling -/

/-- The mapped pages of a range are on frames other than zero, different pages on different
frames, and no byte of the range is one of an entry that its own translations read. -/
structure Target (phys : Memory) (root virt len : Nat) : Prop where
  nonzero : ∀ index < len, frameAt phys root (virt + index) ≠ some 0
  distinct : ∀ left < len, ∀ right < len,
    frameAt phys root (virt + left) = frameAt phys root (virt + right) →
      frameAt phys root (virt + left) = none ∨
        (virt + left) / pageSize = (virt + right) / pageSize
  apart : ∀ index < len, ∀ entry ∈ entriesRead phys root (virt + index), ∀ byte < 8,
    ∀ other < len, frameAt phys root (virt + other) ≠ none →
      entry + byte ≠ translate phys root (virt + other)

structure Wrote (before : Memory) (root virt count : Nat) (source : Nat → UInt8) (after : Memory) :
    Prop where
  inside : ∀ index < count, after (translate before root (virt + index)) = source index
  outside : ∀ address, (∀ index < count, address ≠ translate before root (virt + index)) →
    after address = before address

/-- `count` bytes are mapped, and the page behind them, if there is more to fill, is not. -/
structure MappedUpTo (phys : Memory) (root virt len count : Nat) : Prop where
  inside : count ≤ len
  mapped : ∀ index < count, frameAt phys root (virt + index) ≠ none
  gap : count < len → frameAt phys root (virt + count) = none

section Filling

variable {phys : Memory} {root virt len count : Nat} {source : Nat → UInt8}

theorem frame_aligned {virt frame : Nat} (mapped : frameAt phys root virt = some frame) :
    frame % pageSize = 0 := by
  unfold frameAt decode at mapped
  split at mapped
  · rw [← Option.some.inj mapped]
    exact pte_get_addr_aligned _
  · cases mapped

section

variable (target : Target phys root virt len)

include target

theorem Target.translate_ne_zero {index : Nat} (inside : index < len)
    (mapped : frameAt phys root (virt + index) ≠ none) :
    translate phys root (virt + index) ≠ 0 := by
  obtain ⟨frame, found⟩ := Option.ne_none_iff_exists'.mp mapped
  rw [translate_of_frame_at found]
  have nonzero := target.nonzero index inside
  rw [found] at nonzero
  have positive : frame ≠ 0 := fun zero => nonzero (congrArg some zero)
  omega

theorem Target.injective {left right : Nat} (leftIn : left < len) (rightIn : right < len)
    (leftMapped : frameAt phys root (virt + left) ≠ none)
    (rightMapped : frameAt phys root (virt + right) ≠ none)
    (same : translate phys root (virt + left) = translate phys root (virt + right)) :
    left = right := by
  obtain ⟨leftFrame, leftFound⟩ := Option.ne_none_iff_exists'.mp leftMapped
  obtain ⟨rightFrame, rightFound⟩ := Option.ne_none_iff_exists'.mp rightMapped
  have leftAligned := frame_aligned leftFound
  have rightAligned := frame_aligned rightFound
  rw [translate_of_frame_at leftFound, translate_of_frame_at rightFound] at same
  have frames : leftFrame = rightFrame := by
    unfold pageSize at *
    omega
  have pages := (target.distinct left leftIn right rightIn
    (by rw [leftFound, rightFound, frames])).resolve_left leftMapped
  unfold pageSize at *
  omega

theorem Target.frame_kept {filled : Nat} {after : Memory} (few : filled ≤ len)
    (mapped : ∀ index < filled, frameAt phys root (virt + index) ≠ none)
    (wrote : Wrote phys root virt filled source after) {index : Nat} (inside : index < len) :
    frameAt after root (virt + index) = frameAt phys root (virt + index) := by
  apply frame_at_kept
  intro entry member byte small
  apply wrote.outside
  intro other before
  exact target.apart index inside entry member byte small other (by omega) (mapped other before)

theorem Wrote.extend {middle : Memory} {filled chunk : Nat}
    (wrote : Wrote phys root virt filled source middle) (fits : filled + chunk ≤ len)
    (mapped : ∀ index < filled + chunk, frameAt phys root (virt + index) ≠ none)
    (inPage : (virt + filled) % pageSize + chunk ≤ pageSize) (some : 0 < chunk) :
    Wrote phys root virt (filled + chunk) source
      (copyIn middle (translate phys root (virt + filled)) (fun index => source (filled + index))
        chunk) := by
  obtain ⟨frame, found⟩ := Option.ne_none_iff_exists'.mp (mapped filled (by omega))
  have placed : ∀ later, later < chunk → translate phys root (virt + (filled + later)) =
      translate phys root (virt + filled) + later := by
    intro later inside
    have page : (virt + (filled + later)) / pageSize = (virt + filled) / pageSize := by
      unfold pageSize at *
      omega
    rw [translate_of_frame_at ((frame_at_page page).trans found), translate_of_frame_at found]
    unfold pageSize at *
    omega
  constructor
  · intro index inside
    rw [copyIn_apply]
    by_cases old : index < filled
    · rw [if_neg]
      · exact wrote.inside index old
      · rintro ⟨lower, upper⟩
        have again := placed (translate phys root (virt + index) - translate phys root (virt + filled))
          (by omega)
        have equal := target.injective (by omega) (by omega) (mapped index inside)
          (mapped (filled + (translate phys root (virt + index) -
            translate phys root (virt + filled))) (by omega)) (by omega)
        omega
    · have split : index = filled + (index - filled) := by omega
      rw [split, placed _ (by omega), if_pos (by omega), Nat.add_sub_cancel_left]
  · intro address outside
    rw [copyIn_apply, if_neg]
    · exact wrote.outside address fun index inside => outside index (by omega)
    · rintro ⟨lower, upper⟩
      apply outside (filled + (address - translate phys root (virt + filled))) (by omega)
      rw [placed _ (by omega)]
      omega

end

end Filling

/-! ## The loops -/

section Loops

variable {root virt len count : Nat} {source : Nat → UInt8} {start machine : Machine}

theorem MappedUpTo.chunk_inside {phys : Memory} (upTo : MappedUpTo phys root virt len count)
    {filled chunk : Nat} (before : filled < count) (fits : filled + chunk ≤ len)
    (inPage : (virt + filled) % pageSize + chunk ≤ pageSize) : filled + chunk ≤ count := by
  by_contra beyond
  have page : (virt + count) / pageSize = (virt + filled) / pageSize := by
    unfold pageSize at *
    omega
  have unmapped := upTo.gap (by omega)
  rw [frame_at_page page] at unmapped
  exact upTo.mapped filled before unmapped

/-- A filling loop fills the bytes in front of the first page that is not mapped; if there is
such a page it panics there. -/
theorem ends_fillLoop_exact {message : String} {fill : Nat → Nat → Nat → Kernel PUnit}
    (fills : FillsWith fill source)
    (bounded : virt + len ≤ 2 ^ 64) (target : Target start.phys root virt len)
    (upTo : MappedUpTo start.phys root virt len count) (fuel filled : Nat) (progress : filled ≤ count)
    (enough : len < filled + fuel)
    (wrote : Wrote start.phys root virt filled source machine.phys) :
    Ends (fillLoop root virt len message fill fuel filled)
      (fun _ after => count = len ∧ Wrote start.phys root virt count source after.phys)
      (fun stop after => count < len ∧ stop = .panic message ∧
        Wrote start.phys root virt count source after.phys) machine := by
  have inside := upTo.inside
  induction fuel generalizing filled machine with
  | zero => omega
  | succ fuel induction =>
    rw [fillLoop, ends_ite]
    by_cases more : filled < len
    · have unwrapped : add64 virt filled = virt + filled := Nat.mod_eq_of_lt (by omega)
      have kept := target.frame_kept (by omega)
        (fun index before => upTo.mapped index (by omega)) wrote more
      have dest : translate machine.phys root (virt + filled) =
          translate start.phys root (virt + filled) := by
        unfold frameAt at kept
        rw [PageTableForests.translate, PageTableForests.translate, kept]
      rw [if_pos more, ends_bind, ends_vmmVirtToPhys, unwrapped, dest]
      rcases Nat.lt_or_ge filled count with before | reached
      · obtain ⟨positive, fits, inPage⟩ := chunk_size_bounds (virt + filled)
          (show 0 < len - filled by omega)
        have near := upTo.chunk_inside before (by omega) inPage
        rw [ends_bind, ends_require,
          if_pos (target.translate_ne_zero more (upTo.mapped filled before)), ends_bind,
          ends_of_ok (fills _ _ _ _)]
        apply induction _ near (by omega)
        exact wrote.extend target (by omega) (fun index below => upTo.mapped index (by omega))
          inPage positive
      · obtain rfl : filled = count := by omega
        rw [ends_bind, translate_of_unmapped (upTo.gap more), ends_require, if_neg (by decide)]
        exact ⟨more, rfl, wrote⟩
    · obtain rfl : filled = count := by omega
      rw [if_neg more, ends_pure]
      exact ⟨by omega, wrote⟩

theorem ends_filling_exact {message : String} {fill : Nat → Nat → Nat → Kernel PUnit}
    (fills : FillsWith fill source)
    (unlocked : start.locked .vmm = false) (bounded : virt + len ≤ 2 ^ 64)
    (target : Target start.phys root virt len) (upTo : MappedUpTo start.phys root virt len count) :
    Ends (do
        spinLock .vmm
        fillLoop root virt len message fill (len + 1) 0
        spinUnlock .vmm)
      (fun _ after => count = len ∧ Wrote start.phys root virt count source after.phys)
      (fun stop after => count < len ∧ stop = .panic message ∧
        Wrote start.phys root virt count source after.phys) start := by
  let locked : Machine := { start with locked := Function.update start.locked .vmm true }
  have lockedTarget : Target locked.phys root virt len := target
  have lockedUpTo : MappedUpTo locked.phys root virt len count := upTo
  have nothing : Wrote locked.phys root virt 0 source locked.phys :=
    ⟨fun _ none => absurd none (Nat.not_lt_zero _), fun _ _ => rfl⟩
  rw [ends_bind, ends_spinLock, unlocked, if_neg Bool.false_ne_true, ends_bind]
  apply ends_mono (ends_fillLoop_exact fills bounded lockedTarget lockedUpTo (len + 1) 0
    (Nat.zero_le _) (by omega) nothing) _ fun _ _ => id
  intro _ after done
  rw [ends_spinUnlock]
  exact done

end Loops

theorem exists_mapped_up_to (phys : Memory) (root virt len : Nat) :
    ∃ count, MappedUpTo phys root virt len count := by
  induction len with
  | zero => exact ⟨0, Nat.le_refl _, fun _ none => absurd none (Nat.not_lt_zero _), fun none =>
    absurd none (Nat.not_lt_zero _)⟩
  | succ len induction =>
    obtain ⟨count, inside, mapped, gap⟩ := induction
    by_cases last : count = len ∧ frameAt phys root (virt + len) ≠ none
    · obtain ⟨rfl, here⟩ := last
      refine ⟨count + 1, Nat.le_refl _, fun index before => ?_,
        fun beyond => absurd beyond (Nat.lt_irrefl _)⟩
      rcases Nat.lt_succ_iff_lt_or_eq.mp before with earlier | rfl
      · exact mapped index earlier
      · exact here
    · refine ⟨count, Nat.le_succ_of_le inside, mapped, fun before => ?_⟩
      by_cases whole : count = len
      · subst whole
        by_contra some
        exact last ⟨rfl, some⟩
      · exact gap (by omega)

/-- What a call that fills `[virt, virt + len)` should do: write exactly these bytes, or panic
before it writes any byte at or behind a page that is not mapped. -/
structure FillsExactly (program : Kernel PUnit) (message : String) (source : Nat → UInt8)
    (root virt len : Nat) (machine : Machine) : Prop where
  mapped : (∀ index < len, frameAt machine.phys root (virt + index) ≠ none) →
    ∃ after, program machine = .ok ⟨⟩ after ∧
      Wrote machine.phys root virt len source after.phys
  unmapped : ∀ hole < len, frameAt machine.phys root (virt + hole) = none →
    ∃ after, program machine = .error (.panic message) after ∧
      (∃ count ≤ hole, Wrote machine.phys root virt count source after.phys) ∧
      ∀ index < len, (virt + hole) / pageSize ≤ (virt + index) / pageSize →
        after.phys (translate machine.phys root (virt + index)) =
          machine.phys (translate machine.phys root (virt + index))

theorem Target.behind_hole {phys : Memory} {root virt len count hole index : Nat}
    (target : Target phys root virt len) (upTo : MappedUpTo phys root virt len count)
    (unmapped : frameAt phys root (virt + hole) = none) (near : count ≤ hole)
    (behind : (virt + hole) / pageSize ≤ (virt + index) / pageSize) (inside : index < len) :
    ∀ earlier < count,
      translate phys root (virt + index) ≠ translate phys root (virt + earlier) := by
  intro earlier before same
  have limit := upTo.inside
  have mapped := upTo.mapped earlier before
  have nonzero := target.translate_ne_zero (by omega) mapped
  have here : frameAt phys root (virt + index) ≠ none := by
    intro none
    rw [translate_of_unmapped none] at same
    exact nonzero same.symm
  have equal := target.injective inside (by omega) here mapped same
  have pages : (virt + earlier) / pageSize = (virt + hole) / pageSize := by
    rw [equal] at behind
    unfold pageSize at *
    omega
  rw [frame_at_page pages] at mapped
  exact mapped unmapped

theorem filling_exact {root virt len : Nat} {source : Nat → UInt8} {machine : Machine}
    {message : String} {fill : Nat → Nat → Nat → Kernel PUnit}
    (fills : FillsWith fill source)
    (unlocked : machine.locked .vmm = false) (bounded : virt + len ≤ 2 ^ 64)
    (target : Target machine.phys root virt len) :
    FillsExactly (do
        spinLock .vmm
        fillLoop root virt len message fill (len + 1) 0
        spinUnlock .vmm) message source root virt len machine := by
  obtain ⟨count, upTo⟩ := exists_mapped_up_to machine.phys root virt len
  have ends := @ends_filling_exact root virt len count source machine message fill fills
    unlocked bounded target upTo
  constructor
  · intro mapped
    have whole : count = len := by
      by_contra part
      have before : count < len := Nat.lt_of_le_of_ne upTo.inside part
      exact mapped count before (upTo.gap before)
    have returns := ends_mono ends (fun _ _ => id)
      fun _ _ stopped => (Nat.ne_of_lt stopped.1 whole : False)
    obtain ⟨_, after, run, -, wrote⟩ := returns.exists_ok
    rw [whole] at wrote
    exact ⟨after, run, wrote⟩
  · intro hole small unmapped
    have near : count ≤ hole := by
      by_contra beyond
      exact upTo.mapped hole (by omega) unmapped
    have panics := ends_mono ends
      (fun _ _ done => (Nat.ne_of_lt (Nat.lt_of_le_of_lt near small) done.1 : False))
      fun _ _ => id
    obtain ⟨_, after, run, -, rfl, wrote⟩ := panics.exists_error
    refine ⟨after, run, ⟨count, near, wrote⟩, ?_⟩
    intro index inside behind
    exact wrote.outside _ (target.behind_hole upTo unmapped near behind inside)

/-- `vmm_map_copy` and `vmm_map_zero` are exact on every range whose bytes are not those of the
entries that translate it. -/
theorem copy_and_zero_exact {machine : Machine} {root virt len : Nat}
    (unlocked : machine.locked .vmm = false) (bounded : virt + len ≤ 2 ^ 64)
    (target : Target machine.phys root virt len) :
    (∀ image src, FillsExactly (vmmMapCopy root virt image src len)
        "vmm_map_copy: target not mapped" (fun index => imageByte image (src + index)) root virt len
        machine) ∧
      FillsExactly (vmmMapZero root virt len) "vmm_map_zero: target not mapped" (fun _ => 0) root virt
        len machine :=
  ⟨fun image src => filling_exact (copy_fills image src) unlocked bounded target,
    filling_exact clear_fills unlocked bounded target⟩

/-! ## Two neighbouring pages -/

def twoPages (first second : Nat) : Machine :=
  let top := store64 (store64 smallMachine.phys 0x1000 0x2003) 0x2000 0x3003
  let middle := store64 top 0x3000 0x4003
  { smallMachine with
    phys := store64 (store64 middle 0x4FF0 (first ||| 3)) 0x4FF8 (second ||| 3) }

def acrossEdge : Nat := 510 * pageSize + 4088

/-- Nine bytes, of which the first eight are the entry 0x6003. -/
def entryImage : Image := fun offset =>
  if offset = 0 then 0x03 else if offset = 1 then 0x60 else if offset = 8 then 0xAB else 0

theorem two_pages_target : Target (twoPages 0x7000 0x5000).phys 0x1000 acrossEdge 9 := by
  constructor <;> decide +kernel

/-- On two ordinary pages the nine bytes arrive. -/
theorem two_pages_copied :
    ∃ after, vmmMapCopy 0x1000 acrossEdge entryImage 0 9 (twoPages 0x7000 0x5000) = .ok ⟨⟩ after ∧
      Wrote (twoPages 0x7000 0x5000).phys 0x1000 acrossEdge 9 (fun index => imageByte entryImage (0 + index))
        after.phys :=
  ((copy_and_zero_exact rfl (by decide) two_pages_target).1 entryImage 0).mapped (by decide +kernel)

/-- Where the first page is the page table itself, the copy replaces the entry of the second, and
the last byte is written to the frame that the copied bytes name. -/
theorem own_table_overwritten :
    (∀ index < 9, frameAt (twoPages 0x4000 0x5000).phys 0x1000 (acrossEdge + index) =
        if index < 8 then some 0x4000 else some 0x5000) ∧
      ∃ after, vmmMapCopy 0x1000 acrossEdge entryImage 0 9 (twoPages 0x4000 0x5000) = .ok ⟨⟩ after ∧
        PageTableForests.translate (twoPages 0x4000 0x5000).phys 0x1000 (acrossEdge + 8) = 0x5000 ∧
        after.phys 0x5000 ≠ imageByte entryImage 8 ∧
        after.phys 0x6000 ≠ (twoPages 0x4000 0x5000).phys 0x6000 := by
  refine ⟨by decide +kernel, ?_⟩
  exact ⟨_, rfl, by decide +kernel, by decide +kernel, by decide +kernel⟩

end RiriaKernel.PagemapCopies
