import RiriaKernel.KernelHeap
import RiriaKernel.RegionLayouts

/-!
# The heap as a region of segments

The heap's window is described by a list of free and live segments, and the free list in
memory is the one that description encodes. Each piece of list code in `heap.c` is given
the change it makes to the description: linking a block in, merging it with the block
behind and with the block in front, and taking or splitting a block.
-/

namespace RiriaKernel.KernelHeapLayouts

open ByteMemory HaltingPrograms KernelState KernelHeap RegionLayouts

/-- The machine with another list head and other bytes in the heap's window. -/
def withHeap (machine : Machine) (head : Nat) (memory : Memory) : Machine :=
  { machine with heap := { machine.heap with head, memory } }

section Steps

variable {machine : Machine} {head : Nat} {memory : Memory}
  {stopped : Stop → Machine → Prop}

theorem withHeap_self (machine : Machine) :
    withHeap machine machine.heap.head machine.heap.memory = machine :=
  rfl

@[simp] theorem withHeap_memory : (withHeap machine head memory).heap.memory = memory := rfl

@[simp] theorem withHeap_head : (withHeap machine head memory).heap.head = head := rfl

@[simp] theorem withHeap_withHeap (head' : Nat) (memory' : Memory) :
    withHeap (withHeap machine head memory) head' memory' = withHeap machine head' memory' :=
  rfl

@[simp] theorem ends_getSize {returned : Nat → Machine → Prop} (block : Nat) :
    Ends (getSize block) returned stopped (withHeap machine head memory) =
      returned (load64 memory block) (withHeap machine head memory) := by
  simp only [getSize, ends_bind, ends_get, ends_pure, blockSize, withHeap_memory]

@[simp] theorem ends_getNext {returned : Nat → Machine → Prop} (block : Nat) :
    Ends (getNext block) returned stopped (withHeap machine head memory) =
      returned (load64 memory (block + 8)) (withHeap machine head memory) := by
  simp only [getNext, ends_bind, ends_get, ends_pure, blockNext, withHeap_memory]

@[simp] theorem ends_setBlockSize {returned : PUnit → Machine → Prop} (block size : Nat) :
    Ends (setBlockSize block size) returned stopped (withHeap machine head memory) =
      returned ⟨⟩ (withHeap machine head (store64 memory block size)) :=
  ends_modify _

@[simp] theorem ends_setBlockNext {returned : PUnit → Machine → Prop} (block next : Nat) :
    Ends (setBlockNext block next) returned stopped (withHeap machine head memory) =
      returned ⟨⟩ (withHeap machine head (store64 memory (block + 8) next)) :=
  ends_modify _

@[simp] theorem ends_setLink {returned : PUnit → Machine → Prop} (prev value : Nat) :
    Ends (setLink prev value) returned stopped (withHeap machine head memory) =
      returned ⟨⟩ (withHeap machine (relinkHead head prev value) (relink memory prev value)) := by
  unfold setLink relinkHead relink
  split
  · exact ends_modify _
  · exact ends_setBlockNext _ _

def ListOnly (machine after : Machine) : Prop := ∃ head memory, after = withHeap machine head memory

theorem ends_insertBlock_only (prev block : Nat) :
    Ends (insertBlock prev block) (fun _ after => ListOnly machine after) stopped
      (withHeap machine head memory) := by
  have linked : ∀ head memory, Ends (linkBlock prev block)
      (fun _ after => ListOnly machine after) stopped (withHeap machine head memory) := by
    intro head memory
    simp only [linkBlock, ends_ite, ends_bind, ends_get, ends_getNext, ends_setBlockNext,
      ends_setLink]
    split <;> exact ⟨_, _, rfl⟩
  have mergedNext : ∀ head memory, Ends (mergeNext block)
      (fun _ after => ListOnly machine after) stopped (withHeap machine head memory) := by
    intro head memory
    simp only [mergeNext, ends_bind, ends_getNext, ends_getSize, ends_ite, ends_setBlockSize,
      ends_setBlockNext, ends_pure]
    split <;> exact ⟨_, _, rfl⟩
  have mergedPrev : ∀ head memory, Ends (mergePrev prev block)
      (fun _ after => ListOnly machine after) stopped (withHeap machine head memory) := by
    intro head memory
    simp only [mergePrev, ends_bind, ends_getNext, ends_getSize, ends_ite, ends_setBlockSize,
      ends_setBlockNext, ends_pure]
    split <;> exact ⟨_, _, rfl⟩
  rw [insertBlock, ends_bind]
  apply ends_mono (linked head memory) _ fun _ _ => id
  rintro _ _ ⟨head, memory, rfl⟩
  rw [ends_bind]
  apply ends_mono (mergedNext head memory) _ fun _ _ => id
  rintro _ _ ⟨head, memory, rfl⟩
  exact mergedPrev head memory

theorem ends_addRegion_only (base size : Nat) :
    Ends (addRegion base size)
      (fun _ after => ∃ head memory, after = { machine with heap :=
        { machine.heap with head, memory, size := add64 machine.heap.size size } })
      (fun stop after => stop = .unbounded ∧ ListOnly machine after) machine := by
  have linked : ∀ head memory, Ends (linkRegion base) (fun _ after => ListOnly machine after)
      (fun stop after => stop = .unbounded ∧ ListOnly machine after) (withHeap machine head memory) := by
    intro head memory
    rw [linkRegion, ends_bind, ends_get, ends_ite]
    split
    · exact (ends_modify _).mpr ⟨_, _, rfl⟩
    · split
      · exact (ends_throw _).mpr ⟨rfl, _, _, rfl⟩
      · exact ends_insertBlock_only _ _
  rw [← withHeap_self machine, addRegion, ends_bind, ends_setBlockSize, ends_bind,
    ends_setBlockNext, ends_bind]
  apply ends_mono (linked _ _) _ fun _ _ => id
  rintro _ _ ⟨head, memory, rfl⟩
  exact (ends_modify _).mpr ⟨head, memory, rfl⟩

/-- One round of the scan: a block is large enough, or the heap grows and the scan starts
again. -/
theorem ends_tryAllocate_round {returned : Nat → Machine → Prop} {total fuel curr : Nat}
    {search : Search}
    (scanned : findFit machine.heap.memory total (walkBound machine.heap) 0 curr = search)
    (fits : ∀ prev found, search = .fits prev found →
      Ends (takeBlock total prev found) returned stopped machine)
    (endless : search = .unbounded → stopped .unbounded machine)
    (grows : search = .exhausted → Ends growForRequest
      (fun _ after => Ends (tryAllocate total fuel after.heap.head) returned stopped after) stopped
      machine) :
    Ends (tryAllocate total (fuel + 1) curr) returned stopped machine := by
  rw [tryAllocate, ends_bind, ends_get, scanned]
  cases search with
  | fits prev found => exact fits prev found rfl
  | unbounded => exact (ends_throw _).mpr (endless rfl)
  | exhausted =>
    dsimp only
    rw [ends_bind]
    apply ends_mono (grows rfl) _ fun _ _ => id
    intro _ after again
    rwa [ends_bind, ends_get]

end Steps

/-- Every segment is a positive number of 16-byte units. -/
abbrev Sized (segments : List Segment) : Prop :=
  ∀ segment ∈ segments, 16 ≤ segment.size ∧ segment.size % 16 = 0

theorem Sized.roomy {segments : List Segment} (sized : Sized segments) : Roomy segments :=
  fun segment member => (sized segment member).1

theorem sized_append {front back : List Segment} :
    Sized (front ++ back) ↔ Sized front ∧ Sized back :=
  List.forall_mem_append

theorem sized_cons {segment : Segment} {rest : List Segment} :
    Sized (segment :: rest) ↔ (16 ≤ segment.size ∧ segment.size % 16 = 0) ∧ Sized rest :=
  List.forall_mem_cons

theorem Sized.around {front back : List Segment} {size : Nat}
    (sized : Sized (front ++ ⟨false, size⟩ :: back)) : Roomy front ∧ 16 ≤ size ∧ Roomy back := by
  obtain ⟨frontSized, blockSized⟩ := sized_append.mp sized
  obtain ⟨⟨room, -⟩, backSized⟩ := sized_cons.mp blockSized
  exact ⟨frontSized.roomy, room, backSized.roomy⟩

structure Holds (start : Nat) (segments : List Segment) (head : Nat) (memory : Memory) : Prop where
  head : head = nextFree start segments 0
  encodes : Encodes memory start segments 0

structure Window (start : Nat) (segments : List Segment) : Prop where
  high : 16 ≤ start
  below : start + span segments < 2 ^ 64

theorem Window.positive {start : Nat} {segments : List Segment} (window : Window start segments) :
    0 < start :=
  Nat.lt_of_lt_of_le (by decide) window.high

theorem Window.around {start size : Nat} {front back : List Segment}
    (window : Window start (front ++ ⟨false, size⟩ :: back)) :
    0 < start ∧ start + (span front + (size + span back)) < 2 ^ 64 := by
  have below := window.below
  rw [span_append, span] at below
  exact ⟨window.positive, below⟩

section Insertion

variable {machine : Machine} {start head size : Nat} {memory : Memory}
  {front back : List Segment}

/-- A block at the seam between two described parts, with its size in place. -/
structure Seam (start : Nat) (front : List Segment) (size : Nat) (back : List Segment)
    (head : Nat) (memory : Memory) : Prop where
  frontEncodes : Encodes memory start front (nextFree (start + span front + size) back 0)
  backEncodes : Encodes memory (start + span front + size) back 0
  head : head = nextFree start front (nextFree (start + span front + size) back 0)
  sizeWord : load64 memory (start + span front) = size

theorem Seam.rewrite_size {start size head : Nat} {front back : List Segment} {memory : Memory}
    (seam : Seam start front size back head memory) (sized : Sized (front ++ ⟨false, size⟩ :: back))
    (small : size < 2 ^ 64) :
    Seam start front size back head (store64 memory (start + span front) size) := by
  obtain ⟨frontSized, restSized⟩ := sized_append.mp sized
  obtain ⟨blockSized, backSized⟩ := sized_cons.mp restSized
  dsimp only at blockSized
  refine ⟨?_, ?_, seam.head, load64_store64 small⟩
  · apply encodes_congr frontSized.roomy _ seam.frontEncodes
    intro address _ upper
    exact store64_apply_other (by omega)
  · apply encodes_congr backSized.roomy _ seam.backEncodes
    intro address lower _
    exact store64_apply_other (by omega)

theorem last_link {tail : Nat} (positive : 0 < start)
    (encodes : Encodes memory start front tail) :
    (if lastFree start front 0 = 0 then nextFree start front tail
      else load64 memory (lastFree start front 0 + 8)) = tail := by
  rcases last_free_cases front with live | ⟨before, other, lives, rfl, live⟩
  · rw [if_pos (last_free_live live start 0), next_free_live live]
  · rw [last_free_split start other 0 before live, if_neg (by omega)]
    obtain ⟨-, -, link, -⟩ := encodes_append.mp encodes
    rw [link rfl, next_free_live live]

theorem next_free_zero_or (segments : List Segment) (place : Nat) :
    nextFree place segments 0 = 0 ∨ place ≤ nextFree place segments 0 := by
  induction segments generalizing place with
  | nil => exact Or.inl rfl
  | cons segment rest induction =>
    rw [nextFree]
    split
    · rcases induction (place + segment.size) with zero | later
      · exact Or.inl zero
      · exact Or.inr (by omega)
    · exact Or.inr (Nat.le_refl _)

theorem next_free_lt {segments : List Segment} {bound : Nat} (fits : start + span segments ≤ bound)
    (sized : Roomy segments) {tail : Nat} (tailSmall : tail < bound) :
    nextFree start segments tail < bound := by
  induction segments generalizing start with
  | nil => exact tailSmall
  | cons segment rest induction =>
    rw [span] at fits
    have room := sized segment List.mem_cons_self
    rw [nextFree]
    split
    · exact induction (by omega) fun other member => sized other (List.mem_cons_of_mem _ member)
    · omega

theorem ends_linkBlock (window : Window start (front ++ ⟨false, size⟩ :: back))
    (sized : Sized (front ++ ⟨false, size⟩ :: back)) (seam : Seam start front size back head memory) :
    Ends (linkBlock (lastFree start front 0) (start + span front))
      (fun _ after => ∃ head' memory', after = withHeap machine head' memory' ∧
        Holds start (front ++ ⟨false, size⟩ :: back) head' memory')
      (fun _ _ => False) (withHeap machine head memory) := by
  obtain ⟨positive, below⟩ := window.around
  obtain ⟨frontRoomy, room, backRoomy⟩ := sized.around
  have tailSmall : nextFree (start + span front + size) back 0 < 2 ^ 64 :=
    next_free_lt (by omega) backRoomy (by decide)
  have link := last_link window.positive seam.frontEncodes
  rw [← seam.head] at link
  -- the block's own link is written first, then the link in front of it
  have linked : Encodes (store64 memory (start + span front + 8)
      (nextFree (start + span front + size) back 0)) start front
      (nextFree (start + span front + size) back 0) :=
    encodes_congr frontRoomy (fun address _ upper => store64_apply_other (by omega))
      seam.frontEncodes
  obtain ⟨frontEncodes, headEq, outside⟩ :=
    encodes_relink window.positive frontRoomy (show start + span front < 2 ^ 64 by omega) linked
  have result : Ends (setLink (lastFree start front 0) (start + span front))
      (fun _ after => ∃ head' memory', after = withHeap machine head' memory' ∧
        Holds start (front ++ ⟨false, size⟩ :: back) head' memory')
      (fun _ _ => False) (withHeap machine head (store64 memory (start + span front + 8)
        (nextFree (start + span front + size) back 0))) := by
    rw [ends_setLink]
    refine ⟨_, _, rfl, ?_, ?_⟩
    · rw [seam.head, headEq, next_free_append]
      rfl
    · rw [encodes_append]
      refine ⟨frontEncodes, ?_, ?_, ?_⟩
      · rw [load64_congr (fun address lower upper => outside address (Or.inr lower)),
          load64_store64_other (by omega), seam.sizeWord]
      · intro _
        rw [load64_congr (fun address lower upper => outside address (Or.inr (by omega))),
          load64_store64 tailSmall]
      · apply encodes_congr backRoomy _ seam.backEncodes
        intro address lower upper
        rw [outside address (Or.inr (by omega)), store64_apply_other (by omega)]
  unfold linkBlock
  by_cases none : lastFree start front 0 = 0
  · rw [if_pos none] at link
    rw [← link] at result
    simp only [ends_bind, ends_get, if_pos none, ends_setBlockNext, withHeap_head]
    exact result
  · rw [if_neg none] at link
    simp only [ends_bind, if_neg none, ends_getNext, ends_setBlockNext, link]
    exact result

/-- What `mergeNext` leaves of a free segment and the segments behind it. -/
def AbsorbsNext (size : Nat) (back : List Segment) (size' : Nat) (back' : List Segment) : Prop :=
  (∃ other, back = ⟨false, other⟩ :: back' ∧ size' = size + other) ∨
    (size' = size ∧ back' = back ∧ ∀ segment ∈ back.head?, segment.live = true)

/-- What `mergePrev` leaves of a free segment and the segments in front of it. -/
def AbsorbsPrev (front : List Segment) (size : Nat) (front' : List Segment) (size' : Nat) : Prop :=
  (∃ other, front = front' ++ [⟨false, other⟩] ∧ size' = other + size) ∨
    (size' = size ∧ front' = front ∧ ∀ segment ∈ front.getLast?, segment.live = true)

theorem next_free_behind_live {segment : Segment} {rest : List Segment} {place : Nat}
    (live : segment.live = true) (roomy : Roomy (segment :: rest)) :
    nextFree place (segment :: rest) 0 = 0 ∨ place < nextFree place (segment :: rest) 0 := by
  have room := roomy segment List.mem_cons_self
  rw [nextFree, if_pos live]
  rcases next_free_zero_or rest (place + segment.size) with zero | found
  · exact Or.inl zero
  · exact Or.inr (by omega)

theorem ends_mergeNext (window : Window start (front ++ ⟨false, size⟩ :: back))
    (sized : Sized (front ++ ⟨false, size⟩ :: back))
    (holds : Holds start (front ++ ⟨false, size⟩ :: back) head memory) :
    Ends (mergeNext (start + span front))
      (fun _ after => ∃ size' back' memory', after = withHeap machine head memory' ∧
        Holds start (front ++ ⟨false, size'⟩ :: back') head memory' ∧
        AbsorbsNext size back size' back')
      (fun _ _ => False) (withHeap machine head memory) := by
  obtain ⟨positive, below⟩ := window.around
  obtain ⟨frontRoomy, room, backRoomy⟩ := sized.around
  obtain ⟨frontEncodes, sizeWord, link, backEncodes⟩ := encodes_append.mp holds.encodes
  have linkWord := link rfl
  dsimp only at sizeWord linkWord backEncodes
  have ending : add64 (start + span front) size = start + span front + size :=
    Nat.mod_eq_of_lt (by omega)
  simp only [mergeNext, ends_bind, ends_getNext, ends_getSize, linkWord, sizeWord, ending, ends_ite,
    ends_setBlockSize, ends_setBlockNext, ends_pure]
  have unmerged : (∀ segment ∈ back.head?, segment.live = true) →
      ∃ size' back' memory', withHeap machine head memory = withHeap machine head memory' ∧
        Holds start (front ++ ⟨false, size'⟩ :: back') head memory' ∧
        AbsorbsNext size back size' back' := fun live =>
    ⟨size, back, memory, rfl, holds, Or.inr ⟨rfl, rfl, live⟩⟩
  cases back with
  | nil =>
    rw [if_neg (by simp [nextFree])]
    exact unmerged (by simp)
  | cons second rest =>
    cases live : second.live with
    | true =>
      rw [if_neg]
      · exact unmerged (by simpa using live)
      · rintro ⟨nonzero, same⟩
        rcases next_free_behind_live live backRoomy with zero | later
        · exact nonzero zero
        · omega
    | false =>
      have first : nextFree (start + span front + size) (second :: rest) 0 =
          start + span front + size := by
        rw [nextFree, live]
        rfl
      have restRoomy : Roomy rest := fun segment member =>
        backRoomy segment (List.mem_cons_of_mem _ member)
      have secondRoom := backRoomy second List.mem_cons_self
      obtain ⟨otherSize, otherLink, restEncodes⟩ := backEncodes
      rw [span] at below
      rw [first, if_pos ⟨by omega, rfl⟩]
      have total : add64 size second.size = size + second.size := Nat.mod_eq_of_lt (by omega)
      have tailSmall : nextFree (start + span front + size + second.size) rest 0 < 2 ^ 64 :=
        next_free_lt (by omega) restRoomy (by decide)
      have nextWord : load64 (store64 memory (start + span front) (size + second.size))
          (start + span front + size + 8) =
          nextFree (start + span front + size + second.size) rest 0 := by
        rw [load64_store64_other (by omega), otherLink live]
      rw [otherSize, total, nextWord]
      refine ⟨size + second.size, rest, _, rfl, ⟨?_, ?_⟩, Or.inl ⟨second.size, ?_, rfl⟩⟩
      · rw [holds.head, next_free_append, next_free_append]
        rfl
      · rw [encodes_append]
        refine ⟨?_, ?_, ?_, ?_⟩
        · apply encodes_congr frontRoomy _ frontEncodes
          intro address _ upper
          rw [store64_apply_other (by omega), store64_apply_other (by omega)]
        · rw [load64_store64_other (by omega), load64_store64 (by omega)]
        · intro _
          rw [load64_store64 tailSmall, Nat.add_assoc (start + span front)]
        · rw [← Nat.add_assoc]
          apply encodes_congr restRoomy _ restEncodes
          intro address lower _
          rw [store64_apply_other (by omega), store64_apply_other (by omega)]
      · rw [← live]

theorem last_free_before (roomy : Roomy front) {tail : Nat}
    (encodes : Encodes memory start front tail)
    (live : ∀ segment ∈ front.getLast?, segment.live = true) :
    lastFree start front 0 = 0 ∨ lastFree start front 0 +
      load64 memory (lastFree start front 0) < start + span front := by
  rcases last_free_cases front with allLive | ⟨before, other, lives, rfl, livesLive⟩
  · exact Or.inl (last_free_live allLive start 0)
  · rw [last_free_split start other 0 before livesLive]
    obtain ⟨-, sizeWord, -, -⟩ := encodes_append.mp encodes
    cases lives with
    | nil =>
      have impossible := live ⟨false, other⟩ (by simp)
      cases impossible
    | cons first rest =>
      have room := roomy first (by simp)
      rw [sizeWord, span_append, span, span]
      exact Or.inr (by omega)

theorem ends_mergePrev (window : Window start (front ++ ⟨false, size⟩ :: back))
    (sized : Sized (front ++ ⟨false, size⟩ :: back))
    (holds : Holds start (front ++ ⟨false, size⟩ :: back) head memory) :
    Ends (mergePrev (lastFree start front 0) (start + span front))
      (fun _ after => ∃ front' size' memory', after = withHeap machine head memory' ∧
        Holds start (front' ++ ⟨false, size'⟩ :: back) head memory' ∧
        AbsorbsPrev front size front' size')
      (fun _ _ => False) (withHeap machine head memory) := by
  obtain ⟨positive, below⟩ := window.around
  obtain ⟨frontRoomy, room, backRoomy⟩ := sized.around
  obtain ⟨frontEncodes, sizeWord, link, backEncodes⟩ := encodes_append.mp holds.encodes
  have linkWord := link rfl
  dsimp only at sizeWord linkWord backEncodes
  simp only [mergePrev, ends_bind, ends_getSize, ends_ite, ends_pure]
  have unmerged : (∀ segment ∈ front.getLast?, segment.live = true) →
      ∃ front' size' memory', withHeap machine head memory = withHeap machine head memory' ∧
        Holds start (front' ++ ⟨false, size'⟩ :: back) head memory' ∧
        AbsorbsPrev front size front' size' := fun live =>
    ⟨front, size, memory, rfl, holds, Or.inr ⟨rfl, rfl, live⟩⟩
  by_cases live : ∀ segment ∈ front.getLast?, segment.live = true
  · rw [if_neg]
    · exact unmerged live
    · rintro ⟨nonzero, same⟩
      rcases last_free_before frontRoomy frontEncodes live with zero | earlier
      · exact nonzero zero
      · rw [add64, Nat.mod_eq_of_lt (by omega)] at same
        omega
  · obtain ⟨before, other, rfl⟩ : ∃ before other, front = before ++ [⟨false, other⟩] := by
      rcases List.eq_nil_or_concat front with rfl | ⟨before, last, rfl⟩
      · simp at live
      · cases kind : last.live with
        | true => exact absurd (by simpa using kind) live
        | false => exact ⟨before, last.size, by rw [← kind, List.concat_eq_append]⟩
    have previous : lastFree start (before ++ [⟨false, other⟩]) 0 = start + span before :=
      last_free_split start other 0 before (by simp)
    have beforeRoomy : Roomy before := fun segment member => frontRoomy segment (by simp [member])
    have otherRoom : 16 ≤ other := frontRoomy ⟨false, other⟩ (by simp)
    have place : start + span (before ++ [⟨false, other⟩]) = start + span before + other := by
      simp [span, Nat.add_assoc]
    rw [place] at sizeWord linkWord backEncodes
    obtain ⟨beforeEncodes, otherSize, -, -⟩ := encodes_append.mp frontEncodes
    dsimp only at otherSize
    rw [← Nat.add_assoc, place] at below
    have total : add64 other size = other + size := Nat.mod_eq_of_lt (by omega)
    have ending : add64 (start + span before) other = start + span before + other :=
      Nat.mod_eq_of_lt (by omega)
    have tailSmall : nextFree (start + span before + other + size) back 0 < 2 ^ 64 :=
      next_free_lt (by omega) backRoomy (by decide)
    rw [previous, place, otherSize, ending, if_pos ⟨by omega, rfl⟩]
    simp only [ends_bind, ends_getNext, ends_setBlockSize, ends_setBlockNext, sizeWord, total]
    rw [load64_store64_other (by omega), linkWord]
    refine ⟨before, other + size, _, rfl, ⟨?_, ?_⟩, Or.inl ⟨other, rfl, rfl⟩⟩
    · rw [holds.head, List.append_assoc, next_free_append, next_free_append, next_free_append]
      rfl
    · rw [encodes_append]
      refine ⟨?_, ?_, ?_, ?_⟩
      · apply encodes_congr beforeRoomy _ beforeEncodes
        intro address _ upper
        rw [store64_apply_other (by omega), store64_apply_other (by omega)]
      · rw [load64_store64_other (by omega), load64_store64 (by omega)]
      · intro _
        rw [load64_store64 tailSmall, Nat.add_assoc (start + span before)]
      · rw [← Nat.add_assoc]
        apply encodes_congr backRoomy _ backEncodes
        intro address lower _
        rw [store64_apply_other (by omega), store64_apply_other (by omega)]

structure Merged (start : Nat) (front : List Segment) (size : Nat) (back segments : List Segment) :
    Prop where
  span : span segments = span front + size + span back
  sized : Sized segments
  coalesced : Coalesced front → Coalesced back → Coalesced segments
  live : blocks true start segments =
    blocks true start front ++ blocks true (start + RegionLayouts.span front + size) back

section Absorbing

variable {size' : Nat} {front' back' : List Segment}

theorem AbsorbsNext.span_eq (absorbs : AbsorbsNext size back size' back') :
    size' + span back' = size + span back := by
  rcases absorbs with ⟨other, rfl, rfl⟩ | ⟨rfl, rfl, -⟩
  · exact Nat.add_assoc _ _ _
  · rfl

theorem AbsorbsPrev.span_eq (absorbs : AbsorbsPrev front size front' size') :
    span front' + size' = span front + size := by
  rcases absorbs with ⟨other, rfl, rfl⟩ | ⟨rfl, rfl, -⟩
  · rw [span_append]
    exact (Nat.add_assoc _ _ _).symm
  · rfl

theorem AbsorbsNext.live_blocks (absorbs : AbsorbsNext size back size' back') (place : Nat) :
    blocks true (place + size') back' = blocks true (place + size) back := by
  rcases absorbs with ⟨other, rfl, rfl⟩ | ⟨rfl, rfl, -⟩
  · rw [← Nat.add_assoc]
    rfl
  · rfl

theorem AbsorbsPrev.live_blocks (absorbs : AbsorbsPrev front size front' size') :
    blocks true start front' = blocks true start front := by
  rcases absorbs with ⟨other, rfl, rfl⟩ | ⟨rfl, rfl, -⟩
  · rw [blocks_append]
    exact (List.append_nil _).symm
  · rfl

theorem AbsorbsNext.sized (absorbs : AbsorbsNext size back size' back')
    (sized : Sized (⟨false, size⟩ :: back)) : Sized (⟨false, size'⟩ :: back') := by
  rcases absorbs with ⟨other, rfl, rfl⟩ | ⟨rfl, rfl, -⟩
  · obtain ⟨first, rest⟩ := sized_cons.mp sized
    obtain ⟨second, others⟩ := sized_cons.mp rest
    refine sized_cons.mpr ⟨?_, others⟩
    dsimp only at *
    omega
  · exact sized

theorem AbsorbsPrev.sized (absorbs : AbsorbsPrev front size front' size') (sized : Sized front)
    (block : 16 ≤ size ∧ size % 16 = 0) : Sized front' ∧ 16 ≤ size' ∧ size' % 16 = 0 := by
  rcases absorbs with ⟨other, rfl, rfl⟩ | ⟨rfl, rfl, -⟩
  · obtain ⟨others, last⟩ := sized_append.mp sized
    have first := (sized_cons.mp last).1
    refine ⟨others, ?_⟩
    dsimp only at *
    omega
  · exact ⟨sized, block⟩

theorem AbsorbsNext.coalesced (absorbs : AbsorbsNext size back size' back')
    (coalesced : Coalesced back) : Coalesced (⟨false, size'⟩ :: back') := by
  rw [Coalesced, List.isChain_cons]
  rcases absorbs with ⟨other, rfl, rfl⟩ | ⟨rfl, rfl, live⟩
  · obtain ⟨seam, rest⟩ := List.isChain_cons.mp coalesced
    refine ⟨?_, rest⟩
    intro segment member
    rcases seam segment member with impossible | live
    · cases impossible
    · exact Or.inr live
  · exact ⟨fun segment member => Or.inr (live segment member), coalesced⟩

theorem AbsorbsPrev.coalesced (absorbs : AbsorbsPrev front size front' size')
    (coalesced : Coalesced front) :
    Coalesced front' ∧ ∀ segment ∈ front'.getLast?, segment.live = true := by
  rcases absorbs with ⟨other, rfl, rfl⟩ | ⟨rfl, rfl, live⟩
  · obtain ⟨rest, -, seam⟩ := List.isChain_append.mp coalesced
    refine ⟨rest, ?_⟩
    intro segment member
    rcases seam segment member ⟨false, other⟩ (by simp) with live | impossible
    · exact live
    · cases impossible
  · exact ⟨coalesced, live⟩

theorem merged_of_absorbs {middle : Nat} (sized : Sized (front ++ ⟨false, size⟩ :: back))
    (next : AbsorbsNext size back middle back') (prev : AbsorbsPrev front middle front' size') :
    Merged start front size back (front' ++ ⟨false, size'⟩ :: back') := by
  obtain ⟨frontSized, blockSized⟩ := sized_append.mp sized
  obtain ⟨middleSized, backSized⟩ := sized_cons.mp (next.sized blockSized)
  obtain ⟨frontSized', lastSized⟩ := prev.sized frontSized middleSized
  have nextSpan := next.span_eq
  have prevSpan := prev.span_eq
  refine ⟨?_, sized_append.mpr ⟨frontSized', sized_cons.mpr ⟨lastSized, backSized⟩⟩, ?_, ?_⟩
  · rw [span_append, span]
    dsimp only
    omega
  · intro frontCoalesced backCoalesced
    obtain ⟨rest, live⟩ := prev.coalesced frontCoalesced
    have tail := next.coalesced backCoalesced
    rw [Coalesced, List.isChain_cons] at tail
    rw [Coalesced, List.isChain_append, List.isChain_cons]
    exact ⟨rest, tail, fun left leftLast _ _ => Or.inl (live left leftLast)⟩
  · rw [blocks_append, prev.live_blocks, ← next.live_blocks (start + span front),
      Nat.add_assoc start, ← prevSpan, ← Nat.add_assoc]
    rfl

end Absorbing

/-- Linking and merging a block turns it into free space of the description. -/
theorem ends_insertBlock (window : Window start (front ++ ⟨false, size⟩ :: back))
    (sized : Sized (front ++ ⟨false, size⟩ :: back)) (seam : Seam start front size back head memory) :
    Ends (insertBlock (lastFree start front 0) (start + span front))
      (fun _ after => ∃ segments head' memory', after = withHeap machine head' memory' ∧
        Holds start segments head' memory' ∧ Merged start front size back segments)
      (fun _ _ => False) (withHeap machine head memory) := by
  rw [insertBlock, ends_bind]
  apply ends_mono (ends_linkBlock window sized seam) _ fun _ _ => id
  rintro _ _ ⟨linkedHead, linked, rfl, linkedHolds⟩
  rw [ends_bind]
  apply ends_mono (ends_mergeNext window sized linkedHolds) _ fun _ _ => id
  rintro _ _ ⟨middle, back', merged, rfl, mergedHolds, next⟩
  have nextSpan := next.span_eq
  have sized' : Sized (front ++ ⟨false, middle⟩ :: back') := by
    obtain ⟨frontSized, blockSized⟩ := sized_append.mp sized
    exact sized_append.mpr ⟨frontSized, next.sized blockSized⟩
  have window' : Window start (front ++ ⟨false, middle⟩ :: back') := by
    refine ⟨window.high, ?_⟩
    have below := window.below
    rw [span_append, span] at below ⊢
    dsimp only at below ⊢
    omega
  apply ends_mono (ends_mergePrev window' sized' mergedHolds) _ fun _ _ => id
  rintro _ _ ⟨front', size', final, rfl, finalHolds, prev⟩
  exact ⟨_, _, _, rfl, finalHolds, merged_of_absorbs sized next prev⟩

end Insertion

/-! ## Scanning the list -/

section Scanning

variable {memory : Memory} {start : Nat} {segments : List Segment}

theorem free_count_le (roomy : Roomy segments) :
    (blocks false start segments).length * 16 ≤ span segments := by
  induction segments generalizing start with
  | nil => simp [blocks]
  | cons segment rest induction =>
    have room := roomy segment List.mem_cons_self
    have others : (blocks false (start + segment.size) rest).length * 16 ≤ span rest :=
      induction fun other member => roomy other (List.mem_cons_of_mem _ member)
    rw [blocks, span]
    split
    · rw [List.length_cons]
      omega
    · omega

theorem walk_below_front {tail bound fuel prev : Nat} (positive : 0 < start)
    (roomy : Roomy segments) (encodes : Encodes memory start segments tail)
    (inside : start + span segments ≤ bound) (behind : tail = 0 ∨ bound ≤ tail)
    (enough : (blocks false start segments).length < fuel) :
    walkBelow memory bound fuel prev (nextFree start segments tail) =
      some (lastFree start segments prev) := by
  induction segments generalizing start fuel prev with
  | nil =>
    cases fuel with
    | zero => exact absurd enough (Nat.not_lt_zero _)
    | succ fuel =>
      rw [nextFree, walkBelow, if_neg (by omega)]
      rfl
  | cons segment rest induction =>
    obtain ⟨-, link, others⟩ := encodes
    have room := roomy segment List.mem_cons_self
    have restRoomy : Roomy rest := fun other member => roomy other (List.mem_cons_of_mem _ member)
    rw [span] at inside
    cases live : segment.live with
    | true =>
      rw [blocks, live, if_neg (by decide)] at enough
      rw [nextFree, lastFree, live]
      exact induction (by omega) restRoomy others (by omega) enough
    | false =>
      rw [blocks, live, if_pos rfl, List.length_cons] at enough
      cases fuel with
      | zero => exact absurd enough (Nat.not_lt_zero _)
      | succ fuel =>
        have linkWord : blockNext memory start =
            nextFree (start + segment.size) rest tail := link live
        rw [nextFree, lastFree, live, if_neg (by decide), if_neg (by decide), walkBelow,
          if_pos (by omega), linkWord]
        exact induction (by omega) restRoomy others (by omega) (by omega)

def AllSmall (total : Nat) (segments : List Segment) : Prop :=
  ∀ segment ∈ segments, segment.live = false → segment.size < total

theorem all_small_cons {total : Nat} {segment : Segment}
    (small : segment.live = false → segment.size < total) (others : AllSmall total segments) :
    AllSmall total (segment :: segments) :=
  List.forall_mem_cons.mpr ⟨small, others⟩

/-- The scan of `kmalloc` finds the first free segment that is large enough, or sees that all
are too small. -/
theorem find_fit_first {total fuel prev : Nat} (positive : 0 < start)
    (encodes : Encodes memory start segments 0)
    (enough : (blocks false start segments).length < fuel) :
    (∃ front size back, segments = front ++ ⟨false, size⟩ :: back ∧ total ≤ size ∧
        AllSmall total front ∧
        findFit memory total fuel prev (nextFree start segments 0) =
          .fits (lastFree start front prev) (start + span front)) ∨
      AllSmall total segments ∧
        findFit memory total fuel prev (nextFree start segments 0) = .exhausted := by
  induction segments generalizing start fuel prev with
  | nil =>
    cases fuel with
    | zero => exact absurd enough (Nat.not_lt_zero _)
    | succ fuel => exact Or.inr ⟨List.forall_mem_nil _, rfl⟩
  | cons segment rest induction =>
    obtain ⟨sizeWord, link, others⟩ := encodes
    cases live : segment.live with
    | true =>
      have taken : segment.live = false → segment.size < total := by
        intro free
        rw [live] at free
        cases free
      rw [blocks, live, if_neg (by decide)] at enough
      rw [nextFree, live, if_pos rfl]
      rcases induction (by omega) others enough with
        ⟨front, size, back, rfl, large, small, found⟩ | ⟨small, none⟩
      · refine Or.inl ⟨segment :: front, size, back, rfl, large, all_small_cons taken small, ?_⟩
        rw [lastFree, live, if_pos rfl, span, ← Nat.add_assoc]
        exact found
      · exact Or.inr ⟨all_small_cons taken small, none⟩
    | false =>
      rw [blocks, live, if_pos rfl, List.length_cons] at enough
      cases fuel with
      | zero => exact absurd enough (Nat.not_lt_zero _)
      | succ fuel =>
        have linkWord : blockNext memory start =
            nextFree (start + segment.size) rest 0 := link live
        have sizeHere : blockSize memory start = segment.size := sizeWord
        rw [nextFree, live, if_neg (by decide), findFit, if_neg (by omega), sizeHere,
          linkWord]
        by_cases large : segment.size ≥ total
        · refine Or.inl ⟨[], segment.size, rest, ?_, large, List.forall_mem_nil _, ?_⟩
          · rw [List.nil_append, ← live]
          · rw [if_pos large]
            rfl
        · have tooSmall := fun _ : segment.live = false => Nat.lt_of_not_ge large
          rw [if_neg large]
          rcases induction (by omega) others (Nat.lt_of_succ_lt_succ enough) with
            ⟨front, size, back, rfl, bigger, small, found⟩ | ⟨small, none⟩
          · refine Or.inl ⟨segment :: front, size, back, rfl, bigger,
              all_small_cons tooSmall small, ?_⟩
            rw [lastFree, live, if_neg (by decide), span, ← Nat.add_assoc]
            exact found
          · exact Or.inr ⟨all_small_cons tooSmall small, none⟩

theorem find_fit_cases {total fuel prev : Nat} (positive : 0 < start)
    (encodes : Encodes memory start segments 0)
    (enough : (blocks false start segments).length < fuel) :
    (∃ front size back, segments = front ++ ⟨false, size⟩ :: back ∧ total ≤ size ∧
        findFit memory total fuel prev (nextFree start segments 0) =
          .fits (lastFree start front prev) (start + span front)) ∨
      findFit memory total fuel prev (nextFree start segments 0) = .exhausted := by
  rcases find_fit_first positive encodes enough with
    ⟨front, size, back, split, large, -, found⟩ | ⟨-, none⟩
  · exact Or.inl ⟨front, size, back, split, large, found⟩
  · exact Or.inr none

theorem find_fit_exhausted {total fuel prev : Nat} (positive : 0 < start)
    (encodes : Encodes memory start segments 0)
    (enough : (blocks false start segments).length < fuel)
    (none : findFit memory total fuel prev (nextFree start segments 0) = .exhausted) :
    AllSmall total segments := by
  rcases find_fit_first positive encodes enough with ⟨_, _, _, -, -, -, found⟩ | ⟨small, -⟩
  · rw [none] at found
    cases found
  · exact small

end Scanning

/-! ## Taking a block -/

section Taking

variable {machine : Machine} {start head size total : Nat} {memory : Memory}
  {front back : List Segment}

/-- A free segment becomes live, whole or up to a free remainder. -/
def Carves (total size taken : Nat) (rest : List Segment) : Prop :=
  (taken = total ∧ rest = [⟨false, size - total⟩] ∧ total + 16 ≤ size) ∨
    (taken = size ∧ rest = [] ∧ size < total + 16)

theorem Carves.span_eq {size taken : Nat} {rest : List Segment} (carves : Carves total size taken rest) :
    taken + span rest = size := by
  rcases carves with ⟨rfl, rfl, fits⟩ | ⟨rfl, rfl, -⟩
  · simp only [span]
    omega
  · rfl

theorem Carves.free_rest {size taken : Nat} {rest : List Segment}
    (carves : Carves total size taken rest) (place : Nat) : blocks true place rest = [] := by
  rcases carves with ⟨rfl, rfl, -⟩ | ⟨rfl, rfl, -⟩ <;> rfl

theorem Holds.take_whole (window : Window start (front ++ ⟨false, size⟩ :: back))
    (sized : Sized (front ++ ⟨false, size⟩ :: back))
    (holds : Holds start (front ++ ⟨false, size⟩ :: back) head memory) :
    let prev := lastFree start front 0
    let next := nextFree (start + span front + size) back 0
    Holds start (front ++ ⟨true, size⟩ :: back) (relinkHead head prev next)
        (store64 (relink memory prev next) (start + span front) size) ∧
      load64 (relink memory prev next) (start + span front) = size := by
  intro prev next
  obtain ⟨positive, below⟩ := window.around
  obtain ⟨frontRoomy, room, backRoomy⟩ := sized.around
  obtain ⟨frontEncodes, sizeWord, -, backEncodes⟩ := encodes_append.mp holds.encodes
  have nextSmall : next < 2 ^ 64 := next_free_lt (by omega) backRoomy (by decide)
  obtain ⟨relinked, headEq, outside⟩ :=
    encodes_relink positive frontRoomy nextSmall frontEncodes
  have word : load64 (relink memory prev next) (start + span front) = size := by
    rw [load64_congr fun address lower _ => outside address (Or.inr lower)]
    exact sizeWord
  refine ⟨⟨?_, ?_⟩, word⟩
  · rw [holds.head, next_free_append, headEq, next_free_append]
    rfl
  · rw [encodes_append]
    refine ⟨?_, ?_, ?_, ?_⟩
    · apply encodes_congr frontRoomy _ relinked
      intro address _ upper
      exact store64_apply_other (by omega)
    · exact load64_store64 (by omega)
    · intro impossible
      cases impossible
    · apply encodes_congr backRoomy _ backEncodes
      intro address lower _
      dsimp only at lower
      rw [store64_apply_other (by omega), outside address (Or.inr (by omega))]

def splitWords (memory : Memory) (block total rest next : Nat) : Memory :=
  store64 (store64 (store64 memory (block + total) rest) (block + total + 8) next) block total

theorem Holds.take_part (window : Window start (front ++ ⟨false, size⟩ :: back))
    (sized : Sized (front ++ ⟨false, size⟩ :: back)) (large : 16 ≤ total)
    (remains : total + 16 ≤ size)
    (holds : Holds start (front ++ ⟨false, size⟩ :: back) head memory) :
    let block := start + span front
    let prev := lastFree start front 0
    let words := splitWords memory block total (size - total)
      (nextFree (start + span front + size) back 0)
    Holds start (front ++ ⟨true, total⟩ :: ⟨false, size - total⟩ :: back)
        (relinkHead head prev (block + total))
        (store64 (relink words prev (block + total)) block total) ∧
      load64 (relink words prev (block + total)) block = total := by
  intro block prev words
  obtain ⟨positive, below⟩ := window.around
  obtain ⟨frontRoomy, room, backRoomy⟩ := sized.around
  obtain ⟨frontEncodes, -, -, backEncodes⟩ := encodes_append.mp holds.encodes
  have nextSmall : nextFree (start + span front + size) back 0 < 2 ^ 64 :=
    next_free_lt (by omega) backRoomy (by decide)
  have blockEq : block = start + span front := rfl
  have wordsOutside : ∀ address, address < block ∨ block + size ≤ address →
      words address = memory address := by
    intro address apart
    simp only [words, splitWords]
    rw [store64_apply_other (by omega), store64_apply_other (by omega),
      store64_apply_other (by omega)]
  have frontWords : Encodes words start front (start + span front) :=
    encodes_congr frontRoomy
      (fun address _ upper => wordsOutside address (Or.inl (by omega))) frontEncodes
  obtain ⟨relinked, headEq, outside⟩ := encodes_relink positive frontRoomy
    (show block + total < 2 ^ 64 by omega) frontWords
  have word : load64 (relink words prev (block + total)) block = total := by
    rw [load64_congr fun address lower _ => outside address (Or.inr (by omega))]
    exact load64_store64 (by omega)
  have restSize : load64 words (block + total) = size - total := by
    simp only [words, splitWords]
    rw [load64_store64_other (by omega), load64_store64_other (by omega),
      load64_store64 (by omega)]
  have restNext : load64 words (block + total + 8) = nextFree (start + span front + size) back 0 := by
    simp only [words, splitWords]
    rw [load64_store64_other (by omega), load64_store64 nextSmall]
  have finalWord : ∀ address, block + total ≤ address →
      load64 (store64 (relink words prev (block + total)) block total) address =
        load64 words address := by
    intro address lower
    rw [load64_store64_other (by omega),
      load64_congr fun position low _ => outside position (Or.inr (by omega))]
  have ending : start + span front + total + (size - total) = start + span front + size := by
    omega
  refine ⟨⟨?_, ?_⟩, word⟩
  · rw [holds.head, next_free_append, next_free_append]
    exact headEq
  · rw [encodes_append]
    refine ⟨?_, ?_, ?_, ?_, ?_, ?_⟩
    · apply encodes_congr frontRoomy _ relinked
      intro address _ upper
      exact store64_apply_other (by omega)
    · exact load64_store64 (by omega)
    · intro impossible
      cases impossible
    · exact (finalWord _ (Nat.le_refl _)).trans restSize
    · intro _
      dsimp only
      rw [ending]
      exact (finalWord _ (Nat.le_add_right _ _)).trans restNext
    · dsimp only
      rw [ending]
      apply encodes_congr backRoomy _ backEncodes
      intro address lower _
      dsimp only at lower
      rw [store64_apply_other (by omega), outside address (Or.inr (by omega)),
        wordsOutside address (Or.inr (by omega))]

theorem header_size_eq : headerSize = 16 := by decide

theorem ends_takeBlock (window : Window start (front ++ ⟨false, size⟩ :: back))
    (sized : Sized (front ++ ⟨false, size⟩ :: back)) (large : 16 ≤ total) (fits : total ≤ size)
    (holds : Holds start (front ++ ⟨false, size⟩ :: back) head memory) :
    Ends (takeBlock total (lastFree start front 0) (start + span front))
      (fun pointer after => pointer = start + span front + 16 ∧
        ∃ taken rest head' memory', Carves total size taken rest ∧
          Holds start (front ++ ⟨true, taken⟩ :: (rest ++ back)) head' memory' ∧
          after = { withHeap machine head' memory' with
            locked := Function.update machine.locked .heap false })
      (fun _ _ => False) (withHeap machine head memory) := by
  obtain ⟨positive, below⟩ := window.around
  obtain ⟨-, sizeWord, link, -⟩ := encodes_append.mp holds.encodes
  have linkWord := link rfl
  dsimp only at sizeWord linkWord
  have high := window.high
  have limit : add64 total minAllocSize = total + 16 :=
    Nat.mod_eq_of_lt (by unfold minAllocSize; omega)
  have pointer : add64 (start + span front) headerSize = start + span front + 16 := by
    rw [header_size_eq]
    exact Nat.mod_eq_of_lt (by omega)
  simp only [takeBlock, ends_bind, ends_getSize, sizeWord, limit, ends_ite, ends_getNext]
  by_cases remains : size ≥ total + 16
  · obtain ⟨carved, word⟩ := holds.take_part window sized large remains
    have block : add64 (start + span front) total = start + span front + total :=
      Nat.mod_eq_of_lt (by omega)
    have rest : sub64 size total = size - total := by
      unfold sub64
      omega
    have nextWord : load64 (store64 memory (start + span front + total) (size - total))
        (start + span front + 8) = nextFree (start + span front + size) back 0 := by
      rw [load64_store64_other (by omega), linkWord]
    rw [if_pos remains, block, rest]
    simp only [ends_setBlockSize, ends_bind, ends_getNext, nextWord, ends_setBlockNext,
      ends_setLink, ends_getSize, ends_spinUnlock, ends_pure, pointer]
    unfold splitWords at word carved
    rw [word]
    exact ⟨trivial, total, [⟨false, size - total⟩], _, _, Or.inl ⟨rfl, rfl, remains⟩, carved, rfl⟩
  · obtain ⟨carved, word⟩ := holds.take_whole window sized
    rw [if_neg remains, linkWord]
    simp only [ends_setLink, ends_getSize, ends_bind, ends_setBlockSize, ends_spinUnlock,
      ends_pure, pointer]
    rw [word]
    exact ⟨trivial, size, [], _, _, Or.inr ⟨rfl, rfl, by omega⟩, carved, rfl⟩

end Taking

end RiriaKernel.KernelHeapLayouts
