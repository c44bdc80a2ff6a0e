import Mathlib.Data.List.Chain
import Mathlib.Data.List.Perm.Basic
import RiriaKernel.ByteMemory

/-!
# Regions cut into free and live segments

A contiguous region is described by the list of its segments in address order, each free
or live. Blocks are the segments with their addresses, so a description cannot leave a
gap or let two blocks overlap. The free segments can be threaded into a list kept in the
region itself: the first word of a segment is its size, and the second word of a free
segment is the address of the next free one. `Encodes` states that a memory holds such a
description, and the update lemmas change both together.
-/

namespace RiriaKernel.RegionLayouts

open ByteMemory

structure Segment where
  live : Bool
  size : Nat
  deriving DecidableEq, Repr

structure Block where
  start : Nat
  size : Nat
  deriving DecidableEq, Repr

def Block.stop (block : Block) : Nat := block.start + block.size

def span : List Segment → Nat
  | [] => 0
  | segment :: rest => segment.size + span rest

/-- The live (or the free) segments with their addresses. -/
def blocks (live : Bool) (start : Nat) : List Segment → List Block
  | [] => []
  | segment :: rest =>
      if segment.live = live then ⟨start, segment.size⟩ :: blocks live (start + segment.size) rest
      else blocks live (start + segment.size) rest

/-- `blocks` covers `lower .. upper - 1` with no overlap and no gap. -/
structure Tiles (blocks : List Block) (lower upper : Nat) : Prop where
  disjoint : blocks.Pairwise fun left right => left.stop ≤ right.start ∨ right.stop ≤ left.start
  covers : ∀ address, lower ≤ address ∧ address < upper ↔
    ∃ block ∈ blocks, block.start ≤ address ∧ address < block.stop

@[simp] theorem span_append (front back : List Segment) :
    span (front ++ back) = span front + span back := by
  induction front with
  | nil => simp [span]
  | cons segment rest induction =>
    rw [List.cons_append, span, span, induction, Nat.add_assoc]

theorem blocks_append (live : Bool) (start : Nat) (front back : List Segment) :
    blocks live start (front ++ back) =
      blocks live start front ++ blocks live (start + span front) back := by
  induction front generalizing start with
  | nil => simp [blocks, span]
  | cons segment rest induction =>
    rw [List.cons_append, blocks, blocks, induction, span, ← Nat.add_assoc]
    split
    · rw [List.cons_append]
    · rfl

theorem blocks_within (live : Bool) (start : Nat) (segments : List Segment) {block : Block}
    (member : block ∈ blocks live start segments) :
    start ≤ block.start ∧ block.stop ≤ start + span segments := by
  induction segments generalizing start with
  | nil => cases member
  | cons segment rest induction =>
    rw [blocks] at member
    have later : block ∈ blocks live (start + segment.size) rest →
        start ≤ block.start ∧ block.stop ≤ start + (segment.size + span rest) := by
      intro member
      have bounds := induction (start + segment.size) member
      omega
    split at member
    · cases List.mem_cons.mp member with
      | inl first =>
        subst first
        simp only [Block.stop, span]
        omega
      | inr rest => exact later rest
    · exact later member

theorem tiles_perm {left right : List Block} {lower upper : Nat} (permuted : left.Perm right)
    (tiles : Tiles left lower upper) : Tiles right lower upper where
  disjoint := (permuted.pairwise_iff fun apart => apart.symm).mp tiles.disjoint
  covers := by
    intro address
    rw [tiles.covers address]
    constructor
    · rintro ⟨block, member, inside⟩
      exact ⟨block, permuted.mem_iff.mp member, inside⟩
    · rintro ⟨block, member, inside⟩
      exact ⟨block, permuted.mem_iff.mpr member, inside⟩

theorem tiles_cons {start size upper : Nat} {blocks : List Block}
    (tiles : Tiles blocks (start + size) upper) (later : ∀ block ∈ blocks, start + size ≤ block.start)
    (room : start + size ≤ upper) : Tiles (⟨start, size⟩ :: blocks) start upper where
  disjoint := List.pairwise_cons.mpr ⟨fun block member => Or.inl (later block member), tiles.disjoint⟩
  covers := by
    intro address
    constructor
    · intro inside
      by_cases first : address < start + size
      · exact ⟨_, List.mem_cons_self, inside.1, first⟩
      · obtain ⟨block, member, bounds⟩ := (tiles.covers address).mp ⟨by omega, inside.2⟩
        exact ⟨block, List.mem_cons_of_mem _ member, bounds⟩
    · rintro ⟨block, member, bounds⟩
      cases List.mem_cons.mp member with
      | inl first =>
        subst first
        simp only [Block.stop] at bounds
        omega
      | inr rest =>
        have inside := (tiles.covers address).mpr ⟨block, rest, bounds⟩
        omega

theorem blocks_tile (start : Nat) (segments : List Segment) :
    Tiles (blocks false start segments ++ blocks true start segments) start
      (start + span segments) := by
  induction segments generalizing start with
  | nil =>
    refine ⟨by simp [blocks], ?_⟩
    intro address
    simp only [blocks, span, List.append_nil, List.not_mem_nil, false_and, exists_false, iff_false]
    omega
  | cons segment rest induction =>
    have tail := induction (start + segment.size)
    have later : ∀ block ∈ blocks false (start + segment.size) rest ++
        blocks true (start + segment.size) rest, start + segment.size ≤ block.start := by
      intro block member
      cases List.mem_append.mp member with
      | inl free => exact (blocks_within _ _ _ free).1
      | inr live => exact (blocks_within _ _ _ live).1
    have whole := tiles_cons tail later (Nat.le_add_right _ _)
    rw [Nat.add_assoc, ← span] at whole
    cases live : segment.live with
    | false => simpa [blocks, live] using whole
    | true =>
      have swapped := tiles_perm List.perm_middle.symm whole
      simpa [blocks, live] using swapped

abbrev Coalesced (segments : List Segment) : Prop :=
  segments.IsChain fun left right => left.live = true ∨ right.live = true

theorem blocks_ordered {segments : List Segment} (positive : ∀ segment ∈ segments, 0 < segment.size)
    (live : Bool) (start : Nat) :
    (blocks live start segments).Pairwise fun left right => left.stop ≤ right.start := by
  induction segments generalizing start with
  | nil => exact List.Pairwise.nil
  | cons segment rest induction =>
    have tail := induction (fun other member => positive other (List.mem_cons_of_mem _ member))
      (start + segment.size)
    rw [blocks]
    split
    · exact List.pairwise_cons.mpr ⟨fun block member => (blocks_within _ _ _ member).1, tail⟩
    · exact tail

theorem free_blocks_apart {segments : List Segment} (coalesced : Coalesced segments)
    (positive : ∀ segment ∈ segments, 0 < segment.size) (start : Nat) :
    (blocks false start segments).Pairwise fun left right => left.stop < right.start := by
  induction segments generalizing start with
  | nil => exact List.Pairwise.nil
  | cons segment rest induction =>
    have restPositive : ∀ other ∈ rest, 0 < other.size := fun other member =>
      positive other (List.mem_cons_of_mem _ member)
    have tail := induction coalesced.tail restPositive (start + segment.size)
    rw [blocks]
    split
    · next free =>
        refine List.pairwise_cons.mpr ⟨?_, tail⟩
        intro block member
        cases rest with
        | nil => cases member
        | cons second others =>
          -- the segment after a free one is live, so a free block starts behind it
          have seam := (List.isChain_cons_cons.mp coalesced).1
          have liveSecond : second.live = true := by
            rcases seam with impossible | second
            · rw [free] at impossible
              cases impossible
            · exact second
          rw [blocks, if_neg (by rw [liveSecond]; decide)] at member
          have bounds := (blocks_within _ _ _ member).1
          have size := restPositive second List.mem_cons_self
          simp only [Block.stop]
          omega
    · exact tail

/-! ## The free list inside the region -/

def nextFree (start : Nat) : List Segment → Nat → Nat
  | [], tail => tail
  | segment :: rest, tail =>
      if segment.live then nextFree (start + segment.size) rest tail else start

def lastFree (start : Nat) : List Segment → Nat → Nat
  | [], previous => previous
  | segment :: rest, previous =>
      lastFree (start + segment.size) rest (if segment.live then previous else start)

/-- The first word of every segment is its size, the second word of a free one its link.
`tail` is the free segment behind the described part, or zero. -/
def Encodes (memory : Memory) (start : Nat) : List Segment → Nat → Prop
  | [], _ => True
  | segment :: rest, tail =>
      load64 memory start = segment.size ∧
        (segment.live = false →
          load64 memory (start + 8) = nextFree (start + segment.size) rest tail) ∧
        Encodes memory (start + segment.size) rest tail

abbrev Roomy (segments : List Segment) : Prop := ∀ segment ∈ segments, 16 ≤ segment.size

theorem next_free_append (start : Nat) (front back : List Segment) (tail : Nat) :
    nextFree start (front ++ back) tail =
      nextFree start front (nextFree (start + span front) back tail) := by
  induction front generalizing start with
  | nil => simp [nextFree, span]
  | cons segment rest induction =>
    rw [List.cons_append, nextFree, nextFree, induction, span, Nat.add_assoc]

theorem last_free_append (start : Nat) (front back : List Segment) (previous : Nat) :
    lastFree start (front ++ back) previous =
      lastFree (start + span front) back (lastFree start front previous) := by
  induction front generalizing start previous with
  | nil => simp [lastFree, span]
  | cons segment rest induction =>
    rw [List.cons_append, lastFree, lastFree, induction, span, Nat.add_assoc]

theorem encodes_append {memory : Memory} {start : Nat} {front back : List Segment} {tail : Nat} :
    Encodes memory start (front ++ back) tail ↔
      Encodes memory start front (nextFree (start + span front) back tail) ∧
        Encodes memory (start + span front) back tail := by
  induction front generalizing start with
  | nil => simp [Encodes, span]
  | cons segment rest induction =>
    rw [List.cons_append, Encodes, Encodes, induction, next_free_append, span, Nat.add_assoc]
    tauto

theorem encodes_congr {before after : Memory} {start : Nat} {segments : List Segment} {tail : Nat}
    (roomy : Roomy segments)
    (same : ∀ address, start ≤ address → address < start + span segments →
      after address = before address)
    (encodes : Encodes before start segments tail) : Encodes after start segments tail := by
  induction segments generalizing start with
  | nil => exact trivial
  | cons segment rest induction =>
    obtain ⟨size, link, others⟩ := encodes
    have room := roomy segment List.mem_cons_self
    rw [span] at same
    refine ⟨?_, ?_, ?_⟩
    · rw [load64_congr fun address lower upper => same address lower (by omega), size]
    · intro free
      rw [load64_congr fun address lower upper => same address (by omega) (by omega), link free]
    · apply induction (fun other member => roomy other (List.mem_cons_of_mem _ member)) _ others
      intro address lower upper
      exact same address (by omega) (by omega)

theorem encodes_headers {before after : Memory} {start : Nat} {segments : List Segment} {tail : Nat}
    (same : ∀ live, ∀ block ∈ blocks live start segments, ∀ address, block.start ≤ address →
      address < block.start + 16 → after address = before address)
    (encodes : Encodes before start segments tail) : Encodes after start segments tail := by
  induction segments generalizing start with
  | nil => exact trivial
  | cons segment rest induction =>
    obtain ⟨sizeWord, nextWord, others⟩ := encodes
    have header : ∀ address, start ≤ address → address < start + 16 →
        after address = before address :=
      same segment.live ⟨start, segment.size⟩ (by simp [blocks])
    refine ⟨?_, ?_, ?_⟩
    · rw [load64_congr fun address lower upper => header address lower (by omega)]
      exact sizeWord
    · intro free
      rw [load64_congr fun address lower upper => header address (by omega) (by omega)]
      exact nextWord free
    · apply induction _ others
      intro live block member
      apply same live block
      rw [blocks]
      split
      · exact List.mem_cons_of_mem _ member
      · exact member

theorem next_free_live {segments : List Segment} (live : ∀ segment ∈ segments, segment.live = true)
    (start tail : Nat) : nextFree start segments tail = tail := by
  induction segments generalizing start with
  | nil => rfl
  | cons segment rest induction =>
    rw [nextFree, if_pos (live segment List.mem_cons_self),
      induction fun other member => live other (List.mem_cons_of_mem _ member)]

theorem last_free_live {segments : List Segment} (live : ∀ segment ∈ segments, segment.live = true)
    (start previous : Nat) : lastFree start segments previous = previous := by
  induction segments generalizing start with
  | nil => rfl
  | cons segment rest induction =>
    rw [lastFree, if_pos (live segment List.mem_cons_self),
      induction fun other member => live other (List.mem_cons_of_mem _ member)]

theorem encodes_live {memory : Memory} {start tail other : Nat} {segments : List Segment}
    (live : ∀ segment ∈ segments, segment.live = true)
    (encodes : Encodes memory start segments tail) : Encodes memory start segments other := by
  induction segments generalizing start with
  | nil => exact trivial
  | cons segment rest induction =>
    obtain ⟨size, -, others⟩ := encodes
    refine ⟨size, ?_, ?_⟩
    · intro free
      rw [live segment List.mem_cons_self] at free
      cases free
    · exact induction (fun other member => live other (List.mem_cons_of_mem _ member)) others

theorem last_free_cases (segments : List Segment) :
    (∀ segment ∈ segments, segment.live = true) ∨
      ∃ front size lives, segments = front ++ ⟨false, size⟩ :: lives ∧
        ∀ segment ∈ lives, segment.live = true := by
  induction segments with
  | nil => exact Or.inl (by simp)
  | cons segment rest induction =>
    rcases induction with live | ⟨front, size, lives, rfl, live⟩
    · cases kind : segment.live with
      | true =>
        apply Or.inl
        intro other member
        cases List.mem_cons.mp member with
        | inl first => rw [first, kind]
        | inr later => exact live other later
      | false =>
        refine Or.inr ⟨[], segment.size, rest, ?_, live⟩
        rw [List.nil_append, ← kind]
    · exact Or.inr ⟨segment :: front, size, lives, rfl, live⟩

theorem last_free_split (start size previous : Nat) (front : List Segment) {lives : List Segment}
    (live : ∀ segment ∈ lives, segment.live = true) :
    lastFree start (front ++ ⟨false, size⟩ :: lives) previous = start + span front := by
  rw [last_free_append, lastFree, last_free_live live]
  rfl

def relink (memory : Memory) (previous value : Nat) : Memory :=
  if previous = 0 then memory else store64 memory (previous + 8) value

def relinkHead (head previous value : Nat) : Nat := if previous = 0 then value else head

theorem encodes_relink {memory : Memory} {start tail value : Nat} {segments : List Segment}
    (positive : 0 < start) (roomy : Roomy segments) (fits : value < 2 ^ 64)
    (encodes : Encodes memory start segments tail) :
    let previous := lastFree start segments 0
    Encodes (relink memory previous value) start segments value ∧
      relinkHead (nextFree start segments tail) previous value = nextFree start segments value ∧
      ∀ address, address < start ∨ start + span segments ≤ address →
        relink memory previous value address = memory address := by
  intro previous
  rcases last_free_cases segments with live | ⟨front, size, lives, rfl, live⟩
  · have none : previous = 0 := last_free_live live start 0
    rw [relink, if_pos none, relinkHead, if_pos none, next_free_live live]
    exact ⟨encodes_live live encodes, rfl, fun _ _ => rfl⟩
  · have found : previous = start + span front := last_free_split start size 0 front live
    have nonzero : previous ≠ 0 := by omega
    have room : 16 ≤ size := roomy ⟨false, size⟩ (by simp)
    have frontRoomy : Roomy front := fun segment member => roomy segment (by simp [member])
    have livesRoomy : Roomy lives := fun segment member => roomy segment (by simp [member])
    obtain ⟨frontEncodes, sizeWord, -, livesEncodes⟩ := encodes_append.mp encodes
    have frontNext : nextFree (start + span front) (⟨false, size⟩ :: lives) tail =
        start + span front := rfl
    rw [frontNext] at frontEncodes
    rw [relink, if_neg nonzero, relinkHead, if_neg nonzero, found]
    refine ⟨?_, ?_, ?_⟩
    · rw [encodes_append]
      refine ⟨?_, ?_, ?_, ?_⟩
      · apply encodes_congr frontRoomy _ frontEncodes
        intro address _ upper
        exact store64_apply_other (by omega)
      · rw [load64_store64_other (by omega), sizeWord]
      · intro _
        rw [load64_store64 fits, next_free_live live]
      · apply encodes_congr livesRoomy _ (encodes_live live livesEncodes)
        intro address lower _
        dsimp only at lower
        exact store64_apply_other (by omega)
    · rw [next_free_append, next_free_append]
      rfl
    · intro address outside
      rw [span_append, span] at outside
      dsimp only at outside
      exact store64_apply_other (by omega)

/-! ## Free segments taken off the list -/

def retire (segments : List Segment) : List Segment :=
  segments.map fun segment => ⟨true, segment.size⟩

theorem retire_live (segments : List Segment) : ∀ segment ∈ retire segments, segment.live = true := by
  intro segment member
  obtain ⟨original, -, rfl⟩ := List.mem_map.mp member
  rfl

theorem span_retire (segments : List Segment) : span (retire segments) = span segments := by
  induction segments with
  | nil => rfl
  | cons segment rest induction =>
    rw [span, ← induction]
    rfl

theorem blocks_retire (start : Nat) (segments : List Segment) :
    (blocks true start (retire segments)).Perm
      (blocks true start segments ++ blocks false start segments) := by
  induction segments generalizing start with
  | nil => exact List.Perm.nil
  | cons segment rest induction =>
    have tail := induction (start + segment.size)
    change (⟨start, segment.size⟩ ::
      blocks true (start + segment.size) (retire rest)).Perm _
    cases live : segment.live with
    | true => simpa [blocks, live] using tail
    | false =>
      have moved := (tail.cons ⟨start, segment.size⟩).trans List.perm_middle.symm
      simpa [blocks, live] using moved

theorem encodes_retire {memory : Memory} {start tail : Nat} {segments : List Segment} (other : Nat)
    (encodes : Encodes memory start segments tail) :
    Encodes memory start (retire segments) other := by
  induction segments generalizing start with
  | nil => exact trivial
  | cons segment rest induction =>
    obtain ⟨size, -, others⟩ := encodes
    exact ⟨size, fun free => Bool.noConfusion free, induction others⟩

/-- The list read off a memory by following links from `head`. -/
def FreeChain (memory : Memory) : Nat → List Block → Prop
  | head, [] => head = 0
  | head, block :: rest =>
      head = block.start ∧ head ≠ 0 ∧ load64 memory head = block.size ∧
        FreeChain memory (load64 memory (head + 8)) rest

theorem free_chain_unique {memory : Memory} {head : Nat} {left right : List Block}
    (first : FreeChain memory head left) (second : FreeChain memory head right) : left = right := by
  induction left generalizing head right with
  | nil =>
    cases right with
    | nil => rfl
    | cons block rest => exact absurd first second.2.1
  | cons block rest induction =>
    obtain ⟨start, nonzero, size, link⟩ := first
    cases right with
    | nil => exact absurd second nonzero
    | cons other others =>
      obtain ⟨otherStart, -, otherSize, otherLink⟩ := second
      have same : block = other := by
        cases block
        cases other
        simp_all
      rw [same, induction link otherLink]

theorem free_chain_of_encodes {memory : Memory} {start : Nat} {segments : List Segment}
    (positive : 0 < start) (encodes : Encodes memory start segments 0) :
    FreeChain memory (nextFree start segments 0) (blocks false start segments) := by
  induction segments generalizing start with
  | nil => exact rfl
  | cons segment rest induction =>
    obtain ⟨size, link, others⟩ := encodes
    have tail := induction (by omega) others
    rw [nextFree, blocks]
    cases kind : segment.live with
    | true => simpa using tail
    | false =>
      rw [← link kind] at tail
      simpa using ⟨rfl, by omega, size, tail⟩

/-! ## What the live blocks determine -/

/-- Where the last of some blocks ends; `start` if there are none. -/
def lastStop (start : Nat) (blocks : List Block) : Nat :=
  blocks.foldr (fun block stop => max block.stop stop) start

theorem last_stop_perm (start : Nat) {left right : List Block} (permuted : left.Perm right) :
    lastStop start left = lastStop start right := by
  have commutes : LeftCommutative fun (block : Block) (stop : Nat) => max block.stop stop :=
    ⟨fun _ _ _ => Nat.max_left_comm ..⟩
  exact permuted.foldr_eq start

theorem le_last_stop (start : Nat) (blocks : List Block) : start ≤ lastStop start blocks := by
  induction blocks with
  | nil => exact Nat.le_refl _
  | cons block rest induction => exact Nat.le_trans induction (Nat.le_max_right ..)

theorem last_stop_cons {start : Nat} {block : Block} {rest : List Block}
    (behind : start ≤ block.stop) :
    lastStop start (block :: rest) = lastStop block.stop rest := by
  induction rest with
  | nil => exact Nat.max_eq_left behind
  | cons other rest induction =>
    have swapped : lastStop start (block :: other :: rest) =
        max other.stop (lastStop start (block :: rest)) := Nat.max_left_comm ..
    rw [swapped, induction]
    rfl

def FreeTail (segments : List Segment) : Prop := ∀ segment ∈ segments, segments = [⟨false, segment.size⟩]

theorem free_tail_nil : FreeTail [] := fun _ none => absurd none List.not_mem_nil

theorem free_tail_single (size : Nat) : FreeTail [⟨false, size⟩] := by
  intro segment only
  rw [List.mem_singleton.mp only]

theorem coalesced_behind_free {size : Nat} {rest : List Segment}
    (coalesced : Coalesced (⟨false, size⟩ :: rest)) :
    rest = [] ∨ ∃ next others, rest = ⟨true, next⟩ :: others := by
  cases rest with
  | nil => exact Or.inl rfl
  | cons segment others =>
    obtain ⟨live, next⟩ := segment
    have apart := (List.isChain_cons_cons.mp coalesced).1
    cases live with
    | true => exact Or.inr ⟨next, others, rfl⟩
    | false => simp at apart

theorem no_live_tail {segments : List Segment} {start : Nat} (coalesced : Coalesced segments)
    (none : blocks true start segments = []) : FreeTail segments := by
  cases segments with
  | nil => exact free_tail_nil
  | cons segment rest =>
    obtain ⟨live, size⟩ := segment
    cases live with
    | true => exact absurd none (List.cons_ne_nil _ _)
    | false =>
      obtain rfl | ⟨next, others, rfl⟩ := coalesced_behind_free coalesced
      · exact free_tail_single size
      · exact absurd none (List.cons_ne_nil _ _)

theorem blocks_behind {live : Bool} {start : Nat} {segments : List Segment} {block : Block}
    {others : List Block} (found : blocks live start segments = block :: others) :
    start ≤ block.start := by
  have member : block ∈ blocks live start segments := found ▸ List.mem_cons_self
  exact (blocks_within _ _ _ member).1

/-- Two coalesced descriptions with the same live blocks differ in the free segment at the end
at most, which starts where the last live block ends. -/
theorem coalesced_core {start : Nat} {left right : List Segment}
    (leftSized : ∀ segment ∈ left, 0 < segment.size)
    (rightSized : ∀ segment ∈ right, 0 < segment.size) (leftCoalesced : Coalesced left)
    (rightCoalesced : Coalesced right)
    (same : blocks true start left = blocks true start right) :
    ∃ core leftTail rightTail, left = core ++ leftTail ∧ right = core ++ rightTail ∧
      FreeTail leftTail ∧ FreeTail rightTail ∧
      start + span core = lastStop start (blocks true start right) := by
  induction left generalizing start right with
  | nil =>
    have none : blocks true start right = [] := same.symm
    refine ⟨[], [], right, rfl, rfl, free_tail_nil, no_live_tail rightCoalesced none, ?_⟩
    rw [none]
    rfl
  | cons segment rest induction =>
    obtain ⟨live, size⟩ := segment
    have room : 0 < size := leftSized _ List.mem_cons_self
    have restSized : ∀ other ∈ rest, 0 < other.size := fun other member =>
      leftSized other (List.mem_cons_of_mem _ member)
    have restCoalesced : Coalesced rest := List.IsChain.of_cons leftCoalesced
    cases live with
    | true =>
      cases right with
      | nil => exact absurd same (List.cons_ne_nil _ _)
      | cons other others =>
        obtain ⟨otherLive, otherSize⟩ := other
        have otherRoom : 0 < otherSize := rightSized _ List.mem_cons_self
        cases otherLive with
        | false =>
          have behind := blocks_behind (show blocks true (start + otherSize) others =
            ⟨start, size⟩ :: blocks true (start + size) rest from same.symm)
          dsimp only at behind
          omega
        | true =>
          obtain ⟨first, later⟩ := List.cons.inj (show
            (⟨start, size⟩ : Block) :: blocks true (start + size) rest =
              ⟨start, otherSize⟩ :: blocks true (start + otherSize) others from same)
          obtain rfl : size = otherSize := congrArg Block.size first
          obtain ⟨core, leftTail, rightTail, rfl, rfl, leftFree, rightFree, stop⟩ :=
            induction restSized
              (fun other member => rightSized other (List.mem_cons_of_mem _ member))
              restCoalesced (List.IsChain.of_cons rightCoalesced) later
          refine ⟨⟨true, size⟩ :: core, leftTail, rightTail, rfl, rfl, leftFree, rightFree, ?_⟩
          rw [span, ← Nat.add_assoc, stop]
          exact (@last_stop_cons start ⟨start, size⟩ _ (Nat.le_add_right start size)).symm
    | false =>
      obtain rfl | ⟨next, more, rfl⟩ := coalesced_behind_free leftCoalesced
      · have none : blocks true start right = [] := same.symm
        refine ⟨[], [⟨false, size⟩], right, rfl, rfl, free_tail_single size,
          no_live_tail rightCoalesced none, ?_⟩
        rw [none]
        rfl
      · -- the first live block fixes the size of the free segment in front of it
        have first : blocks true start right =
            ⟨start + size, next⟩ :: blocks true (start + size + next) more := same.symm
        cases right with
        | nil => exact absurd first.symm (List.cons_ne_nil _ _)
        | cons other others =>
          obtain ⟨otherLive, otherSize⟩ := other
          have othersCoalesced : Coalesced others := List.IsChain.of_cons rightCoalesced
          cases otherLive with
          | true =>
            have place : start = start + size :=
              congrArg Block.start (List.cons.inj first).1
            omega
          | false =>
            obtain rfl | ⟨otherNext, otherMore, rfl⟩ := coalesced_behind_free rightCoalesced
            · exact absurd first.symm (List.cons_ne_nil _ _)
            · have place : start + otherSize = start + size :=
                congrArg Block.start (List.cons.inj first).1
              obtain rfl : otherSize = size := by omega
              obtain ⟨core, leftTail, rightTail, leftEq, rightEq, leftFree, rightFree, stop⟩ :=
                induction restSized
                  (fun other member => rightSized other (List.mem_cons_of_mem _ member))
                  restCoalesced othersCoalesced same
              refine ⟨⟨false, otherSize⟩ :: core, leftTail, rightTail,
                congrArg (List.cons _) leftEq, congrArg (List.cons _) rightEq, leftFree,
                rightFree, ?_⟩
              rw [span, ← Nat.add_assoc, stop]
              have behind : start + otherSize ≤
                  (⟨start + otherSize, otherNext⟩ : Block).stop := Nat.le_add_right ..
              exact (last_stop_cons behind).trans
                (last_stop_cons (Nat.le_trans (Nat.le_add_right ..) behind)).symm

theorem block_size_pos {live : Bool} {start : Nat} {segments : List Segment} {block : Block}
    (positive : ∀ segment ∈ segments, 0 < segment.size) (member : block ∈ blocks live start segments) :
    0 < block.size := by
  induction segments generalizing start with
  | nil => cases member
  | cons segment rest induction =>
    have later : block ∈ blocks live (start + segment.size) rest → 0 < block.size :=
      induction fun other member => positive other (List.mem_cons_of_mem _ member)
    rw [blocks] at member
    split at member
    · rcases List.mem_cons.mp member with rfl | rest
      · exact positive segment List.mem_cons_self
      · exact later rest
    · exact later member

theorem blocks_eq_of_perm {live : Bool} {start : Nat} {left right : List Segment}
    (leftSized : ∀ segment ∈ left, 0 < segment.size)
    (rightSized : ∀ segment ∈ right, 0 < segment.size)
    (same : (blocks live start left).Perm (blocks live start right)) :
    blocks live start left = blocks live start right := by
  apply same.eq_of_pairwise _ (blocks_ordered leftSized live start)
    (blocks_ordered rightSized live start)
  intro first second member _ before after
  have room := block_size_pos leftSized member
  unfold Block.stop at before after
  omega

theorem coalesced_unique {start : Nat} {left right : List Segment}
    (leftSized : ∀ segment ∈ left, 0 < segment.size)
    (rightSized : ∀ segment ∈ right, 0 < segment.size) (leftCoalesced : Coalesced left)
    (rightCoalesced : Coalesced right)
    (same : (blocks true start left).Perm (blocks true start right))
    (size : span left = span right) : left = right := by
  obtain ⟨core, leftTail, rightTail, rfl, rfl, leftFree, rightFree, -⟩ :=
    coalesced_core leftSized rightSized leftCoalesced rightCoalesced
      (blocks_eq_of_perm leftSized rightSized same)
  rw [span_append, span_append, Nat.add_left_cancel_iff] at size
  cases leftTail with
  | nil =>
    cases rightTail with
    | nil => rfl
    | cons segment rest =>
      have room := rightSized segment (List.mem_append_right _ List.mem_cons_self)
      simp only [span] at size
      omega
  | cons segment rest =>
    cases rightTail with
    | nil =>
      have room := leftSized segment (List.mem_append_right _ List.mem_cons_self)
      simp only [span] at size
      omega
    | cons other others =>
      rw [leftFree segment List.mem_cons_self, rightFree other List.mem_cons_self] at size ⊢
      simp only [span, Nat.add_zero] at size
      rw [size]

end RiriaKernel.RegionLayouts
