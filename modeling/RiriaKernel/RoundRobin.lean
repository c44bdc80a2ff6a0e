import Mathlib.Data.List.Nodup

/-!
# Round robin

A ring is a list whose first element has the turn. A call passes the turn on to the first
element behind it that is awake, elements that are not alive leave on the way, and a new
element joins right behind the first one. Whoever is alive and awake at every call has its
turn before anyone who comes later in the queue.
-/

namespace RiriaKernel.RoundRobin

variable {α : Type}

/-- A call, with who is alive and awake when it is made. -/
structure Call (α : Type) where
  alive : α → Prop
  awake : α → Prop
  chosen : α

/-- The order in which a call tries the elements of a ring. -/
def queue : List α → List α
  | [] => []
  | first :: rest => rest ++ [first]

open Classical in
inductive Turn (call : Call α) : List α → List α → Prop where
  | pass {first : α} {rest left right : List α}
      (order : rest.filter (fun member => decide (call.alive member)) ++ [first] =
        left ++ call.chosen :: right)
      (asleep : ∀ member ∈ left, ¬call.awake member) :
      Turn call (first :: rest) (call.chosen :: (right ++ left))

/-- The calls between two states of a ring that elements join. -/
inductive Rounds : List α → List (Call α) → List α → Prop where
  | done (ring : List α) : Rounds ring [] ring
  | join {first new : α} {rest last : List α} {calls : List (Call α)}
      (fresh : new ∉ first :: rest) (later : Rounds (first :: new :: rest) calls last) :
      Rounds (first :: rest) calls last
  | turn {call : Call α} {ring next last : List α} {calls : List (Call α)}
      (passed : Turn call ring next) (later : Rounds next calls last) :
      Rounds ring (call :: calls) last

/-! ## One call -/

section Turns

variable {call : Call α} {ring next : List α} {ahead behind : α}

theorem queue_nodup (nodup : ring.Nodup) : (queue ring).Nodup := by
  cases ring with
  | nil => exact nodup
  | cons first rest => exact List.nodup_append_comm.mp nodup

section

variable (passed : Turn call ring next)

include passed

theorem Turn.mem {member : α} (listed : member ∈ ring) (alive : call.alive member) :
    member ∈ next := by
  obtain @⟨first, rest, left, right, order, -⟩ := passed
  have queued : member ∈ left ++ call.chosen :: right := by
    classical
    rw [← order, List.mem_append, List.mem_filter, List.mem_singleton]
    rcases List.mem_cons.mp listed with same | inRest
    · exact Or.inr same
    · exact Or.inl ⟨inRest, by simpa using alive⟩
  simp only [List.mem_append, List.mem_cons] at queued ⊢
  tauto

theorem Turn.nodup (nodup : ring.Nodup) : next.Nodup := by
  obtain @⟨first, rest, left, right, order, -⟩ := passed
  have kept : (left ++ call.chosen :: right).Nodup := by
    rw [← order]
    exact (queue_nodup nodup).sublist (List.filter_sublist.append_right [first])
  exact List.nodup_append_comm.mp kept

theorem Turn.chosen_last {member : α} (listed : member ∈ next) (other : member ≠ call.chosen) :
    [member, call.chosen].Sublist (queue next) := by
  obtain @⟨first, rest, left, right, -, -⟩ := passed
  have waiting : member ∈ right ++ left := (List.mem_cons.mp listed).resolve_left other
  exact (List.singleton_sublist.mpr waiting).append_right [call.chosen]

theorem Turn.not_overtaken (nodup : ring.Nodup) (order : [ahead, behind].Sublist (queue ring))
    (aheadAlive : call.alive ahead) (behindAlive : call.alive behind) (awake : call.awake ahead)
    (other : call.chosen ≠ ahead) :
    call.chosen ≠ behind ∧ [ahead, behind].Sublist (queue next) := by
  have nextNodup := passed.nodup nodup
  obtain @⟨first, rest, left, right, split, asleep⟩ := passed
  have kept : [ahead, behind].Sublist (left ++ call.chosen :: right) := by
    classical
    have both : [ahead, behind].filter (fun member => decide (call.alive member)) =
        [ahead, behind] := List.filter_eq_self.mpr (by simp [aheadAlive, behindAlive])
    have survivors := order.filter fun member => decide (call.alive member)
    rw [both, queue, List.filter_append] at survivors
    rw [← split]
    exact survivors.trans (List.filter_sublist.append_left _)
  obtain ⟨front, back, parts, inLeft, inRight⟩ := List.sublist_append_iff.mp kept
  have afterwards : [ahead, behind].Sublist right := by
    cases front with
    | nil =>
      rw [List.nil_append] at parts
      rw [← parts, List.sublist_cons_iff] at inRight
      rcases inRight with later | ⟨tail, same, -⟩
      · exact later
      · exact absurd (List.cons.inj same).1.symm other
    | cons member others =>
      obtain ⟨rfl, -⟩ := List.cons.inj parts
      exact absurd awake (asleep ahead (inLeft.subset List.mem_cons_self))
  constructor
  · rintro rfl
    have again := afterwards.subset (List.mem_cons_of_mem _ List.mem_cons_self)
    exact (List.nodup_cons.mp nextNodup).1 (List.mem_append_left _ again)
  · rw [queue, List.append_assoc]
    exact afterwards.trans (List.sublist_append_left _ _)

end

end Turns

/-! ## Runs -/

section Runs

variable {ring last : List α} {calls before between later : List (Call α)} {ahead behind : α}

theorem nodup_of_join {first new : α} {rest : List α} (fresh : new ∉ first :: rest)
    (nodup : (first :: rest).Nodup) : (first :: new :: rest).Nodup := by
  simp only [List.nodup_cons, List.mem_cons, not_or] at fresh nodup ⊢
  exact ⟨⟨Ne.symm fresh.1, nodup.1⟩, fresh.2, nodup.2⟩

theorem Rounds.nodup (rounds : Rounds ring calls last) (nodup : ring.Nodup) : last.Nodup := by
  induction rounds with
  | done => exact nodup
  | join fresh _ induction => exact induction (nodup_of_join fresh nodup)
  | turn passed _ induction => exact induction (passed.nodup nodup)

theorem Rounds.mem (rounds : Rounds ring calls last) {member : α} (listed : member ∈ ring)
    (alive : ∀ call ∈ calls, call.alive member) : member ∈ last := by
  induction rounds with
  | done => exact listed
  | join _ _ induction =>
    apply induction _ alive
    simp only [List.mem_cons] at listed ⊢
    tauto
  | turn passed _ induction =>
    exact induction (passed.mem listed (alive _ List.mem_cons_self))
      fun call inCalls => alive call (List.mem_cons_of_mem _ inCalls)

theorem Rounds.split (rounds : Rounds ring (before ++ later) last) :
    ∃ middle, Rounds ring before middle ∧ Rounds middle later last := by
  generalize whole : before ++ later = calls at rounds
  induction rounds generalizing before with
  | done ring =>
    obtain ⟨rfl, rfl⟩ := List.append_eq_nil_iff.mp whole
    exact ⟨ring, .done ring, .done ring⟩
  | join fresh _ induction =>
    obtain ⟨middle, front, back⟩ := induction whole
    exact ⟨middle, .join fresh front, back⟩
  | turn passed rest induction =>
    cases before with
    | nil =>
      rw [List.nil_append] at whole
      exact ⟨_, .done _, whole ▸ .turn passed rest⟩
    | cons call others =>
      obtain ⟨rfl, tail⟩ := List.cons.inj whole
      obtain ⟨middle, front, back⟩ := induction tail
      exact ⟨middle, .turn passed front, back⟩

theorem Rounds.first_turn {call : Call α} (rounds : Rounds ring (call :: calls) last) :
    ∃ grown next, Rounds ring [] grown ∧ Turn call grown next ∧ Rounds next calls last := by
  generalize whole : call :: calls = all at rounds
  induction rounds with
  | done => cases whole
  | join fresh _ induction =>
    obtain ⟨grown, next, joined, passed, rest⟩ := induction whole
    exact ⟨grown, next, .join fresh joined, passed, rest⟩
  | @turn other ring next last others passed rest =>
    obtain ⟨rfl, rfl⟩ := List.cons.inj whole
    exact ⟨ring, next, .done ring, passed, rest⟩

theorem Rounds.not_overtaken (rounds : Rounds ring calls last) (nodup : ring.Nodup)
    (order : [ahead, behind].Sublist (queue ring))
    (ready : ∀ call ∈ calls, call.alive ahead ∧ call.awake ahead ∧ call.alive behind)
    (waits : ∀ call ∈ calls, call.chosen ≠ ahead) : ∀ call ∈ calls, call.chosen ≠ behind := by
  induction rounds with
  | done => exact fun _ member => absurd member List.not_mem_nil
  | join fresh _ induction =>
    exact induction (nodup_of_join fresh nodup) (order.cons _) ready waits
  | turn passed _ induction =>
    obtain ⟨aheadAlive, awake, behindAlive⟩ := ready _ List.mem_cons_self
    obtain ⟨other, still⟩ := passed.not_overtaken nodup order aheadAlive behindAlive awake
      (waits _ List.mem_cons_self)
    have rest := induction (passed.nodup nodup) still
      (fun call member => ready call (List.mem_cons_of_mem _ member))
      (fun call member => waits call (List.mem_cons_of_mem _ member))
    intro call member
    rcases List.mem_cons.mp member with rfl | inRest
    · exact other
    · exact rest call inRest

/-- Between two turns of one element every other one that is ready all the time has a turn. -/
theorem Rounds.mem_of_again {final : Call α} (rounds : Rounds ring (between ++ [final]) last)
    (nodup : ring.Nodup) (order : [ahead, behind].Sublist (queue ring))
    (ready : ∀ call ∈ between ++ [final],
      call.alive ahead ∧ call.awake ahead ∧ call.alive behind)
    (other : ahead ≠ behind) (again : final.chosen = behind) :
    ahead ∈ between.map Call.chosen := by
  by_contra absent
  have waits : ∀ call ∈ between ++ [final], call.chosen ≠ ahead := by
    intro call member same
    rcases List.mem_append.mp member with inside | isFinal
    · exact absent (List.mem_map.mpr ⟨call, inside, same⟩)
    · rw [List.mem_singleton.mp isFinal, again] at same
      exact other same.symm
  exact rounds.not_overtaken nodup order ready waits final
    (List.mem_append_right _ (List.mem_singleton.mpr rfl)) again

theorem Rounds.not_again {call : Call α} {mine : α}
    (rounds : Rounds ring (before ++ call :: between) last) (nodup : ring.Nodup)
    (listed : mine ∈ ring) (ready : ∀ other ∈ before ++ call :: between,
      other.alive mine ∧ other.awake mine ∧ other.alive call.chosen)
    (waits : ∀ other ∈ call :: between, other.chosen ≠ mine) :
    ∀ other ∈ between, other.chosen ≠ call.chosen := by
  obtain ⟨middle, front, back⟩ := rounds.split
  obtain ⟨grown, next, joined, passed, rest⟩ := back.first_turn
  have inMiddle : mine ∈ middle :=
    front.mem listed fun other member => (ready other (List.mem_append_left _ member)).1
  have inGrown : mine ∈ grown := joined.mem inMiddle fun _ member => absurd member List.not_mem_nil
  have inNext : mine ∈ next := passed.mem inGrown (ready call (by simp)).1
  have order := passed.chosen_last inNext (waits call List.mem_cons_self).symm
  have nextNodup := passed.nodup (joined.nodup (front.nodup nodup))
  exact rest.not_overtaken nextNodup order
    (fun other member => ready other (by simp [member]))
    (fun other member => waits other (List.mem_cons_of_mem _ member))

/-- Between two turns of `mine`, another element that is alive and awake at every call has at
least one turn, and no more than one if `mine` is awake at every call as well. -/
theorem Rounds.fair [BEq α] [LawfulBEq α] {mine yours : α} {rest : List α} {final : Call α}
    (rounds : Rounds (mine :: rest) (between ++ final :: later) last)
    (nodup : (mine :: rest).Nodup) (listed : yours ∈ rest)
    (alone : ∀ call ∈ between, call.chosen ≠ mine) (again : final.chosen = mine)
    (ready : ∀ call ∈ between ++ [final], call.alive yours ∧ call.awake yours)
    (alive : ∀ call ∈ between ++ [final], call.alive mine) :
    1 ≤ (between.map Call.chosen).count yours ∧
      ((∀ call ∈ between ++ [final], call.awake mine) →
        (between.map Call.chosen).count yours = 1) := by
  have other : yours ≠ mine := fun same => (List.nodup_cons.mp nodup).1 (same ▸ listed)
  have order : [yours, mine].Sublist (queue (mine :: rest)) :=
    (List.singleton_sublist.mpr listed).append_right [mine]
  have regrouped : between ++ final :: later = (between ++ [final]) ++ later := by simp
  rw [regrouped] at rounds
  obtain ⟨middle, front, -⟩ := rounds.split
  have served := front.mem_of_again nodup order
    (fun call member => ⟨(ready call member).1, (ready call member).2, alive call member⟩) other again
  refine ⟨List.one_le_count_iff.mpr served, fun awake => ?_⟩
  -- the calls behind the first one that serves `yours`
  obtain ⟨early, late, parts, notEarly⟩ := List.eq_append_cons_of_mem served
  obtain ⟨before, tail, rfl, rfl, tailMap⟩ := List.map_eq_append_iff.mp parts
  obtain ⟨call, behindCalls, rfl, isYours, rfl⟩ := List.map_eq_cons_iff.mp tailMap
  have notLate : yours ∉ behindCalls.map Call.chosen := by
    intro lateTurn
    obtain ⟨second, member, same⟩ := List.mem_map.mp lateTurn
    obtain ⟨inner, body, -⟩ := front.split
    have once := body.not_again nodup List.mem_cons_self
      (fun call inside => ⟨alive call (List.mem_append_left _ inside),
        awake call (List.mem_append_left _ inside),
        isYours ▸ (ready call (List.mem_append_left _ inside)).1⟩)
      (fun call inside => alone call (List.mem_append_right _ inside))
    exact once second member (same.trans isYours.symm)
  rw [parts, List.count_append, List.count_cons_self, List.count_eq_zero.mpr notEarly,
    List.count_eq_zero.mpr notLate]

end Runs

end RiriaKernel.RoundRobin
