import Mathlib.Data.List.Nodup
import Mathlib.Logic.Function.Basic

/-!
# Circular lists in a store

Singly linked nodes that live in a partial store. A ring is a list of entries such that
following `next` from the first entry visits every entry once and comes back. Insertion
behind an entry, removal of the entry behind another one, and the choice of a new first
entry are the three operations.
-/

namespace RiriaKernel.CircularLists

structure Node (Address Payload : Type) where
  payload : Payload
  next : Address
  deriving DecidableEq, Repr

abbrev Store (Address Payload : Type) := Address → Option (Node Address Payload)

variable {Address Payload : Type}

/-- The address of the first entry, or where the empty list leads. -/
def firstOf (entries : List (Address × Payload)) (target : Address) : Address :=
  match entries with
  | [] => target
  | entry :: _ => entry.1

/-- Every entry points to the one behind it, and the last one to `target`. -/
def Linked (store : Store Address Payload) : List (Address × Payload) → Address → Prop
  | [], _ => True
  | entry :: rest, target =>
      store entry.1 = some ⟨entry.2, firstOf rest target⟩ ∧ Linked store rest target

structure Ring (store : Store Address Payload) (entries : List (Address × Payload)) : Prop where
  nonempty : entries ≠ []
  nodup : (entries.map Prod.fst).Nodup
  linked : ∀ target, Linked store entries (firstOf entries target)

section Paths

variable {store : Store Address Payload} {left right : List (Address × Payload)} {target : Address}

@[simp] theorem first_of_append :
    firstOf (left ++ right) target = firstOf left (firstOf right target) := by
  cases left <;> rfl

theorem first_of_eq (nonempty : left ≠ []) (other : Address) :
    firstOf left target = firstOf left other := by
  cases left with
  | nil => exact absurd rfl nonempty
  | cons entry rest => rfl

theorem linked_append :
    Linked store (left ++ right) target ↔
      Linked store left (firstOf right target) ∧ Linked store right target := by
  induction left with
  | nil => simp [Linked]
  | cons entry rest induction =>
    rw [List.cons_append, Linked, Linked, induction, first_of_append]
    exact and_assoc.symm

theorem linked_congr {other : Store Address Payload}
    (same : ∀ entry ∈ left, other entry.1 = store entry.1) (linked : Linked store left target) :
    Linked other left target := by
  induction left with
  | nil => trivial
  | cons entry rest induction =>
    refine ⟨?_, induction (fun later member => same later (List.mem_cons_of_mem _ member)) linked.2⟩
    rw [same entry List.mem_cons_self]
    exact linked.1

end Paths

section Rings

variable {store : Store Address Payload} {left right front back : List (Address × Payload)}
  {entry gone : Address × Payload}

theorem Ring.next (ring : Ring store (front ++ entry :: back)) (target : Address) :
    store entry.1 = some ⟨entry.2, firstOf back (firstOf (front ++ entry :: back) target)⟩ :=
  (linked_append.mp (ring.linked target)).2.1

theorem Ring.rotate (ring : Ring store (left ++ right)) (nonempty : right ≠ []) :
    Ring store (right ++ left) := by
  refine ⟨fun empty => nonempty (List.append_eq_nil_iff.mp empty).1, ?_, ?_⟩
  · have nodup := ring.nodup
    rw [List.map_append] at nodup ⊢
    exact List.nodup_append_comm.mp nodup
  · intro target
    obtain ⟨before, behind⟩ := linked_append.mp (ring.linked target)
    rw [linked_append]
    cases left with
    | nil =>
      rw [List.append_nil]
      exact ⟨behind, trivial⟩
    | cons first rest =>
      constructor
      · exact behind
      · rw [first_of_append, first_of_eq nonempty (firstOf (first :: rest ++ right) target)]
        exact before

variable [DecidableEq Address]

theorem Ring.insert (ring : Ring store (entry :: back)) {address : Address} {payload : Payload}
    {target : Address} (fresh : address ∉ (entry :: back).map Prod.fst) :
    Ring (Function.update (Function.update store address
        (some ⟨payload, firstOf back (firstOf (entry :: back) target)⟩)) entry.1
        (some ⟨entry.2, address⟩))
      (entry :: (address, payload) :: back) := by
  rw [List.map_cons, List.mem_cons, not_or] at fresh
  have nodup := ring.nodup
  rw [List.map_cons, List.nodup_cons] at nodup
  refine ⟨List.cons_ne_nil _ _, ?_, ?_⟩
  · simp only [List.map_cons, List.nodup_cons, List.mem_cons, not_or]
    exact ⟨⟨Ne.symm fresh.1, nodup.1⟩, fresh.2, nodup.2⟩
  · intro other
    refine ⟨Function.update_self _ _ _, ?_, ?_⟩
    · change Function.update (Function.update store address _) entry.1 _ address = _
      rw [Function.update_of_ne fresh.1, Function.update_self]
      rfl
    · apply linked_congr _ (ring.linked other).2
      intro later member
      have key : later.1 ∈ back.map Prod.fst := List.mem_map_of_mem member
      have notEntry : later.1 ≠ entry.1 := fun same => nodup.1 (same ▸ key)
      have notNew : later.1 ≠ address := fun same => fresh.2 (same ▸ key)
      rw [Function.update_of_ne notEntry, Function.update_of_ne notNew]

theorem Ring.remove (ring : Ring store (front ++ entry :: gone :: back)) {target : Address} :
    Ring (Function.update (Function.update store entry.1
        (some ⟨entry.2, firstOf back (firstOf (front ++ entry :: gone :: back) target)⟩)) gone.1 none)
      (front ++ entry :: back) := by
  have nodup := ring.nodup
  rw [List.map_append, List.map_cons, List.map_cons, List.nodup_append, List.nodup_cons,
    List.nodup_cons] at nodup
  obtain ⟨frontNodup, ⟨entryFresh, goneFresh, backNodup⟩, apart⟩ := nodup
  rw [List.mem_cons, not_or] at entryFresh
  have kept : ∀ later : Address × Payload, later.1 ≠ entry.1 → later.1 ≠ gone.1 →
      Function.update (Function.update store entry.1 (some ⟨entry.2,
        firstOf back (firstOf (front ++ entry :: gone :: back) target)⟩)) gone.1 none later.1 =
          store later.1 := by
    intro later notEntry notGone
    rw [Function.update_of_ne notGone, Function.update_of_ne notEntry]
  refine ⟨by simp, ?_, ?_⟩
  · rw [List.map_append, List.map_cons, List.nodup_append, List.nodup_cons]
    refine ⟨frontNodup, ⟨entryFresh.2, backNodup⟩, fun key inFront later behind => ?_⟩
    apply apart key inFront
    rcases List.mem_cons.mp behind with rfl | member
    · exact List.mem_cons_self
    · exact List.mem_cons_of_mem _ (List.mem_cons_of_mem _ member)
  · intro other
    obtain ⟨before, -, -, behind⟩ := linked_append.mp (ring.linked other)
    have start : firstOf (front ++ entry :: back) other =
        firstOf (front ++ entry :: gone :: back) other := by
      rw [first_of_append, first_of_append]
      rfl
    rw [linked_append, start]
    refine ⟨?_, ?_, ?_⟩
    · apply linked_congr _ before
      intro later member
      have key : later.1 ∈ front.map Prod.fst := List.mem_map_of_mem member
      exact kept later (apart _ key _ List.mem_cons_self)
        (apart _ key _ (List.mem_cons_of_mem _ List.mem_cons_self))
    · rw [Function.update_of_ne entryFresh.1, Function.update_self,
        first_of_eq (by simp : front ++ entry :: gone :: back ≠ []) other]
    · apply linked_congr _ behind
      intro later member
      have key : later.1 ∈ back.map Prod.fst := List.mem_map_of_mem member
      exact kept later (fun same => entryFresh.2 (same ▸ key)) (fun same => goneFresh (same ▸ key))

end Rings

end RiriaKernel.CircularLists
