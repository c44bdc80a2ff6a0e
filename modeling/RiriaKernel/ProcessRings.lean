import Mathlib.Data.List.Perm.Basic
import RiriaKernel.Processes

/-!
# The ring of processes

What the scheduler's data structure is: a ring of nodes in which every process that has
been created and not been reaped appears once. Each operation is described by what it does
to the list of entries.
-/

namespace RiriaKernel.ProcessRings

open HaltingPrograms CircularLists KernelState Processes

/-! ## Rules for the primitive operations -/

section Rules

variable {stopped : Fault → System → Prop} {system : System}

theorem ends_getNode {returned : Node Nat Nat → System → Prop} {address : Nat} {node : Node Nat Nat}
    (found : system.nodes address = some node) :
    Ends (getNode address) returned stopped system = returned node system := by
  simp only [getNode, ends_bind, ends_get, found, ends_pure]

theorem ends_getProcess {returned : Process → System → Prop} {address : Nat} {process : Process}
    (found : system.procs address = some process) :
    Ends (getProcess address) returned stopped system = returned process system := by
  simp only [getProcess, ends_bind, ends_get, found, ends_pure]

@[simp] theorem ends_setProcess {returned : PUnit → System → Prop} (address : Nat)
    (process : Process) :
    Ends (setProcess address process) returned stopped system =
      returned ⟨⟩ { system with procs := Function.update system.procs address (some process) } :=
  ends_modify _

@[simp] theorem ends_ensure {returned : PUnit → System → Prop} (condition : Prop)
    [Decidable condition] (message : String) :
    Ends (ensure condition message) returned stopped system =
      if condition then returned ⟨⟩ system else stopped (.panic message) system := by
  unfold ensure
  split
  · exact ends_pure _
  · exact ends_throw _

@[simp] theorem ends_setInterrupts {returned : PUnit → System → Prop}
    (update : Interrupts → Interrupts) :
    Ends (setInterrupts update) returned stopped system =
      returned ⟨⟩
        { system with cpu := { system.cpu with interrupts := update system.cpu.interrupts } } :=
  ends_modify _

theorem ends_comeBack {returned : PUnit → System → Prop} (context : Context) :
    Ends (comeBack context) returned stopped system =
      returned ⟨⟩
        { system with
          cpu := { system.cpu with interrupts := intResume system.cpu.interrupts }
          running := .returned context } := by
  simp only [comeBack, ends_bind, ends_setInterrupts, ends_modify]

end Rules

/-! ## The invariant -/

def idAt (procs : Nat → Option Process) (entry : Nat × Nat) : Nat :=
  match procs entry.2 with
  | some process => process.id
  | none => 0

structure Runnable (process : Process) : Prop where
  pagemap : process.pagemap ≠ 0
  stackTop : process.stackTop ≠ 0

structure Idle (process : Process) : Prop where
  alive : process.state ≠ .dead
  awake : process.wakeAt = 0

/-- Nodes and processes form a ring of `entries`. Its ids and the reaped ones are the ids
that have been given out. -/
structure RingState (nodes : Store Nat Nat) (procs : Nat → Option Process) (reaped : List Nat)
    (idle : Nat × Nat) (created : Nat) (entries : List (Nat × Nat)) : Prop where
  ring : Ring nodes entries
  nonzero : ∀ entry ∈ entries, entry.1 ≠ 0
  nodesListed : ∀ address node, nodes address = some node → address ∈ entries.map Prod.fst
  distinct : (entries.map Prod.snd).Nodup
  listed : ∀ entry ∈ entries, ∃ process, procs entry.2 = some process ∧ Runnable process
  procsListed : ∀ address process, procs address = some process → address ∈ entries.map Prod.snd
  idleListed : idle ∈ entries
  idleKept : ∀ process, procs idle.2 = some process → Idle process
  ids : (entries.map (idAt procs) ++ reaped).Perm (List.range created)

section Invariant

variable {nodes : Store Nat Nat} {procs : Nat → Option Process} {reaped : List Nat}
  {idle : Nat × Nat} {created : Nat} {entries : List (Nat × Nat)}

section

variable (state : RingState nodes procs reaped idle created entries)

include state

theorem RingState.length_le : entries.length ≤ created := by
  have lengths := state.ids.length_eq
  rw [List.length_append, List.length_map, List.length_range] at lengths
  omega

theorem RingState.id_injective {left right : Nat × Nat} (leftMember : left ∈ entries)
    (rightMember : right ∈ entries) (same : idAt procs left = idAt procs right) : left = right := by
  have nodup := state.ids.nodup_iff.mpr List.nodup_range
  rw [List.nodup_append] at nodup
  exact List.inj_on_of_nodup_map nodup.1 leftMember rightMember same

theorem RingState.entry_eq {left right : Nat × Nat} (leftMember : left ∈ entries)
    (rightMember : right ∈ entries) (same : left.2 = right.2) : left = right :=
  List.inj_on_of_nodup_map state.distinct leftMember rightMember same

end

theorem RingState.rotate {left right : List (Nat × Nat)}
    (state : RingState nodes procs reaped idle created (left ++ right)) (nonempty : right ≠ []) :
    RingState nodes procs reaped idle created (right ++ left) where
  ring := state.ring.rotate nonempty
  nonzero := fun entry member => state.nonzero entry (List.perm_append_comm.mem_iff.mp member)
  nodesListed := fun address node found =>
    ((List.perm_append_comm.map Prod.fst).mem_iff).mp (state.nodesListed address node found)
  distinct := ((List.perm_append_comm.map Prod.snd).nodup_iff).mp state.distinct
  listed := fun entry member => state.listed entry (List.perm_append_comm.mem_iff.mp member)
  procsListed := fun address process found =>
    ((List.perm_append_comm.map Prod.snd).mem_iff).mp (state.procsListed address process found)
  idleListed := List.perm_append_comm.mem_iff.mp state.idleListed
  idleKept := state.idleKept
  ids := ((List.perm_append_comm.map (idAt procs)).append_right reaped).trans state.ids

theorem RingState.set_process (state : RingState nodes procs reaped idle created entries)
    {address : Nat} {old new : Process} (found : procs address = some old) (sameId : new.id = old.id)
    (runnable : Runnable new) (idleKept : address = idle.2 → Idle new) :
    RingState nodes (Function.update procs address (some new)) reaped idle created entries := by
  have ids : idAt (Function.update procs address (some new)) = idAt procs := by
    funext entry
    unfold idAt
    by_cases same : entry.2 = address
    · rw [same, Function.update_self, found]
      exact sameId
    · rw [Function.update_of_ne same]
  refine ⟨state.ring, state.nonzero, state.nodesListed, state.distinct, ?_, ?_, state.idleListed, ?_,
    ids ▸ state.ids⟩
  · intro entry member
    by_cases same : entry.2 = address
    · exact ⟨new, by rw [same, Function.update_self], runnable⟩
    · rw [Function.update_of_ne same]
      exact state.listed entry member
  · intro other process other_found
    by_cases same : other = address
    · exact state.procsListed other old (same ▸ found)
    · rw [Function.update_of_ne same] at other_found
      exact state.procsListed other process other_found
  · intro process idle_found
    by_cases same : idle.2 = address
    · rw [same, Function.update_self] at idle_found
      cases idle_found
      exact idleKept same.symm
    · rw [Function.update_of_ne same] at idle_found
      exact state.idleKept process idle_found

section Removal

variable {front back : List (Nat × Nat)} {prev gone : Nat × Nat}

theorem removed_ids (front back reaped : List Nat) (prev gone : Nat) :
    (front ++ prev :: back ++ (reaped ++ [gone])).Perm (front ++ prev :: gone :: back ++ reaped) := by
  have moved := (List.perm_append_singleton gone (back ++ reaped)).append_left (front ++ [prev])
  simpa only [List.append_assoc, List.cons_append, List.nil_append] using moved

theorem RingState.remove {dead : Process}
    (state : RingState nodes procs reaped idle created (front ++ prev :: gone :: back))
    (found : procs gone.2 = some dead) (notIdle : gone ≠ idle) (target : Nat) :
    RingState
      (Function.update (Function.update nodes prev.1 (some ⟨prev.2,
        firstOf back (firstOf (front ++ prev :: gone :: back) target)⟩)) gone.1 none)
      (Function.update procs gone.2 none) (reaped ++ [dead.id]) idle created
      (front ++ prev :: back) := by
  have subset : ∀ entry, entry ∈ front ++ prev :: back → entry ∈ front ++ prev :: gone :: back := by
    intro entry member
    simp only [List.mem_append, List.mem_cons] at member ⊢
    tauto
  have distinct := state.distinct
  rw [List.map_append, List.map_cons, List.map_cons, List.nodup_append, List.nodup_cons,
    List.nodup_cons] at distinct
  obtain ⟨frontNodup, ⟨prevFresh, goneFresh, backNodup⟩, apart⟩ := distinct
  rw [List.mem_cons, not_or] at prevFresh
  have others : ∀ entry, entry ∈ front ++ prev :: back → entry.2 ≠ gone.2 := by
    intro entry member same
    simp only [List.mem_append, List.mem_cons] at member
    rcases member with inFront | rfl | inBack
    · exact apart _ (List.mem_map_of_mem inFront) _
        (List.mem_cons_of_mem _ List.mem_cons_self) same
    · exact prevFresh.1 same
    · exact goneFresh (same ▸ List.mem_map_of_mem inBack)
  have remaining : idle ∈ front ++ prev :: back := by
    have member := state.idleListed
    simp only [List.mem_append, List.mem_cons] at member ⊢
    have different : idle ≠ gone := Ne.symm notIdle
    tauto
  refine ⟨state.ring.remove, fun entry member => state.nonzero entry (subset entry member), ?_, ?_, ?_,
    ?_, remaining, ?_, ?_⟩
  · intro address node nodeFound
    by_cases isGone : address = gone.1
    · rw [isGone, Function.update_self] at nodeFound
      cases nodeFound
    · rw [Function.update_of_ne isGone] at nodeFound
      have member : address ∈ (front ++ prev :: gone :: back).map Prod.fst := by
        by_cases isPrev : address = prev.1
        · rw [isPrev]
          exact List.mem_map_of_mem (by simp)
        · rw [Function.update_of_ne isPrev] at nodeFound
          exact state.nodesListed address node nodeFound
      simp only [List.map_append, List.map_cons, List.mem_append, List.mem_cons] at member ⊢
      tauto
  · rw [List.map_append, List.map_cons, List.nodup_append, List.nodup_cons]
    refine ⟨frontNodup, ⟨prevFresh.2, backNodup⟩, fun key inFront later behind => ?_⟩
    apply apart key inFront
    rcases List.mem_cons.mp behind with rfl | member
    · exact List.mem_cons_self
    · exact List.mem_cons_of_mem _ (List.mem_cons_of_mem _ member)
  · intro entry member
    rw [Function.update_of_ne (others entry member)]
    exact state.listed entry (subset entry member)
  · intro address process processFound
    by_cases isGone : address = gone.2
    · rw [isGone, Function.update_self] at processFound
      cases processFound
    · rw [Function.update_of_ne isGone] at processFound
      have member := state.procsListed address process processFound
      simp only [List.map_append, List.map_cons, List.mem_append, List.mem_cons] at member ⊢
      tauto
  · intro process processFound
    rw [Function.update_of_ne (others idle remaining)] at processFound
    exact state.idleKept process processFound
  · have same : (front ++ prev :: back).map (idAt (Function.update procs gone.2 none)) =
        (front ++ prev :: back).map (idAt procs) := by
      apply List.map_congr_left
      intro entry member
      rw [idAt, idAt, Function.update_of_ne (others entry member)]
    have goneId : idAt procs gone = dead.id := by rw [idAt, found]
    have ids := state.ids
    rw [List.map_append, List.map_cons, List.map_cons, goneId] at ids
    rw [same, List.map_append, List.map_cons]
    exact (removed_ids _ _ _ _ _).trans ids

end Removal

theorem RingState.push {first : Nat × Nat} {rest : List (Nat × Nat)} {node address : Nat}
    {new : Process} (state : RingState nodes procs reaped idle created (first :: rest))
    (freshNode : nodes node = none) (nonzero : node ≠ 0) (freshProcess : procs address = none)
    (id : new.id = created) (runnable : Runnable new) (target : Nat) :
    RingState
      (Function.update (Function.update nodes node
        (some ⟨address, firstOf rest (firstOf (first :: rest) target)⟩)) first.1
        (some ⟨first.2, node⟩))
      (Function.update procs address (some new)) reaped idle (created + 1)
      (first :: (node, address) :: rest) := by
  have newKey : node ∉ (first :: rest).map Prod.fst := by
    intro member
    obtain ⟨entry, entryMember, same⟩ := List.mem_map.mp member
    obtain ⟨front, back, split⟩ := List.append_of_mem entryMember
    have ring := state.ring
    rw [split] at ring
    have found := ring.next 0
    rw [same, freshNode] at found
    cases found
  have newAddress : ∀ entry, entry ∈ first :: rest → entry.2 ≠ address := by
    intro entry member same
    obtain ⟨process, found, -⟩ := state.listed entry member
    rw [same, freshProcess] at found
    cases found
  have ids : (first :: rest).map (idAt (Function.update procs address (some new))) =
      (first :: rest).map (idAt procs) := by
    apply List.map_congr_left
    intro entry member
    rw [idAt, idAt, Function.update_of_ne (newAddress entry member)]
  refine ⟨state.ring.insert newKey, ?_, ?_, ?_, ?_, ?_, ?_, ?_, ?_⟩
  · intro entry member
    rcases List.mem_cons.mp member with rfl | later
    · exact state.nonzero entry List.mem_cons_self
    · rcases List.mem_cons.mp later with rfl | old
      · exact nonzero
      · exact state.nonzero entry (List.mem_cons_of_mem _ old)
  · intro other found otherFound
    simp only [List.map_cons, List.mem_cons]
    by_cases isFirst : other = first.1
    · exact Or.inl isFirst
    · rw [Function.update_of_ne isFirst] at otherFound
      by_cases isNew : other = node
      · exact Or.inr (Or.inl isNew)
      · rw [Function.update_of_ne isNew] at otherFound
        have member := state.nodesListed other found otherFound
        rw [List.map_cons, List.mem_cons] at member
        exact Or.inr (Or.inr (member.resolve_left isFirst))
  · have distinct := state.distinct
    simp only [List.map_cons, List.nodup_cons, List.mem_cons, not_or] at distinct ⊢
    refine ⟨⟨newAddress first List.mem_cons_self, distinct.1⟩, ?_, distinct.2⟩
    intro member
    obtain ⟨entry, entryMember, same⟩ := List.mem_map.mp member
    exact newAddress entry (List.mem_cons_of_mem _ entryMember) same
  · intro entry member
    have cases : entry = (node, address) ∨ entry ∈ first :: rest := by
      simp only [List.mem_cons] at member ⊢
      tauto
    rcases cases with rfl | old
    · exact ⟨new, Function.update_self _ _ _, runnable⟩
    · rw [Function.update_of_ne (newAddress entry old)]
      exact state.listed entry old
  · intro other process otherFound
    simp only [List.map_cons, List.mem_cons]
    by_cases isNew : other = address
    · exact Or.inr (Or.inl isNew)
    · rw [Function.update_of_ne isNew] at otherFound
      have member := state.procsListed other process otherFound
      rw [List.map_cons, List.mem_cons] at member
      tauto
  · have member := state.idleListed
    simp only [List.mem_cons] at member ⊢
    tauto
  · intro process found
    rw [Function.update_of_ne (newAddress idle state.idleListed)] at found
    exact state.idleKept process found
  · have newId : idAt (Function.update procs address (some new)) (node, address) = created := by
      rw [idAt, Function.update_self]
      exact id
    rw [List.map_cons, List.map_cons] at ids ⊢
    rw [List.cons.injEq] at ids
    rw [newId, ids.1, ids.2, List.range_succ]
    have old := state.ids
    rw [List.map_cons] at old
    refine List.Perm.trans ?_ (old.append_right [created])
    have moved := (List.perm_append_singleton created (rest.map (idAt procs) ++ reaped)).symm
    simpa only [List.cons_append, List.append_assoc] using moved.cons (idAt procs first)

end Invariant

end RiriaKernel.ProcessRings
