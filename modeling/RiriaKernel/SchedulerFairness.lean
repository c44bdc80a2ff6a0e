import Mathlib.Data.List.Count
import RiriaKernel.ProcessRuns
import RiriaKernel.RoundRobin

/-!
# Fairness of the scheduler

The ids along the ring of processes go round robin: a call of `process_schedule` is a turn,
a new process joins behind the current one. So between two selections of a process every
other one that stays alive and awake is selected, and only once if the first is not late.
-/

namespace RiriaKernel.SchedulerFairness

open HaltingPrograms KernelState Processes ProcessRings ProcessScheduling ProcessRuns
open RoundRobin (Call Turn Rounds)

/-! ## Runs and their calls of the scheduler -/

/-- What happens between two calls of the scheduler. Of `process_sleep` and `process_exit`
this is the change of the current process, the call at their end is one of the calls. -/
inductive Event (idle : Nat × Nat) : System → Nat → System → Nat → Prop where
  | create {system after : System} {created node process stackTop pagemap : Nat}
      (fresh : Fresh system node process stackTop) (few : created + 1 < 2 ^ 32)
      (run : processCreate node process stackTop pagemap system = .ok ⟨⟩ after) :
      Event idle system created after (created + 1)
  | createUser {system after : System} {created node process stackTop pagemap : Nat}
      (fresh : Fresh system node process stackTop) (few : created + 1 < 2 ^ 32)
      (run : processCreateUser node process stackTop pagemap system = .ok ⟨⟩ after) :
      Event idle system created after (created + 1)
  | sleep {system after : System} {created ms : Nat} (notIdle : system.head ≠ idle.1)
      (run : markAsleep ms system = .ok ⟨⟩ after) : Event idle system created after created
  | exit {system after : System} {created : Nat} (notIdle : system.head ≠ idle.1)
      (run : markDead system = .ok ⟨⟩ after) : Event idle system created after created
  | advance {system : System} {created ticks : Nat} (later : system.ticks ≤ ticks) :
      Event idle system created { system with ticks } created

/-- The calls of the scheduler on the way from one system to another, each with the systems
before and after it. -/
inductive CallRun (idle : Nat × Nat) :
    System → Nat → List (System × System) → System → Nat → Prop where
  | done (system : System) (created : Nat) : CallRun idle system created [] system created
  | event {system next last : System} {created more total : Nat} {calls : List (System × System)}
      (happens : Event idle system created next more) (later : CallRun idle next more calls last total) :
      CallRun idle system created calls last total
  | schedule {system next last : System} {created total : Nat} {calls : List (System × System)}
      {caller : Context} (run : processSchedule caller system = .ok ⟨⟩ next)
      (later : CallRun idle next created calls last total) :
      CallRun idle system created ((system, next) :: calls) last total

def selectedId (system : System) : Option Nat :=
  (system.nodes system.head).bind fun node => (system.procs node.payload).map Process.id

def Holds (system : System) (id : Nat) (process : Process) : Prop :=
  ∃ address node, system.nodes address = some node ∧ system.procs node.payload = some process ∧
    process.id = id

def InRing (system : System) (id : Nat) : Prop := ∃ process, Holds system id process

def Alive (system : System) (id : Nat) : Prop :=
  ∃ process, Holds system id process ∧ process.state ≠ .dead

def Awake (system : System) (id : Nat) : Prop :=
  ∃ process, Holds system id process ∧ process.wakeAt ≤ system.ticks

def turnOf (call : System × System) : Call Nat where
  alive := Alive call.1
  awake := Awake call.1
  chosen := (selectedId call.2).getD 0

/-! ## The ring in terms of ids -/

section Rings

variable {system : System} {idle first : Nat × Nat} {created : Nat} {entries rest : List (Nat × Nat)}

def ringIds (system : System) (entries : List (Nat × Nat)) : List Nat :=
  entries.map (idAt system.procs)

theorem id_at_of_found {procs : Nat → Option Process} {entry : Nat × Nat} {process : Process}
    (found : procs entry.2 = some process) : idAt procs entry = process.id := by
  rw [idAt, found]

section

variable (sound : SystemSound system idle created entries)

include sound

theorem holds_iff {id : Nat} {process : Process} :
    Holds system id process ↔
      ∃ entry ∈ entries, system.procs entry.2 = some process ∧ process.id = id := by
  constructor
  · rintro ⟨address, node, -, found, isId⟩
    obtain ⟨entry, member, same⟩ := List.mem_map.mp (sound.state.procsListed _ process found)
    exact ⟨entry, member, same ▸ found, isId⟩
  · rintro ⟨entry, member, found, isId⟩
    obtain ⟨front, back, rfl⟩ := List.append_of_mem member
    exact ⟨entry.1, _, sound.state.ring.next 0, found, isId⟩

theorem holds_id_iff {entry : Nat × Nat} (member : entry ∈ entries) {process : Process} :
    Holds system (idAt system.procs entry) process ↔ system.procs entry.2 = some process := by
  rw [holds_iff sound]
  constructor
  · rintro ⟨other, otherMember, found, isId⟩
    rw [← id_at_of_found found] at isId
    exact sound.state.id_injective otherMember member isId ▸ found
  · intro found
    exact ⟨entry, member, found, (id_at_of_found found).symm⟩

theorem alive_id_iff {entry : Nat × Nat} (member : entry ∈ entries) :
    Alive system (idAt system.procs entry) ↔ aliveAt system.procs entry = true := by
  obtain ⟨process, found, -⟩ := sound.state.listed entry member
  rw [alive_at_of_found found, decide_eq_true_eq]
  constructor
  · rintro ⟨other, holds, alive⟩
    rw [holds_id_iff sound member, found] at holds
    cases holds
    exact alive
  · exact fun alive => ⟨process, (holds_id_iff sound member).mpr found, alive⟩

theorem awake_id_iff {entry : Nat × Nat} (member : entry ∈ entries) :
    Awake system (idAt system.procs entry) ↔ awakeAt system.procs system.ticks entry = true := by
  obtain ⟨process, found, -⟩ := sound.state.listed entry member
  rw [awake_at_of_found found, decide_eq_true_eq]
  constructor
  · rintro ⟨other, holds, awake⟩
    rw [holds_id_iff sound member, found] at holds
    cases holds
    exact awake
  · exact fun awake => ⟨process, (holds_id_iff sound member).mpr found, awake⟩

theorem in_ring_iff {id : Nat} : InRing system id ↔ id ∈ ringIds system entries := by
  rw [ringIds, List.mem_map]
  constructor
  · rintro ⟨process, holds⟩
    obtain ⟨entry, member, found, isId⟩ := (holds_iff sound).mp holds
    exact ⟨entry, member, (id_at_of_found found).trans isId⟩
  · rintro ⟨entry, member, rfl⟩
    obtain ⟨process, found, -⟩ := sound.state.listed entry member
    exact ⟨process, (holds_id_iff sound member).mpr found⟩

theorem ring_ids_nodup : (ringIds system entries).Nodup := by
  have nodup := sound.state.ids.nodup_iff.mpr List.nodup_range
  exact (List.nodup_append.mp nodup).1

theorem ring_ids_lt {id : Nat} (member : id ∈ ringIds system entries) : id < created :=
  List.mem_range.mp (sound.state.ids.mem_iff.mp (List.mem_append_left _ member))

end

theorem selected_id_eq (sound : SystemSound system idle created (first :: rest)) :
    selectedId system = some (idAt system.procs first) := by
  obtain ⟨-, -, node⟩ := sound.head_node
  obtain ⟨process, found, -⟩ := sound.state.listed first List.mem_cons_self
  rw [selectedId, node, id_at_of_found found, Option.bind_some, found, Option.map_some]

end Rings

/-! ## What an event does to the ring -/

section Events

variable {system after : System} {idle first : Nat × Nat} {created more : Nat}
  {entries rest : List (Nat × Nat)}

/-- What is left of the ring, in terms of ids, between two calls of the scheduler: nothing
but a new id behind the first one, and nobody comes back to life. -/
structure Stirred (idle : Nat × Nat) (created more : Nat) (entries : List (Nat × Nat))
    (before after : System) : Prop where
  grows : created ≤ more
  alive : ∀ id, id < created → Alive after id → Alive before id
  ring : ∃ changed, SystemSound after idle more changed ∧
    (ringIds after changed = ringIds before entries ∨
      ∃ current waiting, ringIds before entries = current :: waiting ∧
        ringIds after changed = current :: created :: waiting)

theorem stirred_of_added {node address : Nat} {new : Process}
    (sound : SystemSound system idle created (first :: rest))
    (grown : SystemSound after idle (created + 1) (first :: (node, address) :: rest))
    (added : Added address new system after) (id : new.id = created)
    (fresh : system.procs address = none) :
    Stirred idle created (created + 1) (first :: rest) system after := by
  have procs : after.procs = Function.update system.procs address (some new) := by rw [added]
  have newFound : after.procs address = some new := by rw [procs, Function.update_self]
  have kept : ∀ entry ∈ first :: rest, after.procs entry.2 = system.procs entry.2 := by
    intro entry member
    obtain ⟨process, found, -⟩ := sound.state.listed entry member
    have other : entry.2 ≠ address := fun same => by
      rw [same, fresh] at found
      cases found
    rw [procs, Function.update_of_ne other]
  have ids : ∀ entry ∈ first :: rest, idAt after.procs entry = idAt system.procs entry := by
    intro entry member
    rw [idAt, idAt, kept entry member]
  have newId : idAt after.procs (node, address) = created := (id_at_of_found newFound).trans id
  refine ⟨Nat.le_succ _, ?_, _, grown, Or.inr ⟨_, _, rfl, ?_⟩⟩
  · rintro other old ⟨process, holds, alive⟩
    obtain ⟨entry, member, found, isOther⟩ := (holds_iff grown).mp holds
    have oldEntry : entry ∈ first :: rest := by
      by_contra notOld
      have isNew : entry = (node, address) := by
        simp only [List.mem_cons, not_or] at member notOld
        tauto
      rw [isNew, newFound] at found
      cases found
      omega
    exact ⟨process, (holds_iff sound).mpr ⟨entry, oldEntry, (kept entry oldEntry).symm.trans found,
      isOther⟩, alive⟩
  · have restIds : rest.map (idAt after.procs) = rest.map (idAt system.procs) :=
      List.map_congr_left fun entry member => ids entry (List.mem_cons_of_mem _ member)
    rw [ringIds, List.map_cons, List.map_cons, newId, ids first List.mem_cons_self, restIds]

theorem stirred_of_changed {old new : Process}
    (sound : SystemSound system idle created (first :: rest))
    (found : system.procs first.2 = some old) (sameId : new.id = old.id)
    (changed : SystemSound
      { system with procs := Function.update system.procs first.2 (some new) } idle created
      (first :: rest)) (alive : new.state ≠ .dead → old.state ≠ .dead) :
    Stirred idle created created (first :: rest) system
      { system with procs := Function.update system.procs first.2 (some new) } := by
  refine ⟨Nat.le_refl _, ?_, _, changed, Or.inl ?_⟩
  · rintro id - ⟨process, holds, processAlive⟩
    obtain ⟨entry, member, entryFound, isId⟩ := (holds_iff changed).mp holds
    by_cases current : entry.2 = first.2
    · have newFound : Function.update system.procs first.2 (some new) first.2 = some process :=
        current ▸ entryFound
      rw [Function.update_self] at newFound
      cases newFound
      exact ⟨old, (holds_iff sound).mpr ⟨first, List.mem_cons_self, found, sameId.symm.trans isId⟩,
        alive processAlive⟩
    · have same : system.procs entry.2 = some process :=
        (Function.update_of_ne current _ _).symm.trans entryFound
      exact ⟨process, (holds_iff sound).mpr ⟨entry, member, same, isId⟩, processAlive⟩
  · have ids : idAt (Function.update system.procs first.2 (some new)) = idAt system.procs := by
      funext entry
      unfold idAt
      by_cases current : entry.2 = first.2
      · rw [current, Function.update_self, found]
        exact sameId
      · rw [Function.update_of_ne current]
    exact congrArg (fun id => (first :: rest).map id) ids

theorem event_stirs (sound : SystemSound system idle created entries)
    (happens : Event idle system created after more) :
    Stirred idle created more entries system after := by
  obtain ⟨first, rest, rfl, head⟩ := sound.cons
  obtain ⟨process, found, -⟩ := sound.state.listed first List.mem_cons_self
  cases happens with
  | create fresh few run =>
    obtain ⟨grown, mapped, added⟩ := create_sound sound fresh few run
    exact stirred_of_added sound grown added sound.pids fresh.freshProcess
  | createUser fresh few run =>
    obtain ⟨grown, added⟩ := create_user_sound sound fresh few run
    exact stirred_of_added sound grown added sound.pids fresh.freshProcess
  | @sleep _ _ ms notIdle run =>
    have changed := sound.set_current found { process with wakeAt := add64 system.ticks ms } rfl rfl
      rfl fun same => absurd (same ▸ head) notIdle
    have marks : Ends (markAsleep ms) (fun _ after => after = { system with
        procs := Function.update system.procs first.2
          (some { process with wakeAt := add64 system.ticks ms }) }) (fun _ _ => True) system := by
      rw [ends_markAsleep sound found]
    rw [marks.returns run]
    exact stirred_of_changed sound found rfl changed id
  | exit notIdle run =>
    have changed := sound.set_current found { process with state := .dead } rfl rfl rfl
      fun same => absurd (same ▸ head) notIdle
    have marks : Ends markDead (fun _ after => after = { system with
        procs := Function.update system.procs first.2 (some { process with state := .dead }) })
        (fun _ _ => True) system := by
      rw [ends_markDead sound found]
    rw [marks.returns run]
    exact stirred_of_changed sound found rfl changed fun alive => absurd rfl alive
  | advance later =>
    exact ⟨Nat.le_refl _, fun _ _ => id, _, ⟨sound.state, sound.head, sound.goes, sound.pids,
      sound.few, sound.kernel⟩, Or.inl rfl⟩

end Events

/-! ## What a call does to the ring -/

section Calls

variable {system after middle : System} {idle first chosen : Nat × Nat} {created : Nat}
  {entries rest others left right : List (Nat × Nat)} {prev curr : Process} {caller : Context}

theorem survivor_kept
    (choice : Choice idle created first chosen rest others prev curr system middle)
    {entry : Nat × Nat} (member : entry ∈ chosen :: others) :
    ∃ old new, system.procs entry.2 = some old ∧
      (scheduled middle first chosen prev curr caller).procs entry.2 = some new ∧
      new.id = old.id ∧ new.state = old.state := by
  rcases List.mem_cons.mp member with rfl | waiting
  · exact ⟨curr, curr, choice.currFound, choice.after_found caller, rfl, rfl⟩
  · rcases choice.after_waiting caller waiting with ⟨rfl, -, found⟩ | ⟨-, -, same⟩
    · exact ⟨prev, _, choice.prevFound, found, rfl, rfl⟩
    · obtain ⟨process, found, -⟩ := (choice.after_state caller).listed entry member
      exact ⟨process, process, same.symm.trans found, found, rfl, rfl⟩

theorem survivor_ids (sound : SystemSound system idle created (first :: rest))
    [DecidablePred (Alive system)] :
    (rest.map (idAt system.procs)).filter (fun id => decide (Alive system id)) =
      (rest.filter (aliveAt system.procs)).map (idAt system.procs) := by
  rw [List.filter_map]
  congr 1
  apply List.filter_congr
  intro entry member
  have same := alive_id_iff sound (List.mem_cons_of_mem _ member)
  rw [Function.comp_apply, Bool.eq_iff_iff, decide_eq_true_eq]
  exact same

/-- A call of the scheduler is a turn, and does not bring anyone back to life. -/
structure Passed (idle : Nat × Nat) (created : Nat) (entries : List (Nat × Nat))
    (before after : System) : Prop where
  ring : ∃ changed, SystemSound after idle created changed ∧
    Turn (turnOf (before, after)) (ringIds before entries) (ringIds after changed)
  alive : ∀ id, Alive after id → Alive before id
  selected : selectedId after = some (turnOf (before, after)).chosen
  selectedAlive : Alive before (turnOf (before, after)).chosen

theorem passed_of_choice (sound : SystemSound system idle created (first :: rest))
    (split : rest.filter (aliveAt system.procs) ++ [first] = left ++ chosen :: right)
    (asleep : ∀ entry ∈ left, awakeAt system.procs system.ticks entry = false)
    (choice : Choice idle created first chosen rest (right ++ left) prev curr system middle) :
    Passed idle created (first :: rest) system (scheduled middle first chosen prev curr caller) := by
  have afterSound := after_sound choice caller sound
  generalize target : scheduled middle first chosen prev curr caller = after at afterSound
  have survives : ∀ entry ∈ chosen :: (right ++ left), entry ∈ first :: rest := by
    intro entry member
    rcases (choice.members entry).mp member with rfl | ⟨inRest, -⟩
    · exact List.mem_cons_self
    · exact List.mem_cons_of_mem _ inRest
  have kept : ∀ entry ∈ chosen :: (right ++ left), ∃ old new, system.procs entry.2 = some old ∧
      after.procs entry.2 = some new ∧ new.id = old.id ∧ new.state = old.state := by
    intro entry member
    rw [← target]
    exact survivor_kept choice member
  have ids : ∀ entry ∈ chosen :: (right ++ left), idAt after.procs entry = idAt system.procs entry := by
    intro entry member
    obtain ⟨old, new, oldFound, newFound, sameId, -⟩ := kept entry member
    rw [id_at_of_found oldFound, id_at_of_found newFound, sameId]
  have selected : selectedId after = some (idAt system.procs chosen) := by
    rw [selected_id_eq afterSound, ids chosen List.mem_cons_self]
  have isChosen : (turnOf (system, after)).chosen = idAt system.procs chosen := by
    rw [turnOf, selected, Option.getD_some]
  have chosenHere := survives chosen List.mem_cons_self
  refine ⟨⟨_, afterSound, ?_⟩, ?_, ?_, ?_⟩
  · have order := congrArg (List.map (idAt system.procs)) split
    have moved : ringIds after (chosen :: (right ++ left)) =
        (turnOf (system, after)).chosen ::
          (right.map (idAt system.procs) ++ left.map (idAt system.procs)) := by
      rw [ringIds, List.map_congr_left ids, List.map_cons, List.map_append, isChosen]
    rw [moved]
    refine Turn.pass ?_ ?_
    · simp only [List.map_append, List.map_cons, List.map_nil] at order
      rw [isChosen, ← order]
      classical
      exact congrArg (· ++ [idAt system.procs first]) (survivor_ids sound)
    · intro id member
      obtain ⟨entry, inLeft, rfl⟩ := List.mem_map.mp member
      have here := survives entry (by simp [inLeft])
      have sleeping := asleep entry inLeft
      intro awake
      rw [(awake_id_iff sound here).mp awake] at sleeping
      cases sleeping
  · rintro id ⟨process, holds, alive⟩
    obtain ⟨entry, member, found, isId⟩ := (holds_iff afterSound).mp holds
    obtain ⟨old, new, oldFound, newFound, sameId, sameState⟩ := kept entry member
    rw [newFound] at found
    cases found
    exact ⟨old, (holds_iff sound).mpr ⟨entry, survives entry member, oldFound, sameId ▸ isId⟩,
      sameState ▸ alive⟩
  · rw [isChosen, selected]
  · rw [isChosen]
    exact ⟨curr, (holds_id_iff sound chosenHere).mpr choice.currFound, choice.alive⟩

theorem schedule_passes (sound : SystemSound system idle created entries)
    (run : processSchedule caller system = .ok ⟨⟩ after) :
    Passed idle created entries system after := by
  obtain ⟨first, rest, rfl, head⟩ := sound.cons
  have ends := ends_processSchedule_turn caller sound.state head sound.goes (Nat.le_of_lt sound.few)
  obtain ⟨chosen, left, right, prev, curr, middle, split, asleep, choice, rfl⟩ := ends.returns run
  exact passed_of_choice sound split asleep choice

end Calls

/-! ## Runs -/

section Runs

variable {system last : System} {idle : Nat × Nat} {created total : Nat} {entries : List (Nat × Nat)}
  {calls earlier between later : List (System × System)} {call final : System × System}

theorem rounds_of_run (run : CallRun idle system created calls last total)
    (sound : SystemSound system idle created entries) :
    ∃ lastEntries, SystemSound last idle total lastEntries ∧
      Rounds (ringIds system entries) (calls.map turnOf) (ringIds last lastEntries) := by
  induction run generalizing entries with
  | done => exact ⟨entries, sound, .done _⟩
  | event happens _ induction =>
    obtain ⟨changed, nextSound, same | ⟨current, waiting, old, new⟩⟩ := (event_stirs sound happens).ring
    · rw [← same]
      exact induction nextSound
    · obtain ⟨lastEntries, lastSound, rounds⟩ := induction nextSound
      rw [new] at rounds
      have fresh := fun member => Nat.lt_irrefl _ (ring_ids_lt sound member)
      rw [old] at fresh ⊢
      exact ⟨lastEntries, lastSound, .join fresh rounds⟩
  | schedule run _ induction =>
    obtain ⟨changed, nextSound, passed⟩ := (schedule_passes sound run).ring
    obtain ⟨lastEntries, lastSound, rounds⟩ := induction nextSound
    exact ⟨lastEntries, lastSound, .turn passed rounds⟩

theorem call_of_run (run : CallRun idle system created (earlier ++ call :: later) last total)
    (sound : SystemSound system idle created entries) :
    ∃ more changed caller, SystemSound call.1 idle more changed ∧
      processSchedule caller call.1 = .ok ⟨⟩ call.2 ∧ CallRun idle call.2 more later last total := by
  generalize whole : earlier ++ call :: later = calls at run
  induction run generalizing earlier entries with
  | done => exact absurd whole (by simp)
  | event happens _ induction =>
    obtain ⟨changed, nextSound, -⟩ := (event_stirs sound happens).ring
    exact induction nextSound whole
  | schedule run rest induction =>
    cases earlier with
    | nil =>
      obtain ⟨rfl, rfl⟩ := List.cons.inj whole
      exact ⟨_, entries, _, sound, run, rest⟩
    | cons other others =>
      obtain ⟨rfl, tail⟩ := List.cons.inj whole
      obtain ⟨changed, nextSound, -⟩ := (schedule_passes sound run).ring
      exact induction nextSound tail

theorem alive_of_selected (run : CallRun idle system created calls last total)
    (sound : SystemSound system idle created entries) {id : Nat} (given : id < created)
    (member : call ∈ calls) (selected : selectedId call.2 = some id) : Alive system id := by
  induction run generalizing entries with
  | done => exact absurd member List.not_mem_nil
  | event happens _ induction =>
    have stirred := event_stirs sound happens
    obtain ⟨changed, nextSound, -⟩ := stirred.ring
    exact stirred.alive id given (induction nextSound (by have := stirred.grows; omega) member)
  | schedule run _ induction =>
    have passed := schedule_passes sound run
    rcases List.mem_cons.mp member with rfl | inRest
    · have same := Option.some.inj (passed.selected.symm.trans selected)
      exact same ▸ passed.selectedAlive
    · obtain ⟨changed, nextSound, -⟩ := passed.ring
      exact passed.alive id (induction nextSound given inRest)

theorem alive_until_selected
    (run : CallRun idle system created (between ++ final :: later) last total)
    (sound : SystemSound system idle created entries) {id : Nat} (given : id < created)
    (selected : selectedId final.2 = some id) : ∀ call ∈ between ++ [final], Alive call.1 id := by
  generalize whole : between ++ final :: later = calls at run
  induction run generalizing between entries with
  | done => exact absurd whole (by simp)
  | event happens _ induction =>
    have stirred := event_stirs sound happens
    obtain ⟨changed, nextSound, -⟩ := stirred.ring
    exact induction nextSound (by have := stirred.grows; omega) whole
  | @schedule start next _ _ _ _ _ run rest induction =>
    have here : Alive start id := by
      refine alive_of_selected (.schedule run rest) sound given ?_ selected
      rw [← whole]
      exact List.mem_append_right _ List.mem_cons_self
    cases between with
    | nil =>
      obtain ⟨rfl, -⟩ := List.cons.inj whole
      intro call member
      rw [List.mem_singleton.mp member]
      exact here
    | cons other others =>
      obtain ⟨rfl, tail⟩ := List.cons.inj whole
      obtain ⟨changed, nextSound, -⟩ := (schedule_passes sound run).ring
      intro call member
      rcases List.mem_cons.mp member with rfl | inRest
      · exact here
      · exact induction nextSound given tail call inRest

theorem selected_of_run (run : CallRun idle system created calls last total)
    (sound : SystemSound system idle created entries) :
    ∀ call ∈ calls, selectedId call.2 = some (turnOf call).chosen := by
  induction run generalizing entries with
  | done => exact fun _ member => absurd member List.not_mem_nil
  | event happens _ induction =>
    obtain ⟨changed, nextSound, -⟩ := (event_stirs sound happens).ring
    exact induction nextSound
  | schedule run _ induction =>
    have passed := schedule_passes sound run
    obtain ⟨changed, nextSound, -⟩ := passed.ring
    intro call member
    rcases List.mem_cons.mp member with rfl | inRest
    · exact passed.selected
    · exact induction nextSound call inRest

end Runs

/-! ## Fairness -/

/-- In every run from the ring of the idle process alone: between a selection of `mine` and
the next one, another process that is in the ring at the first of them, and alive and awake
at every call up to the second, is selected at least once, and exactly once if `mine` is
awake at every one of these calls as well. -/
theorem schedule_fair {blank booted last : System} {node process stackTop total mine yours : Nat}
    {earlier between later : List (System × System)} {call final : System × System}
    (empty : Blank blank) (fresh : Fresh blank node process stackTop)
    (boot : processCreate node process stackTop 0 blank = .ok ⟨⟩ booted)
    (run : CallRun (node, process) booted 1 (earlier ++ call :: (between ++ final :: later)) last total)
    (selected : selectedId call.2 = some mine) (again : selectedId final.2 = some mine)
    (alone : ∀ other ∈ between, selectedId other.2 ≠ some mine)
    (different : yours ≠ mine) (present : InRing call.2 yours)
    (ready : ∀ other ∈ between ++ [final], Alive other.1 yours ∧ Awake other.1 yours) :
    1 ≤ (between.map fun other => selectedId other.2).count (some yours) ∧
      ((∀ other ∈ between ++ [final], Awake other.1 mine) →
        (between.map fun other => selectedId other.2).count (some yours) = 1) := by
  have booting := (boot_sound empty fresh boot).sound
  obtain ⟨more, changed, caller, callSound, callRun, rest⟩ := call_of_run run booting
  obtain ⟨entries, sound, -⟩ := (schedule_passes callSound callRun).ring
  obtain ⟨first, others, rfl, -⟩ := sound.cons
  obtain ⟨lastEntries, -, rounds⟩ := rounds_of_run rest sound
  have choices := selected_of_run rest sound
  have isMine : idAt call.2.procs first = mine :=
    Option.some.inj ((selected_id_eq sound).symm.trans selected)
  have ids : ringIds call.2 (first :: others) = mine :: ringIds call.2 others := by
    rw [← isMine]
    rfl
  have nodup := ring_ids_nodup sound
  have listed := (in_ring_iff sound).mp present
  have given : mine < more := ring_ids_lt sound (ids ▸ List.mem_cons_self)
  have alive := alive_until_selected rest sound given again
  rw [ids] at rounds nodup listed
  rw [List.map_append, List.map_cons] at rounds
  have chosenAt : ∀ other ∈ between ++ [final], selectedId other.2 = some (turnOf other).chosen := by
    intro other member
    apply choices other
    simp only [List.mem_append, List.mem_cons, List.not_mem_nil, or_false] at member ⊢
    tauto
  have turns : (between.map fun other => selectedId other.2) =
      ((between.map turnOf).map Call.chosen).map some := by
    rw [List.map_map, List.map_map]
    exact List.map_congr_left fun other member => chosenAt other (List.mem_append_left _ member)
  have atTurns : ∀ {holds : Call Nat → Prop}, (∀ other ∈ between ++ [final], holds (turnOf other)) →
      ∀ turn ∈ between.map turnOf ++ [turnOf final], holds turn := by
    intro holds atCalls turn member
    rw [← List.map_singleton, ← List.map_append] at member
    obtain ⟨other, inCalls, rfl⟩ := List.mem_map.mp member
    exact atCalls other inCalls
  have notMine : ∀ turn ∈ between.map turnOf, turn.chosen ≠ mine := by
    intro turn member same
    obtain ⟨other, inside, rfl⟩ := List.mem_map.mp member
    apply alone other inside
    rw [chosenAt other (List.mem_append_left _ inside), same]
  have lastly : (turnOf final).chosen = mine :=
    Option.some.inj ((chosenAt final (by simp)).symm.trans again)
  obtain ⟨atLeast, exactly⟩ := rounds.fair nodup ((List.mem_cons.mp listed).resolve_left different)
    notMine lastly (atTurns ready) (atTurns alive)
  rw [turns, List.count_map_of_injective _ _ (Option.some_injective Nat)]
  exact ⟨atLeast, fun awake => exactly (atTurns awake)⟩

/-- The idle process and another one, after some timer interrupts. -/
def pairSystem : Nat → System
  | 0 => systemAfter (processCreate 48 80 64 0 idleSystem)
  | turns + 1 => systemAfter (processSchedule (.timer false) (pairSystem turns))

/-- The two take turns. -/
theorem schedule_fair_pair :
    selectedId (pairSystem 1) = some 1 ∧ selectedId (pairSystem 3) = some 1 ∧
      ([(pairSystem 1, pairSystem 2)].map fun call => selectedId call.2).count (some 0) = 1 := by
  have fresh : Fresh blankSystem 16 32 64 := ⟨rfl, by decide, rfl, by decide⟩
  have freshPair : Fresh idleSystem 48 80 64 := ⟨rfl, by decide, rfl, by decide⟩
  have created : processCreate 48 80 64 0 idleSystem = .ok ⟨⟩ (pairSystem 0) := rfl
  have turn : ∀ turns < 3, processSchedule (.timer false) (pairSystem turns) =
      .ok ⟨⟩ (pairSystem (turns + 1)) := by
    intro turns few
    match turns with
    | 0 => rfl
    | 1 => rfl
    | 2 => rfl
  have calls : CallRun (16, 32) (pairSystem 0) 2 ([] ++ (pairSystem 0, pairSystem 1) ::
      ([(pairSystem 1, pairSystem 2)] ++ (pairSystem 2, pairSystem 3) :: [])) (pairSystem 3) 2 :=
    .schedule (turn 0 (by decide)) (.schedule (turn 1 (by decide)) (.schedule (turn 2 (by decide))
      (.done _ _)))
  have run := CallRun.event (.create freshPair (by decide) created) calls
  have holds : ∀ turns, turns = 1 ∨ turns = 2 → ∀ id, id = 0 ∨ id = 1 →
      Alive (pairSystem turns) id ∧ Awake (pairSystem turns) id := by
    rintro turns (rfl | rfl) id (rfl | rfl)
    · exact ⟨⟨_, ⟨16, _, rfl, rfl, rfl⟩, by decide⟩, ⟨_, ⟨16, _, rfl, rfl, rfl⟩, by decide⟩⟩
    · exact ⟨⟨_, ⟨48, _, rfl, rfl, rfl⟩, by decide⟩, ⟨_, ⟨48, _, rfl, rfl, rfl⟩, by decide⟩⟩
    · exact ⟨⟨_, ⟨16, _, rfl, rfl, rfl⟩, by decide⟩, ⟨_, ⟨16, _, rfl, rfl, rfl⟩, by decide⟩⟩
    · exact ⟨⟨_, ⟨48, _, rfl, rfl, rfl⟩, by decide⟩, ⟨_, ⟨48, _, rfl, rfl, rfl⟩, by decide⟩⟩
  have ready : ∀ id, id = 0 ∨ id = 1 → ∀ call ∈ [(pairSystem 1, pairSystem 2)] ++
      [(pairSystem 2, pairSystem 3)], Alive call.1 id ∧ Awake call.1 id := by
    intro id either call member
    simp only [List.cons_append, List.nil_append, List.mem_cons, List.not_mem_nil, or_false] at member
    rcases member with rfl | rfl
    · exact holds 1 (Or.inl rfl) id either
    · exact holds 2 (Or.inr rfl) id either
  have alone : ∀ call ∈ [(pairSystem 1, pairSystem 2)], selectedId call.2 ≠ some 1 := by
    intro call member
    rw [List.mem_singleton.mp member]
    exact fun same => by cases same
  have present : InRing (pairSystem 1) 0 := ⟨_, 16, _, rfl, rfl, rfl⟩
  have both := schedule_fair blank_system_blank fresh rfl run rfl rfl alone (by decide) present
    (ready 0 (Or.inl rfl))
  exact ⟨rfl, rfl, both.2 fun call member => (ready 1 (Or.inr rfl) call member).2⟩

end RiriaKernel.SchedulerFairness
