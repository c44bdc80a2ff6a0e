import RiriaKernel.ProcessRings

/-!
# What the scheduler does to the ring

`process_reap` keeps the first entry and every other one that is alive, `process_schedule`
then moves on to the first entry that is awake. Both loops end because the idle process is
in the ring, alive and awake.
-/

namespace RiriaKernel.ProcessScheduling

open HaltingPrograms CircularLists KernelState Processes ProcessRings

/-! ## Reaping -/

def aliveAt (procs : Nat → Option Process) (entry : Nat × Nat) : Bool :=
  match procs entry.2 with
  | some process => process.state ≠ .dead
  | none => false

structure Reaped (idle : Nat × Nat) (created : Nat) (entries : List (Nat × Nat))
    (before after : System) : Prop where
  same : after =
    { before with nodes := after.nodes, procs := after.procs, reaped := after.reaped }
  state : RingState after.nodes after.procs after.reaped idle created entries
  kept : ∀ entry ∈ entries, after.procs entry.2 = before.procs entry.2

section Reaping

variable {idle : Nat × Nat} {created : Nat} {entries front todo : List (Nat × Nat)}
  {prev : Nat × Nat} {system : System}

theorem alive_at_of_found {procs : Nat → Option Process} {entry : Nat × Nat} {process : Process}
    (found : procs entry.2 = some process) : aliveAt procs entry = decide (process.state ≠ .dead) := by
  rw [aliveAt, found]

theorem alive_at_congr {procs others : Nat → Option Process} {entry : Nat × Nat}
    (same : others entry.2 = procs entry.2) : aliveAt others entry = aliveAt procs entry := by
  rw [aliveAt, aliveAt, same]

theorem first_of_back {gone : Nat × Nat} {back : List (Nat × Nat)}
    (state : RingState system.nodes system.procs system.reaped idle created
      (front ++ prev :: gone :: back))
    (head : system.head = firstOf (front ++ [prev]) 0) :
    (firstOf back system.head ≠ system.head ∧ system.head ≠ 0) ↔ back ≠ [] := by
  have first : ∃ entry ∈ front ++ [prev], entry.1 = system.head := by
    cases front with
    | nil => exact ⟨prev, List.mem_cons_self, head.symm⟩
    | cons entry rest => exact ⟨entry, List.mem_cons_self, head.symm⟩
  obtain ⟨entry, member, same⟩ := first
  have whole : entry ∈ front ++ prev :: gone :: back := by
    simp only [List.mem_append, List.mem_cons, List.not_mem_nil, or_false] at member ⊢
    tauto
  have nonzero : system.head ≠ 0 := same ▸ state.nonzero entry whole
  cases back with
  | nil => simp [firstOf]
  | cons later rest =>
    have nodup := state.ring.nodup
    have split : front ++ prev :: gone :: later :: rest =
        (front ++ [prev]) ++ (gone :: later :: rest) := by simp
    rw [split, List.map_append, List.nodup_append] at nodup
    have apart := nodup.2.2 entry.1 (List.mem_map_of_mem member) later.1
      (List.mem_map_of_mem (List.mem_cons_of_mem _ List.mem_cons_self))
    have different : firstOf (later :: rest) system.head ≠ system.head := by
      rw [← same]
      exact Ne.symm apart
    exact ⟨fun _ => List.cons_ne_nil _ _, fun _ => ⟨different, nonzero⟩⟩

def released (system : System) (prev gone : Nat × Nat) (next id : Nat) : System :=
  { system with
    nodes := Function.update (Function.update system.nodes prev.1 (some ⟨prev.2, next⟩)) gone.1 none
    procs := Function.update system.procs gone.2 none
    reaped := system.reaped ++ [id] }

theorem ends_unlink_release {gone : Nat × Nat} {back : List (Nat × Nat)} {dead : Process}
    {returned : PUnit → System → Prop} {stopped : Fault → System → Prop} {rest : PUnit → Sched PUnit}
    (state : RingState system.nodes system.procs system.reaped idle created
      (front ++ prev :: gone :: back))
    (head : system.head = firstOf (front ++ [prev]) 0) :
    Ends (unlink prev.1 gone.1 >>= fun _ => release gone.1 gone.2 dead.id >>= rest) returned stopped
        system =
      Ends (rest ⟨⟩) returned stopped (released system prev gone
        (firstOf back (firstOf (front ++ prev :: gone :: back) 0)) dead.id) := by
  have nodup := state.ring.nodup
  rw [List.map_append, List.map_cons, List.map_cons, List.nodup_append, List.nodup_cons] at nodup
  obtain ⟨-, ⟨prevFresh, -⟩, apart⟩ := nodup
  have notPrev : gone.1 ≠ prev.1 := fun same => prevFresh (same ▸ List.mem_cons_self)
  have notHead : system.head ≠ gone.1 := by
    rw [head]
    cases front with
    | nil => exact Ne.symm notPrev
    | cons entry rest =>
      exact apart _ (List.mem_map_of_mem List.mem_cons_self) _
        (List.mem_cons_of_mem _ List.mem_cons_self)
  have prevNode := state.ring.next 0
  have goneState := state.ring
  have split : front ++ prev :: gone :: back = (front ++ [prev]) ++ gone :: back := by simp
  rw [split] at goneState
  have goneNode := goneState.next 0
  rw [← split] at goneNode
  rw [ends_bind, unlink, ends_ite, if_neg notPrev, ends_bind, ends_getNode prevNode, ends_bind,
    ends_getNode goneNode, ends_modify, if_neg notHead, ends_bind, release, ends_modify]
  rfl

theorem Reaped.after_release {after : System} {gone : Nat × Nat} {next id : Nat}
    (absent : ∀ entry ∈ entries, entry.2 ≠ gone.2)
    (reaped : Reaped idle created entries (released system prev gone next id) after) :
    Reaped idle created entries system after := by
  refine ⟨?_, reaped.state, ?_⟩
  · rw [reaped.same]
    rfl
  · intro entry member
    rw [reaped.kept entry member]
    exact Function.update_of_ne (absent entry member) _ _

theorem ends_reapLoop (fuel : Nat) (nonempty : todo ≠ [])
    (state : RingState system.nodes system.procs system.reaped idle created (front ++ prev :: todo))
    (head : system.head = firstOf (front ++ [prev]) 0) (enough : todo.length ≤ fuel) :
    Ends (reapLoop fuel prev.1 (firstOf todo system.head))
      (fun _ after => Reaped idle created (front ++ prev :: todo.filter (aliveAt system.procs)) system
        after)
      (fun _ _ => False) system := by
  induction fuel generalizing front prev todo system with
  | zero => exact absurd (List.eq_nil_of_length_eq_zero (by omega)) nonempty
  | succ fuel induction =>
    obtain ⟨gone, back, rfl⟩ := List.exists_cons_of_ne_nil nonempty
    have stop := first_of_back state head
    have split : front ++ prev :: gone :: back = (front ++ [prev]) ++ gone :: back := by simp
    have start : firstOf (front ++ prev :: gone :: back) 0 = system.head := by
      rw [head, split, first_of_append]
      exact first_of_eq (by simp) 0
    obtain ⟨process, found, -⟩ := state.listed gone (by simp)
    have goneState := state.ring
    rw [split] at goneState
    have goneNode := goneState.next 0
    rw [← split, start] at goneNode
    rw [List.length_cons] at enough
    rw [reapLoop, ends_bind, firstOf, ends_getNode goneNode, ends_bind, ends_getProcess found,
      ends_ite]
    by_cases dead : process.state = .dead
    · have notIdle : gone ≠ idle := by
        rintro rfl
        exact (state.idleKept process found).alive dead
      have removed := state.remove found notIdle 0
      have dropped : aliveAt system.procs gone = false := by
        rw [alive_at_of_found found]
        simp [dead]
      have absent : ∀ entry ∈ front ++ prev :: back, entry.2 ≠ gone.2 := by
        intro entry member same
        have kept := removed.listed entry member
        rw [same, Function.update_self] at kept
        obtain ⟨other, impossible, -⟩ := kept
        cases impossible
      have behindNode := removed.ring.next 0
      have rest : firstOf (front ++ prev :: back) 0 = system.head := by
        rw [head, first_of_append, first_of_append]
        rfl
      rw [start] at removed
      rw [rest, start] at behindNode
      let middle := released system prev gone (firstOf back system.head) process.id
      have behindFound : middle.nodes prev.1 = some ⟨prev.2, firstOf back system.head⟩ := behindNode
      have stopMiddle : (firstOf back system.head ≠ middle.head ∧ middle.head ≠ 0) ↔ back ≠ [] :=
        stop
      rw [if_pos dead, ends_unlink_release state head, start, ends_bind, ends_getNode behindFound,
        ends_bind, ends_get, ends_ite, List.filter_cons_of_neg (by simp [dropped])]
      by_cases last : back = []
      · rw [if_neg (fun more => stopMiddle.mp more last), ends_pure]
        subst last
        exact Reaped.after_release absent ⟨rfl, removed, fun _ _ => rfl⟩
      · have alive : back.filter (aliveAt middle.procs) = back.filter (aliveAt system.procs) := by
          apply List.filter_congr
          intro entry member
          exact alive_at_congr (Function.update_of_ne (absent entry (by simp [member])) _ _)
        have headMiddle : middle.head = firstOf (front ++ [prev]) 0 := head
        have removedMiddle : RingState middle.nodes middle.procs middle.reaped idle created
          (front ++ prev :: back) := removed
        have later := induction last removedMiddle headMiddle (by omega)
        rw [if_pos (stopMiddle.mpr last)]
        apply ends_mono later _ fun _ _ => id
        intro _ after reaped
        rw [alive] at reaped
        apply Reaped.after_release _ reaped
        intro entry member
        apply absent entry
        simp only [List.mem_append, List.mem_cons, List.mem_filter] at member ⊢
        tauto
    · have kept : aliveAt system.procs gone = true := by
        rw [alive_at_of_found found]
        simp [dead]
      rw [if_neg dead, ends_bind, ends_get, ends_ite, List.filter_cons_of_pos kept]
      by_cases last : back = []
      · rw [if_neg (fun more => stop.mp more last), ends_pure]
        subst last
        exact ⟨rfl, state, fun _ _ => rfl⟩
      · have moved : RingState system.nodes system.procs system.reaped idle created
            ((front ++ [prev]) ++ gone :: back) := split ▸ state
        have sameHead : system.head = firstOf ((front ++ [prev]) ++ [gone]) 0 :=
          head.trans ((first_of_eq (by simp) _).trans first_of_append.symm)
        have rest := induction last moved sameHead (by omega)
        rw [if_pos (stop.mpr last)]
        rwa [List.append_assoc] at rest

/-- `process_reap` keeps the first entry and what is alive of the others. -/
theorem ends_processReap {first : Nat × Nat} {rest : List (Nat × Nat)}
    (state : RingState system.nodes system.procs system.reaped idle created (first :: rest))
    (head : system.head = first.1) (few : created ≤ ringBound) :
    Ends processReap
      (fun _ after => Reaped idle created (first :: rest.filter (aliveAt system.procs)) system after)
      (fun _ _ => False) system := by
  have nonzero : system.head ≠ 0 := head ▸ state.nonzero first List.mem_cons_self
  have short := state.length_le
  rw [List.length_cons] at short
  have node : system.nodes system.head = some ⟨first.2, firstOf rest system.head⟩ := by
    rw [head]
    exact (state.ring.linked 0).1
  have nextNonzero : firstOf rest system.head ≠ 0 := by
    cases rest with
    | nil => exact nonzero
    | cons entry others => exact state.nonzero entry (List.mem_cons_of_mem _ List.mem_cons_self)
  rw [processReap, ends_bind, ends_get, ends_ite, if_neg nonzero, ends_bind, ends_getNode node,
    ends_ite, if_neg nextNonzero]
  cases rest with
  | nil =>
    -- a ring of one entry is the idle process, and the loop looks at it once
    obtain ⟨process, found, -⟩ := state.listed first List.mem_cons_self
    have alone : idle = first := List.mem_singleton.mp state.idleListed
    have alive : process.state ≠ .dead := (state.idleKept process (alone ▸ found)).alive
    have unchanged : Reaped idle created [first] system system := ⟨rfl, state, fun _ _ => rfl⟩
    rw [show ringBound = (2 ^ 32 - 1) + 1 from rfl, reapLoop, ends_bind, firstOf, ends_getNode node,
      ends_bind, ends_getProcess found, ends_ite, if_neg alive, ends_bind, ends_get, ends_ite,
      if_neg (fun more => more.1 rfl), ends_pure]
    exact unchanged
  | cons entry others =>
    have listed : RingState system.nodes system.procs system.reaped idle created
        ([] ++ first :: entry :: others) := state
    have loop := ends_reapLoop ringBound (List.cons_ne_nil _ _) listed head (by omega)
    rw [List.nil_append, ← head] at loop
    exact loop

end Reaping

/-! ## Choosing the next process -/

def awakeAt (procs : Nat → Option Process) (ticks : Nat) (entry : Nat × Nat) : Bool :=
  match procs entry.2 with
  | some process => process.wakeAt ≤ ticks
  | none => false

section Choosing

variable {idle : Nat × Nat} {created : Nat} {system : System}

theorem awake_at_of_found {procs : Nat → Option Process} {ticks : Nat} {entry : Nat × Nat}
    {process : Process} (found : procs entry.2 = some process) :
    awakeAt procs ticks entry = decide (process.wakeAt ≤ ticks) := by
  rw [awakeAt, found]

theorem exists_first {entries : List (Nat × Nat)} {test : Nat × Nat → Bool}
    (some : ∃ entry ∈ entries, test entry = true) :
    ∃ left chosen right, entries = left ++ chosen :: right ∧ test chosen = true ∧
      ∀ entry ∈ left, test entry = false := by
  obtain ⟨entry, member, passes⟩ := some
  obtain ⟨chosen, found⟩ := Option.isSome_iff_exists.mp
    (List.find?_isSome.mpr ⟨entry, member, passes⟩)
  obtain ⟨holds, left, right, split, before⟩ := List.find?_eq_some_iff_append.mp found
  exact ⟨left, chosen, right, split, holds, fun entry member => by simpa using before entry member⟩

theorem ends_skipSleeping (fuel : Nat) {left right : List (Nat × Nat)} {chosen : Nat × Nat}
    (state : RingState system.nodes system.procs system.reaped idle created (left ++ chosen :: right))
    (head : system.head = firstOf (left ++ chosen :: right) 0)
    (asleep : ∀ entry ∈ left, awakeAt system.procs system.ticks entry = false)
    (awake : awakeAt system.procs system.ticks chosen = true) (enough : left.length < fuel) :
    Ends (skipSleeping fuel) (fun _ after => after = { system with head := chosen.1 })
      (fun _ _ => False) system := by
  induction fuel generalizing left right system with
  | zero => omega
  | succ fuel induction =>
    cases left with
    | nil =>
      obtain ⟨process, found, -⟩ := state.listed chosen List.mem_cons_self
      have node : system.nodes system.head = some ⟨chosen.2, firstOf right chosen.1⟩ := by
        rw [head]
        exact (state.ring.linked 0).1
      have early : ¬process.wakeAt > system.ticks := by
        rw [awake_at_of_found found, decide_eq_true_eq] at awake
        omega
      have same : system.head = chosen.1 := head
      rw [skipSleeping, ends_bind, ends_get, ends_bind, ends_getNode node, ends_bind,
        ends_getProcess found, ends_ite, if_neg early, ends_pure, ← same]
    | cons entry others =>
      obtain ⟨process, found, -⟩ := state.listed entry List.mem_cons_self
      have node : system.nodes system.head =
          some ⟨entry.2, firstOf (others ++ chosen :: right) entry.1⟩ := by
        rw [head]
        exact (state.ring.linked 0).1
      have late : process.wakeAt > system.ticks := by
        have sleeping := asleep entry List.mem_cons_self
        rw [awake_at_of_found found, decide_eq_false_iff_not] at sleeping
        omega
      let moved : System := { system with head := firstOf (others ++ chosen :: right) entry.1 }
      have rotated : RingState moved.nodes moved.procs moved.reaped idle created
          (others ++ chosen :: (right ++ [entry])) := by
        have parted : RingState system.nodes system.procs system.reaped idle created
          ([entry] ++ (others ++ chosen :: right)) := state
        have turned := parted.rotate (by simp)
        rwa [List.append_assoc, List.cons_append] at turned
      have movedHead : moved.head = firstOf (others ++ chosen :: (right ++ [entry])) 0 := by
        have front : firstOf (others ++ chosen :: (right ++ [entry])) 0 =
            firstOf ((others ++ chosen :: right) ++ [entry]) 0 := by simp
        rw [front, first_of_append]
        exact first_of_eq (by simp) _
      rw [skipSleeping, ends_bind, ends_get, ends_bind, ends_getNode node, ends_bind,
        ends_getProcess found, ends_ite, if_pos late, ends_bind, ends_set]
      rw [List.length_cons] at enough
      exact induction rotated movedHead
        (fun later member => asleep later (List.mem_cons_of_mem _ member)) awake (by omega)

end Choosing

/-! ## Switching -/

def parked (prev : Process) (cpu : Cpu) (caller : Context) : Process :=
  { prev with
    krsp := caller
    fpuState := if prev.type = .user then cpu.fpu else prev.fpuState
    fsbase := if prev.type = .user then cpu.fsBase else prev.fsbase }

/-- The processor after a switch, except for the interrupt state. -/
def switchedCpu (cpu : Cpu) (curr : Process) (address : Nat) : Cpu :=
  { cpu with
    pagemap := curr.pagemap
    rsp0 := curr.stackTop
    fpu := if curr.type = .user then curr.fpuState else cpu.fpu
    fsBase := if curr.type = .user then curr.fsbase else cpu.fsBase
    gsBase := address }

def cameBack (system : System) (context : Context) : System :=
  { system with
    cpu := { system.cpu with interrupts := intResume system.cpu.interrupts }
    running := .returned context }

def switched (system : System) (prevProc currProc : Nat) (prev curr : Process) (caller : Context) :
    System :=
  cameBack
    { system with
      procs := Function.update system.procs prevProc (some (parked prev system.cpu caller))
      cpu := switchedCpu system.cpu curr currProc }
    curr.krsp

section Switching

variable {system : System} {returned : PUnit → System → Prop} {stopped : Fault → System → Prop}

theorem ends_saveRegisters {prevProc : Nat} {prev : Process}
    (found : system.procs prevProc = some prev) :
    Ends (saveRegisters prevProc) returned stopped system =
      returned ⟨⟩ { system with
        procs := Function.update system.procs prevProc (some (parked prev system.cpu prev.krsp)) } := by
  rw [saveRegisters, ends_bind, ends_getProcess found, ends_bind, ends_get, ends_ite]
  by_cases user : prev.type = .user
  · simp only [if_pos user, ends_setProcess, parked]
  · have same : parked prev system.cpu prev.krsp = prev := by
      simp only [parked, if_neg user]
    rw [if_neg user, ends_pure, same, ← found, Function.update_eq_self]

theorem ends_loadRegisters (curr : Process) :
    Ends (loadRegisters curr) returned stopped system =
      returned ⟨⟩ { system with
        cpu := { system.cpu with
          fpu := if curr.type = .user then curr.fpuState else system.cpu.fpu
          fsBase := if curr.type = .user then curr.fsbase else system.cpu.fsBase } } := by
  rw [loadRegisters, ends_ite]
  by_cases user : curr.type = .user
  · simp only [if_pos user, ends_modify]
  · simp only [if_neg user, ends_pure]

theorem ends_processSwitch {prevProc currProc : Nat} {prev curr : Process} (caller : Context)
    (prevFound : system.procs prevProc = some prev) (currFound : system.procs currProc = some curr)
    (different : currProc ≠ prevProc) :
    Ends (processSwitch prevProc currProc caller) returned stopped system =
      returned ⟨⟩ (cameBack { system with
        procs := Function.update system.procs prevProc (some { prev with krsp := caller }) }
        curr.krsp) := by
  have still : Function.update system.procs prevProc (some { prev with krsp := caller }) currProc =
      some curr := by rw [Function.update_of_ne different, currFound]
  rw [processSwitch, ends_bind, ends_getProcess prevFound, ends_bind, ends_setProcess, ends_bind,
    ends_getProcess still, ends_comeBack]
  rfl

theorem ends_switchTo {prevProc currProc : Nat} {prev curr : Process} (caller : Context)
    (prevFound : system.procs prevProc = some prev) (currFound : system.procs currProc = some curr)
    (different : currProc ≠ prevProc) (runnable : Runnable curr) :
    Ends (switchTo prevProc currProc caller) returned stopped system =
      returned ⟨⟩ (switched system prevProc currProc prev curr caller) := by
  obtain ⟨pagemap, stackTop⟩ := runnable
  let first : System :=
    { system with cpu := { system.cpu with pagemap := curr.pagemap, rsp0 := curr.stackTop } }
  have firstFound : first.procs prevProc = some prev := prevFound
  have saved : Function.update system.procs prevProc (some (parked prev first.cpu prev.krsp)) prevProc =
      some (parked prev first.cpu prev.krsp) := Function.update_self _ _ _
  have still : Function.update system.procs prevProc (some (parked prev first.cpu prev.krsp)) currProc =
      some curr := by rw [Function.update_of_ne different, currFound]
  rw [switchTo, ends_bind, ends_getProcess currFound, ends_bind, ends_ensure, if_pos pagemap, ends_bind,
    ends_ensure, if_pos stackTop, ends_bind, ends_modify, ends_bind, ends_saveRegisters firstFound,
    ends_bind, ends_loadRegisters, ends_bind, ends_modify,
    ends_processSwitch caller saved still different]
  simp only [switched, Function.update_idem]
  rfl

end Switching

/-! ## The scheduler -/

/-- The state in which `process_schedule` has chosen the process of entry `chosen` as the
successor of `first`, with interrupts off. -/
structure Choice (idle : Nat × Nat) (created : Nat) (first chosen : Nat × Nat)
    (rest others : List (Nat × Nat)) (prev curr : Process) (before middle : System) : Prop where
  same : middle =
    { before with
      head := chosen.1
      nodes := middle.nodes
      procs := middle.procs
      reaped := middle.reaped
      cpu := { before.cpu with interrupts := intDisable before.cpu.interrupts } }
  state : RingState middle.nodes middle.procs middle.reaped idle created (chosen :: others)
  kept : ∀ entry ∈ chosen :: others, middle.procs entry.2 = before.procs entry.2
  members : ∀ entry, entry ∈ chosen :: others ↔
    entry = first ∨ entry ∈ rest ∧ aliveAt before.procs entry = true
  order : ∃ left right, rest.filter (aliveAt before.procs) ++ [first] = left ++ chosen :: right ∧
    ∀ entry ∈ left, awakeAt before.procs before.ticks entry = false
  prevFound : before.procs first.2 = some prev
  currFound : before.procs chosen.2 = some curr
  alive : curr.state ≠ .dead
  awake : curr.wakeAt ≤ before.ticks

def scheduled (middle : System) (first chosen : Nat × Nat) (prev curr : Process) (caller : Context) :
    System :=
  if chosen = first then cameBack middle caller
  else switched middle first.2 chosen.2 prev curr caller

section Scheduling

variable {idle first : Nat × Nat} {created : Nat} {rest : List (Nat × Nat)} {system : System}

theorem ends_canSchedule {stopped : Fault → System → Prop}
    (state : RingState system.nodes system.procs system.reaped idle created (first :: rest))
    (head : system.head = first.1) (running : system.shouldSchedule = true)
    {returned : Bool → System → Prop} :
    Ends canSchedule returned stopped system = returned true system := by
  have nonzero : system.head ≠ 0 := head ▸ state.nonzero first List.mem_cons_self
  have node : system.nodes system.head = some ⟨first.2, firstOf rest first.1⟩ := by
    rw [head]
    exact (state.ring.linked 0).1
  have goes : ¬(system.shouldSchedule = false ∨ system.head = 0) := by
    rw [running]
    exact fun either => either.elim (fun wrong => by cases wrong) nonzero
  obtain ⟨process, found, runnable⟩ := state.listed first List.mem_cons_self
  -- the entry behind the first one, which is the first one itself in a ring of one
  have behind : ∃ entry later, entry ∈ first :: rest ∧ entry.1 = firstOf rest first.1 ∧
      system.nodes entry.1 = some ⟨entry.2, later⟩ := by
    cases rest with
    | nil => exact ⟨first, first.1, List.mem_cons_self, rfl, (state.ring.linked 0).1⟩
    | cons entry others =>
      exact ⟨entry, _, List.mem_cons_of_mem _ List.mem_cons_self, rfl, (state.ring.linked 0).2.1⟩
  obtain ⟨entry, later, member, same, behindNode⟩ := behind
  obtain ⟨successor, successorFound, successorRunnable⟩ := state.listed entry member
  have nextNonzero : firstOf rest first.1 ≠ 0 := same ▸ state.nonzero entry member
  rw [same] at behindNode
  rw [canSchedule, ends_bind, ends_get, ends_ite, if_neg goes, ends_bind, ends_getNode node, ends_ite,
    if_neg nextNonzero, ends_bind, ends_getProcess found, ends_ite, if_neg runnable.pagemap, ends_bind,
    ends_getNode behindNode, ends_bind, ends_getProcess successorFound, ends_pure,
    decide_eq_true successorRunnable.pagemap]

theorem exists_choice {middle : System}
    (state : RingState middle.nodes middle.procs middle.reaped idle created
      (rest ++ [first])) (ticks : Nat) :
    ∃ left chosen right, rest ++ [first] = left ++ chosen :: right ∧
      awakeAt middle.procs ticks chosen = true ∧
      ∀ entry ∈ left, awakeAt middle.procs ticks entry = false := by
  apply exists_first
  obtain ⟨process, found, -⟩ := state.listed idle state.idleListed
  refine ⟨idle, state.idleListed, ?_⟩
  rw [awake_at_of_found found, (state.idleKept process found).awake]
  exact decide_eq_true (Nat.zero_le _)

theorem chosen_alive {procs : Nat → Option Process} {nodes : Store Nat Nat} {reaped : List Nat}
    {survivors left right : List (Nat × Nat)} {chosen : Nat × Nat} {curr : Process} {ticks : Nat}
    (state : RingState nodes procs reaped idle created (survivors ++ [first]))
    (alive : ∀ entry ∈ survivors, aliveAt procs entry = true)
    (split : survivors ++ [first] = left ++ chosen :: right)
    (asleep : ∀ entry ∈ left, awakeAt procs ticks entry = false)
    (found : procs chosen.2 = some curr) : curr.state ≠ .dead := by
  rcases List.eq_nil_or_concat right with rfl | ⟨behind, last, rfl⟩
  · -- everything in front of the old entry is asleep, so that one is the idle process
    obtain ⟨rfl, same⟩ := List.append_inj' split rfl
    obtain ⟨process, idleFound, -⟩ := state.listed idle state.idleListed
    have kept := state.idleKept process idleFound
    have isChosen : idle = chosen := by
      rcases List.mem_append.mp state.idleListed with survivor | isFirst
      · have sleeping := asleep idle survivor
        rw [awake_at_of_found idleFound, kept.awake] at sleeping
        exact absurd (decide_eq_false_iff_not.mp sleeping) (by omega)
      · rw [same] at isFirst
        exact List.mem_singleton.mp isFirst
    rw [isChosen, found] at idleFound
    cases idleFound
    exact kept.alive
  · have parted : survivors ++ [first] = (left ++ chosen :: behind) ++ [last] := by
      rw [split, List.concat_eq_append, List.append_assoc, List.cons_append]
    have survivor : chosen ∈ survivors := by
      rw [(List.append_inj' parted rfl).1]
      exact List.mem_append_right _ List.mem_cons_self
    have chosenAlive := alive chosen survivor
    rw [alive_at_of_found found] at chosenAlive
    exact of_decide_eq_true chosenAlive

theorem ring_state_advance {nodes : Store Nat Nat} {procs : Nat → Option Process}
    {reaped : List Nat} (state : RingState nodes procs reaped idle created (first :: rest)) :
    RingState nodes procs reaped idle created (rest ++ [first]) := by
  cases rest with
  | nil => exact state
  | cons entry others =>
    have parted : RingState nodes procs reaped idle created ([first] ++ entry :: others) := state
    exact parted.rotate (List.cons_ne_nil _ _)

theorem choice_of_reaped {middle : System} {left right : List (Nat × Nat)} {chosen : Nat × Nat}
    (reaped : Reaped idle created (first :: rest.filter (aliveAt system.procs))
      { system with cpu := { system.cpu with interrupts := intDisable system.cpu.interrupts } } middle)
    (split : rest.filter (aliveAt system.procs) ++ [first] = left ++ chosen :: right)
    (asleep : ∀ entry ∈ left, awakeAt middle.procs system.ticks entry = false)
    (awake : awakeAt middle.procs system.ticks chosen = true) :
    ∃ prev curr, Choice idle created first chosen rest (right ++ left) prev curr system
      { middle with head := chosen.1 } := by
  have queue := ring_state_advance reaped.state
  have whole := queue
  rw [split] at whole
  have turned := whole.rotate (List.cons_ne_nil _ _)
  rw [List.cons_append] at turned
  have members : ∀ entry, entry ∈ chosen :: (right ++ left) ↔
      entry = first ∨ entry ∈ rest ∧ aliveAt system.procs entry = true := by
    intro entry
    have same : entry ∈ chosen :: (right ++ left) ↔
        entry ∈ rest.filter (aliveAt system.procs) ++ [first] := by
      rw [split]
      simp only [List.mem_cons, List.mem_append]
      tauto
    rw [same, List.mem_append, List.mem_singleton, List.mem_filter]
    exact or_comm
  have kept : ∀ entry ∈ chosen :: (right ++ left), middle.procs entry.2 = system.procs entry.2 := by
    intro entry member
    apply reaped.kept entry
    rcases (members entry).mp member with rfl | survivor
    · exact List.mem_cons_self
    · exact List.mem_cons_of_mem _ (List.mem_filter.mpr survivor)
  obtain ⟨prev, prevFound, -⟩ := turned.listed first ((members first).mpr (Or.inl rfl))
  obtain ⟨curr, currFound, -⟩ := turned.listed chosen List.mem_cons_self
  have stillAlive : ∀ entry ∈ rest.filter (aliveAt system.procs), aliveAt middle.procs entry = true := by
    intro entry survivor
    rw [alive_at_congr (reaped.kept entry (List.mem_cons_of_mem _ survivor))]
    exact (List.mem_filter.mp survivor).2
  have order : ∃ left right, rest.filter (aliveAt system.procs) ++ [first] = left ++ chosen :: right ∧
      ∀ entry ∈ left, awakeAt system.procs system.ticks entry = false := by
    refine ⟨left, right, split, fun entry member => ?_⟩
    have sleeping := asleep entry member
    rwa [awakeAt, kept entry (by simp [member]), ← awakeAt] at sleeping
  refine ⟨prev, curr, ?_, turned, kept, members, order, ?_, ?_, ?_, ?_⟩
  · rw [reaped.same]
  · rw [← kept first ((members first).mpr (Or.inl rfl))]
    exact prevFound
  · rw [← kept chosen List.mem_cons_self]
    exact currFound
  · exact chosen_alive queue stillAlive split asleep currFound
  · rw [awake_at_of_found currFound, decide_eq_true_eq] at awake
    exact awake

theorem Choice.id_eq_iff {middle : System} {chosen : Nat × Nat} {others : List (Nat × Nat)}
    {prev curr : Process}
    (choice : Choice idle created first chosen rest others prev curr system middle) :
    curr.id = prev.id ↔ chosen = first := by
  have firstMember := (choice.members first).mpr (Or.inl rfl)
  have prevId : idAt middle.procs first = prev.id := by
    rw [idAt, choice.kept first firstMember, choice.prevFound]
  have currId : idAt middle.procs chosen = curr.id := by
    rw [idAt, choice.kept chosen List.mem_cons_self, choice.currFound]
  constructor
  · intro same
    apply choice.state.id_injective List.mem_cons_self firstMember
    rw [currId, prevId, same]
  · rintro rfl
    exact currId.symm.trans prevId

/-- `process_schedule` always returns, to the caller or into another process. The entries it
has passed over are asleep and come last in the new ring. -/
theorem ends_processSchedule_turn (caller : Context)
    (state : RingState system.nodes system.procs system.reaped idle created (first :: rest))
    (head : system.head = first.1) (goes : system.shouldSchedule = true) (few : created ≤ ringBound) :
    Ends (processSchedule caller)
      (fun _ after => ∃ chosen left right prev curr middle,
        rest.filter (aliveAt system.procs) ++ [first] = left ++ chosen :: right ∧
          (∀ entry ∈ left, awakeAt system.procs system.ticks entry = false) ∧
          Choice idle created first chosen rest (right ++ left) prev curr system middle ∧
          after = scheduled middle first chosen prev curr caller)
      (fun _ _ => False) system := by
  let off : System :=
    { system with cpu := { system.cpu with interrupts := intDisable system.cpu.interrupts } }
  have offState : RingState off.nodes off.procs off.reaped idle created (first :: rest) := state
  have offHead : off.head = first.1 := head
  have offGoes : off.shouldSchedule = true := goes
  rw [processSchedule, ends_bind, ends_setInterrupts, ends_bind,
    ends_canSchedule offState offHead offGoes, ends_ite, if_pos rfl, ends_bind]
  apply ends_mono (ends_processReap offState offHead few) _ fun _ _ => id
  intro _ middle reaped
  have middleHead : middle.head = first.1 := by
    rw [reaped.same]
    exact head
  have middleTicks : middle.ticks = system.ticks := by rw [reaped.same]
  have node : middle.nodes middle.head =
      some ⟨first.2, firstOf (rest.filter (aliveAt system.procs)) first.1⟩ := by
    rw [middleHead]
    exact (reaped.state.ring.linked 0).1
  let moved : System :=
    { middle with head := firstOf (rest.filter (aliveAt system.procs)) first.1 }
  have order : RingState moved.nodes moved.procs moved.reaped idle created
      (rest.filter (aliveAt system.procs) ++ [first]) := ring_state_advance reaped.state
  have movedHead : moved.head = firstOf (rest.filter (aliveAt system.procs) ++ [first]) 0 := by
    rw [first_of_append]
    rfl
  obtain ⟨left, chosen, right, split, awake, asleep⟩ := exists_choice order moved.ticks
  rw [split] at order movedHead
  have movedNonzero : moved.head ≠ 0 := by
    rw [movedHead]
    cases left with
    | nil => exact order.nonzero chosen List.mem_cons_self
    | cons entry others => exact order.nonzero entry List.mem_cons_self
  have enough : left.length < ringBound := by
    have short := order.length_le
    rw [List.length_append, List.length_cons] at short
    omega
  have skips := ends_skipSleeping ringBound order movedHead asleep awake enough
  have asleepBefore : ∀ entry ∈ left, awakeAt middle.procs system.ticks entry = false :=
    middleTicks ▸ asleep
  have awakeBefore : awakeAt middle.procs system.ticks chosen = true := middleTicks ▸ awake
  obtain ⟨prev, curr, choice⟩ := choice_of_reaped reaped split asleepBefore awakeBefore
  let last : System := { middle with head := chosen.1 }
  have firstFound : last.procs first.2 = some prev :=
    (choice.kept first ((choice.members first).mpr (Or.inl rfl))).trans choice.prevFound
  have chosenFound : last.procs chosen.2 = some curr :=
    (choice.kept chosen List.mem_cons_self).trans choice.currFound
  have chosenNode : last.nodes last.head = some ⟨chosen.2, firstOf (right ++ left) chosen.1⟩ :=
    (choice.state.ring.linked 0).1
  rw [ends_bind, ends_get, ends_bind, ends_getNode node, ends_bind, ends_modify, ends_bind, ends_get,
    ends_bind, ends_ensure, if_pos movedNonzero, ends_bind]
  apply ends_mono skips _ fun _ _ => id
  rintro _ _ rfl
  have ids := choice.id_eq_iff
  have passed : ∀ entry ∈ left, awakeAt system.procs system.ticks entry = false := by
    intro entry member
    have sleeping := asleepBefore entry member
    rwa [awakeAt, choice.kept entry (by simp [member]), ← awakeAt] at sleeping
  rw [ends_bind, ends_get, ends_bind, ends_getNode chosenNode, ends_bind, ends_getProcess chosenFound,
    ends_bind, ends_getProcess firstFound, ends_ite]
  by_cases stays : chosen = first
  · rw [if_pos (ids.mpr stays), ends_comeBack]
    exact ⟨chosen, left, right, prev, curr, _, split, passed, choice, (if_pos stays).symm⟩
  · have different : chosen.2 ≠ first.2 := fun same => stays (choice.state.entry_eq
      List.mem_cons_self ((choice.members first).mpr (Or.inl rfl)) same)
    obtain ⟨found, foundCurr, runnable⟩ := choice.state.listed chosen List.mem_cons_self
    rw [chosenFound] at foundCurr
    cases foundCurr
    rw [if_neg (fun same => stays (ids.mp same)),
      ends_switchTo caller firstFound chosenFound different runnable]
    exact ⟨chosen, left, right, prev, curr, _, split, passed, choice, (if_neg stays).symm⟩

theorem ends_processSchedule (caller : Context)
    (state : RingState system.nodes system.procs system.reaped idle created (first :: rest))
    (head : system.head = first.1) (goes : system.shouldSchedule = true) (few : created ≤ ringBound) :
    Ends (processSchedule caller)
      (fun _ after => ∃ chosen others prev curr middle,
        Choice idle created first chosen rest others prev curr system middle ∧
          after = scheduled middle first chosen prev curr caller)
      (fun _ _ => False) system := by
  apply ends_mono (ends_processSchedule_turn caller state head goes few) _ fun _ _ => id
  rintro _ _ ⟨chosen, left, right, prev, curr, middle, -, -, choice, rfl⟩
  exact ⟨chosen, right ++ left, prev, curr, middle, choice, rfl⟩

section After

variable {chosen : Nat × Nat} {others : List (Nat × Nat)} {prev curr : Process} {middle : System}

section

variable (choice : Choice idle created first chosen rest others prev curr system middle)
  (caller : Context)

include choice caller

theorem Choice.after_state :
    RingState (scheduled middle first chosen prev curr caller).nodes
      (scheduled middle first chosen prev curr caller).procs
      (scheduled middle first chosen prev curr caller).reaped idle created (chosen :: others) := by
  unfold scheduled
  split
  · exact choice.state
  · have firstMember := (choice.members first).mpr (Or.inl rfl)
    have found : middle.procs first.2 = some prev :=
      (choice.kept first firstMember).trans choice.prevFound
    obtain ⟨process, sameFound, runnable⟩ := choice.state.listed first firstMember
    rw [found] at sameFound
    cases sameFound
    have parkedRunnable : Runnable (parked prev middle.cpu caller) :=
      ⟨runnable.pagemap, runnable.stackTop⟩
    have parkedIdle : first.2 = idle.2 → Idle (parked prev middle.cpu caller) := by
      intro isIdle
      have kept := choice.state.idleKept prev (isIdle ▸ found)
      exact ⟨kept.alive, kept.awake⟩
    exact choice.state.set_process found rfl parkedRunnable parkedIdle

theorem Choice.after_rest :
    (scheduled middle first chosen prev curr caller).head = chosen.1 ∧
      (scheduled middle first chosen prev curr caller).shouldSchedule = system.shouldSchedule ∧
      (scheduled middle first chosen prev curr caller).nextPid = system.nextPid ∧
      (scheduled middle first chosen prev curr caller).ticks = system.ticks ∧
      (scheduled middle first chosen prev curr caller).kernelPagemap = system.kernelPagemap := by
  unfold scheduled
  split <;> rw [choice.same] <;> exact ⟨rfl, rfl, rfl, rfl, rfl⟩

theorem Choice.after_found :
    (scheduled middle first chosen prev curr caller).procs chosen.2 = some curr := by
  have found : middle.procs chosen.2 = some curr :=
    (choice.kept chosen List.mem_cons_self).trans choice.currFound
  unfold scheduled
  split
  · exact found
  · next stays =>
      have different : chosen.2 ≠ first.2 := fun same => stays (choice.state.entry_eq
        List.mem_cons_self ((choice.members first).mpr (Or.inl rfl)) same)
      exact (Function.update_of_ne different _ _).trans found

theorem Choice.after_waiting {entry : Nat × Nat} (member : entry ∈ others) :
    entry = first ∧ chosen ≠ first ∧
        (scheduled middle first chosen prev curr caller).procs entry.2 =
          some (parked prev system.cpu caller) ∨
      entry ∈ rest ∧ entry.2 ≠ first.2 ∧
        (scheduled middle first chosen prev curr caller).procs entry.2 = system.procs entry.2 := by
  have listed : entry ∈ chosen :: others := List.mem_cons_of_mem _ member
  have notChosen : entry ≠ chosen := by
    have distinct := choice.state.distinct
    rw [List.map_cons, List.nodup_cons] at distinct
    exact fun same => distinct.1 (same ▸ List.mem_map_of_mem member)
  by_cases old : entry = first
  · have moved : chosen ≠ first := fun same => notChosen (old.trans same.symm)
    refine Or.inl ⟨old, moved, ?_⟩
    rw [scheduled, if_neg moved, old, choice.same]
    exact Function.update_self _ _ _
  · have different : entry.2 ≠ first.2 := fun same => old (choice.state.entry_eq listed
      ((choice.members first).mpr (Or.inl rfl)) same)
    rcases (choice.members entry).mp listed with same | survivor
    · exact absurd same old
    · refine Or.inr ⟨survivor.1, different, ?_⟩
      rw [← choice.kept entry listed]
      unfold scheduled
      split
      · rfl
      · exact Function.update_of_ne different _ _

theorem Choice.after_stay (stays : chosen = first) :
    (scheduled middle first chosen prev curr caller).running = .returned caller ∧
      (scheduled middle first chosen prev curr caller).cpu =
        { system.cpu with interrupts := intResume (intDisable system.cpu.interrupts) } := by
  rw [scheduled, if_pos stays, choice.same]
  exact ⟨rfl, rfl⟩

theorem Choice.after_switch (moved : chosen ≠ first) :
    (scheduled middle first chosen prev curr caller).running = .returned curr.krsp ∧
      (scheduled middle first chosen prev curr caller).cpu =
        { switchedCpu system.cpu curr chosen.2 with
          interrupts := intResume (intDisable system.cpu.interrupts) } := by
  rw [scheduled, if_neg moved, choice.same]
  exact ⟨rfl, rfl⟩

end

end After

end Scheduling

end RiriaKernel.ProcessScheduling
