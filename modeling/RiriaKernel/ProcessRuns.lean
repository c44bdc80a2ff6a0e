import RiriaKernel.ProcessScheduling

/-!
# Runs of the scheduler

Any number of processes is created, sleeps, exits and is scheduled, in any order. In every
state the nodes form one ring with every process that has not been reaped, and the next
call of the scheduler comes to an end in a process that is alive and awake.
-/

namespace RiriaKernel.ProcessRuns

open HaltingPrograms CircularLists KernelState Processes ProcessRings ProcessScheduling

/-! ## The invariant of a run -/

structure SystemSound (system : System) (idle : Nat × Nat) (created : Nat)
    (entries : List (Nat × Nat)) : Prop where
  state : RingState system.nodes system.procs system.reaped idle created entries
  head : system.head = firstOf entries 0
  goes : system.shouldSchedule = true
  pids : system.nextPid = created
  few : created < 2 ^ 32
  kernel : system.kernelPagemap ≠ 0

section Steps

variable {system : System} {idle first chosen : Nat × Nat} {created : Nat}
  {entries rest others : List (Nat × Nat)} {prev curr : Process} {middle : System}

theorem SystemSound.cons (sound : SystemSound system idle created entries) :
    ∃ first rest, entries = first :: rest ∧ system.head = first.1 := by
  obtain ⟨first, rest, rfl⟩ := List.exists_cons_of_ne_nil sound.state.ring.nonempty
  exact ⟨first, rest, rfl, sound.head⟩

theorem SystemSound.head_node (sound : SystemSound system idle created (first :: rest)) :
    system.head = first.1 ∧ system.head ≠ 0 ∧
      system.nodes system.head = some ⟨first.2, firstOf rest first.1⟩ := by
  have headEq : system.head = first.1 := sound.head
  rw [headEq]
  exact ⟨rfl, sound.state.nonzero first List.mem_cons_self, (sound.state.ring.linked 0).1⟩

theorem after_sound (choice : Choice idle created first chosen rest others prev curr system
    middle) (caller : Context) (sound : SystemSound system idle created (first :: rest)) :
    SystemSound (scheduled middle first chosen prev curr caller) idle created (chosen :: others) := by
  obtain ⟨head, goes, pids, -, kernel⟩ := choice.after_rest caller
  refine ⟨choice.after_state caller, head, ?_, ?_, sound.few, ?_⟩
  · rw [goes]
    exact sound.goes
  · rw [pids]
    exact sound.pids
  · rw [kernel]
    exact sound.kernel

theorem SystemSound.schedule (sound : SystemSound system idle created (first :: rest))
    (caller : Context) :
    Ends (processSchedule caller)
      (fun _ after => ∃ chosen others prev curr middle,
        Choice idle created first chosen rest others prev curr system middle ∧
          after = scheduled middle first chosen prev curr caller)
      (fun _ _ => False) system :=
  ends_processSchedule caller sound.state sound.head sound.goes (Nat.le_of_lt sound.few)

/-- A process is added, and nothing else changes but the links of the ring. -/
def Added (address : Nat) (process : Process) (before after : System) : Prop :=
  after =
    { before with
      nodes := after.nodes
      procs := Function.update before.procs address (some process)
      nextPid := (before.nextPid + 1) % 2 ^ 32
      shouldSchedule := true }

/-- What `malloc` returns for a node, a process and a stack. -/
structure Fresh (system : System) (node address stackTop : Nat) : Prop where
  freshNode : system.nodes node = none
  nonzero : node ≠ 0
  freshProcess : system.procs address = none
  stack : stackTop ≠ 0

section

variable (sound : SystemSound system idle created (first :: rest))

include sound

theorem ends_addProcess {node address stackTop pagemap : Nat}
    (fresh : Fresh system node address stackTop) (few : created + 1 < 2 ^ 32) (mapped : pagemap ≠ 0)
    (type : ProcessType) (krsp : Context) {stopped : Fault → System → Prop} :
    Ends (addProcess node address type stackTop pagemap krsp)
      (fun _ after => SystemSound after idle (created + 1) (first :: (node, address) :: rest) ∧
        Added address (newProcess system.nextPid type stackTop pagemap krsp) system after)
      stopped system := by
  obtain ⟨headEq, headNonzero, headNode⟩ := sound.head_node
  let filled : System :=
    { system with
      procs := Function.update system.procs address
        (some (newProcess system.nextPid type stackTop pagemap krsp))
      nextPid := (system.nextPid + 1) % 2 ^ 32 }
  have filledNonzero : filled.head ≠ 0 := headNonzero
  have filledNode : filled.nodes filled.head = some ⟨first.2, firstOf rest first.1⟩ := headNode
  have id : (newProcess system.nextPid type stackTop pagemap krsp).id = created := sound.pids
  have grown := sound.state.push fresh.freshNode fresh.nonzero fresh.freshProcess id
    ⟨mapped, fresh.stack⟩ 0
  rw [addProcess, ends_bind, ends_get, ends_bind, ends_set, processPush, ends_bind, ends_get, ends_ite,
    if_neg filledNonzero, ends_bind, ends_getNode filledNode, ends_set]
  refine ⟨⟨?_, sound.head, rfl, ?_, few, sound.kernel⟩, rfl⟩
  · rw [headEq]
    exact grown
  · have pids := sound.pids
    change (system.nextPid + 1) % 2 ^ 32 = created + 1
    rw [pids]
    exact Nat.mod_eq_of_lt few

theorem SystemSound.set_current {old : Process} (found : system.procs first.2 = some old)
    (new : Process) (sameId : new.id = old.id) (samePagemap : new.pagemap = old.pagemap)
    (sameStack : new.stackTop = old.stackTop) (idleKept : first = idle → Idle new) :
    SystemSound { system with procs := Function.update system.procs first.2 (some new) } idle created
      (first :: rest) := by
  obtain ⟨process, sameFound, runnable⟩ := sound.state.listed first List.mem_cons_self
  rw [found] at sameFound
  cases sameFound
  have stillRunnable : Runnable new :=
    ⟨samePagemap ▸ runnable.pagemap, sameStack ▸ runnable.stackTop⟩
  refine ⟨sound.state.set_process found sameId stillRunnable ?_, sound.head, sound.goes, sound.pids,
    sound.few, sound.kernel⟩
  exact fun same => idleKept (sound.state.entry_eq List.mem_cons_self sound.state.idleListed same)

theorem ends_processGetCurrent {returned : Nat → System → Prop} {stopped : Fault → System → Prop} :
    Ends processGetCurrent returned stopped system = returned first.2 system := by
  obtain ⟨-, headNonzero, headNode⟩ := sound.head_node
  rw [processGetCurrent, ends_bind, ends_get, ends_bind, ends_ensure, if_pos headNonzero, ends_bind,
    ends_getNode headNode, ends_pure]

end

structure Progress (idle : Nat × Nat) (created : Nat) (before after : System) : Prop where
  sound : ∃ entries, SystemSound after idle created entries
  nodeKept : after.nodes before.head ≠ none
  processKept : ∀ node, before.nodes before.head = some node → after.procs node.payload ≠ none
  onlyDead : ∀ address process, before.procs address = some process → after.procs address = none →
    process.state = .dead
  current : ∃ node process, after.nodes after.head = some node ∧
    after.procs node.payload = some process ∧ process.state ≠ .dead ∧ process.wakeAt ≤ after.ticks

theorem progress_of_choice (sound : SystemSound system idle created (first :: rest))
    (choice : Choice idle created first chosen rest others prev curr system middle)
    (caller : Context) :
    Progress idle created system (scheduled middle first chosen prev curr caller) := by
  have afterSound := after_sound choice caller sound
  have firstMember := (choice.members first).mpr (Or.inl rfl)
  obtain ⟨headEq, -, headNode⟩ := sound.head_node
  have survives : ∀ entry ∈ chosen :: others,
      (scheduled middle first chosen prev curr caller).procs entry.2 ≠ none := by
    intro entry member gone
    obtain ⟨process, found, -⟩ := afterSound.state.listed entry member
    rw [gone] at found
    cases found
  refine ⟨⟨_, afterSound⟩, ?_, ?_, ?_, ?_⟩
  · obtain ⟨front, back, split⟩ := List.append_of_mem firstMember
    have ring := afterSound.state.ring
    rw [split] at ring
    rw [headEq, ring.next 0]
    exact Option.some_ne_none _
  · intro node found
    rw [headNode] at found
    cases found
    exact survives first firstMember
  · intro address process found gone
    obtain ⟨entry, member, rfl⟩ := List.mem_map.mp (sound.state.procsListed address process found)
    by_contra alive
    apply survives entry _ gone
    rw [choice.members]
    rcases List.mem_cons.mp member with same | inRest
    · exact Or.inl same
    · refine Or.inr ⟨inRest, ?_⟩
      rw [alive_at_of_found found]
      exact decide_eq_true alive
  · obtain ⟨-, -, chosenNode⟩ := afterSound.head_node
    refine ⟨_, curr, chosenNode, choice.after_found caller, choice.alive, ?_⟩
    rw [(choice.after_rest caller).2.2.2.1]
    exact choice.awake

theorem ends_schedule_progress (sound : SystemSound system idle created entries) (caller : Context) :
    Ends (processSchedule caller) (fun _ after => Progress idle created system after)
      (fun _ _ => False) system := by
  obtain ⟨first, rest, rfl, -⟩ := sound.cons
  apply ends_mono (sound.schedule caller) _ fun _ _ => id
  rintro _ _ ⟨chosen, others, prev, curr, middle, choice, rfl⟩
  exact progress_of_choice sound choice caller

section

variable (sound : SystemSound system idle created (first :: rest))

include sound

theorem Progress.of_changed {new : Process} {after : System}
    (progress : Progress idle created
      { system with procs := Function.update system.procs first.2 (some new) } after) :
    Progress idle created system after := by
  obtain ⟨-, -, headNode⟩ := sound.head_node
  refine ⟨progress.sound, progress.nodeKept, progress.processKept, ?_, progress.current⟩
  intro address process found gone
  by_cases own : address = first.2
  · exact absurd (own ▸ gone) (progress.processKept _ headNode)
  · exact progress.onlyDead address process ((Function.update_of_ne own _ _).trans found) gone

theorem ends_markAsleep {returned : PUnit → System → Prop} {stopped : Fault → System → Prop}
    {process : Process} (found : system.procs first.2 = some process) (ms : Nat) :
    Ends (markAsleep ms) returned stopped system =
      returned ⟨⟩ { system with
        procs := Function.update system.procs first.2
          (some { process with wakeAt := add64 system.ticks ms }) } := by
  rw [markAsleep, ends_bind, ends_processGetCurrent sound, ends_bind, ends_getProcess found, ends_bind,
    ends_get, ends_setProcess]

theorem ends_markDead {returned : PUnit → System → Prop} {stopped : Fault → System → Prop}
    {process : Process} (found : system.procs first.2 = some process) :
    Ends markDead returned stopped system =
      returned ⟨⟩ { system with
        procs := Function.update system.procs first.2 (some { process with state := .dead }) } := by
  rw [markDead, ends_bind, ends_processGetCurrent sound, ends_bind, ends_getProcess found,
    ends_setProcess]

end

theorem ends_processSleep (sound : SystemSound system idle created entries)
    (notIdle : system.head ≠ idle.1) (ms : Nat) (caller : Context) :
    Ends (processSleep ms caller) (fun _ after => Progress idle created system after)
      (fun _ _ => False) system := by
  obtain ⟨first, rest, rfl, headEq⟩ := sound.cons
  obtain ⟨process, found, -⟩ := sound.state.listed first List.mem_cons_self
  have changed := sound.set_current found { process with wakeAt := add64 system.ticks ms } rfl rfl rfl
    fun same => absurd (same ▸ headEq) notIdle
  rw [processSleep, ends_bind, ends_markAsleep sound found]
  apply ends_mono (ends_schedule_progress changed caller) _ fun _ _ => id
  exact fun _ after progress => progress.of_changed sound

theorem ends_processExit (sound : SystemSound system idle created entries)
    (notIdle : system.head ≠ idle.1) (caller : Context) :
    Ends (processExit caller) (fun _ after => Progress idle created system after)
      (fun _ _ => False) system := by
  obtain ⟨first, rest, rfl, headEq⟩ := sound.cons
  obtain ⟨process, found, -⟩ := sound.state.listed first List.mem_cons_self
  have changed := sound.set_current found { process with state := .dead } rfl rfl rfl
    fun same => absurd (same ▸ headEq) notIdle
  rw [processExit, ends_bind, ends_markDead sound found]
  apply ends_mono (ends_schedule_progress changed caller) _ fun _ _ => id
  exact fun _ after progress => progress.of_changed sound

end Steps

/-! ## Runs -/

structure Blank (system : System) : Prop where
  head : system.head = 0
  nodes : system.nodes = fun _ => none
  procs : system.procs = fun _ => none
  nextPid : system.nextPid = 0
  reaped : system.reaped = []
  kernelPagemap : system.kernelPagemap ≠ 0

/-- Runs that start with the idle process alone. `created` counts the processes. -/
inductive ProcessRun : System → Nat × Nat → Nat → Prop where
  | boot {system after : System} {node process stackTop : Nat} (blank : Blank system)
      (fresh : Fresh system node process stackTop)
      (run : processCreate node process stackTop 0 system = .ok ⟨⟩ after) :
      ProcessRun after (node, process) 1
  | create {system after : System} {idle : Nat × Nat} {created node process stackTop pagemap : Nat}
      (prior : ProcessRun system idle created) (fresh : Fresh system node process stackTop)
      (few : created + 1 < 2 ^ 32)
      (run : processCreate node process stackTop pagemap system = .ok ⟨⟩ after) :
      ProcessRun after idle (created + 1)
  | createUser {system after : System} {idle : Nat × Nat}
      {created node process stackTop pagemap : Nat} (prior : ProcessRun system idle created)
      (fresh : Fresh system node process stackTop) (few : created + 1 < 2 ^ 32)
      (run : processCreateUser node process stackTop pagemap system = .ok ⟨⟩ after) :
      ProcessRun after idle (created + 1)
  | sleep {system after : System} {idle : Nat × Nat} {created ms : Nat} {caller : Context}
      (prior : ProcessRun system idle created) (notIdle : system.head ≠ idle.1)
      (run : processSleep ms caller system = .ok ⟨⟩ after) : ProcessRun after idle created
  | exit {system after : System} {idle : Nat × Nat} {created : Nat} {caller : Context}
      (prior : ProcessRun system idle created) (notIdle : system.head ≠ idle.1)
      (run : processExit caller system = .ok ⟨⟩ after) : ProcessRun after idle created
  | schedule {system after : System} {idle : Nat × Nat} {created : Nat} {caller : Context}
      (prior : ProcessRun system idle created)
      (run : processSchedule caller system = .ok ⟨⟩ after) : ProcessRun after idle created
  | advance {system : System} {idle : Nat × Nat} {created ticks : Nat}
      (prior : ProcessRun system idle created) (later : system.ticks ≤ ticks) :
      ProcessRun { system with ticks } idle created

section Runs

variable {system after : System} {idle : Nat × Nat} {created : Nat}

theorem ring_state_single {node address : Nat} {process : Process} (nonzero : node ≠ 0)
    (first : process.id = 0) (runnable : Runnable process) (idles : Idle process) :
    RingState (Function.update (fun _ => none) node (some ⟨address, node⟩))
      (Function.update (fun _ => none) address (some process)) [] (node, address) 1
      [(node, address)] where
  ring := ⟨List.cons_ne_nil _ _, List.nodup_singleton _, fun _ => ⟨Function.update_self _ _ _, trivial⟩⟩
  nonzero := by
    intro entry member
    rw [List.mem_singleton.mp member]
    exact nonzero
  nodesListed := by
    intro other found otherFound
    by_cases same : other = node
    · exact List.mem_singleton.mpr same
    · rw [Function.update_of_ne same] at otherFound
      cases otherFound
  distinct := List.nodup_singleton _
  listed := by
    intro entry member
    rw [List.mem_singleton.mp member]
    exact ⟨process, Function.update_self _ _ _, runnable⟩
  procsListed := by
    intro other found otherFound
    by_cases same : other = address
    · exact List.mem_singleton.mpr same
    · rw [Function.update_of_ne same] at otherFound
      cases otherFound
  idleListed := List.mem_singleton.mpr rfl
  idleKept := by
    intro found foundEq
    rw [Function.update_self] at foundEq
    cases foundEq
    exact idles
  ids := by
    have id : idAt (Function.update (fun _ => none) address (some process)) (node, address) = 0 := by
      rw [idAt, Function.update_self]
      exact first
    rw [List.map_singleton, id]
    rfl

structure Booted (node process stackTop : Nat) (before after : System) : Prop where
  sound : SystemSound after (node, process) 1 [(node, process)]
  found : after.procs process =
    some (newProcess before.nextPid .kernel stackTop before.kernelPagemap .kernelEntry)
  cpu : after.cpu = before.cpu
  running : after.running = before.running

theorem boot_sound {node process stackTop : Nat} (blank : Blank system)
    (fresh : Fresh system node process stackTop)
    (run : processCreate node process stackTop 0 system = .ok ⟨⟩ after) :
    Booted node process stackTop system after := by
  have creates : Ends (processCreate node process stackTop 0)
      (fun _ after => Booted node process stackTop system after) (fun _ _ => True) system := by
    let filled : System :=
      { system with
        procs := Function.update system.procs process
          (some (newProcess system.nextPid .kernel stackTop system.kernelPagemap .kernelEntry))
        nextPid := (system.nextPid + 1) % 2 ^ 32 }
    have empty : filled.head = 0 := blank.head
    rw [processCreate, ends_bind, ends_get, if_pos rfl, addProcess, ends_bind, ends_get, ends_bind,
      ends_set, processPush, ends_bind, ends_get, ends_ite, if_pos empty, ends_set]
    have alive : ProcessState.ready ≠ .dead := by decide
    refine ⟨⟨?_, rfl, rfl, ?_, by decide, blank.kernelPagemap⟩, Function.update_self _ _ _, rfl, rfl⟩
    · rw [show filled.nodes = fun _ => none from blank.nodes,
        show filled.reaped = [] from blank.reaped]
      change RingState _ (Function.update system.procs process _) _ _ _ _
      rw [blank.procs]
      exact ring_state_single fresh.nonzero blank.nextPid ⟨blank.kernelPagemap, fresh.stack⟩
        ⟨alive, rfl⟩
    · change (system.nextPid + 1) % 2 ^ 32 = 1
      rw [blank.nextPid]
      rfl
  exact creates.returns run

theorem create_sound {node process stackTop pagemap : Nat} {first : Nat × Nat}
    {rest : List (Nat × Nat)} (sound : SystemSound system idle created (first :: rest))
    (fresh : Fresh system node process stackTop) (few : created + 1 < 2 ^ 32)
    (run : processCreate node process stackTop pagemap system = .ok ⟨⟩ after) :
    SystemSound after idle (created + 1) (first :: (node, process) :: rest) ∧
      ∃ mapped, Added process (newProcess system.nextPid .kernel stackTop mapped .kernelEntry) system
        after := by
  have mapped : (if pagemap = 0 then system.kernelPagemap else pagemap) ≠ 0 := by
    split
    · exact sound.kernel
    · assumption
  have creates : Ends (processCreate node process stackTop pagemap)
      (fun _ after => SystemSound after idle (created + 1) (first :: (node, process) :: rest) ∧
        ∃ mapped, Added process (newProcess system.nextPid .kernel stackTop mapped .kernelEntry)
          system after) (fun _ _ => True) system := by
    rw [processCreate, ends_bind, ends_get]
    exact ends_mono (ends_addProcess sound fresh few mapped .kernel .kernelEntry)
      (fun _ _ added => ⟨added.1, _, added.2⟩) fun _ _ => id
  exact creates.returns run

theorem create_user_sound {node process stackTop pagemap : Nat} {first : Nat × Nat}
    {rest : List (Nat × Nat)} (sound : SystemSound system idle created (first :: rest))
    (fresh : Fresh system node process stackTop) (few : created + 1 < 2 ^ 32)
    (run : processCreateUser node process stackTop pagemap system = .ok ⟨⟩ after) :
    SystemSound after idle (created + 1) (first :: (node, process) :: rest) ∧
      Added process (newProcess system.nextPid .user stackTop pagemap .userEntry) system after := by
  have creates : Ends (processCreateUser node process stackTop pagemap)
      (fun _ after => SystemSound after idle (created + 1) (first :: (node, process) :: rest) ∧
        Added process (newProcess system.nextPid .user stackTop pagemap .userEntry) system after)
      (fun _ _ => True) system := by
    rw [processCreateUser, ends_bind, ends_ensure]
    split
    · next mapped => exact ends_addProcess sound fresh few mapped .user .userEntry
    · trivial
  exact creates.returns run

theorem sound_of_run (run : ProcessRun system idle created) :
    ∃ entries, SystemSound system idle created entries := by
  induction run with
  | boot blank fresh run => exact ⟨_, (boot_sound blank fresh run).sound⟩
  | create _ fresh few run induction =>
    obtain ⟨entries, sound⟩ := induction
    obtain ⟨first, rest, rfl, -⟩ := sound.cons
    exact ⟨_, (create_sound sound fresh few run).1⟩
  | createUser _ fresh few run induction =>
    obtain ⟨entries, sound⟩ := induction
    obtain ⟨first, rest, rfl, -⟩ := sound.cons
    exact ⟨_, (create_user_sound sound fresh few run).1⟩
  | sleep _ notIdle run induction =>
    obtain ⟨entries, sound⟩ := induction
    exact ((ends_processSleep sound notIdle _ _).returns run).sound
  | exit _ notIdle run induction =>
    obtain ⟨entries, sound⟩ := induction
    exact ((ends_processExit sound notIdle _).returns run).sound
  | schedule _ run induction =>
    obtain ⟨entries, sound⟩ := induction
    exact ((ends_schedule_progress sound _).returns run).sound
  | advance _ _ induction =>
    obtain ⟨entries, sound⟩ := induction
    exact ⟨entries, sound.state, sound.head, sound.goes, sound.pids, sound.few, sound.kernel⟩

end Runs

/-- In every state of every run the nodes that have not been freed form one ring that
starts at `process_head`; the ids in the ring and the reaped ones are the ids given out,
each once; and the next call of the scheduler, directly or from `process_sleep` or
`process_exit`, comes to an end without freeing the process it is called in or one that is
not dead, in a process that is alive and awake. -/
theorem scheduler_ring_sound {system : System} {idle : Nat × Nat} {created : Nat}
    (run : ProcessRun system idle created) :
    (∃ entries, Ring system.nodes entries ∧ system.head = firstOf entries 0 ∧
      (∀ address, system.nodes address ≠ none ↔ address ∈ entries.map Prod.fst) ∧
      (∀ entry ∈ entries, system.procs entry.2 ≠ none) ∧
      (entries.map (idAt system.procs) ++ system.reaped).Perm (List.range created)) ∧
    (∀ caller, ∃ after, processSchedule caller system = .ok ⟨⟩ after ∧
      Progress idle created system after) ∧
    (system.head ≠ idle.1 → ∀ ms caller, ∃ after, processSleep ms caller system = .ok ⟨⟩ after ∧
      Progress idle created system after) ∧
    (system.head ≠ idle.1 → ∀ caller, ∃ after, processExit caller system = .ok ⟨⟩ after ∧
      Progress idle created system after) := by
  obtain ⟨entries, sound⟩ := sound_of_run run
  refine ⟨⟨entries, sound.state.ring, sound.head, ?_, ?_, sound.state.ids⟩, ?_, ?_, ?_⟩
  · intro address
    constructor
    · intro present
      obtain ⟨node, found⟩ := Option.ne_none_iff_exists'.mp present
      exact sound.state.nodesListed address node found
    · intro member
      obtain ⟨entry, entryMember, rfl⟩ := List.mem_map.mp member
      obtain ⟨front, back, rfl⟩ := List.append_of_mem entryMember
      rw [sound.state.ring.next 0]
      exact Option.some_ne_none _
  · intro entry member gone
    obtain ⟨process, found, -⟩ := sound.state.listed entry member
    rw [gone] at found
    cases found
  · intro caller
    obtain ⟨_, after, ran, progress⟩ := (ends_schedule_progress sound caller).exists_ok
    exact ⟨after, ran, progress⟩
  · intro notIdle ms caller
    obtain ⟨_, after, ran, progress⟩ := (ends_processSleep sound notIdle ms caller).exists_ok
    exact ⟨after, ran, progress⟩
  · intro notIdle caller
    obtain ⟨_, after, ran, progress⟩ := (ends_processExit sound notIdle caller).exists_ok
    exact ⟨after, ran, progress⟩

def blankSystem : System where
  head := 0
  nodes := fun _ => none
  procs := fun _ => none
  nextPid := 0
  shouldSchedule := false
  ticks := 0
  reaped := []
  kernelPagemap := 0x1000
  cpu :=
    { interrupts := { syncDepth := 0, syncWasEnabled := true, enabled := true }
      fsBase := 0
      gsBase := 0
      kernelGsBase := 0
      fpu := fun _ => 0
      pagemap := 0x1000
      rsp0 := 0 }
  running := .kernel

theorem blank_system_blank : Blank blankSystem := ⟨rfl, rfl, rfl, rfl, rfl, by decide⟩

def systemAfter (result : EStateM.Result Fault System PUnit) : System :=
  match result with
  | .ok _ system => system
  | .error _ system => system

def idleSystem : System := systemAfter (processCreate 16 32 64 0 blankSystem)

/-- Two processes are created beside the idle one; the second falls asleep and the first exits. -/
def crowdedSteps : List (Sched PUnit) :=
  [processCreate 48 80 64 0, processCreate 112 144 64 0, processSchedule (.timer false),
    processSleep 5 (.call true), processExit (.exit false)]

def crowdedSystem (steps : Nat) : System :=
  (crowdedSteps.take steps).foldl (fun system step => systemAfter (step system)) idleSystem

theorem crowded_run : ProcessRun (crowdedSystem 5) (16, 32) 3 := by
  have fresh : Fresh blankSystem 16 32 64 := ⟨rfl, by decide, rfl, by decide⟩
  have boot : ProcessRun idleSystem (16, 32) 1 := .boot blank_system_blank fresh rfl
  have freshFirst : Fresh idleSystem 48 80 64 := ⟨rfl, by decide, rfl, by decide⟩
  have first : ProcessRun (crowdedSystem 1) (16, 32) 2 :=
    .create boot freshFirst (by decide) (show processCreate 48 80 64 0 _ = _ from rfl)
  have freshSecond : Fresh (crowdedSystem 1) 112 144 64 := ⟨rfl, by decide, rfl, by decide⟩
  have second : ProcessRun (crowdedSystem 2) (16, 32) 3 :=
    .create first freshSecond (by decide) (show processCreate 112 144 64 0 _ = _ from rfl)
  have turn : ProcessRun (crowdedSystem 3) (16, 32) 3 := .schedule second rfl
  have asleep : ProcessRun (crowdedSystem 4) (16, 32) 3 := .sleep turn (by decide)
    (show processSleep 5 (.call true) _ = _ from rfl)
  exact .exit asleep (by decide) (show processExit (.exit false) _ = _ from rfl)

/-- The sleeper is skipped, the dead process is freed, and the idle process goes on. -/
theorem scheduler_ring_sound_crowded :
    ((crowdedSystem 5).procs 144).map Process.wakeAt = some 5 ∧ (crowdedSystem 5).ticks = 0 ∧
      ((crowdedSystem 5).procs 80).map Process.state = some .dead ∧
      ∃ after, processSchedule (.timer false) (crowdedSystem 5) = .ok ⟨⟩ after ∧
        after.head = 16 ∧ after.reaped = [1] ∧ Progress (16, 32) 3 (crowdedSystem 5) after := by
  obtain ⟨after, ran, progress⟩ := (scheduler_ring_sound crowded_run).2.1 (.timer false)
  have computed : after = systemAfter (processSchedule (.timer false) (crowdedSystem 5)) := by
    rw [ran]
    rfl
  refine ⟨rfl, rfl, rfl, after, ran, ?_, ?_, progress⟩
  · rw [computed]
    rfl
  · rw [computed]
    rfl

end RiriaKernel.ProcessRuns
