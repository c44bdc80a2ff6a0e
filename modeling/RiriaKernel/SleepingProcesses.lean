import RiriaKernel.SchedulerFairness

/-!
# Sleeping processes

Between its call of `process_sleep` and the moment it runs again, nobody changes the `wake_at` of a
process: events concern the process that runs, and a switch saves registers only. The scheduler
passes over it until the tick has come, so a sleep is never cut short.
-/

namespace RiriaKernel.SleepingProcesses

open HaltingPrograms KernelState Processes ProcessScheduling ProcessRuns SchedulerFairness

/-- The process with the id `mine`, if there is one, sleeps until `wake`. -/
def Wakes (mine wake : Nat) (procs : Nat → Option Process) : Prop :=
  ∀ address process, procs address = some process → process.id = mine → process.wakeAt = wake

section Steps

variable {system after : System} {idle : Nat × Nat} {created more mine wake : Nat}
  {entries : List (Nat × Nat)} {caller : Context}

theorem Wakes.update {procs : Nat → Option Process} (wakes : Wakes mine wake procs) {new : Process}
    (same : new.id = mine → new.wakeAt = wake) (address : Nat) :
    Wakes mine wake (Function.update procs address (some new)) := by
  intro place process found isMine
  by_cases here : place = address
  · rw [here, Function.update_self] at found
    cases found
    exact same isMine
  · rw [Function.update_of_ne here] at found
    exact wakes place process found isMine

theorem event_selects (sound : SystemSound system idle created entries)
    (happens : Event idle system created after more) : selectedId after = selectedId system := by
  obtain ⟨changed, afterSound, ids⟩ := (event_stirs sound happens).ring
  obtain ⟨first, rest, rfl, -⟩ := sound.cons
  obtain ⟨head, tail, rfl, -⟩ := afterSound.cons
  rw [selected_id_eq sound, selected_id_eq afterSound]
  rcases ids with same | ⟨current, waiting, old, new⟩
  · exact congrArg some (List.cons.inj same).1
  · exact congrArg some ((List.cons.inj new).1.trans (List.cons.inj old).1.symm)

/-- An event changes the process that runs, or adds one with an id of its own. -/
theorem Wakes.event (sound : SystemSound system idle created entries) (given : mine < created)
    (happens : Event idle system created after more) (away : selectedId system ≠ some mine)
    (wakes : Wakes mine wake system.procs) : Wakes mine wake after.procs := by
  obtain ⟨first, rest, rfl, head⟩ := sound.cons
  obtain ⟨process, found, -⟩ := sound.state.listed first List.mem_cons_self
  have runs : process.id ≠ mine := by
    rw [selected_id_eq sound, id_at_of_found found] at away
    exact fun same => away (congrArg some same)
  have joins : system.nextPid ≠ mine := by
    rw [sound.pids]
    exact Nat.ne_of_gt given
  cases happens with
  | create fresh few run =>
    obtain ⟨-, mapped, added⟩ := create_sound sound fresh few run
    rw [added]
    exact wakes.update (fun same => absurd same joins) _
  | createUser fresh few run =>
    obtain ⟨-, added⟩ := create_user_sound sound fresh few run
    rw [added]
    exact wakes.update (fun same => absurd same joins) _
  | @sleep _ _ ms notIdle run =>
    have marks : Ends (markAsleep ms) (fun _ after => Wakes mine wake after.procs) (fun _ _ => True)
        system := by
      rw [ends_markAsleep sound found]
      refine wakes.update ?_ _
      exact fun same => absurd same runs
    exact marks.returns run
  | exit notIdle run =>
    have marks : Ends markDead (fun _ after => Wakes mine wake after.procs) (fun _ _ => True)
        system := by
      rw [ends_markDead sound found]
      refine wakes.update ?_ _
      exact fun same => absurd same runs
    exact marks.returns run
  | advance later => exact wakes

/-- A call of the scheduler changes nobody's `wake_at`, and chooses a process whose tick has come. -/
theorem Wakes.schedule (sound : SystemSound system idle created entries)
    (run : processSchedule caller system = .ok ⟨⟩ after) (wakes : Wakes mine wake system.procs) :
    Wakes mine wake after.procs ∧ (selectedId after = some mine → wake ≤ system.ticks) := by
  obtain ⟨first, rest, rfl, -⟩ := sound.cons
  obtain ⟨chosen, others, prev, curr, middle, choice, rfl⟩ := (sound.schedule caller).returns run
  refine ⟨?_, ?_⟩
  · intro address process found isMine
    obtain ⟨entry, member, rfl⟩ :=
      List.mem_map.mp ((choice.after_state caller).procsListed address process found)
    rcases List.mem_cons.mp member with rfl | waiting
    · rw [choice.after_found caller] at found
      cases found
      exact wakes _ _ choice.currFound isMine
    · rcases choice.after_waiting caller waiting with ⟨rfl, -, same⟩ | ⟨-, -, same⟩
      · -- the old process waits now, with its registers saved
        rw [same] at found
        cases found
        exact wakes _ prev choice.prevFound isMine
      · exact wakes _ _ (same.symm.trans found) isMine
  · intro selected
    rw [selected_id_eq (after_sound choice caller sound),
      id_at_of_found (choice.after_found caller)] at selected
    exact wakes _ _ choice.currFound (Option.some.inj selected) ▸ choice.awake

/-- The next call that selects the process comes no earlier than its tick. -/
theorem Wakes.run {calls between later : List (System × System)} {final : System × System}
    {last : System} {total : Nat} (run : CallRun idle system created calls last total)
    (whole : calls = between ++ final :: later) (sound : SystemSound system idle created entries)
    (given : mine < created) (away : selectedId system ≠ some mine)
    (alone : ∀ call ∈ between, selectedId call.2 ≠ some mine)
    (wakes : Wakes mine wake system.procs) (woken : selectedId final.2 = some mine) :
    wake ≤ final.1.ticks := by
  induction run generalizing between entries with
  | done => exact absurd whole (by simp)
  | event happens _ induction =>
    have stirred := event_stirs sound happens
    obtain ⟨changed, nextSound, -⟩ := stirred.ring
    exact induction whole nextSound (given.trans_le stirred.grows)
      (by rwa [event_selects sound happens]) alone (wakes.event sound given happens away)
  | schedule run _ induction =>
    obtain ⟨changed, nextSound, -⟩ := (schedule_passes sound run).ring
    obtain ⟨still, due⟩ := wakes.schedule sound run
    cases between with
    | nil =>
      obtain ⟨rfl, -⟩ := List.cons.inj whole
      exact due woken
    | cons other others =>
      obtain ⟨rfl, tail⟩ := List.cons.inj whole
      exact induction tail nextSound given (alone _ List.mem_cons_self)
        (fun call member => alone call (List.mem_cons_of_mem _ member)) still

theorem wakes_of_found (sound : SystemSound system idle created entries) {entry : Nat × Nat}
    (member : entry ∈ entries) {process : Process} (found : system.procs entry.2 = some process) :
    Wakes process.id process.wakeAt system.procs := by
  intro address other held same
  obtain ⟨place, listed, rfl⟩ := List.mem_map.mp (sound.state.procsListed address other held)
  rw [← id_at_of_found held, ← id_at_of_found found] at same
  rw [sound.state.id_injective listed member same, found] at held
  exact congrArg Process.wakeAt (Option.some.inj held).symm

end Steps

/-- After any run from boot, a process other than the idle one that sleeps for `ms > 0` ticks gives
up the processor. Whatever the others do, the first call of the scheduler to select it again comes
at least `ms` ticks later. -/
theorem sleep_lasts {blank booted system next : System}
    {node process stackTop created mine ms : Nat} {earlier : List (System × System)}
    {caller : Context} (empty : Blank blank) (fresh : Fresh blank node process stackTop)
    (boot : processCreate node process stackTop 0 blank = .ok ⟨⟩ booted)
    (run : CallRun (node, process) booted 1 earlier system created)
    (notIdle : system.head ≠ node) (selected : selectedId system = some mine)
    (positive : 0 < ms) (small : system.ticks + ms < 2 ^ 64)
    (sleeps : processSleep ms caller system = .ok ⟨⟩ next) :
    selectedId next ≠ some mine ∧
      ∀ (between later : List (System × System)) (final : System × System) (last : System) (total : Nat),
        CallRun (node, process) next created (between ++ final :: later) last total →
        (∀ call ∈ between, selectedId call.2 ≠ some mine) → selectedId final.2 = some mine →
          system.ticks + ms ≤ final.1.ticks := by
  obtain ⟨entries, sound, -⟩ := rounds_of_run run (boot_sound empty fresh boot).sound
  obtain ⟨first, rest, rfl, head⟩ := sound.cons
  obtain ⟨current, found, -⟩ := sound.state.listed first List.mem_cons_self
  obtain rfl : current.id = mine := by
    rw [selected_id_eq sound, id_at_of_found found] at selected
    exact Option.some.inj selected
  have given : current.id < created :=
    ring_ids_lt sound (List.mem_cons.mpr (Or.inl (id_at_of_found found).symm))
  have marked := sound.set_current found { current with wakeAt := add64 system.ticks ms } rfl rfl rfl
    fun same => absurd (head.trans (congrArg Prod.fst same)) notIdle
  have wakes := wakes_of_found marked List.mem_cons_self (Function.update_self ..)
  have sleeping : Ends (processSleep ms caller) (fun _ after => after = next) (fun _ _ => False)
      system := (ends_of_ok sleeps).mpr rfl
  rw [processSleep, ends_bind, ends_markAsleep sound found] at sleeping
  obtain ⟨⟨⟩, next, yields, rfl⟩ := sleeping.exists_ok
  obtain ⟨kept, due⟩ := wakes.schedule marked yields
  have tick : add64 system.ticks ms = system.ticks + ms := Nat.mod_eq_of_lt small
  have away : selectedId next ≠ some current.id := by
    intro same
    have early : add64 system.ticks ms ≤ system.ticks := due same
    omega
  refine ⟨away, fun between later final last total rest alone woken => ?_⟩
  obtain ⟨changed, nextSound, -⟩ := (schedule_passes marked yields).ring
  exact tick ▸ Wakes.run rest rfl nextSound given away alone kept woken

/-- The second process sleeps for five ticks, which pass. -/
def napping : System := systemAfter (processSleep 5 (.timer false) (pairSystem 1))

def rested : System := { napping with ticks := 5 }

theorem sleep_lasts_pair : selectedId napping ≠ some 1 ∧ (pairSystem 1).ticks + 5 ≤ rested.ticks := by
  have fresh : Fresh blankSystem 16 32 64 := ⟨rfl, by decide, rfl, by decide⟩
  have freshPair : Fresh idleSystem 48 80 64 := ⟨rfl, by decide, rfl, by decide⟩
  have created : processCreate 48 80 64 0 idleSystem = .ok ⟨⟩ (pairSystem 0) := rfl
  have turn : processSchedule (.timer false) (pairSystem 0) = .ok ⟨⟩ (pairSystem 1) := rfl
  have run : CallRun (16, 32) idleSystem 1 [(pairSystem 0, pairSystem 1)] (pairSystem 1) 2 :=
    .event (.create freshPair (by decide) created) (.schedule turn (.done _ _))
  have sleeps : processSleep 5 (.timer false) (pairSystem 1) = .ok ⟨⟩ napping := rfl
  obtain ⟨away, wakes⟩ := sleep_lasts blank_system_blank fresh rfl run (by decide) rfl (by decide)
    (by decide) sleeps
  have back : processSchedule (.timer false) rested =
      .ok ⟨⟩ (systemAfter (processSchedule (.timer false) rested)) := rfl
  exact ⟨away, wakes [] [] (rested, _) _ _ (.event (.advance (by decide)) (.schedule back (.done _ _)))
    (by simp) rfl⟩

end RiriaKernel.SleepingProcesses
