import RiriaKernel.ProcessEvents

/-!
# Context switches

What the processor's registers hold in each process across preemptions, system calls, first
starts and exits: the two GS bases, the interrupt state, and the FS base with the FPU
registers.
-/

namespace RiriaKernel.ContextSwitches

open CircularLists KernelState Processes ProcessScheduling ProcessRuns
  ProcessEvents

/-! ## The next process -/

/-- The entry at which `process_schedule` stops: the first one behind the current entry that
is neither dead nor asleep, or the current one after a whole turn. -/
def Successor (system : System) (entry : Nat × Nat) : Prop :=
  ∃ first rest left right, Ring system.nodes (first :: rest) ∧ system.head = first.1 ∧
    rest.filter (aliveAt system.procs) ++ [first] = left ++ entry :: right ∧
    (∀ other ∈ left, awakeAt system.procs system.ticks other = false) ∧
    awakeAt system.procs system.ticks entry = true

theorem Successor.node {system : System} {entry : Nat × Nat} (successor : Successor system entry) :
    ∃ next, system.nodes entry.1 = some ⟨entry.2, next⟩ := by
  obtain ⟨first, rest, left, right, ring, -, split, -, -⟩ := successor
  have listed : entry ∈ rest.filter (aliveAt system.procs) ++ [first] := by
    rw [split]
    exact List.mem_append_right _ List.mem_cons_self
  have member : entry ∈ first :: rest := by
    rcases List.mem_append.mp listed with inRest | last
    · exact List.mem_cons_of_mem _ (List.mem_filter.mp inRest).1
    · exact List.mem_cons.mpr (Or.inl (List.mem_singleton.mp last))
  obtain ⟨front, back, whole⟩ := List.append_of_mem member
  rw [whole] at ring
  exact ⟨_, ring.next 0⟩

/-- Every switch that can come next satisfies `allowed`. -/
def Switches (allowed : System → Context → Nat → Process → Prop) (system : System)
    (caller : Context) : Prop :=
  ∀ entry process, Successor system entry → entry.1 ≠ system.head →
    system.procs entry.2 = some process → allowed system caller entry.2 process

section Rules

variable {system middle : System} {idle first chosen : Nat × Nat} {created : Nat}
  {rest others : List (Nat × Nat)} {prev curr : Process}

theorem successor_of_choice (sound : SystemSound system idle created (first :: rest))
    (choice : Choice idle created first chosen rest others prev curr system middle) :
    Successor system chosen := by
  obtain ⟨left, right, split, asleep⟩ := choice.order
  refine ⟨first, rest, left, right, sound.state.ring, sound.head, split, asleep, ?_⟩
  rw [awake_at_of_found choice.currFound]
  exact decide_eq_true choice.awake

theorem chosen_ne_head (sound : SystemSound system idle created (first :: rest))
    (choice : Choice idle created first chosen rest others prev curr system middle)
    (moved : chosen ≠ first) : chosen.1 ≠ system.head := by
  intro same
  rw [sound.head_node.1] at same
  have nodup := choice.state.ring.nodup
  have firstMember := (choice.members first).mpr (Or.inl rfl)
  exact moved (List.inj_on_of_nodup_map nodup List.mem_cons_self firstMember same)

structure Preserved (allowed : System → Context → Nat → Process → Prop)
    (holds : Running → Cpu → Nat → Prop) : Prop where
  boot : ∀ cpu address, cpu.interrupts.syncDepth = 0 → holds .kernel cpu address
  timer : ∀ running cpu address, (running = .user ∨ running = .kernel) →
    cpu.interrupts.enabled = true → holds running cpu address →
    holds (.calling (.timer (running = .user))) (setFlag cpu false) address
  call : ∀ cpu address, holds .kernel cpu address →
    holds (.calling (.call cpu.interrupts.enabled)) cpu address
  syscallExit : ∀ cpu address, holds .syscall cpu address → holds (.calling (.exit true)) cpu address
  fault : ∀ system address, holds .user system.cpu address →
    holds (.calling (.exit false)) (faultEntry system).cpu address
  stay : ∀ cpu address caller, holds (.calling caller) cpu address →
    holds (.returned caller) { cpu with interrupts := intResume (intDisable cpu.interrupts) } address
  switch : ∀ system address caller target process, holds (.calling caller) system.cpu address →
    allowed system caller target process →
    holds (.returned process.krsp)
      { switchedCpu system.cpu process target with
        interrupts := intResume (intDisable system.cpu.interrupts) } target
  leave : ∀ system address context, leaves context = false →
    holds (.returned context) system.cpu address →
    holds (leaveSchedule system context).running (leaveSchedule system context).cpu address
  syscall : ∀ system address, holds .user system.cpu address →
    holds .syscall (syscallTrap system).cpu address
  sysret : ∀ system address, holds .syscall system.cpu address →
    holds .user (syscallReturn system).cpu address
  registers : ∀ running cpu address fsBase fpu, holds running cpu address →
    holds running { cpu with fsBase, fpu } address

def Current (system : System) (test : Nat → Prop) : Prop :=
  ∀ node, system.nodes system.head = some node → test node.payload

theorem current_iff {test : Nat → Prop} (sound : SystemSound system idle created (first :: rest)) :
    Current system test ↔ test first.2 := by
  obtain ⟨-, -, headNode⟩ := sound.head_node
  constructor
  · intro held
    exact held _ headNode
  · intro held node found
    rw [headNode] at found
    cases found
    exact held

end Rules

section Runs

variable {allowed : System → Context → Nat → Process → Prop} {holds : Running → Cpu → Nat → Prop}
  {system after middle : System} {idle first chosen : Nat × Nat} {created : Nat} {given : Given}
  {rest others : List (Nat × Nat)} {prev curr : Process}

theorem Preserved.schedule (preserved : Preserved allowed holds)
    (sound : SystemSound system idle created (first :: rest)) {caller : Context}
    (choice : Choice idle created first chosen rest others prev curr system middle)
    (mode : system.running = .calling caller) (admitted : Switches allowed system caller)
    (held : holds system.running system.cpu first.2) :
    holds (scheduled middle first chosen prev curr caller).running
      (scheduled middle first chosen prev curr caller).cpu chosen.2 := by
  rw [mode] at held
  by_cases stays : chosen = first
  · obtain ⟨running, cpu⟩ := choice.after_stay caller stays
    rw [running, cpu, stays]
    exact preserved.stay _ _ _ held
  · obtain ⟨running, cpu⟩ := choice.after_switch caller stays
    have next := admitted chosen curr (successor_of_choice sound choice)
      (chosen_ne_head sound choice stays) choice.currFound
    rw [running, cpu]
    exact preserved.switch _ _ _ _ _ held next

theorem holds_added {node address : Nat} {process : Process}
    (sound : SystemSound system idle created (first :: rest))
    (grown : SystemSound after idle (created + 1) (first :: (node, address) :: rest))
    (added : Added address process system after) (held : Current system (holds system.running system.cpu)) :
    Current after (holds after.running after.cpu) := by
  rw [current_iff sound] at held
  rw [current_iff grown, added]
  exact held

theorem holds_marked (sound : EventSound system idle created first rest)
    (marked : Marked first.2 prev curr system after) {caller : Context}
    (held : holds (.calling caller) system.cpu first.2) :
    Current (called after caller) (holds (called after caller).running (called after caller).cpu) := by
  intro node found
  obtain ⟨-, -, headNode⟩ := sound.sound.head_node
  rw [marked.after] at found ⊢
  change system.nodes system.head = some node at found
  rw [headNode] at found
  cases found
  exact held

theorem holds_of_run (preserved : Preserved allowed holds)
    (run : EventRun (Switches allowed) system idle created given) :
    Current system (holds system.running system.cpu) := by
  induction run with
  | boot blank mode settled fresh run =>
    have booted := boot_sound blank fresh run
    rw [current_iff booted.sound, booted.running, booted.cpu, mode]
    exact preserved.boot _ _ settled
  | create prior _ fresh few run induction =>
    obtain ⟨first, rest, sound⟩ := event_sound_of_run prior
    obtain ⟨grown, _, added⟩ := create_sound sound.sound fresh few run
    exact holds_added sound.sound grown added induction
  | createUser prior _ fresh few run induction =>
    obtain ⟨first, rest, sound⟩ := event_sound_of_run prior
    obtain ⟨grown, added⟩ := create_user_sound sound.sound fresh few run
    exact holds_added sound.sound grown added induction
  | timer _ mode enabled induction =>
    exact fun node found => preserved.timer _ _ _ mode enabled (induction node found)
  | yield _ mode induction =>
    exact fun node found => preserved.call _ _ (mode ▸ induction node found)
  | sleep prior mode _ run induction =>
    obtain ⟨first, rest, sound⟩ := event_sound_of_run prior
    obtain ⟨old, new, marked⟩ := sound.mark_asleep run
    rw [current_iff sound.sound, mode] at induction
    exact holds_marked sound marked (preserved.call _ _ induction)
  | exit prior mode _ run induction =>
    obtain ⟨first, rest, sound⟩ := event_sound_of_run prior
    obtain ⟨old, new, marked, -⟩ := sound.mark_dead run
    rw [current_iff sound.sound, mode] at induction
    exact holds_marked sound marked (preserved.call _ _ induction)
  | syscallExit prior mode run induction =>
    obtain ⟨first, rest, sound⟩ := event_sound_of_run prior
    obtain ⟨old, new, marked, -⟩ := sound.mark_dead run
    rw [current_iff sound.sound, mode] at induction
    exact holds_marked sound marked (preserved.syscallExit _ _ induction)
  | fault prior mode run induction =>
    obtain ⟨first, rest, sound⟩ := event_sound_of_run prior
    obtain ⟨old, new, marked, -⟩ := sound.fault_entry.mark_dead run
    rw [current_iff sound.sound, mode] at induction
    exact holds_marked sound.fault_entry marked (preserved.fault _ _ induction)
  | schedule prior mode admitted run induction =>
    obtain ⟨first, rest, sound⟩ := event_sound_of_run prior
    obtain ⟨chosen, others, prev, curr, middle, choice, rfl⟩ := (sound.sound.schedule _).returns run
    rw [current_iff sound.sound] at induction
    rw [current_iff (after_sound choice _ sound.sound)]
    exact preserved.schedule sound.sound choice mode admitted induction
  | leave prior mode induction =>
    obtain ⟨first, rest, sound⟩ := event_sound_of_run prior
    obtain ⟨process, -, fits⟩ := sound.found
    have stays := (mode ▸ fits : Fits process (.returned _)).2
    intro node found
    rw [leave_schedule_eq] at found
    exact preserved.leave _ _ _ stays (mode ▸ induction node found)
  | syscall _ mode induction =>
    exact fun node found => preserved.syscall _ _ (mode ▸ induction node found)
  | sysret _ mode induction =>
    exact fun node found => preserved.sysret _ _ (mode ▸ induction node found)
  | writeFsbase _ _ _ accepted induction =>
    rw [syscallWriteFsbase, if_pos accepted]
    exact fun node found => preserved.registers _ _ _ _ _ (induction node found)
  | compute _ _ _ induction =>
    exact fun node found => preserved.registers _ _ _ _ _ (induction node found)

end Runs

/-! ## Whole preemptions -/

def stateAfter : EStateM.Result Fault System PUnit → System
  | .ok _ after => after
  | .error _ after => after

/-- A timer interrupt, the scheduler, and the way back to the process that it chooses. -/
def preempt (system : System) : System :=
  let after := stateAfter (processSchedule (.timer (system.running = .user)) (timerEntry system))
  match after.running with
  | .returned context => leaveSchedule after context
  | _ => after

theorem preempt_run {allowed : System → Context → Nat → Process → Prop} {system : System}
    {idle : Nat × Nat} {created : Nat} {given : Given}
    (prior : EventRun (Switches allowed) system idle created given)
    (mode : system.running = .user ∨ system.running = .kernel)
    (enabled : system.cpu.interrupts.enabled = true)
    (admitted : Switches allowed (timerEntry system) (.timer (system.running = .user))) :
    EventRun (Switches allowed) (preempt system) idle created given := by
  have interrupted := EventRun.timer prior mode enabled
  obtain ⟨first, rest, sound⟩ := event_sound_of_run interrupted
  obtain ⟨_, after, ran, chosen, others, prev, curr, middle, choice, same⟩ :=
    (sound.sound.schedule (.timer (system.running = .user))).exists_ok
  have returned : ∃ context, after.running = .returned context := by
    rw [same]
    by_cases stays : chosen = first
    · exact ⟨_, (choice.after_stay _ stays).1⟩
    · exact ⟨_, (choice.after_switch _ stays).1⟩
  obtain ⟨context, back⟩ := returned
  have whole : preempt system = leaveSchedule after context := by
    unfold preempt
    rw [ran]
    simp only [stateAfter, back]
  rw [whole]
  exact (EventRun.schedule interrupted rfl admitted ran).leave back

def bootedSystem : System := stateAfter (processCreate 16 32 64 0 blankSystem)

def oneUser : System := stateAfter (processCreateUser 48 80 96 0x2000 bootedSystem)

def twoUsers : System := stateAfter (processCreateUser 112 144 160 0x3000 oneUser)

theorem one_user_run (admits : System → Context → Prop) :
    ∃ given, EventRun admits oneUser (16, 32) 2 given := by
  have booted : EventRun admits bootedSystem (16, 32) 1 fun _ => untouched :=
    .boot blank_system_blank rfl rfl ⟨rfl, by decide, rfl, by decide⟩ rfl
  have fresh : Fresh bootedSystem 48 80 96 := ⟨rfl, by decide, rfl, by decide⟩
  have ran : processCreateUser 48 80 96 0x2000 bootedSystem = .ok ⟨⟩ oneUser := rfl
  exact ⟨_, booted.createUser rfl fresh (by decide) ran⟩

theorem two_users_run (admits : System → Context → Prop) :
    ∃ given, EventRun admits twoUsers (16, 32) 3 given := by
  obtain ⟨_, prior⟩ := one_user_run admits
  have fresh : Fresh oneUser 112 144 160 := ⟨rfl, by decide, rfl, by decide⟩
  have ran : processCreateUser 112 144 160 0x3000 oneUser = .ok ⟨⟩ twoUsers := rfl
  exact ⟨_, prior.createUser rfl fresh (by decide) ran⟩

/-! ## The GS bases -/

/-- The GS base that must designate the process a context belongs to, if it goes on in user
mode. -/
def gsOfContext (cpu : Cpu) : Context → Option Nat
  | .timer true => some cpu.kernelGsBase
  | .userEntry => some cpu.gsBase
  | _ => none

def gsOf (cpu : Cpu) : Running → Option Nat
  | .user => some cpu.kernelGsBase
  | .kernel => none
  | .syscall => some cpu.gsBase
  | .calling context => gsOfContext cpu context
  | .returned context => gsOfContext cpu context

def GsHolds (running : Running) (cpu : Cpu) (address : Nat) : Prop :=
  ∀ base, gsOf cpu running = some base → base = address

/-- A process that was interrupted in user mode is only resumed while the shadow GS base
still designates it. -/
def shadowKept (system : System) (_ : Context) (target : Nat) (process : Process) : Prop :=
  process.krsp = .timer true → system.cpu.kernelGsBase = target

theorem gs_preserved : Preserved shadowKept GsHolds where
  boot _ _ _ base designates := by cases designates
  timer running cpu address mode _ held base designates := by
    rcases mode with rfl | rfl
    · exact held base designates
    · cases designates
  call _ _ _ base designates := by cases designates
  syscallExit _ _ _ base designates := by cases designates
  fault _ _ _ base designates := by cases designates
  stay _ _ _ held := held
  switch system _ caller target process _ allowed base designates := by
    cases context : process.krsp with
    | timer fromUser =>
      rw [context] at designates
      cases fromUser with
      | true => exact (Option.some.inj designates).symm.trans (allowed context)
      | false => cases designates
    | userEntry =>
      rw [context] at designates
      exact (Option.some.inj designates).symm
    | kernelEntry => rw [context] at designates; cases designates
    | call enabled => rw [context] at designates; cases designates
    | exit inSyscall => rw [context] at designates; cases designates
  leave system address context stays held base designates := by
    cases context with
    | timer fromUser =>
      cases fromUser with
      | true => exact held base designates
      | false => cases designates
    | userEntry => exact held base designates
    | kernelEntry => cases designates
    | call enabled => cases designates
    | exit inSyscall => cases stays
  syscall _ _ held := held
  sysret _ _ held base designates := by
    apply held base
    rw [← designates]
    simp [gsOf, syscallReturn, setFlag, swapgs, onInterrupts]
  registers running cpu address fsBase fpu held base designates := by
    apply held base
    rw [← designates]
    cases running <;> rfl

/-- In every run in which a process that was interrupted in user mode is only resumed while
the shadow GS base still designates it, `%gs` designates the process at `process_head`
after the `swapgs` of each system call, and that process has not been freed. -/
theorem syscall_enters_own_process {system : System} {idle : Nat × Nat} {created : Nat}
    {given : Given} (run : EventRun (Switches shadowKept) system idle created given)
    (mode : system.running = .user) :
    ∃ node process, system.nodes system.head = some node ∧
      system.procs node.payload = some process ∧ process.type = .user ∧
      (syscallTrap system).cpu.gsBase = node.payload := by
  obtain ⟨first, rest, sound⟩ := event_sound_of_run run
  obtain ⟨-, -, headNode⟩ := sound.sound.head_node
  obtain ⟨process, found, fits⟩ := sound.found
  have held := holds_of_run gs_preserved run _ headNode
  rw [mode] at fits held
  exact ⟨_, process, headNode, found, fits, held _ rfl⟩

theorem one_user_found {address : Nat} {process : Process}
    (found : oneUser.procs address = some process) :
    address = 32 ∧ process.krsp = .kernelEntry ∨ address = 80 ∧ process.krsp = .userEntry := by
  change Function.update (Function.update (fun _ => none) 32 (some _)) 80 (some _) address =
    some process at found
  by_cases user : address = 80
  · rw [user, Function.update_self] at found
    cases found
    exact Or.inr ⟨user, rfl⟩
  · rw [Function.update_of_ne user] at found
    by_cases idle : address = 32
    · rw [idle, Function.update_self] at found
      cases found
      exact Or.inl ⟨idle, rfl⟩
    · rw [Function.update_of_ne idle] at found
      cases found

theorem one_user_idle_node {address next : Nat}
    (found : oneUser.nodes address = some ⟨32, next⟩) : address = oneUser.head := by
  let empty : Store Nat Nat := fun _ => none
  change Function.update (Function.update (Function.update empty 16 (some ⟨32, 16⟩)) 48
    (some ⟨80, 16⟩)) 16 (some ⟨32, 48⟩) address = some ⟨32, next⟩ at found
  by_cases isIdle : address = 16
  · exact isIdle
  · rw [Function.update_of_ne isIdle] at found
    by_cases isUser : address = 48
    · rw [isUser, Function.update_self] at found
      cases found
    · rw [Function.update_of_ne isUser, Function.update_of_ne isIdle] at found
      cases found

/-- A user process starts from a timer tick of the idle process and makes a system call. -/
theorem syscall_enters_own_process_first : ∃ given node process,
    EventRun (Switches shadowKept) (preempt oneUser) (16, 32) 2 given ∧
      (preempt oneUser).nodes (preempt oneUser).head = some node ∧
      (preempt oneUser).procs node.payload = some process ∧ process.type = .user ∧
      (syscallTrap (preempt oneUser)).cpu.gsBase = node.payload := by
  obtain ⟨given, prior⟩ := one_user_run (Switches shadowKept)
  have admitted : Switches shadowKept (timerEntry oneUser) (.timer (oneUser.running = .user)) := by
    intro entry process _ _ found interrupted
    rcases one_user_found found with ⟨-, same⟩ | ⟨-, same⟩ <;> rw [same] at interrupted <;>
      cases interrupted
  have run := preempt_run prior (Or.inr rfl) rfl admitted
  obtain ⟨node, process, headNode, found, user, own⟩ := syscall_enters_own_process run rfl
  exact ⟨given, node, process, run, headNode, found, user, own⟩

/-- Two user processes that have both been started and are preempted once more: the second
one runs in user mode while the shadow GS base designates the first one. -/
theorem syscall_enters_other_process : ∃ system given,
    EventRun (Switches fun _ _ _ _ => True) system (16, 32) 3 given ∧ system.running = .user ∧
      system.nodes system.head = some ⟨144, 48⟩ ∧ (syscallTrap system).cpu.gsBase = 80 := by
  obtain ⟨given, prior⟩ := two_users_run (Switches fun _ _ _ _ => True)
  have admitted : ∀ system caller, Switches (fun _ _ _ _ => True) system caller :=
    fun _ _ _ _ _ _ _ => trivial
  have first := preempt_run prior (Or.inr rfl) rfl (admitted _ _)
  have second := preempt_run first (Or.inl rfl) rfl (admitted _ _)
  have third := preempt_run second (Or.inl rfl) rfl (admitted _ _)
  have fourth := preempt_run third (Or.inr rfl) rfl (admitted _ _)
  exact ⟨_, given, fourth, rfl, rfl, rfl⟩

/-! ## The interrupt state -/

/-- The interrupt flag with which a context has called the scheduler. A fresh kernel process
has to start with interrupts on. -/
def enabledIn : Context → Bool
  | .kernelEntry => true
  | .userEntry => true
  | .timer _ => false
  | .call enabled => enabled
  | .exit _ => false

/-- The calls of `IRQ_OFF` in a context that have no `IRQ_RES` yet. -/
def pendingIn : Context → Nat
  | .exit true => 1
  | _ => 0

/-- The interrupt state in each activity. A fresh user process gets its flag from the
`iretq` in `switch_to_user`. -/
def InterruptsHold (running : Running) (cpu : Cpu) (_ : Nat) : Prop :=
  match running with
  | .user => cpu.interrupts.enabled = true ∧ cpu.interrupts.syncDepth = 0
  | .kernel => cpu.interrupts.syncDepth = 0
  | .syscall => cpu.interrupts.enabled = false ∧ cpu.interrupts.syncDepth = 1
  | .calling context =>
      cpu.interrupts.enabled = enabledIn context ∧ cpu.interrupts.syncDepth = pendingIn context
  | .returned context =>
      (context ≠ .userEntry → cpu.interrupts.enabled = enabledIn context) ∧
        cpu.interrupts.syncDepth = pendingIn context

def interruptsAgree (_ : System) (caller : Context) (_ : Nat) (process : Process) : Prop :=
  pendingIn caller = pendingIn process.krsp ∧
    (process.krsp ≠ .userEntry → enabledIn caller = enabledIn process.krsp)

/-- `IRQ_OFF` and `IRQ_RES` around a piece of code restore the flag, unless they are nested in
code that runs with interrupts on. -/
theorem resume_disable (state : Interrupts) (nested : state.syncDepth ≠ 0 → state.enabled = false) :
    (intResume (intDisable state)).enabled = state.enabled ∧
      (intResume (intDisable state)).syncDepth = state.syncDepth := by
  have outside : ¬state.syncDepth + 1 = 0 := by omega
  simp only [intResume, intDisable, if_neg outside, Nat.add_sub_cancel, and_true]
  by_cases outermost : state.syncDepth = 0
  · simp [outermost]
  · simp [outermost, nested outermost]

theorem pending_off (context : Context) (pending : pendingIn context ≠ 0) :
    enabledIn context = false := by
  cases context with
  | exit inSyscall => rfl
  | _ => exact absurd rfl pending

theorem resume_disable_called {interrupts : Interrupts} {caller : Context}
    (enabled : interrupts.enabled = enabledIn caller)
    (depth : interrupts.syncDepth = pendingIn caller) :
    (intResume (intDisable interrupts)).enabled = enabledIn caller ∧
      (intResume (intDisable interrupts)).syncDepth = pendingIn caller := by
  have nested : interrupts.syncDepth ≠ 0 → interrupts.enabled = false := by
    intro pending
    rw [enabled]
    exact pending_off caller (depth ▸ pending)
  obtain ⟨sameFlag, sameDepth⟩ := resume_disable interrupts nested
  exact ⟨sameFlag.trans enabled, sameDepth.trans depth⟩

theorem interrupts_preserved : Preserved interruptsAgree InterruptsHold where
  boot _ _ settled := settled
  timer running cpu address mode _ held := by
    rcases mode with rfl | rfl
    · exact ⟨rfl, held.2⟩
    · exact ⟨rfl, held⟩
  call _ _ held := ⟨rfl, held⟩
  syscallExit _ _ held := held
  fault system _ held := by
    have off := resume_disable (setFlag system.cpu false).interrupts fun _ => rfl
    exact ⟨off.1, off.2.trans held.2⟩
  stay _ _ _ held := by
    obtain ⟨flag, depth⟩ := resume_disable_called held.1 held.2
    exact ⟨fun _ => flag, depth⟩
  switch _ _ _ _ _ held agree := by
    obtain ⟨flag, depth⟩ := resume_disable_called held.1 held.2
    exact ⟨fun started => flag.trans (agree.2 started), depth.trans agree.1⟩
  leave system address context stays held := by
    cases context with
    | timer fromUser =>
      cases fromUser with
      | true => exact ⟨rfl, held.2⟩
      | false => exact held.2
    | userEntry => exact ⟨rfl, held.2⟩
    | kernelEntry => exact held.2
    | call enabled => exact held.2
    | exit inSyscall => cases stays
  syscall system _ held := by
    refine ⟨rfl, ?_⟩
    change system.cpu.interrupts.syncDepth + 1 = 1
    rw [held.2]
  sysret system _ held := by
    refine ⟨rfl, ?_⟩
    change (intResume system.cpu.interrupts).syncDepth = 0
    simp [intResume, held.2]
  registers running _ _ _ _ held := by
    cases running <;> exact held

/-- In every run in which each switch is between contexts that agree in their interrupt
state, a call of `process_schedule` is made with the flag and the depth of its context, and
returns with them; a process that starts has its flag set and no `IRQ_OFF` pending. -/
theorem schedule_keeps_interrupt_state {system : System} {idle : Nat × Nat} {created : Nat}
    {given : Given} (run : EventRun (Switches interruptsAgree) system idle created given) :
    (∀ context, system.running = .calling context →
      system.cpu.interrupts.enabled = enabledIn context ∧
        system.cpu.interrupts.syncDepth = pendingIn context) ∧
    (∀ context, system.running = .returned context →
      (context ≠ .userEntry → system.cpu.interrupts.enabled = enabledIn context) ∧
        (context = .userEntry →
          (leaveSchedule system context).cpu.interrupts.enabled = true) ∧
        system.cpu.interrupts.syncDepth = pendingIn context) := by
  obtain ⟨first, rest, sound⟩ := event_sound_of_run run
  obtain ⟨-, -, headNode⟩ := sound.sound.head_node
  have held := holds_of_run interrupts_preserved run _ headNode
  constructor
  · intro context mode
    rw [mode] at held
    exact held
  · intro context mode
    rw [mode] at held
    refine ⟨held.1, ?_, held.2⟩
    rintro rfl
    rfl

/-- A user process starts from a timer tick of the idle process, which is the next call that
returns. -/
theorem schedule_keeps_interrupt_state_first : ∃ system given,
    EventRun (Switches interruptsAgree) system (16, 32) 2 given ∧
      system.running = .returned .userEntry ∧ system.cpu.interrupts.syncDepth = 0 := by
  obtain ⟨given, prior⟩ := one_user_run (Switches interruptsAgree)
  have admitted : Switches interruptsAgree (timerEntry oneUser) (.timer false) := by
    intro entry process successor moved found
    rcases one_user_found found with ⟨isIdle, -⟩ | ⟨-, fresh⟩
    · -- the idle process is the current one, and no other node leads to it
      obtain ⟨next, node⟩ := successor.node
      rw [isIdle] at node
      exact absurd (one_user_idle_node node) moved
    · rw [interruptsAgree, fresh]
      exact ⟨rfl, fun started => absurd rfl started⟩
  have interrupted := EventRun.timer prior (Or.inr rfl) rfl
  have ran : processSchedule (.timer false) (timerEntry oneUser) =
      .ok ⟨⟩ (stateAfter (processSchedule (.timer false) (timerEntry oneUser))) := rfl
  have run := EventRun.schedule interrupted rfl admitted ran
  exact ⟨_, given, run, rfl, ((schedule_keeps_interrupt_state run).2 _ rfl).2.2⟩

def oneKernel : System := stateAfter (processCreate 48 80 96 0x2000 bootedSystem)

/-- A kernel process that starts from a timer tick starts with interrupts off. After the
exit of a user process the context that is resumed has an `IRQ_OFF` pending that it never
made. -/
theorem schedule_loses_interrupt_state :
    (∃ system given, EventRun (Switches fun _ _ _ _ => True) system (16, 32) 2 given ∧
      system.running = .returned .kernelEntry ∧ system.cpu.interrupts.enabled = false) ∧
    (∃ system given, EventRun (Switches fun _ _ _ _ => True) system (16, 32) 2 given ∧
      system.running = .returned (.timer false) ∧ system.cpu.interrupts.syncDepth = 1) := by
  have admitted : ∀ system caller, Switches (fun _ _ _ _ => True) system caller :=
    fun _ _ _ _ _ _ _ => trivial
  constructor
  · have booted : EventRun (Switches fun _ _ _ _ => True) bootedSystem (16, 32) 1
        fun _ => untouched :=
      .boot blank_system_blank rfl rfl ⟨rfl, by decide, rfl, by decide⟩ rfl
    have fresh : Fresh bootedSystem 48 80 96 := ⟨rfl, by decide, rfl, by decide⟩
    have created : processCreate 48 80 96 0x2000 bootedSystem = .ok ⟨⟩ oneKernel := rfl
    have interrupted := (booted.create rfl fresh (by decide) created).timer (Or.inr rfl) rfl
    have ran : processSchedule (.timer false) (timerEntry oneKernel) =
        .ok ⟨⟩ (stateAfter (processSchedule (.timer false) (timerEntry oneKernel))) := rfl
    exact ⟨_, _, interrupted.schedule rfl (admitted _ _) ran, rfl, rfl⟩
  · obtain ⟨given, prior⟩ := one_user_run (Switches fun _ _ _ _ => True)
    have entered := (preempt_run prior (Or.inr rfl) rfl (admitted _ _)).syscall rfl
    let marked := stateAfter (markDead (syscallTrap (preempt oneUser)))
    have marks : markDead (syscallTrap (preempt oneUser)) = .ok ⟨⟩ marked := rfl
    have ran : processSchedule (.exit true) (called marked (.exit true)) =
        .ok ⟨⟩ (stateAfter (processSchedule (.exit true) (called marked (.exit true)))) := rfl
    exact ⟨_, given, (entered.syscallExit rfl marks).schedule rfl (admitted _ _) ran, rfl, rfl⟩

/-! ## FS base and FPU registers -/

/-- Where the values are that the user processes have given their registers: in the
processor for the current process, in its `process_t` for every other one. -/
structure Isolated (system : System) (given : Given) (current : Nat) : Prop where
  live : ∀ process, system.procs current = some process → process.type = .user →
    (system.cpu.fsBase, system.cpu.fpu) = given current
  saved : ∀ address process, address ≠ current → system.procs address = some process →
    process.type = .user → (process.fsbase, process.fpuState) = given address

section Isolation

variable {admits : System → Context → Prop} {system after middle : System}
  {idle first chosen : Nat × Nat} {created : Nat} {given : Given} {rest others : List (Nat × Nat)}
  {prev curr : Process}

theorem Isolated.congr {current : Nat} (isolated : Isolated system given current)
    (procs : after.procs = system.procs) (fsBase : after.cpu.fsBase = system.cpu.fsBase)
    (fpu : after.cpu.fpu = system.cpu.fpu) : Isolated after given current := by
  constructor
  · rw [procs, fsBase, fpu]
    exact isolated.live
  · rw [procs]
    exact isolated.saved

theorem Isolated.add {current address : Nat} {process : Process}
    (isolated : Isolated system given current) (added : Added address process system after)
    (different : current ≠ address) (fresh : (process.fsbase, process.fpuState) = untouched) :
    Isolated after (Function.update given address untouched) current := by
  have procs : after.procs = Function.update system.procs address (some process) := by rw [added]
  have cpu : after.cpu = system.cpu := by rw [added]
  constructor
  · rw [procs, cpu, Function.update_of_ne different, Function.update_of_ne different]
    exact isolated.live
  · intro other found otherNe otherFound user
    rw [procs] at otherFound
    by_cases isNew : other = address
    · rw [isNew, Function.update_self] at otherFound
      cases otherFound
      rw [isNew, Function.update_self]
      exact fresh
    · rw [Function.update_of_ne isNew] at otherFound
      rw [Function.update_of_ne isNew]
      exact isolated.saved other found otherNe otherFound user

theorem Isolated.marked {current : Nat} (isolated : Isolated system given current)
    (marked : Marked current prev curr system after) (caller : Context) :
    Isolated (called after caller) given current := by
  have procs : (called after caller).procs =
      Function.update system.procs current (some curr) := by rw [marked.after]; rfl
  have cpu : (called after caller).cpu = system.cpu := by rw [marked.after]; rfl
  constructor
  · intro process found user
    rw [procs, Function.update_self] at found
    cases found
    rw [marked.same] at user
    rw [cpu]
    exact isolated.live prev marked.found user
  · intro address process different found user
    rw [procs, Function.update_of_ne different] at found
    exact isolated.saved address process different found user

theorem Isolated.give {current : Nat} {value : Nat × FpuState}
    (isolated : Isolated system given current) (cpu : Cpu)
    (gives : (system.cpu.fsBase, system.cpu.fpu) = given current → (cpu.fsBase, cpu.fpu) = value) :
    Isolated { system with cpu } (Function.update given current value) current := by
  constructor
  · intro process found user
    rw [Function.update_self]
    exact gives (isolated.live process found user)
  · intro address process different found user
    rw [Function.update_of_ne different]
    exact isolated.saved address process different found user

theorem Isolated.schedule {caller : Context} (isolated : Isolated system given first.2)
    (choice : Choice idle created first chosen rest others prev curr system middle) :
    Isolated (scheduled middle first chosen prev curr caller) given chosen.2 := by
  constructor
  · intro process found user
    rw [choice.after_found caller] at found
    cases found
    by_cases stays : chosen = first
    · rw [(choice.after_stay caller stays).2, stays]
      exact isolated.live curr (stays ▸ choice.currFound) user
    · have different : chosen.2 ≠ first.2 := fun same => stays (choice.state.entry_eq
        List.mem_cons_self ((choice.members first).mpr (Or.inl rfl)) same)
      rw [(choice.after_switch caller stays).2]
      simp only [switchedCpu, if_pos user]
      exact isolated.saved chosen.2 curr different choice.currFound user
  · intro address process different found user
    have listed := (choice.after_state caller).procsListed address process found
    obtain ⟨entry, member, rfl⟩ := List.mem_map.mp listed
    have waits : entry ∈ others := by
      rcases List.mem_cons.mp member with same | waits
      · exact absurd (congrArg Prod.snd same) different
      · exact waits
    rcases choice.after_waiting caller waits with ⟨isFirst, -, parkedFound⟩ | ⟨-, moved, same⟩
    · -- the old process, whose registers have just been saved
      rw [parkedFound] at found
      cases found
      have userBefore : prev.type = .user := user
      simp only [parked, if_pos userBefore]
      rw [isFirst]
      exact isolated.live prev choice.prevFound userBefore
    · rw [same] at found
      exact isolated.saved entry.2 process moved found user

theorem isolated_marked (sound : EventSound system idle created first rest)
    (marked : Marked first.2 prev curr system after) (caller : Context)
    (isolated : Current system (Isolated system given)) :
    Current (called after caller) (Isolated (called after caller) given) := by
  rw [current_iff sound.sound] at isolated
  intro node found
  obtain ⟨-, -, headNode⟩ := sound.sound.head_node
  rw [marked.after] at found
  cases headNode.symm.trans found
  exact isolated.marked marked caller

theorem isolated_of_run (run : EventRun admits system idle created given) :
    Current system (Isolated system given) := by
  induction run with
  | boot blank _ _ fresh run =>
    have booted := boot_sound blank fresh run
    rw [current_iff booted.sound]
    constructor
    · intro process found user
      rw [booted.found] at found
      cases found
      cases user
    · intro address process different found
      exact absurd (List.mem_singleton.mp (booted.sound.state.procsListed address process found))
        different
  | create prior _ fresh few run induction =>
    obtain ⟨first, rest, sound⟩ := event_sound_of_run prior
    obtain ⟨grown, _, added⟩ := create_sound sound.sound fresh few run
    rw [current_iff sound.sound] at induction
    rw [current_iff grown]
    exact induction.add added (sound.ne_fresh fresh List.mem_cons_self) rfl
  | createUser prior _ fresh few run induction =>
    obtain ⟨first, rest, sound⟩ := event_sound_of_run prior
    obtain ⟨grown, added⟩ := create_user_sound sound.sound fresh few run
    rw [current_iff sound.sound] at induction
    rw [current_iff grown]
    exact induction.add added (sound.ne_fresh fresh List.mem_cons_self) rfl
  | timer _ _ _ induction => exact fun node found => (induction node found).congr rfl rfl rfl
  | yield _ _ induction => exact fun node found => (induction node found).congr rfl rfl rfl
  | sleep prior _ _ run induction =>
    obtain ⟨first, rest, sound⟩ := event_sound_of_run prior
    obtain ⟨old, new, marked⟩ := sound.mark_asleep run
    exact isolated_marked sound marked _ induction
  | exit prior _ _ run induction =>
    obtain ⟨first, rest, sound⟩ := event_sound_of_run prior
    obtain ⟨old, new, marked, -⟩ := sound.mark_dead run
    exact isolated_marked sound marked _ induction
  | syscallExit prior _ run induction =>
    obtain ⟨first, rest, sound⟩ := event_sound_of_run prior
    obtain ⟨old, new, marked, -⟩ := sound.mark_dead run
    exact isolated_marked sound marked _ induction
  | fault prior _ run induction =>
    obtain ⟨first, rest, sound⟩ := event_sound_of_run prior
    obtain ⟨old, new, marked, -⟩ := sound.fault_entry.mark_dead run
    have entered : Current (faultEntry _) (Isolated (faultEntry _) _) :=
      fun node found => (induction node found).congr rfl rfl rfl
    exact isolated_marked sound.fault_entry marked _ entered
  | schedule prior _ _ run induction =>
    obtain ⟨first, rest, sound⟩ := event_sound_of_run prior
    obtain ⟨chosen, others, prev, curr, middle, choice, rfl⟩ := (sound.sound.schedule _).returns run
    rw [current_iff sound.sound] at induction
    rw [current_iff (after_sound choice _ sound.sound)]
    exact induction.schedule choice
  | @leave _ _ _ _ context _ _ induction =>
    intro node found
    rw [leave_schedule_eq] at found
    cases context <;> exact (induction node found).congr rfl rfl rfl
  | syscall _ _ induction => exact fun node found => (induction node found).congr rfl rfl rfl
  | sysret _ _ induction =>
    exact fun node found => (induction node found).congr rfl rfl rfl
  | writeFsbase _ _ current accepted induction =>
    rw [syscallWriteFsbase, if_pos accepted]
    intro node found
    cases current.symm.trans found
    apply (induction _ current).give
    intro same
    rw [← same]
  | compute _ _ current induction =>
    intro node found
    cases current.symm.trans found
    apply (induction _ current).give
    intro same
    rw [← same]

end Isolation

/-- Whenever a user process executes in user mode, the FS base and the FPU registers hold the
values that it gave them last, whatever has run in between. -/
theorem user_registers_isolated {admits : System → Context → Prop} {system : System}
    {idle : Nat × Nat} {created : Nat} {given : Given}
    (run : EventRun admits system idle created given) (mode : system.running = .user) :
    ∃ node process, system.nodes system.head = some node ∧
      system.procs node.payload = some process ∧ process.type = .user ∧
      system.cpu.fsBase = (given node.payload).1 ∧ system.cpu.fpu = (given node.payload).2 := by
  obtain ⟨first, rest, sound⟩ := event_sound_of_run run
  obtain ⟨-, -, headNode⟩ := sound.sound.head_node
  obtain ⟨process, found, fits⟩ := sound.found
  rw [mode] at fits
  have live := (isolated_of_run run _ headNode).live process found fits
  exact ⟨_, process, headNode, found, fits, congrArg Prod.fst live, congrArg Prod.snd live⟩

/-- A user process sets its FS base with a system call and its FPU registers. -/
def personalize (system : System) (fsbase : Nat) (fpu : FpuState) : System :=
  compute (syscallReturn (syscallWriteFsbase (syscallTrap system) fsbase)) fpu

theorem personalize_run {admits : System → Context → Prop} {system : System} {idle : Nat × Nat}
    {created : Nat} {given : Given} {node : Node Nat Nat} (fsbase : Nat) (fpu : FpuState)
    (prior : EventRun admits system idle created given) (mode : system.running = .user)
    (current : system.nodes system.head = some node) (accepted : fsbase ≤ 0x00007FFFFFFFFFFF) :
    EventRun admits (personalize system fsbase fpu) idle created
      (Function.update given node.payload (fsbase, fpu)) := by
  have wrote := (prior.syscall mode).writeFsbase rfl current accepted
  unfold personalize syscallWriteFsbase at *
  rw [if_pos accepted] at *
  have computed : EventRun admits (compute (syscallReturn _) fpu) idle created _ :=
    (wrote.sysret rfl).compute rfl current
  rwa [Function.update_self, Function.update_idem] at computed

/-- Two user processes that give the registers different values one after the other. After
the idle process has run, the first one finds its own again. -/
theorem user_registers_isolated_second : ∃ system given node process,
    EventRun (Switches fun _ _ _ _ => True) system (16, 32) 3 given ∧
      system.nodes system.head = some node ∧ system.procs node.payload = some process ∧
      process.type = .user ∧ system.cpu.fsBase = (given node.payload).1 ∧
      system.cpu.fpu = (given node.payload).2 ∧ given node.payload = (0x7000, fun _ => 1) ∧
      ∃ other, given other = (0x9000, fun _ => 2) := by
  obtain ⟨_, prior⟩ := two_users_run (Switches fun _ _ _ _ => True)
  have admitted : ∀ system caller, Switches (fun _ _ _ _ => True) system caller :=
    fun _ _ _ _ _ _ _ => trivial
  have first := personalize_run 0x7000 (fun _ => 1)
    (preempt_run prior (Or.inr rfl) rfl (admitted _ _)) rfl rfl (by decide)
  have second := personalize_run 0x9000 (fun _ => 2)
    (preempt_run first (Or.inl rfl) rfl (admitted _ _)) rfl rfl (by decide)
  have third := preempt_run second (Or.inl rfl) rfl (admitted _ _)
  have fourth := preempt_run third (Or.inr rfl) rfl (admitted _ _)
  obtain ⟨node, process, headNode, found, user, fsBase, fpu⟩ := user_registers_isolated fourth rfl
  obtain rfl := Option.some.inj headNode
  exact ⟨_, _, _, process, fourth, rfl, found, user, fsBase, fpu, rfl, 80, rfl⟩

end RiriaKernel.ContextSwitches
