import RiriaKernel.ProcessRuns

/-!
# Events

What moves the processor between user code, system calls, interrupt handlers and the
scheduler. The stubs in `irq_asm.S`, `syscall.S` and `process_user_entry` are straight
lines, so each is one function of the state. A call of `process_schedule` is a step of its
own, and so is the way back out of it.
-/

namespace RiriaKernel.ProcessEvents

open HaltingPrograms CircularLists KernelState Processes ProcessScheduling ProcessRuns

/-! ## The stubs -/

def swapgs (cpu : Cpu) : Cpu :=
  { cpu with gsBase := cpu.kernelGsBase, kernelGsBase := cpu.gsBase }

/-- The interrupt flag as a gate, `iretq`, `syscall` or `sysretq` leaves it. -/
def setFlag (cpu : Cpu) (enabled : Bool) : Cpu :=
  { cpu with interrupts := { cpu.interrupts with enabled } }

def onInterrupts (cpu : Cpu) (update : Interrupts → Interrupts) : Cpu :=
  { cpu with interrupts := update cpu.interrupts }

def called (system : System) (caller : Context) : System :=
  { system with running := .calling caller }

/-- The timer interrupt: the gate, `_pit_handler`, then `process_schedule`. -/
def timerEntry (system : System) : System :=
  called { system with cpu := setFlag system.cpu false, ticks := add64 system.ticks 1 }
    (.timer (system.running = .user))

/-- A fault that `vmm_pagefault` does not handle, up to its call of `process_exit`. -/
def faultEntry (system : System) : System :=
  { system with
    cpu := onInterrupts (onInterrupts (setFlag system.cpu false) intDisable) intResume }

/-- The first half of `syscall_trap`, up to the `IRQ_OFF` of `syscall_handler`. -/
def syscallTrap (system : System) : System :=
  { system with
    cpu := onInterrupts (swapgs (setFlag system.cpu false)) intDisable
    running := .syscall }

/-- The other half, from the `IRQ_RES` of `syscall_handler` to `sysretq`. -/
def syscallReturn (system : System) : System :=
  { system with
    cpu := setFlag (swapgs (onInterrupts system.cpu intResume)) true
    running := .user }

def syscallWriteFsbase (system : System) (fsbase : Nat) : System :=
  if fsbase ≤ 0x00007FFFFFFFFFFF then { system with cpu := { system.cpu with fsBase := fsbase } }
  else system

def compute (system : System) (fpu : FpuState) : System :=
  { system with cpu := { system.cpu with fpu } }

/-- What follows a call of `process_schedule`. An interrupt was taken with the flag set, so
`iretq` sets it. -/
def leaveSchedule (system : System) : Context → System
  | .timer fromUser =>
      { system with
        cpu := setFlag system.cpu true
        running := if fromUser then .user else .kernel }
  | .call _ => { system with running := .kernel }
  | .kernelEntry => { system with running := .kernel }
  | .userEntry => { system with cpu := setFlag (swapgs system.cpu) true, running := .user }
  | .exit _ => { system with running := .syscall }

/-! ## Runs -/

/-- What each process, by its address, has last put into its FS base and FPU registers. -/
abbrev Given := Nat → Nat × FpuState

def untouched : Nat × FpuState := (0, fun _ => 0)

/-- Runs of the whole system. Calls of the scheduler happen in states that `admits` allows. -/
inductive EventRun (admits : System → Context → Prop) : System → Nat × Nat → Nat → Given → Prop where
  | boot {system after : System} {node process stackTop : Nat} (blank : Blank system)
      (mode : system.running = .kernel) (settled : system.cpu.interrupts.syncDepth = 0)
      (fresh : Fresh system node process stackTop)
      (run : processCreate node process stackTop 0 system = .ok ⟨⟩ after) :
      EventRun admits after (node, process) 1 fun _ => untouched
  | create {system after : System} {idle : Nat × Nat} {created : Nat} {given : Given}
      {node process stackTop pagemap : Nat} (prior : EventRun admits system idle created given)
      (mode : system.running = .kernel) (fresh : Fresh system node process stackTop)
      (few : created + 1 < 2 ^ 32)
      (run : processCreate node process stackTop pagemap system = .ok ⟨⟩ after) :
      EventRun admits after idle (created + 1) (Function.update given process untouched)
  | createUser {system after : System} {idle : Nat × Nat} {created : Nat} {given : Given}
      {node process stackTop pagemap : Nat} (prior : EventRun admits system idle created given)
      (mode : system.running = .kernel) (fresh : Fresh system node process stackTop)
      (few : created + 1 < 2 ^ 32)
      (run : processCreateUser node process stackTop pagemap system = .ok ⟨⟩ after) :
      EventRun admits after idle (created + 1) (Function.update given process untouched)
  | timer {system : System} {idle : Nat × Nat} {created : Nat} {given : Given}
      (prior : EventRun admits system idle created given)
      (mode : system.running = .user ∨ system.running = .kernel)
      (enabled : system.cpu.interrupts.enabled = true) :
      EventRun admits (timerEntry system) idle created given
  | yield {system : System} {idle : Nat × Nat} {created : Nat} {given : Given}
      (prior : EventRun admits system idle created given) (mode : system.running = .kernel) :
      EventRun admits (called system (.call system.cpu.interrupts.enabled)) idle created given
  | sleep {system after : System} {idle : Nat × Nat} {created ms : Nat} {given : Given}
      (prior : EventRun admits system idle created given) (mode : system.running = .kernel)
      (notIdle : system.head ≠ idle.1) (run : markAsleep ms system = .ok ⟨⟩ after) :
      EventRun admits (called after (.call system.cpu.interrupts.enabled)) idle created given
  | exit {system after : System} {idle : Nat × Nat} {created : Nat} {given : Given}
      (prior : EventRun admits system idle created given) (mode : system.running = .kernel)
      (notIdle : system.head ≠ idle.1) (run : markDead system = .ok ⟨⟩ after) :
      EventRun admits (called after (.call system.cpu.interrupts.enabled)) idle created given
  | syscallExit {system after : System} {idle : Nat × Nat} {created : Nat} {given : Given}
      (prior : EventRun admits system idle created given) (mode : system.running = .syscall)
      (run : markDead system = .ok ⟨⟩ after) :
      EventRun admits (called after (.exit true)) idle created given
  | fault {system after : System} {idle : Nat × Nat} {created : Nat} {given : Given}
      (prior : EventRun admits system idle created given) (mode : system.running = .user)
      (run : markDead (faultEntry system) = .ok ⟨⟩ after) :
      EventRun admits (called after (.exit false)) idle created given
  | schedule {system after : System} {idle : Nat × Nat} {created : Nat} {given : Given}
      {caller : Context} (prior : EventRun admits system idle created given)
      (mode : system.running = .calling caller) (admitted : admits system caller)
      (run : processSchedule caller system = .ok ⟨⟩ after) : EventRun admits after idle created given
  | leave {system : System} {idle : Nat × Nat} {created : Nat} {given : Given} {context : Context}
      (prior : EventRun admits system idle created given)
      (mode : system.running = .returned context) :
      EventRun admits (leaveSchedule system context) idle created given
  | syscall {system : System} {idle : Nat × Nat} {created : Nat} {given : Given}
      (prior : EventRun admits system idle created given) (mode : system.running = .user) :
      EventRun admits (syscallTrap system) idle created given
  | sysret {system : System} {idle : Nat × Nat} {created : Nat} {given : Given}
      (prior : EventRun admits system idle created given) (mode : system.running = .syscall) :
      EventRun admits (syscallReturn system) idle created given
  | writeFsbase {system : System} {idle : Nat × Nat} {created fsbase : Nat} {given : Given}
      {node : Node Nat Nat} (prior : EventRun admits system idle created given)
      (mode : system.running = .syscall) (current : system.nodes system.head = some node)
      (accepted : fsbase ≤ 0x00007FFFFFFFFFFF) :
      EventRun admits (syscallWriteFsbase system fsbase) idle created
        (Function.update given node.payload (fsbase, (given node.payload).2))
  | compute {system : System} {idle : Nat × Nat} {created : Nat} {given : Given} {fpu : FpuState}
      {node : Node Nat Nat} (prior : EventRun admits system idle created given)
      (mode : system.running = .user) (current : system.nodes system.head = some node) :
      EventRun admits (compute system fpu) idle created
        (Function.update given node.payload ((given node.payload).1, fpu))

/-! ## What a run keeps -/

def owner : Context → ProcessType
  | .kernelEntry => .kernel
  | .userEntry => .user
  | .timer fromUser => if fromUser then .user else .kernel
  | .call _ => .kernel
  | .exit _ => .user

def leaves : Context → Bool
  | .exit _ => true
  | _ => false

structure Saved (process : Process) (context : Context) : Prop where
  type : process.type = owner context
  left : leaves context = true → process.state = .dead

/-- The current process is of the type that the processor's activity needs. -/
def Fits (process : Process) : Running → Prop
  | .user => process.type = .user
  | .kernel => process.type = .kernel
  | .syscall => process.type = .user
  | .calling context => Saved process context
  | .returned context => process.type = owner context ∧ leaves context = false

structure EventSound (system : System) (idle : Nat × Nat) (created : Nat) (first : Nat × Nat)
    (rest : List (Nat × Nat)) : Prop where
  sound : SystemSound system idle created (first :: rest)
  idleKernel : ∀ process, system.procs idle.2 = some process → process.type = .kernel
  waiting : ∀ entry ∈ rest, ∀ process, system.procs entry.2 = some process →
    Saved process process.krsp
  current : ∀ process, system.procs first.2 = some process → Fits process system.running

section Sound

variable {system after middle : System} {idle first chosen : Nat × Nat} {created : Nat}
  {rest others : List (Nat × Nat)} {prev curr : Process}

section

variable (sound : EventSound system idle created first rest)

include sound

theorem EventSound.found :
    ∃ process, system.procs first.2 = some process ∧ Fits process system.running := by
  obtain ⟨process, found, -⟩ := sound.sound.state.listed first List.mem_cons_self
  exact ⟨process, found, sound.current process found⟩

theorem EventSound.move (cpu : Cpu) (ticks : Nat) (running : Running)
    (fits : ∀ process, Fits process system.running → Fits process running) :
    EventSound { system with cpu, ticks, running } idle created first rest where
  sound := ⟨sound.sound.state, sound.sound.head, sound.sound.goes, sound.sound.pids, sound.sound.few,
    sound.sound.kernel⟩
  idleKernel := sound.idleKernel
  waiting := sound.waiting
  current process found := fits process (sound.current process found)

theorem EventSound.fault_entry : EventSound (faultEntry system) idle created first rest :=
  sound.move _ _ _ fun _ fits => fits

theorem EventSound.other_address {entry : Nat × Nat} (member : entry ∈ rest) :
    entry.2 ≠ first.2 := by
  have distinct := sound.sound.state.distinct
  rw [List.map_cons, List.nodup_cons] at distinct
  intro same
  exact distinct.1 (same ▸ List.mem_map_of_mem member)

theorem EventSound.ne_fresh {node address stackTop : Nat}
    (fresh : Fresh system node address stackTop) {entry : Nat × Nat}
    (member : entry ∈ first :: rest) : entry.2 ≠ address := by
  intro same
  obtain ⟨old, found, -⟩ := sound.sound.state.listed entry member
  rw [same, fresh.freshProcess] at found
  cases found

theorem EventSound.add {node address stackTop : Nat} {process : Process}
    (fresh : Fresh system node address stackTop)
    (grown : SystemSound after idle (created + 1) (first :: (node, address) :: rest))
    (added : Added address process system after) (saved : Saved process process.krsp) :
    EventSound after idle (created + 1) first ((node, address) :: rest) := by
  have procs : after.procs = Function.update system.procs address (some process) := by rw [added]
  have running : after.running = system.running := by rw [added]
  have kept : ∀ other, other ≠ address → after.procs other = system.procs other := by
    intro other different
    rw [procs, Function.update_of_ne different]
  have present : ∀ entry ∈ first :: rest, entry.2 ≠ address :=
    fun _ member => sound.ne_fresh fresh member
  refine ⟨grown, ?_, ?_, ?_⟩
  · rw [kept _ (present idle sound.sound.state.idleListed)]
    exact sound.idleKernel
  · intro entry member old found
    rcases List.mem_cons.mp member with rfl | inRest
    · rw [procs, Function.update_self] at found
      cases found
      exact saved
    · rw [kept _ (present entry (List.mem_cons_of_mem _ inRest))] at found
      exact sound.waiting entry inRest old found
  · rw [kept _ (present first List.mem_cons_self), running]
    exact sound.current

theorem EventSound.change (found : system.procs first.2 = some prev) (new : Process)
    (caller : Context) (sameId : new.id = prev.id) (samePagemap : new.pagemap = prev.pagemap)
    (sameStack : new.stackTop = prev.stackTop) (notIdle : first ≠ idle) (saved : Saved new caller) :
    EventSound
      (called { system with procs := Function.update system.procs first.2 (some new) } caller) idle
      created first rest := by
  have changed := sound.sound.set_current found new sameId samePagemap sameStack
    fun same => absurd same notIdle
  refine ⟨⟨changed.state, changed.head, changed.goes, changed.pids, changed.few, changed.kernel⟩,
    ?_, ?_, ?_⟩
  · intro process idleFound
    change Function.update system.procs first.2 (some new) idle.2 = some process at idleFound
    by_cases same : idle.2 = first.2
    · exact absurd (sound.sound.state.entry_eq List.mem_cons_self sound.sound.state.idleListed
        same.symm) notIdle
    · rw [Function.update_of_ne same] at idleFound
      exact sound.idleKernel process idleFound
  · intro entry member process entryFound
    change Function.update system.procs first.2 (some new) entry.2 = some process at entryFound
    rw [Function.update_of_ne (sound.other_address member)] at entryFound
    exact sound.waiting entry member process entryFound
  · intro process newFound
    change Function.update system.procs first.2 (some new) first.2 = some process at newFound
    rw [Function.update_self] at newFound
    cases newFound
    exact saved

theorem EventSound.resumed
    (choice : Choice idle created first chosen rest others prev curr system middle)
    (moved : chosen ≠ first) : curr.type = owner curr.krsp ∧ leaves curr.krsp = false := by
  rcases (choice.members chosen).mp List.mem_cons_self with same | survivor
  · exact absurd same moved
  · have saved := sound.waiting chosen survivor.1 curr choice.currFound
    refine ⟨saved.type, ?_⟩
    cases leaving : leaves curr.krsp with
    | false => rfl
    | true => exact absurd (saved.left leaving) choice.alive

theorem EventSound.schedule {caller : Context} (mode : system.running = .calling caller)
    (choice : Choice idle created first chosen rest others prev curr system middle) :
    EventSound (scheduled middle first chosen prev curr caller) idle created chosen others := by
  have caught : Saved prev caller := by
    have fits := sound.current prev choice.prevFound
    rwa [mode] at fits
  have afterSound := after_sound choice caller sound.sound
  refine ⟨afterSound, ?_, ?_, ?_⟩
  · intro process found
    rcases List.mem_cons.mp afterSound.state.idleListed with isChosen | isOther
    · rw [isChosen, choice.after_found caller] at found
      cases found
      exact sound.idleKernel curr (isChosen ▸ choice.currFound)
    · rcases choice.after_waiting caller isOther with ⟨isFirst, -, parkedFound⟩ | ⟨-, -, same⟩
      · rw [parkedFound] at found
        cases found
        exact sound.idleKernel prev (isFirst ▸ choice.prevFound)
      · rw [same] at found
        exact sound.idleKernel process found
  · intro entry member process found
    rcases choice.after_waiting caller member with ⟨-, -, parkedFound⟩ | ⟨inRest, -, same⟩
    · rw [parkedFound] at found
      cases found
      exact ⟨caught.type, caught.left⟩
    · rw [same] at found
      exact sound.waiting entry inRest process found
  · intro process found
    rw [choice.after_found caller] at found
    cases found
    by_cases stays : chosen = first
    · have samePrev : curr = prev :=
        Option.some.inj (choice.currFound.symm.trans (stays ▸ choice.prevFound))
      rw [(choice.after_stay caller stays).1]
      refine ⟨samePrev ▸ caught.type, ?_⟩
      cases leaving : leaves caller with
      | false => rfl
      | true => exact absurd (samePrev ▸ caught.left leaving) choice.alive
    · rw [(choice.after_switch caller stays).1]
      exact sound.resumed choice stays

end

structure Marked (address : Nat) (old new : Process) (before after : System) : Prop where
  found : before.procs address = some old
  same : new = { old with wakeAt := new.wakeAt, state := new.state }
  after : after = { before with procs := Function.update before.procs address (some new) }

section

variable (sound : EventSound system idle created first rest)

include sound

theorem EventSound.mark_asleep {ms : Nat} (run : markAsleep ms system = .ok ⟨⟩ after) :
    ∃ old new, Marked first.2 old new system after := by
  obtain ⟨process, found, -⟩ := sound.found
  have marks : Ends (markAsleep ms) (fun _ after => ∃ old new, Marked first.2 old new system after)
      (fun _ _ => True) system := by
    rw [ends_markAsleep sound.sound found]
    exact ⟨process, _, found, rfl, rfl⟩
  exact marks.returns run

theorem EventSound.mark_dead (run : markDead system = .ok ⟨⟩ after) :
    ∃ old new, Marked first.2 old new system after ∧ new.state = .dead := by
  obtain ⟨process, found, -⟩ := sound.found
  have marks : Ends markDead
      (fun _ after => ∃ old new, Marked first.2 old new system after ∧ new.state = .dead)
      (fun _ _ => True) system := by
    rw [ends_markDead sound.sound found]
    exact ⟨process, _, ⟨found, rfl, rfl⟩, rfl⟩
  exact marks.returns run

theorem EventSound.marked (marked : Marked first.2 prev curr system after) (caller : Context)
    (notIdle : first ≠ idle) (type : prev.type = owner caller)
    (left : leaves caller = true → curr.state = .dead) :
    EventSound (called after caller) idle created first rest := by
  have sameType : curr.type = prev.type := by rw [marked.same]
  have sameId : curr.id = prev.id := by rw [marked.same]
  have samePagemap : curr.pagemap = prev.pagemap := by rw [marked.same]
  have sameStack : curr.stackTop = prev.stackTop := by rw [marked.same]
  rw [marked.after]
  exact sound.change marked.found curr caller sameId samePagemap sameStack notIdle
    ⟨sameType.trans type, left⟩

theorem EventSound.not_idle {process : Process} (found : system.procs first.2 = some process)
    (user : process.type = .user) : first ≠ idle := by
  rintro rfl
  have kernel := sound.idleKernel process found
  rw [user] at kernel
  cases kernel

theorem EventSound.not_idle_of_head (different : system.head ≠ idle.1) : first ≠ idle :=
  fun same => different (same ▸ sound.sound.head)

end

end Sound

section Runs

variable {admits : System → Context → Prop} {system : System} {idle : Nat × Nat} {created : Nat}
  {given : Given}

theorem fits_timer {running : Running} (mode : running = .user ∨ running = .kernel)
    (process : Process) (fits : Fits process running) :
    Fits process (.calling (.timer (running = .user))) := by
  rcases mode with rfl | rfl
  · exact ⟨fits, fun leaving => by cases leaving⟩
  · exact ⟨fits, fun leaving => by cases leaving⟩

theorem fits_call {process : Process} (fits : Fits process .kernel) (enabled : Bool) :
    Fits process (.calling (.call enabled)) :=
  ⟨fits, fun leaving => by cases leaving⟩

theorem fits_leave {context : Context} (process : Process) (fits : Fits process (.returned context)) :
    Fits process (leaveSchedule system context).running := by
  obtain ⟨type, stays⟩ := fits
  cases context with
  | kernelEntry => exact type
  | userEntry => exact type
  | timer fromUser => cases fromUser <;> exact type
  | call enabled => exact type
  | exit inSyscall => cases stays

theorem leave_schedule_eq (system : System) (context : Context) :
    leaveSchedule system context =
      { system with
        cpu := (leaveSchedule system context).cpu
        running := (leaveSchedule system context).running } := by
  cases context <;> rfl

theorem event_sound_of_run (run : EventRun admits system idle created given) :
    ∃ first rest, EventSound system idle created first rest := by
  induction run with
  | boot blank mode _ fresh run =>
    have booted := boot_sound blank fresh run
    refine ⟨_, [], booted.sound, ?_, ?_, ?_⟩
    · intro process found
      rw [booted.found] at found
      cases found
      rfl
    · intro entry member
      cases member
    · intro process found
      rw [booted.found] at found
      cases found
      rw [booted.running, mode]
      rfl
  | create _ _ fresh few run induction =>
    obtain ⟨first, rest, sound⟩ := induction
    obtain ⟨grown, mapped, added⟩ := create_sound sound.sound fresh few run
    exact ⟨first, _, sound.add fresh grown added ⟨rfl, fun leaving => by cases leaving⟩⟩
  | createUser _ _ fresh few run induction =>
    obtain ⟨first, rest, sound⟩ := induction
    obtain ⟨grown, added⟩ := create_user_sound sound.sound fresh few run
    exact ⟨first, _, sound.add fresh grown added ⟨rfl, fun leaving => by cases leaving⟩⟩
  | timer _ mode _ induction =>
    obtain ⟨first, rest, sound⟩ := induction
    exact ⟨first, rest, sound.move _ _ _ (fits_timer mode)⟩
  | yield _ mode induction =>
    obtain ⟨first, rest, sound⟩ := induction
    exact ⟨first, rest, sound.move _ _ _ fun _ fits => fits_call (mode ▸ fits) _⟩
  | sleep _ mode notIdle run induction =>
    obtain ⟨first, rest, sound⟩ := induction
    obtain ⟨old, new, marked⟩ := sound.mark_asleep run
    have kernel : Fits old .kernel := mode ▸ sound.current old marked.found
    exact ⟨first, rest, sound.marked marked _ (sound.not_idle_of_head notIdle) kernel
      fun leaving => by cases leaving⟩
  | exit _ mode notIdle run induction =>
    obtain ⟨first, rest, sound⟩ := induction
    obtain ⟨old, new, marked, -⟩ := sound.mark_dead run
    have kernel : Fits old .kernel := mode ▸ sound.current old marked.found
    exact ⟨first, rest, sound.marked marked _ (sound.not_idle_of_head notIdle) kernel
      fun leaving => by cases leaving⟩
  | syscallExit _ mode run induction =>
    obtain ⟨first, rest, sound⟩ := induction
    obtain ⟨old, new, marked, dead⟩ := sound.mark_dead run
    have user : Fits old .syscall := mode ▸ sound.current old marked.found
    exact ⟨first, rest, sound.marked marked _ (sound.not_idle marked.found user) user
      fun _ => dead⟩
  | fault _ mode run induction =>
    obtain ⟨first, rest, sound⟩ := induction
    have entered := sound.fault_entry
    obtain ⟨old, new, marked, dead⟩ := entered.mark_dead run
    have user : Fits old .user := mode ▸ sound.current old marked.found
    exact ⟨first, rest, entered.marked marked _ (sound.not_idle marked.found user) user
      fun _ => dead⟩
  | schedule _ mode _ run induction =>
    obtain ⟨first, rest, sound⟩ := induction
    obtain ⟨chosen, others, prev, curr, middle, choice, rfl⟩ :=
      (sound.sound.schedule _).returns run
    exact ⟨chosen, others, sound.schedule mode choice⟩
  | leave _ mode induction =>
    obtain ⟨first, rest, sound⟩ := induction
    rw [leave_schedule_eq]
    exact ⟨first, rest, sound.move _ _ _ fun process fits => fits_leave process (mode ▸ fits)⟩
  | syscall _ mode induction =>
    obtain ⟨first, rest, sound⟩ := induction
    exact ⟨first, rest, sound.move _ _ _ fun process fits =>
      show Fits process .user from mode ▸ fits⟩
  | sysret _ mode induction =>
    obtain ⟨first, rest, sound⟩ := induction
    exact ⟨first, rest, sound.move _ _ _ fun process fits =>
      show Fits process .syscall from mode ▸ fits⟩
  | writeFsbase _ _ _ accepted induction =>
    obtain ⟨first, rest, sound⟩ := induction
    rw [syscallWriteFsbase, if_pos accepted]
    exact ⟨first, rest, sound.move _ _ _ fun _ fits => fits⟩
  | compute _ _ _ induction =>
    obtain ⟨first, rest, sound⟩ := induction
    exact ⟨first, rest, sound.move _ _ _ fun _ fits => fits⟩

end Runs

end RiriaKernel.ProcessEvents
