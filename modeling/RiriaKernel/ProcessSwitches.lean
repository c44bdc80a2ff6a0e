import Mathlib.Data.List.Basic
import RiriaKernel.ByteMemory

/-!
# Transfers between kernel stacks

`process_switch` parks the running process on its own kernel stack, leaves the address of the
parked words in the `krsp` slot of one process record and takes up the words that another slot
points to. `process_create` and `process_create_user` lay out the words of a process that has
never run. Over any history of switches, creations and work on the running stack the processor's
registers are those of a machine of coroutines, which keeps one set of registers for each process
that waits.
-/

namespace RiriaKernel.ProcessSwitches

open ByteMemory

/-- The registers that a called function keeps, with the address behind the call in `rip`. -/
structure Registers where
  rip : UInt64
  rsp : UInt64
  rbp : UInt64
  rbx : UInt64
  r12 : UInt64
  r13 : UInt64
  r14 : UInt64
  r15 : UInt64
  deriving DecidableEq

/-! ## Words on a stack -/

/-- `PUSH_STACK`, and `push` of the processor. -/
def pushStack (stack : Memory × UInt64) (value : UInt64) : Memory × UInt64 :=
  (store64 stack.1 (stack.2 - 8).toNat value.toNat, stack.2 - 8)

def WordsAt (memory : Memory) (address : Nat) : List UInt64 → Prop
  | [] => True
  | word :: rest => load64 memory address = word.toNat ∧ WordsAt memory (address + 8) rest

section Words

variable {memory after : Memory} {words : List UInt64} {value rsp : UInt64}

theorem words_congr {address : Nat} (words : List UInt64)
    (same : ∀ position, address ≤ position → position < address + 8 * words.length →
      after position = memory position) (held : WordsAt memory address words) :
    WordsAt after address words := by
  induction words generalizing address with
  | nil => trivial
  | cons word rest induction =>
    rw [List.length_cons] at same
    refine ⟨(load64_congr fun position low high => same position low (by omega)).trans held.1, ?_⟩
    exact induction (fun position low high => same position (by omega) (by omega)) held.2

theorem rsp_pushed (room : 8 ≤ rsp.toNat) : (rsp - 8).toNat = rsp.toNat - 8 :=
  UInt64.toNat_sub_of_le _ _ (UInt64.le_iff_toNat_le.mpr room)

theorem words_pushed (values : List UInt64) {stack : Memory × UInt64}
    (room : 8 * values.length ≤ stack.2.toNat) (held : WordsAt stack.1 stack.2.toNat words) :
    (values.foldl pushStack stack).2.toNat + 8 * values.length = stack.2.toNat ∧
      WordsAt (values.foldl pushStack stack).1 (values.foldl pushStack stack).2.toNat
        (values.reverse ++ words) ∧
      ∀ position, position + 8 * values.length < stack.2.toNat ∨ stack.2.toNat ≤ position →
        (values.foldl pushStack stack).1 position = stack.1 position := by
  induction values generalizing stack words with
  | nil => exact ⟨rfl, held, fun _ _ => rfl⟩
  | cons value rest induction =>
    rw [List.length_cons] at room ⊢
    have down : (pushStack stack value).2.toNat = stack.2.toNat - 8 := rsp_pushed (by omega)
    have here : (stack.2 - 8).toNat = stack.2.toNat - 8 := down
    have pushedOne : ∀ position, position + 8 < stack.2.toNat ∨ stack.2.toNat ≤ position →
        (pushStack stack value).1 position = stack.1 position := fun position outside =>
      store64_apply_other (by omega)
    have next : WordsAt (pushStack stack value).1 (pushStack stack value).2.toNat (value :: words) := by
      refine ⟨load64_store64 value.toNat_lt, ?_⟩
      rw [down, Nat.sub_add_cancel (by omega)]
      exact words_congr words (fun position low _ => pushedOne position (Or.inr low)) held
    obtain ⟨place, pushed, kept⟩ := induction (by omega) next
    rw [List.foldl_cons, List.reverse_cons, List.append_assoc]
    refine ⟨by omega, pushed, fun position outside => ?_⟩
    exact (kept position (by omega)).trans (pushedOne position (by omega))

theorem word_popped (held : WordsAt memory rsp.toNat (value :: words)) (room : rsp.toNat + 8 < 2 ^ 64) :
    UInt64.ofNat (load64 memory rsp.toNat) = value ∧ (rsp + 8).toNat = rsp.toNat + 8 ∧
      WordsAt memory (rsp + 8).toNat words := by
  have up : (rsp + 8).toNat = rsp.toNat + 8 := by
    rw [UInt64.toNat_add]
    exact Nat.mod_eq_of_lt room
  refine ⟨?_, up, ?_⟩
  · rw [held.1, UInt64.ofNat_toNat]
  · rw [up]
    exact held.2

end Words

/-! ## The assembly -/

inductive Register
  | rbp | rbx | r12 | r13 | r14 | r15

/-- `mov %rsp, (%rdi)` and `mov (%rsi), %rsp` are the only moves. -/
inductive Instruction
  | push (register : Register)
  | pop (register : Register)
  | saveStack
  | loadStack
  | ret

structure Core where
  memory : Memory
  registers : Registers
  rdi : Nat
  rsi : Nat

def Registers.get (registers : Registers) : Register → UInt64
  | .rbp => registers.rbp
  | .rbx => registers.rbx
  | .r12 => registers.r12
  | .r13 => registers.r13
  | .r14 => registers.r14
  | .r15 => registers.r15

def Registers.set (registers : Registers) (value : UInt64) : Register → Registers
  | .rbp => { registers with rbp := value }
  | .rbx => { registers with rbx := value }
  | .r12 => { registers with r12 := value }
  | .r13 => { registers with r13 := value }
  | .r14 => { registers with r14 := value }
  | .r15 => { registers with r15 := value }

def pushWord (core : Core) (value : UInt64) : Core :=
  let stack := pushStack (core.memory, core.registers.rsp) value
  { core with memory := stack.1, registers := { core.registers with rsp := stack.2 } }

def topWord (core : Core) : UInt64 := UInt64.ofNat (load64 core.memory core.registers.rsp.toNat)

def execute (core : Core) : Instruction → Core
  | .push register => pushWord core (core.registers.get register)
  | .pop register =>
      let registers := core.registers.set (topWord core) register
      { core with registers := { registers with rsp := core.registers.rsp + 8 } }
  | .saveStack => { core with memory := store64 core.memory core.rdi core.registers.rsp.toNat }
  | .loadStack =>
      { core with registers :=
          { core.registers with rsp := UInt64.ofNat (load64 core.memory core.rsi) } }
  | .ret =>
      { core with registers :=
          { core.registers with rip := topWord core, rsp := core.registers.rsp + 8 } }

def parkCode : List Instruction :=
  [.push .rbp, .push .rbx, .push .r12, .push .r13, .push .r14, .push .r15, .saveStack]

def resumeCode : List Instruction :=
  [.loadStack, .pop .r15, .pop .r14, .pop .r13, .pop .r12, .pop .rbx, .pop .rbp, .ret]

def processSwitch : List Instruction := parkCode ++ resumeCode

/-- `call process_switch` with the addresses of two `krsp` slots. -/
def callSwitch (memory : Memory) (registers : Registers) (prev next : Nat) : Core :=
  processSwitch.foldl execute (pushWord ⟨memory, registers, prev, next⟩ registers.rip)

/-- What `process_switch` leaves on the stack, from the lowest word up. -/
def frame (registers : Registers) : List UInt64 :=
  [registers.r15, registers.r14, registers.r13, registers.r12, registers.rbx, registers.rbp,
    registers.rip]

/-- The words of the frame are pushed, the highest first, and their address goes to a slot. -/
def parkedMemory (memory : Memory) (registers : Registers) (slot : Nat) : Memory :=
  let stack := (frame registers).reverse.foldl pushStack (memory, registers.rsp)
  store64 stack.1 slot stack.2.toNat

section Code

variable {memory : Memory} {registers : Registers} {prev next : Nat}

theorem parked_eq :
    parkCode.foldl execute (pushWord ⟨memory, registers, prev, next⟩ registers.rip) =
      ⟨parkedMemory memory registers prev,
        { registers with rsp := ((frame registers).reverse.foldl pushStack (memory, registers.rsp)).2 },
        prev, next⟩ :=
  rfl

theorem resumed_eq {core : Core} (place : load64 core.memory core.rsi + 56 = registers.rsp.toNat)
    (held : WordsAt core.memory (load64 core.memory core.rsi) (frame registers)) :
    resumeCode.foldl execute core = { core with registers } := by
  have bounded := registers.rsp.toNat_lt
  obtain ⟨krsp, loaded⟩ : ∃ krsp, UInt64.ofNat (load64 core.memory core.rsi) = krsp := ⟨_, rfl⟩
  have slot : load64 core.memory core.rsi = krsp.toNat := by
    rw [← loaded, UInt64.toNat_ofNat_of_lt' (load64_lt _ _)]
  rw [slot] at place held
  obtain ⟨r15, at1, held⟩ := word_popped held (by omega)
  obtain ⟨r14, at2, held⟩ := word_popped held (by omega)
  obtain ⟨r13, at3, held⟩ := word_popped held (by omega)
  obtain ⟨r12, at4, held⟩ := word_popped held (by omega)
  obtain ⟨rbx, at5, held⟩ := word_popped held (by omega)
  obtain ⟨rbp, at6, held⟩ := word_popped held (by omega)
  obtain ⟨rip, at7, -⟩ := word_popped held (by omega)
  have top : krsp + 8 + 8 + 8 + 8 + 8 + 8 + 8 = registers.rsp := by
    apply UInt64.toNat_inj.mp
    omega
  simp only [resumeCode, List.foldl_cons, List.foldl_nil, execute, topWord, Registers.set, loaded, r15,
    r14, r13, r12, rbx, rbp, rip, top]

end Code

/-! ## Processes -/

def stackSize : Nat := 0x10000

/-- The size of `process_t`, whose first word is `krsp`. -/
def processSize : Nat := 608

structure Block where
  record : Nat
  stack : Nat
  size : Nat
  deriving DecidableEq

def Block.Relies (block : Block) (address : Nat) : Prop :=
  (block.record ≤ address ∧ address < block.record + 8) ∨
    (block.stack ≤ address ∧ address < block.stack + block.size)

def Block.Covers (block : Block) (address : Nat) : Prop :=
  (block.record ≤ address ∧ address < block.record + processSize) ∨
    (block.stack ≤ address ∧ address < block.stack + block.size)

structure Block.Sound (block : Block) : Prop where
  apart : block.record + processSize ≤ block.stack ∨ block.stack + block.size ≤ block.record
  fits : block.stack + block.size < 2 ^ 64

structure Entries where
  processKernelTrampoline : UInt64
  processUserTrampoline : UInt64
  forever : UInt64

/-- `((uintptr_t)stack + STACK_SIZE) & ~0xF`. -/
def stackTop (stack : Nat) : UInt64 := UInt64.ofNat ((stack + stackSize) / 16 * 16)

/-- The registers with which a process starts: `r15` is its entry point, and `r14` the top of the
user stack of a user process. -/
def firstRegisters (entries : Entries) (stack : Nat) (entry : UInt64) (userStackTop : Option UInt64) :
    Registers where
  rip := match userStackTop with
    | none => entries.processKernelTrampoline
    | some _ => entries.processUserTrampoline
  rsp := stackTop stack
  rbp := 0
  rbx := 0
  r12 := 0
  r13 := 0
  r14 := userStackTop.getD 0
  r15 := if entry = 0 then entries.forever else entry

/-- `process_create` and, with the top of a user stack, `process_create_user`: the record and the
stack are cleared, seven words are pushed, and `krsp` is set. -/
def processCreate (entries : Entries) (memory : Memory) (block : Block) (entry : UInt64)
    (userStackTop : Option UInt64) : Memory :=
  let entry := if entry = 0 then entries.forever else entry
  let cleared := memset (memset memory block.record 0 processSize) block.stack 0 stackSize
  let words := match userStackTop with
    | none => [entries.processKernelTrampoline, 0, 0, 0, 0, 0, entry]
    | some user => [entries.processUserTrampoline, 0, 0, 0, 0, user, entry]
  let stack := words.foldl pushStack (cleared, stackTop block.stack)
  store64 stack.1 block.record stack.2.toNat

/-- A process waits with `registers`: its slot points to their frame on its own stack. -/
structure Waits (memory : Memory) (block : Block) (registers : Registers) : Prop where
  slot : load64 memory block.record + 56 = registers.rsp.toNat
  inside : block.stack ≤ load64 memory block.record
  top : registers.rsp.toNat ≤ block.stack + block.size
  words : WordsAt memory (load64 memory block.record) (frame registers)

section Blocks

variable {memory after : Memory} {block : Block} {registers : Registers}

theorem Waits.congr (waits : Waits memory block registers)
    (same : ∀ address, block.Relies address → after address = memory address) :
    Waits after block registers := by
  have slot : load64 after block.record = load64 memory block.record :=
    load64_congr fun position low high => same position (Or.inl ⟨low, high⟩)
  have place := waits.slot
  have inside := waits.inside
  have top := waits.top
  refine ⟨slot ▸ place, slot ▸ inside, top, ?_⟩
  rw [slot]
  refine words_congr _ (fun position low high => same position (Or.inr ⟨by omega, ?_⟩)) waits.words
  have length : (frame registers).length = 7 := rfl
  omega

theorem waits_parked (memory : Memory) (sound : block.Sound)
    (room : block.stack + 56 ≤ registers.rsp.toNat)
    (top : registers.rsp.toNat ≤ block.stack + block.size) :
    Waits (parkedMemory memory registers block.record) block registers ∧
      ∀ address, ¬block.Relies address →
        parkedMemory memory registers block.record address = memory address := by
  rw [parkedMemory]
  obtain ⟨stack, pushed⟩ : ∃ stack,
      (frame registers).reverse.foldl pushStack (memory, registers.rsp) = stack := ⟨_, rfl⟩
  obtain ⟨place, words, kept⟩ := words_pushed (frame registers).reverse
    (show 8 * 7 ≤ (memory, registers.rsp).2.toNat from Nat.le_trans (Nat.le_add_left _ _) room)
    (show WordsAt _ _ [] from trivial)
  have length : (frame registers).length = 7 := rfl
  rw [List.length_reverse, length, pushed] at place kept
  rw [List.reverse_reverse, List.append_nil, pushed] at words
  have slot : load64 (store64 stack.1 block.record stack.2.toNat) block.record = stack.2.toNat :=
    load64_store64 stack.2.toNat_lt
  have apart := sound.apart
  simp only at place kept
  unfold processSize at apart
  rw [pushed]
  refine ⟨⟨by omega, by omega, top, ?_⟩, ?_⟩
  · rw [slot]
    exact words_congr _ (fun position low high => store64_apply_other (by omega)) words
  · intro address outside
    unfold Block.Relies at outside
    rw [store64_apply_other (by omega)]
    exact kept address (by omega)

/-- `process_switch` parks the running process and takes up one that waits once that is done. -/
theorem call_switch_eq {target : Block} {other : Registers}
    (waits : Waits (parkedMemory memory registers block.record) target other) :
    callSwitch memory registers block.record target.record =
      ⟨parkedMemory memory registers block.record, other, block.record, target.record⟩ := by
  rw [callSwitch, processSwitch, List.foldl_append, parked_eq]
  exact @resumed_eq other _ waits.slot waits.words

end Blocks

theorem waits_created (entries : Entries) (memory : Memory) {block : Block} (sound : block.Sound)
    (size : block.size = stackSize) (entry : UInt64) (userStackTop : Option UInt64) :
    Waits (processCreate entries memory block entry userStackTop) block
        (firstRegisters entries block.stack entry userStackTop) ∧
      ∀ address, ¬block.Covers address →
        processCreate entries memory block entry userStackTop address = memory address := by
  have parked : processCreate entries memory block entry userStackTop =
      parkedMemory (memset (memset memory block.record 0 processSize) block.stack 0 stackSize)
        (firstRegisters entries block.stack entry userStackTop) block.record := by
    cases userStackTop <;> rfl
  have fits := sound.fits
  have top : (stackTop block.stack).toNat = (block.stack + stackSize) / 16 * 16 :=
    UInt64.toNat_ofNat_of_lt' (show _ < 2 ^ 64 by
      rw [size] at fits
      omega)
  unfold stackSize at top size
  obtain ⟨waits, kept⟩ := @waits_parked block (firstRegisters entries block.stack entry userStackTop)
    (memset (memset memory block.record 0 processSize) block.stack 0 stackSize) sound
    (show block.stack + 56 ≤ (stackTop block.stack).toNat by omega)
    (show (stackTop block.stack).toNat ≤ block.stack + block.size by omega)
  rw [parked]
  refine ⟨waits, fun address outside => ?_⟩
  unfold Block.Covers processSize at outside
  refine (kept address fun relied => outside (relied.imp_left fun slot => by omega)).trans ?_
  unfold processSize stackSize
  rw [memset_apply, if_neg (by omega), memset_apply, if_neg (by omega)]

/-! ## Histories -/

structure State where
  memory : Memory
  registers : Registers
  running : Nat
  blocks : Nat → Option Block

inductive Event
  | work (memory : Memory) (registers : Registers)
  | create (id : Nat) (block : Block) (entry : UInt64) (userStackTop : Option UInt64)
  | switch (next : Nat)

def State.apply (entries : Entries) (state : State) : Event → State
  | .work memory registers => { state with memory, registers }
  | .create id block entry userStackTop =>
      { state with
        memory := processCreate entries state.memory block entry userStackTop
        blocks := Function.update state.blocks id (some block) }
  | .switch next =>
      match state.blocks state.running, state.blocks next with
      | some mine, some target =>
          let core := callSwitch state.memory state.registers mine.record target.record
          { state with memory := core.memory, registers := core.registers, running := next }
      | _, _ => state

/-- The running process writes where no other one relies on the memory, it calls `process_switch`
with room for seven words on its own stack, and a new process has memory of its own. -/
def State.Allows (state : State) : Event → Prop
  | .work memory _ => ∀ id block, state.blocks id = some block → id ≠ state.running →
      ∀ address, block.Relies address → memory address = state.memory address
  | .create id block _ _ => state.blocks id = none ∧ block.Sound ∧ block.size = stackSize ∧
      ∀ other there, state.blocks other = some there → ∀ address, there.Relies address →
        ¬block.Covers address
  | .switch next => (∃ target, state.blocks next = some target) ∧
      ∃ mine, state.blocks state.running = some mine ∧ mine.stack + 56 ≤ state.registers.rsp.toNat ∧
        state.registers.rsp.toNat ≤ mine.stack + mine.size

def Allowed (entries : Entries) (state : State) : List Event → Prop
  | [] => True
  | event :: rest => state.Allows event ∧ Allowed entries (state.apply entries event) rest

def Starts (state : State) : Prop :=
  ∃ block : Block, block.Sound ∧
    state.blocks = Function.update (fun _ => none) state.running (some block)

/-- Coroutines: each process that waits keeps the registers it will go on with. -/
structure Coroutines where
  running : Nat
  registers : Registers
  waiting : Nat → Option Registers

/-- A transfer leaves the registers of the running process as they are when it calls and takes up
those of the next one; a new process waits at its trampoline. -/
def Coroutines.step (entries : Entries) (model : Coroutines) : Event → Coroutines
  | .work _ registers => { model with registers }
  | .create id block entry userStackTop =>
      let first := firstRegisters entries block.stack entry userStackTop
      { model with waiting := Function.update model.waiting id (some first) }
  | .switch next =>
      let waiting := Function.update model.waiting model.running (some model.registers)
      { running := next, registers := (waiting next).getD model.registers, waiting }

/-- The processor agrees with the coroutines, and every process but the running one waits. -/
structure Agrees (state : State) (model : Coroutines) : Prop where
  running : state.running = model.running
  registers : state.registers = model.registers
  live : ∃ mine, state.blocks state.running = some mine
  sound : ∀ id block, state.blocks id = some block → block.Sound
  apart : ∀ id block other there, state.blocks id = some block → state.blocks other = some there →
    id ≠ other → ∀ address, block.Relies address → ¬there.Relies address
  waits : ∀ id block, state.blocks id = some block → id ≠ state.running →
    ∃ registers, model.waiting id = some registers ∧ Waits state.memory block registers

theorem found_updated {blocks : Nat → Option Block} {id other : Nat} {block there : Block}
    (found : Function.update blocks id (some block) other = some there) :
    (other = id ∧ there = block) ∨ (other ≠ id ∧ blocks other = some there) := by
  by_cases same : other = id
  · rw [same, Function.update_self] at found
    exact Or.inl ⟨same, (Option.some.inj found).symm⟩
  · rw [Function.update_of_ne same] at found
    exact Or.inr ⟨same, found⟩

theorem Block.Relies.covers {block : Block} {address : Nat} (relied : block.Relies address) :
    block.Covers address :=
  relied.imp_left fun slot => ⟨slot.1, Nat.lt_of_lt_of_le slot.2 (by unfold processSize; omega)⟩

section Steps

variable {entries : Entries} {state : State} {model : Coroutines}

section

variable (agrees : Agrees state model)

include agrees

theorem Agrees.create {id : Nat} {block : Block} {entry : UInt64} {userStackTop : Option UInt64}
    (allows : state.Allows (.create id block entry userStackTop)) :
    Agrees (state.apply entries (.create id block entry userStackTop))
      (model.step entries (.create id block entry userStackTop)) := by
  obtain ⟨absent, sound, size, fresh⟩ := allows
  obtain ⟨created, kept⟩ := waits_created entries state.memory sound size entry userStackTop
  obtain ⟨mine, live⟩ := agrees.live
  refine ⟨agrees.running, agrees.registers, ⟨mine, ?_⟩, ?_, ?_, ?_⟩
  · change Function.update state.blocks id (some block) state.running = some mine
    rw [Function.update_of_ne, live]
    rintro rfl
    rw [absent] at live
    cases live
  · intro other there here
    rcases found_updated here with ⟨-, rfl⟩ | ⟨-, old⟩
    · exact sound
    · exact agrees.sound other there old
  · intro left mine right there atLeft atRight different address relied other
    rcases found_updated atLeft with ⟨rfl, rfl⟩ | ⟨-, oldLeft⟩
    · rcases found_updated atRight with ⟨rfl, -⟩ | ⟨-, oldRight⟩
      · exact different rfl
      · exact fresh right there oldRight address other relied.covers
    · rcases found_updated atRight with ⟨rfl, rfl⟩ | ⟨-, oldRight⟩
      · exact fresh left mine oldLeft address relied other.covers
      · exact agrees.apart left mine right there oldLeft oldRight different address relied other
  · intro other there here resting
    change ∃ registers, Function.update model.waiting id _ other = some registers ∧ _
    rcases found_updated here with ⟨rfl, rfl⟩ | ⟨different, old⟩
    · rw [Function.update_self]
      exact ⟨_, rfl, created⟩
    · obtain ⟨registers, waiting, waits⟩ := agrees.waits other there old resting
      rw [Function.update_of_ne different]
      exact ⟨registers, waiting, waits.congr fun address relied =>
        kept address (fresh other there old address relied)⟩

theorem Agrees.switch {next : Nat} (allows : state.Allows (.switch next)) :
    Agrees (state.apply entries (.switch next)) (model.step entries (.switch next)) := by
  obtain ⟨⟨target, there⟩, mine, here, room, top⟩ := allows
  obtain ⟨parked, kept⟩ := waits_parked state.memory (agrees.sound _ _ here) room top
  -- once the running process is parked, every process waits
  have ready : ∀ id block, state.blocks id = some block → ∃ registers,
      Function.update model.waiting model.running (some model.registers) id = some registers ∧
        Waits (parkedMemory state.memory state.registers mine.record) block registers := by
    intro id block found
    rw [← agrees.running, ← agrees.registers]
    by_cases same : id = state.running
    · rw [same, here] at found
      rw [same, Function.update_self]
      exact ⟨_, rfl, Option.some.inj found ▸ parked⟩
    · obtain ⟨registers, waiting, waits⟩ := agrees.waits id block found same
      rw [Function.update_of_ne same]
      exact ⟨registers, waiting, waits.congr fun address relied =>
        kept address (agrees.apart id block state.running mine found here same address relied)⟩
  obtain ⟨registers, waiting, waits⟩ := ready next target there
  have applied : state.apply entries (.switch next) =
      { state with
        memory := parkedMemory state.memory state.registers mine.record
        registers := registers
        running := next } := by
    simp only [State.apply, here, there, call_switch_eq waits]
  have stepped : (model.step entries (.switch next)).registers = registers := by
    simp only [Coroutines.step, waiting, Option.getD_some]
  rw [applied]
  exact ⟨rfl, stepped.symm, ⟨target, there⟩, agrees.sound, agrees.apart, fun id block found _ =>
    ready id block found⟩

theorem Agrees.step {event : Event} (allows : state.Allows event) :
    Agrees (state.apply entries event) (model.step entries event) := by
  cases event with
  | work memory registers =>
    refine ⟨agrees.running, rfl, agrees.live, agrees.sound, agrees.apart, ?_⟩
    intro id block found resting
    obtain ⟨waited, waiting, waits⟩ := agrees.waits id block found resting
    exact ⟨waited, waiting, waits.congr (allows id block found resting)⟩
  | create id block entry userStackTop => exact agrees.create allows
  | switch next => exact agrees.switch allows

theorem Agrees.run {events : List Event} (allowed : Allowed entries state events) :
    Agrees (events.foldl (State.apply entries) state) (events.foldl (Coroutines.step entries) model) := by
  induction events generalizing state model with
  | nil => exact agrees
  | cons event rest induction => exact induction (agrees.step allowed.1) allowed.2

end

theorem agrees_start (starts : Starts state) :
    Agrees state ⟨state.running, state.registers, fun _ => none⟩ := by
  obtain ⟨block, sound, alone⟩ := starts
  have found : ∀ id there, state.blocks id = some there → id = state.running ∧ there = block := by
    intro id there here
    rw [alone] at here
    exact (found_updated here).resolve_right fun none => Option.some_ne_none _ none.2.symm
  refine ⟨rfl, rfl, ⟨block, ?_⟩, ?_, ?_, ?_⟩
  · rw [alone, Function.update_self]
  · exact fun id there here => (found id there here).2 ▸ sound
  · exact fun left mine right there atLeft atRight different =>
      absurd ((found left mine atLeft).1.trans (found right there atRight).1.symm) different
  · exact fun id there here resting => absurd (found id there here).1 resting

end Steps

/-- Over every history the processor's registers are those of the coroutines: a process goes on
with the stack pointer, the return address and the kept registers it had when it called
`process_switch`, and starts at its trampoline with its entry point and stack. -/
theorem process_switch_transfers (entries : Entries) (start : State) (starts : Starts start)
    (events : List Event) (allowed : Allowed entries start events) :
    (events.foldl (State.apply entries) start).running =
        (events.foldl (Coroutines.step entries)
          ⟨start.running, start.registers, fun _ => none⟩).running ∧
      (events.foldl (State.apply entries) start).registers =
        (events.foldl (Coroutines.step entries)
          ⟨start.running, start.registers, fun _ => none⟩).registers :=
  ⟨((agrees_start starts).run allowed).running, ((agrees_start starts).run allowed).registers⟩

def sampleEntries : Entries := ⟨0xa00, 0xb00, 0xc00⟩

def sampleStart : State where
  memory := fun _ => 0
  registers := ⟨0x100, 0x30000, 1, 2, 3, 4, 5, 6⟩
  running := 0
  blocks := Function.update (fun _ => none) 0 (some ⟨0x8000, 0x20000, 0x10000⟩)

theorem sample_allowed : Allowed sampleEntries sampleStart
    [.create 1 ⟨0x9000, 0x40000, stackSize⟩ 0x400000 (some 0x7fff0000), .switch 1] := by
  refine ⟨⟨rfl, ⟨by decide, by decide⟩, rfl, ?_⟩, ⟨⟨_, rfl⟩, _, rfl, by decide, by decide⟩, trivial⟩
  intro other there found address relied
  change Function.update (fun _ => none) 0 (some _) other = some there at found
  obtain ⟨-, rfl⟩ := (found_updated found).resolve_right fun none => Option.some_ne_none _ none.2.symm
  unfold Block.Relies at relied
  unfold Block.Covers processSize stackSize
  simp only at relied ⊢
  omega

/-- A user process that is created and switched to. -/
theorem first_user_process_starts :
    ([.create 1 ⟨0x9000, 0x40000, stackSize⟩ 0x400000 (some 0x7fff0000), .switch 1].foldl
        (State.apply sampleEntries) sampleStart).registers =
      ⟨0xb00, 0x50000, 0, 0, 0, 0, 0x7fff0000, 0x400000⟩ :=
  (process_switch_transfers sampleEntries sampleStart ⟨_, ⟨by decide, by decide⟩, rfl⟩ _
    sample_allowed).2.trans (by decide)

end RiriaKernel.ProcessSwitches
