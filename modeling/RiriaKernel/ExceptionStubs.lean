import Mathlib.Data.UInt
import Mathlib.Data.List.Basic
import Mathlib.Logic.Function.Basic

/-!
# Exception gates and stubs

`idt.c`, the gate part of `irq.c`, `isr.c` and `isr_asm.S`. A gate splits the address of its
stub over three fields. A stub runs on the frame the processor pushed, adds a zero where
there is no error code, the vector and the registers, and hands the stack pointer to
`isr_handler` as a `regs_t *`; the stack is a list here, top first, and `regs_t` reads it by
position. What the C code leaves in the registers and flags is arbitrary.
-/

namespace RiriaKernel.ExceptionStubs

/-! ## The descriptor table -/

structure IdtEntry where
  baseLow : UInt16
  segmentSelector : UInt16
  ist : UInt8
  flags : UInt8
  baseMiddle : UInt16
  baseHigh : UInt32
  reserved : UInt32
  deriving DecidableEq

abbrev Idt := Nat → IdtEntry

def idtEntry (base : UInt64) (segmentSelector : UInt16) (flags : UInt8) : IdtEntry where
  baseLow := (base &&& 0xFFFF).toUInt16
  segmentSelector := segmentSelector
  ist := 0
  flags := flags
  baseMiddle := ((base >>> 16) &&& 0xFFFF).toUInt16
  baseHigh := ((base >>> 32) &&& 0xFFFFFFFF).toUInt32
  reserved := 0

/-- The gate number is a `uint8_t`. -/
def idtSetGate (idt : Idt) (num : Nat) (base : UInt64) (segmentSelector : UInt16)
    (flags : UInt8) : Idt :=
  Function.update idt (num % 256) (idtEntry base segmentSelector flags)

def idtInstall : Idt := fun _ => ⟨0, 0, 0, 0, 0, 0, 0⟩

def irqChainSize : Nat := 16

def irqSetupGates (irqs : Nat → UInt64) (idt : Idt) : Idt :=
  (List.range irqChainSize).foldl (fun idt i => idtSetGate idt (32 + i) (irqs i) 0x08 0x8E) idt

structure IsrSlot where
  idx : Nat
  stub : UInt64

def isrCount : Nat := 32

/-- The static table `isrs[32 + 1]` once every `ISR_SET` has run: the last slot stays zero. -/
def isrs (stubs : Nat → UInt64) : Nat → IsrSlot :=
  (List.range isrCount).foldl (fun slots i => Function.update slots i ⟨i, stubs i⟩)
    fun _ => ⟨0, 0⟩

def isrInstall (stubs : Nat → UInt64) (idt : Idt) : Idt :=
  let idt := idtSetGate idt 6 (stubs 6) 0x08 0x8E
  let idt := idtSetGate idt 13 (stubs 13) 0x08 0x8E
  let idt := idtSetGate idt 14 (stubs 14) 0x08 0x8E
  (List.range (isrCount + 1)).foldl
    (fun idt i => idtSetGate idt (isrs stubs i).idx (isrs stubs i).stub 0x08 0x8E) idt

/-- The table after `idt_install`, `irq_install` and `isr_install`. -/
def installedIdt (stubs irqs : Nat → UInt64) : Idt :=
  isrInstall stubs (irqSetupGates irqs idtInstall)

def gateBase (entry : IdtEntry) : UInt64 :=
  entry.baseLow.toUInt64 ||| (entry.baseMiddle.toUInt64 <<< 16) |||
    (entry.baseHigh.toUInt64 <<< 32)

/-! ## The stubs -/

inductive Register
  | rax | rbx | rcx | rdx | rsi | rdi | rbp
  | r8 | r9 | r10 | r11 | r12 | r13 | r14 | r15
  deriving DecidableEq

structure Core where
  registers : Register → UInt64
  rflags : UInt64
  stack : List UInt64

/-- The context an exception interrupts and `iretq` resumes. -/
@[ext] structure Context where
  registers : Register → UInt64
  rip : UInt64
  cs : UInt64
  rflags : UInt64
  rsp : UInt64
  ss : UInt64

inductive Instruction
  | cli
  | pushImmediate (value : UInt64)
  | push (register : Register)
  | pop (register : Register)
  | pushfq
  | popfq
  | addRsp (words : Nat)

def interruptFlag : UInt64 := 0x200

def execute (core : Core) : Instruction → Option Core
  | .cli => some { core with rflags := core.rflags &&& ~~~interruptFlag }
  | .pushImmediate value => some { core with stack := value :: core.stack }
  | .push register => some { core with stack := core.registers register :: core.stack }
  | .pop register =>
      match core.stack with
      | [] => none
      | value :: stack =>
          some { core with registers := Function.update core.registers register value, stack }
  | .pushfq => some { core with stack := core.rflags :: core.stack }
  | .popfq =>
      match core.stack with
      | [] => none
      | value :: stack => some { core with rflags := value, stack }
  | .addRsp words => some { core with stack := core.stack.drop words }

def executeAll (core : Core) (code : List Instruction) : Option Core := code.foldlM execute core

def isrErr : List Nat := [8, 10, 11, 12, 13, 14]

def isrStub (vector : Nat) : List Instruction :=
  if vector ∈ isrErr then [.cli, .pushImmediate (UInt64.ofNat vector)]
  else [.cli, .pushImmediate 0, .pushImmediate (UInt64.ofNat vector)]

/-- `isr_common` up to the call. -/
def saveRegisters : List Instruction :=
  [.push .rax, .push .rbx, .push .rcx, .push .rdx, .push .rsi, .push .rdi, .push .rbp,
    .push .r8, .push .r9, .push .r10, .push .r11, .push .r12, .push .r13, .push .r14,
    .push .r15, .pushfq]

/-- `isr_common` from the call to the `iretq`; `addq $16, %rsp` drops two words. -/
def restoreRegisters : List Instruction :=
  [.popfq, .pop .r15, .pop .r14, .pop .r13, .pop .r12, .pop .r11, .pop .r10, .pop .r9,
    .pop .r8, .pop .rbp, .pop .rdi, .pop .rsi, .pop .rdx, .pop .rcx, .pop .rbx, .pop .rax,
    .addRsp 2]

def iretq (core : Core) : Option Context :=
  match core.stack with
  | rip :: cs :: rflags :: rsp :: ss :: _ =>
      some { registers := core.registers, rip, cs, rflags, rsp, ss }
  | _ => none

/-- What the C code leaves in the registers it may change. -/
structure Clobbered where
  registers : Register → UInt64
  rflags : UInt64

/-- A stub from its first instruction to its last: the words `isr_handler` gets a pointer to,
and the context that is resumed. -/
def runStub (vector : Nat) (left : Clobbered) (core : Core) :
    Option (List UInt64 × Context) := do
  let called ← executeAll core (isrStub vector ++ saveRegisters)
  let returned : Core := { registers := left.registers, rflags := left.rflags, stack := called.stack }
  let restored ← executeAll returned restoreRegisters
  let resumed ← iretq restored
  return (called.stack, resumed)

def pushesErrorCode : List Nat := [8, 10, 11, 12, 13, 14, 17, 21, 29, 30]

/-- The processor enters a stub through an interrupt gate. -/
def deliver (vector : Nat) (context : Context) (errorCode : UInt64) (older : List UInt64) : Core where
  registers := context.registers
  rflags := context.rflags &&& ~~~interruptFlag
  stack := (if vector ∈ pushesErrorCode then [errorCode] else []) ++
    context.rip :: context.cs :: context.rflags :: context.rsp :: context.ss :: older

/-! ## What the handler reads -/

def Register.slot : Register → Nat
  | .r15 => 1 | .r14 => 2 | .r13 => 3 | .r12 => 4 | .r11 => 5 | .r10 => 6 | .r9 => 7 | .r8 => 8
  | .rbp => 9 | .rdi => 10 | .rsi => 11 | .rdx => 12 | .rcx => 13 | .rbx => 14 | .rax => 15

structure Regs where
  rflags : UInt64
  general : Register → UInt64
  intNo : UInt64
  errCode : UInt64
  rip : UInt64
  cs : UInt64
  rsp : UInt64
  ss : UInt64

def regsOf (frame : List UInt64) : Regs where
  rflags := frame.getD 0 0
  general := fun register => frame.getD register.slot 0
  intNo := frame.getD 16 0
  errCode := frame.getD 17 0
  rip := frame.getD 18 0
  cs := frame.getD 19 0
  rsp := frame.getD 20 0
  ss := frame.getD 21 0

/-! ## Gates -/

theorem gate_base_idt_entry (base : UInt64) (segmentSelector : UInt16) (flags : UInt8) :
    gateBase (idtEntry base segmentSelector flags) = base := by
  apply UInt64.toNat_inj.mp
  have bound := base.toNat_lt
  have low : (base &&& 0xFFFF).toNat = base.toNat % 2 ^ 16 := by
    rw [UInt64.toNat_and]
    exact Nat.and_two_pow_sub_one_eq_mod _ 16
  have middle : ((base >>> 16) &&& 0xFFFF).toNat = base.toNat / 2 ^ 16 % 2 ^ 16 := by
    rw [UInt64.toNat_and, UInt64.toNat_shiftRight, Nat.shiftRight_eq_div_pow]
    exact Nat.and_two_pow_sub_one_eq_mod _ 16
  have high : ((base >>> 32) &&& 0xFFFFFFFF).toNat = base.toNat / 2 ^ 32 % 2 ^ 32 := by
    rw [UInt64.toNat_and, UInt64.toNat_shiftRight, Nat.shiftRight_eq_div_pow]
    exact Nat.and_two_pow_sub_one_eq_mod _ 32
  unfold gateBase idtEntry
  simp only [UInt64.toNat_or, UInt64.toNat_shiftLeft, UInt16.toNat_toUInt64, UInt32.toNat_toUInt64,
    UInt64.toNat_toUInt16, UInt64.toNat_toUInt32, low, middle, high]
  change base.toNat % 2 ^ 16 % 2 ^ 16 ||| (base.toNat / 2 ^ 16 % 2 ^ 16 % 2 ^ 16) <<< 16 % 2 ^ 64 |||
    (base.toNat / 2 ^ 32 % 2 ^ 32 % 2 ^ 32) <<< 32 % 2 ^ 64 = base.toNat
  -- the three fields do not overlap, so the disjunctions are sums
  have middleFits : (base.toNat / 2 ^ 16 % 2 ^ 16) <<< 16 % 2 ^ 64 =
      (base.toNat / 2 ^ 16 % 2 ^ 16) <<< 16 :=
    Nat.mod_eq_of_lt (by rw [Nat.shiftLeft_eq]; omega)
  have highFits : (base.toNat / 2 ^ 32 % 2 ^ 32) <<< 32 % 2 ^ 64 =
      (base.toNat / 2 ^ 32 % 2 ^ 32) <<< 32 :=
    Nat.mod_eq_of_lt (by rw [Nat.shiftLeft_eq]; omega)
  have lower : base.toNat % 2 ^ 16 ||| (base.toNat / 2 ^ 16 % 2 ^ 16) <<< 16 =
      base.toNat % 2 ^ 32 := by
    rw [Nat.or_comm, ← Nat.shiftLeft_add_eq_or_of_lt (by omega), Nat.shiftLeft_eq]
    omega
  rw [Nat.mod_mod, Nat.mod_mod, Nat.mod_mod, middleFits, highFits, lower, Nat.or_comm,
    ← Nat.shiftLeft_add_eq_or_of_lt (by omega), Nat.shiftLeft_eq]
  omega

theorem idt_set_gates_get (base : Nat → UInt64) (first count : Nat) (idt : Idt) (num : Nat)
    (small : first + count ≤ 256) :
    (List.range count).foldl (fun idt i => idtSetGate idt (first + i) (base i) 0x08 0x8E) idt num =
      if first ≤ num ∧ num < first + count then idtEntry (base (num - first)) 0x08 0x8E
      else idt num := by
  induction count with
  | zero => simp
  | succ count induction =>
    rw [List.range_succ, List.foldl_append, List.foldl_cons, List.foldl_nil, idtSetGate,
      Nat.mod_eq_of_lt (by omega)]
    by_cases same : num = first + count
    · rw [same, Function.update_self, if_pos (by omega), Nat.add_sub_cancel_left]
    · rw [Function.update_of_ne same, induction (by omega)]
      split <;> split <;> first | rfl | omega

theorem isrs_get (stubs : Nat → UInt64) (i : Nat) :
    isrs stubs i = if i < isrCount then ⟨i, stubs i⟩ else ⟨0, 0⟩ := by
  unfold isrs
  induction isrCount with
  | zero => simp
  | succ count induction =>
    rw [List.range_succ, List.foldl_append, List.foldl_cons, List.foldl_nil]
    by_cases same : i = count
    · rw [same, Function.update_self, if_pos (by omega)]
    · rw [Function.update_of_ne same, induction]
      split <;> split <;> first | rfl | omega

/-- The loop of `isr_install` runs over the unused slot as well and sets gate 0 to it. -/
theorem installed_gate (stubs irqs : Nat → UInt64) (vector : Nat) (valid : vector < 32) :
    installedIdt stubs irqs vector =
      idtEntry (if vector = 0 then 0 else stubs vector) 0x08 0x8E := by
  unfold installedIdt isrInstall
  generalize idtSetGate (idtSetGate (idtSetGate (irqSetupGates irqs idtInstall) 6 (stubs 6) 0x08
    0x8E) 13 (stubs 13) 0x08 0x8E) 14 (stubs 14) 0x08 0x8E = before
  have used : (List.range isrCount).foldl
      (fun idt i => idtSetGate idt (isrs stubs i).idx (isrs stubs i).stub 0x08 0x8E) before =
      (List.range isrCount).foldl (fun idt i => idtSetGate idt (0 + i) (stubs i) 0x08 0x8E)
        before := by
    apply List.foldl_ext
    intro idt i member
    rw [isrs_get, if_pos (List.mem_range.mp member), Nat.zero_add]
  rw [List.range_succ, List.foldl_append, List.foldl_cons, List.foldl_nil, used, isrs_get,
    if_neg (Nat.lt_irrefl isrCount), idtSetGate, Nat.zero_mod]
  by_cases zero : vector = 0
  · rw [zero, if_pos rfl]
    rfl
  · rw [Function.update_of_ne zero, if_neg zero, idt_set_gates_get _ _ _ _ _ (by decide),
      if_pos ⟨Nat.zero_le _, by rw [Nat.zero_add]; exact valid⟩]
    rfl

/-! ## Stubs -/

def savedRegisters (core : Core) : List UInt64 :=
  [core.rflags, core.registers .r15, core.registers .r14, core.registers .r13,
    core.registers .r12, core.registers .r11, core.registers .r10, core.registers .r9,
    core.registers .r8, core.registers .rbp, core.registers .rdi, core.registers .rsi,
    core.registers .rdx, core.registers .rcx, core.registers .rbx, core.registers .rax]

theorem save_registers (core : Core) :
    executeAll core saveRegisters = some { core with stack := savedRegisters core ++ core.stack } :=
  rfl

theorem restore_registers (core : Core) (left : Clobbered) (number code : UInt64)
    (rest : List UInt64) :
    executeAll ⟨left.registers, left.rflags, savedRegisters core ++ number :: code :: rest⟩
      restoreRegisters = some { core with stack := rest } := by
  simp only [executeAll, restoreRegisters, savedRegisters, List.foldlM, execute, List.cons_append,
    List.nil_append, Option.bind_eq_bind, Option.bind_some, List.drop]
  congr 2
  funext register
  cases register <;> rfl

theorem general_saved (core : Core) (rest : List UInt64) (register : Register) :
    (savedRegisters core ++ rest).getD register.slot 0 = core.registers register := by
  cases register <;> rfl

def stubWords (vector : Nat) (stack : List UInt64) : List UInt64 :=
  if vector ∈ isrErr then UInt64.ofNat vector :: stack else UInt64.ofNat vector :: 0 :: stack

theorem enter_stub (vector : Nat) (core : Core) :
    executeAll core (isrStub vector) =
      some ⟨core.registers, core.rflags &&& ~~~interruptFlag, stubWords vector core.stack⟩ := by
  unfold isrStub stubWords
  split <;> rfl

/-- Whatever lies on the stack, the stub hands the handler the saved registers on top of it
and resumes behind its third word. -/
theorem run_stub_of_words {vector : Nat} {core : Core} {number code rip cs rflags rsp ss : UInt64}
    {rest : List UInt64} (left : Clobbered)
    (words : stubWords vector core.stack = number :: code :: rip :: cs :: rflags :: rsp :: ss :: rest) :
    ∃ frame, runStub vector left core =
        some (frame, { registers := core.registers, rip, cs, rflags, rsp, ss }) ∧
      (regsOf frame).intNo = number ∧ (regsOf frame).general = core.registers ∧
      (regsOf frame).rip = rip ∧ (regsOf frame).cs = cs ∧ (regsOf frame).rsp = rflags ∧
      (regsOf frame).ss = rsp := by
  let inside : Core := ⟨core.registers, core.rflags &&& ~~~interruptFlag,
    number :: code :: rip :: cs :: rflags :: rsp :: ss :: rest⟩
  have called : executeAll core (isrStub vector ++ saveRegisters) =
      some { inside with stack := savedRegisters inside ++ inside.stack } := by
    have entered := enter_stub vector core
    rw [words] at entered
    unfold executeAll at entered ⊢
    rw [List.foldlM_append, entered]
    exact save_registers inside
  have restored := restore_registers inside left number code (rip :: cs :: rflags :: rsp :: ss :: rest)
  refine ⟨savedRegisters inside ++ inside.stack, ?_, rfl, ?_, rfl, rfl, rfl, rfl⟩
  · unfold runStub
    rw [called, Option.bind_eq_bind, Option.bind_some]
    simp only [inside] at restored ⊢
    rw [restored]
    rfl
  · funext register
    exact general_saved inside inside.stack register

/-- What the handler is to find in its `regs_t`. -/
structure Sees (regs : Regs) (vector : Nat) (context : Context) : Prop where
  intNo : regs.intNo = UInt64.ofNat vector
  general : regs.general = context.registers
  rip : regs.rip = context.rip
  cs : regs.cs = context.cs
  rsp : regs.rsp = context.rsp
  ss : regs.ss = context.ss

/-- The vectors with an error code whose stub pushes a zero all the same. -/
def mispushed : List Nat := [17, 21, 29, 30]

theorem stub_words_of_mispushed {vector : Nat} (member : vector ∈ mispushed) (context : Context)
    (errorCode : UInt64) (older : List UInt64) :
    stubWords vector (deliver vector context errorCode older).stack =
      UInt64.ofNat vector :: 0 :: errorCode :: context.rip :: context.cs :: context.rflags ::
        context.rsp :: context.ss :: older := by
  have pushed : vector ∈ pushesErrorCode ∧ vector ∉ isrErr := by
    simp only [mispushed, pushesErrorCode, isrErr, List.mem_cons, List.not_mem_nil, or_false] at member ⊢
    omega
  simp only [stubWords, deliver, if_pos pushed.1, if_neg pushed.2, List.singleton_append]

theorem stub_words_of_matched {vector : Nat} (other : vector ∉ mispushed) (context : Context)
    (errorCode : UInt64) (older : List UInt64) :
    ∃ code, stubWords vector (deliver vector context errorCode older).stack =
      UInt64.ofNat vector :: code :: context.rip :: context.cs :: context.rflags ::
        context.rsp :: context.ss :: older := by
  have pushed : vector ∈ pushesErrorCode ↔ vector ∈ isrErr := by
    simp only [mispushed, pushesErrorCode, isrErr, List.mem_cons, List.not_mem_nil, or_false] at other ⊢
    omega
  by_cases member : vector ∈ isrErr
  · refine ⟨errorCode, ?_⟩
    simp only [stubWords, deliver, if_pos (pushed.mpr member), if_pos member, List.singleton_append]
  · refine ⟨0, ?_⟩
    simp only [stubWords, deliver, if_neg (mt pushed.mp member), if_neg member, List.nil_append]

/-- When the layout mistakes do not show: gate 0 was to be null anyway, and the words that
are read in each other's place are equal. -/
structure Coincides (stubs : Nat → UInt64) (vector : Nat) (context : Context)
    (errorCode : UInt64) : Prop where
  nullGate : vector = 0 → stubs 0 = 0
  rsp : context.rsp = context.rflags
  ss : context.ss = context.rflags
  mispushed : vector ∈ mispushed →
    errorCode = context.rflags ∧ context.rip = context.rflags ∧ context.cs = context.rflags

theorem installed_gate_iff (stubs irqs : Nat → UInt64) {vector : Nat} (valid : vector < 32) :
    gateBase (installedIdt stubs irqs vector) = stubs vector ↔ (vector = 0 → stubs 0 = 0) := by
  rw [installed_gate stubs irqs vector valid, gate_base_idt_entry]
  by_cases zero : vector = 0
  · subst zero
    rw [if_pos rfl]
    exact ⟨fun same _ => same.symm, fun null => (null rfl).symm⟩
  · rw [if_neg zero]
    exact ⟨fun _ null => absurd null zero, fun _ => rfl⟩

/-- An exception reaches the handler with the interrupted context, and returns to it,
exactly when the gate and the words the layout mixes up coincide. -/
theorem exception_reaches_handler_iff (stubs irqs : Nat → UInt64) (vector : Nat)
    (valid : vector < 32) (context : Context) (errorCode : UInt64) (older : List UInt64)
    (left : Clobbered) :
    (gateBase (installedIdt stubs irqs vector) = stubs vector ∧
      ∃ frame, runStub vector left (deliver vector context errorCode older) =
          some (frame, context) ∧ Sees (regsOf frame) vector context) ↔
      Coincides stubs vector context errorCode := by
  rw [installed_gate_iff stubs irqs valid]
  by_cases wrong : vector ∈ mispushed
  · obtain ⟨frame, runs, intNo, general, rip, cs, rsp, ss⟩ :=
      run_stub_of_words left (stub_words_of_mispushed wrong context errorCode older)
    rw [runs]
    constructor
    · intro reached
      obtain ⟨gate, found, same, sees⟩ := reached
      simp only [Option.some.injEq, Prod.mk.injEq, Context.ext_iff] at same
      obtain ⟨rfl, -, sameRip, sameCs, sameRflags, sameRsp, sameSs⟩ := same
      refine ⟨gate, sameRsp.symm, sameSs.symm.trans sameRsp.symm, fun _ => ⟨?_, ?_, ?_⟩⟩
      · exact sameRip.trans (sameCs.trans sameRflags)
      · exact sameCs.trans sameRflags
      · exact sameRflags
    · intro coincides
      obtain ⟨sameCode, sameRip, sameCs⟩ := coincides.mispushed wrong
      have sameRsp := coincides.rsp
      have sameSs := coincides.ss
      refine ⟨coincides.nullGate, frame, ?_, ⟨intNo, general, ?_, ?_, ?_, ?_⟩⟩
      · simp only [Option.some.injEq, Prod.mk.injEq, Context.ext_iff, deliver]
        simp [sameCode, sameRip, sameCs, sameRsp, sameSs]
      · rw [rip, sameCode, sameRip]
      · rw [cs, sameRip, sameCs]
      · rw [rsp, sameCs, sameRsp]
      · rw [ss, sameSs]
  · obtain ⟨code, words⟩ := stub_words_of_matched wrong context errorCode older
    obtain ⟨frame, runs, intNo, general, rip, cs, rsp, ss⟩ := run_stub_of_words left words
    rw [runs]
    constructor
    · intro reached
      obtain ⟨gate, found, same, sees⟩ := reached
      simp only [Option.some.injEq, Prod.mk.injEq] at same
      obtain ⟨rfl, -⟩ := same
      have sameRsp := sees.rsp.symm.trans rsp
      exact ⟨gate, sameRsp, (sees.ss.symm.trans ss).trans sameRsp, fun member => absurd member wrong⟩
    · intro coincides
      refine ⟨coincides.nullGate, frame, rfl, ⟨intNo, general, rip, cs, ?_, ?_⟩⟩
      · rw [rsp, coincides.rsp]
      · rw [ss, coincides.ss, coincides.rsp]

def userContext : Context where
  registers := fun _ => 7
  rip := 0x400000
  cs := 0x23
  rflags := 0x202
  rsp := 0xAFFFF000
  ss := 0x1B

def flatContext (value : UInt64) : Context := ⟨fun _ => 7, value, value, value, value, value⟩

theorem flat_context_reaches_handler :
    Coincides (fun vector => UInt64.ofNat (0x1000 + vector)) 14 (flatContext 0x202) 4 ∧
      gateBase (installedIdt (fun vector => UInt64.ofNat (0x1000 + vector)) (fun _ => 0) 14) =
        0x100E := by
  have coincides : Coincides (fun vector => UInt64.ofNat (0x1000 + vector)) 14
      (flatContext 0x202) 4 := ⟨fun zero => absurd zero (by decide), rfl, rfl, by decide⟩
  exact ⟨coincides, ((exception_reaches_handler_iff _ _ 14 (by decide) (flatContext 0x202) 4 []
    ⟨fun _ => 0, 0⟩).mpr coincides).1⟩

/-- Three ways to lose the context: division errors find a null gate, page faults show the
handler the flags as the stack pointer, and an alignment check returns to its error code. -/
theorem exceptions_lose_context :
    gateBase (installedIdt (fun vector => UInt64.ofNat (0x1000 + vector)) (fun _ => 0) 0) = 0 ∧
      (∃ frame resumed, runStub 14 ⟨fun _ => 0, 0⟩ (deliver 14 userContext 4 []) =
        some (frame, resumed) ∧ (regsOf frame).rsp = 0x202 ∧ (regsOf frame).ss = 0xAFFFF000) ∧
      ∃ frame resumed, runStub 17 ⟨fun _ => 0, 0⟩ (deliver 17 userContext 0 []) =
        some (frame, resumed) ∧ (regsOf frame).rip = 0 ∧ resumed.rip = 0 := by
  refine ⟨?_, ?_, ?_⟩
  · rw [installed_gate _ _ 0 (by decide), gate_base_idt_entry, if_pos rfl]
  · exact ⟨_, _, rfl, rfl, rfl⟩
  · exact ⟨_, _, rfl, rfl, rfl⟩

end RiriaKernel.ExceptionStubs
