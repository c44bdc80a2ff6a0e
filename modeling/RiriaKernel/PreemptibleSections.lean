import Mathlib.Logic.Function.Basic
import Mathlib.Logic.Relation

/-!
# Latches taken by preemptible code

Several contexts share one processor. Code is a list of actions on latches and on the
interrupt mask, and between any two actions an unmasked interrupt may push a handler on
top of the running code. A context that is left, by an interrupt or by a switch, continues
only when the processor comes back to it. `Balanced` states which latches a list of
actions holds from its beginning to its end, and `sound_of_steps` that balanced code holds
latches only while it runs, provided that it is never left in the middle of a section.
-/

namespace RiriaKernel.PreemptibleSections

variable {Latch Context Mask : Type}

inductive Action (Latch : Type)
  | work
  | take (latch : Latch)
  | drop (latch : Latch)
  | irqOff
  | irqRes
  | enable
  | switch
  deriving DecidableEq

section Balance

variable [DecidableEq Latch]

/-- Running `actions` with the latches `before` ends with the latches `after`. An action
that takes a latch its own code holds never ends, and a switch holds nothing. -/
def Balanced : List (Action Latch) → (Latch → Bool) → (Latch → Bool) → Prop
  | [], before, after => before = after
  | .take latch :: rest, before, after =>
      before latch = false → Balanced rest (Function.update before latch true) after
  | .drop latch :: rest, before, after =>
      Balanced rest (Function.update before latch false) after
  | .switch :: rest, before, after => (before = fun _ => false) ∧ Balanced rest before after
  | .work :: rest, before, after => Balanced rest before after
  | .irqOff :: rest, before, after => Balanced rest before after
  | .irqRes :: rest, before, after => Balanced rest before after
  | .enable :: rest, before, after => Balanced rest before after

theorem balanced_append {front back : List (Action Latch)} {before middle after : Latch → Bool}
    (first : Balanced front before middle) (second : Balanced back middle after) :
    Balanced (front ++ back) before after := by
  induction front generalizing before with
  | nil =>
    rw [show before = middle from first]
    exact second
  | cons action rest induction =>
    cases action with
    | take latch => exact fun free => induction (first free)
    | switch => exact ⟨first.1, induction first.2⟩
    | drop latch => exact induction first
    | work => exact induction first
    | irqOff => exact induction first
    | irqRes => exact induction first
    | enable => exact induction first

theorem balanced_seq {front back : List (Action Latch)} {held : Latch → Bool}
    (first : Balanced front held held) (second : Balanced back held held) :
    Balanced (front ++ back) held held :=
  balanced_append first second

theorem balanced_flatten {parts : List (List (Action Latch))} {held : Latch → Bool}
    (each : ∀ part ∈ parts, Balanced part held held) : Balanced parts.flatten held held := by
  induction parts with
  | nil => rfl
  | cons part rest induction =>
    apply balanced_append (each part List.mem_cons_self)
    exact induction fun other member => each other (List.mem_cons_of_mem _ member)

theorem balanced_map {Item : Type} (items : List Item) {steps : Item → List (Action Latch)}
    {held : Latch → Bool} (each : ∀ item, Balanced (steps item) held held) :
    Balanced (items.map steps).flatten held held := by
  apply balanced_flatten
  intro part member
  obtain ⟨item, -, same⟩ := List.mem_map.mp member
  rw [← same]
  exact each item

def guarded (latch : Latch) (inner : List (Action Latch)) : List (Action Latch) :=
  .take latch :: (inner ++ [.drop latch])

theorem balanced_guarded {inner : List (Action Latch)} (latch : Latch) {held : Latch → Bool}
    (inside : ∀ within, Balanced inner within within) : Balanced (guarded latch inner) held held := by
  intro free
  apply balanced_append (inside _)
  change Function.update (Function.update held latch true) latch false = held
  rw [Function.update_idem, ← free, Function.update_eq_self]

end Balance

/-! ## The processor -/

structure Masking (Mask : Type) where
  enabled : Mask → Bool
  off : Mask → Mask
  resume : Mask → Mask
  load : Bool → Mask → Mask

/-- Code that was entered with the interrupt flag `resume`, which its return restores. -/
structure Frame (Latch : Type) where
  rest : List (Action Latch)
  resume : Bool

/-- `stack` lists the code of a context from the innermost handler outwards. A latch is
held by the code at a depth of a context's stack. -/
structure Processor (Latch Context Mask : Type) where
  current : Context
  stack : Context → List (Frame Latch)
  mask : Mask
  holder : Latch → Option (Context × Nat)

def Processor.frames (processor : Processor Latch Context Mask) : List (Frame Latch) :=
  processor.stack processor.current

def Processor.running (processor : Processor Latch Context Mask) : Context × Nat :=
  (processor.current, processor.frames.length)

def Processor.rest (processor : Processor Latch Context Mask) : List (Action Latch) :=
  match processor.frames with
  | [] => []
  | frame :: _ => frame.rest

def Processor.withFrames [DecidableEq Context] (processor : Processor Latch Context Mask)
    (frames : List (Frame Latch)) :
    Processor Latch Context Mask :=
  { processor with stack := Function.update processor.stack processor.current frames }

def setRest (rest : List (Action Latch)) : List (Frame Latch) → List (Frame Latch)
  | [] => []
  | frame :: below => { frame with rest } :: below

def Processor.proceed [DecidableEq Context] (processor : Processor Latch Context Mask)
    (rest : List (Action Latch)) : Processor Latch Context Mask :=
  processor.withFrames (setRest rest processor.frames)

def Processor.held (processor : Processor Latch Context Mask) (latch : Latch) : Bool :=
  (processor.holder latch).isSome

def Processor.Unlatched (processor : Processor Latch Context Mask) : Prop :=
  ∀ latch, processor.holder latch ≠ some processor.running

/-- The code there is: what a context starts with, what it calls, what an interrupt and a
trap run, and what code that gives up runs instead of its rest. -/
structure Code (Latch : Type) where
  starts : List (Action Latch) → Prop
  calls : List (Action Latch) → Prop
  interrupts : List (Action Latch) → Prop
  traps : List (Action Latch) → Prop
  abandons : List (Action Latch) → Prop

structure Code.AllBalanced [DecidableEq Latch] (code : Code Latch) : Prop where
  starts : ∀ steps, code.starts steps → Balanced steps (fun _ => false) fun _ => false
  calls : ∀ steps, code.calls steps → Balanced steps (fun _ => false) fun _ => false
  interrupts : ∀ steps, code.interrupts steps → Balanced steps (fun _ => false) fun _ => false
  traps : ∀ steps, code.traps steps → Balanced steps (fun _ => false) fun _ => false
  abandons : ∀ steps, code.abandons steps → Balanced steps (fun _ => false) fun _ => false

/-- One step of the processor. Interrupts and code that gives up are taken where `admits`
holds; an action that finds its latch taken has no step. A notice is an interrupt whose handler
takes no latch: nothing else runs until it returns, so it is one step at any place. -/
inductive Step [DecidableEq Latch] [DecidableEq Context] (masking : Masking Mask)
    (code : Code Latch)
    (admits : Processor Latch Context Mask → Prop) :
    Processor Latch Context Mask → Processor Latch Context Mask → Prop where
  | work {processor} {rest : List (Action Latch)} (next : processor.rest = .work :: rest) :
      Step masking code admits processor (processor.proceed rest)
  | take {processor} {latch : Latch} {rest : List (Action Latch)}
      (next : processor.rest = .take latch :: rest) (free : processor.holder latch = none) :
      Step masking code admits processor { processor.proceed rest with
        holder := Function.update processor.holder latch (some processor.running) }
  | drop {processor} {latch : Latch} {rest : List (Action Latch)}
      (next : processor.rest = .drop latch :: rest) :
      Step masking code admits processor { processor.proceed rest with
        holder := Function.update processor.holder latch none }
  | irqOff {processor} {rest : List (Action Latch)} (next : processor.rest = .irqOff :: rest) :
      Step masking code admits processor { processor.proceed rest with
        mask := masking.off processor.mask }
  | irqRes {processor} {rest : List (Action Latch)} (next : processor.rest = .irqRes :: rest) :
      Step masking code admits processor { processor.proceed rest with
        mask := masking.resume processor.mask }
  | enable {processor} {rest : List (Action Latch)} (next : processor.rest = .enable :: rest) :
      Step masking code admits processor { processor.proceed rest with
        mask := masking.load true processor.mask }
  | switch {processor} {rest : List (Action Latch)} (target : Context)
      (next : processor.rest = .switch :: rest) :
      Step masking code admits processor { processor.proceed rest with current := target }
  | call {processor} {steps : List (Action Latch)} (idle : processor.rest = [])
      (outermost : processor.frames.length = 1) (coded : code.calls steps) :
      Step masking code admits processor (processor.proceed steps)
  | trap {processor} {steps : List (Action Latch)} (idle : processor.rest = [])
      (outermost : processor.frames.length = 1) (coded : code.traps steps) :
      Step masking code admits processor { processor.withFrames
        (⟨steps, masking.enabled processor.mask⟩ :: processor.frames) with
        mask := masking.load false processor.mask }
  | interrupt {processor} {steps : List (Action Latch)} (admitted : admits processor)
      (open_ : masking.enabled processor.mask = true) (coded : code.interrupts steps) :
      Step masking code admits processor { processor.withFrames
        (⟨steps, true⟩ :: processor.frames) with
        mask := masking.load false processor.mask }
  | notice {processor} (open_ : masking.enabled processor.mask = true) :
      Step masking code admits processor processor
  | finish {processor} {frame : Frame Latch} {below : List (Frame Latch)}
      (frames : processor.frames = frame :: below) (done : frame.rest = []) (nested : below ≠ []) :
      Step masking code admits processor { processor.withFrames below with
        mask := masking.load frame.resume processor.mask }
  | abandon {processor} {steps : List (Action Latch)} (admitted : admits processor)
      (coded : code.abandons steps) :
      Step masking code admits processor (processor.proceed steps)

/-- No context holds a latch, and every context is about to start. -/
structure Starting (code : Code Latch) (processor : Processor Latch Context Mask) : Prop where
  free : ∀ latch, processor.holder latch = none
  fresh : ∀ context, ∃ steps flag, processor.stack context = [⟨steps, flag⟩] ∧ code.starts steps

/-! ## Latches are held by running code -/

section Updates

variable {processor : Processor Latch Context Mask} {action : Action Latch}
  {rest : List (Action Latch)}

theorem frames_of_rest (next : processor.rest = action :: rest) :
    ∃ frame below, processor.frames = frame :: below ∧ frame.rest = action :: rest := by
  cases frames : processor.frames with
  | nil => simp [Processor.rest, frames] at next
  | cons frame below =>
    simp only [Processor.rest, frames] at next
    exact ⟨frame, below, rfl, next⟩

theorem free_of_held (held : processor.held = fun _ => false) (latch : Latch) :
    processor.holder latch = none := by
  have none := congrFun held latch
  simpa [Processor.held] using none

theorem isSome_update [DecidableEq Latch] (holder : Latch → Option (Context × Nat)) (latch : Latch)
    (value : Option (Context × Nat)) :
    (fun other => (Function.update holder latch value other).isSome) =
      Function.update (fun other => (holder other).isSome) latch value.isSome := by
  funext other
  by_cases same : other = latch
  · subst same
    simp only [Function.update_self]
  · simp only [Function.update_of_ne same]

end Updates

section Soundness

variable [DecidableEq Latch] {masking : Masking Mask} {code : Code Latch}
  {processor after : Processor Latch Context Mask}

def Settled (frames : List (Frame Latch)) : Prop :=
  ∀ frame ∈ frames, Balanced frame.rest (fun _ => false) fun _ => false

/-- The invariant: only the running code holds latches, and all other code is settled. -/
structure Sound (processor : Processor Latch Context Mask) : Prop where
  own : ∀ latch holder, processor.holder latch = some holder → holder = processor.running
  top : Balanced processor.rest processor.held fun _ => false
  below : Settled processor.frames.tail
  others : ∀ context, context ≠ processor.current → Settled (processor.stack context)

theorem Sound.held_none (sound : Sound processor) (unlatched : processor.Unlatched) :
    processor.held = fun _ => false := by
  funext latch
  cases holder : processor.holder latch with
  | none => simp [Processor.held, holder]
  | some owner =>
    rw [sound.own latch owner holder] at holder
    exact absurd holder (unlatched latch)

theorem Sound.held_idle (sound : Sound processor) (idle : processor.rest = []) :
    processor.held = fun _ => false := by
  have top := sound.top
  rw [idle] at top
  exact top

theorem Sound.settled (sound : Sound processor) (held : processor.held = fun _ => false) :
    Settled processor.frames := by
  have top := sound.top
  have below := sound.below
  rw [held] at top
  intro frame member
  cases frames : processor.frames with
  | nil => simp [frames] at member
  | cons first rest =>
    simp only [Processor.rest, frames] at top
    simp only [frames, List.tail_cons] at below
    simp only [frames, List.mem_cons] at member
    rcases member with same | later
    · rw [same]
      exact top
    · exact below frame later

theorem sound_of_settled (free : ∀ latch, processor.holder latch = none)
    (settled : ∀ context, Settled (processor.stack context)) : Sound processor where
  own := by
    intro latch holder taken
    simp [free latch] at taken
  top := by
    have held : processor.held = fun _ => false := by
      funext latch
      simp [Processor.held, free latch]
    have own : Settled processor.frames := settled processor.current
    rw [held]
    cases frames : processor.frames with
    | nil => simp [Processor.rest, frames, Balanced]
    | cons frame below =>
      simp only [Processor.rest, frames]
      exact own frame (by simp [frames])
  below := fun frame member => settled processor.current frame (List.mem_of_mem_tail member)
  others := fun context _ => settled context

theorem sound_of_starting (balanced : code.AllBalanced) (starting : Starting code processor) :
    Sound processor := by
  apply sound_of_settled starting.free
  intro context
  obtain ⟨steps, flag, stack, coded⟩ := starting.fresh context
  rw [stack]
  simpa [Settled] using balanced.starts steps coded

variable [DecidableEq Context]

theorem Sound.replace (sound : Sound processor) (held : processor.held = fun _ => false)
    {frames : List (Frame Latch)} (settled : Settled frames) (mask : Mask) (target : Context) :
    Sound { processor.withFrames frames with mask, current := target } := by
  apply sound_of_settled
  · exact free_of_held held
  · intro context
    by_cases here : context = processor.current
    · simpa [Processor.withFrames, here] using settled
    · simpa [Processor.withFrames, here] using sound.others context here

theorem Sound.restart (sound : Sound processor) (held : processor.held = fun _ => false)
    {steps : List (Action Latch)} (balanced : Balanced steps (fun _ => false) fun _ => false)
    (target : Context) : Sound { processor.proceed steps with current := target } := by
  have settled := sound.settled held
  apply sound.replace held
  cases frames : processor.frames with
  | nil => simp [setRest, Settled]
  | cons frame below =>
    rw [frames] at settled
    exact List.forall_mem_cons.mpr ⟨balanced, (List.forall_mem_cons.mp settled).2⟩

theorem Sound.advance (sound : Sound processor) {action : Action Latch}
    {rest : List (Action Latch)} (next : processor.rest = action :: rest)
    {holder : Latch → Option (Context × Nat)}
    (own : ∀ latch owner, holder latch = some owner → owner = processor.running)
    (top : Balanced rest (fun latch => (holder latch).isSome) fun _ => false) (mask : Mask) :
    Sound { processor.proceed rest with mask, holder } := by
  obtain ⟨frame, below, frames, -⟩ := frames_of_rest next
  have tail := sound.below
  rw [frames] at tail
  have changed : setRest rest (processor.stack processor.current) = { frame with rest } :: below := by
    change setRest rest processor.frames = _
    rw [frames, setRest]
  refine ⟨?_, ?_, ?_, ?_⟩
  · intro latch owner taken
    have same := own latch owner taken
    rw [Processor.running, frames] at same
    simpa [Processor.running, Processor.proceed, changed, Processor.frames, Processor.withFrames]
      using same
  · simp only [Processor.rest, Processor.proceed, changed, Processor.frames, Processor.withFrames,
      Function.update_self]
    exact top
  · simpa [Processor.proceed, changed, Processor.frames, Processor.withFrames] using tail
  · intro context other
    have elsewhere := sound.others context other
    simpa [Processor.proceed, Processor.withFrames, show context ≠ processor.current from other]
      using elsewhere

/-- What one step keeps, if code is left only where it holds nothing. -/
theorem Sound.step (balanced : code.AllBalanced) (sound : Sound processor)
    (step : Step masking code Processor.Unlatched processor after) : Sound after := by
  have top := sound.top
  cases step with
  | work next =>
    rw [next] at top
    exact sound.advance next sound.own top processor.mask
  | take next free =>
    rename_i latch rest
    rw [next] at top
    apply sound.advance next
    · intro other owner taken
      by_cases same : other = latch
      · simp only [same, Function.update_self, Option.some.injEq] at taken
        exact taken.symm
      · rw [Function.update_of_ne same] at taken
        exact sound.own other owner taken
    · rw [isSome_update]
      exact top (by simp [Processor.held, free])
  | drop next =>
    rename_i latch rest
    rw [next] at top
    apply sound.advance next
    · intro other owner taken
      by_cases same : other = latch
      · simp [same] at taken
      · rw [Function.update_of_ne same] at taken
        exact sound.own other owner taken
    · rw [isSome_update]
      exact top
  | irqOff next =>
    rw [next] at top
    exact sound.advance next sound.own top _
  | irqRes next =>
    rw [next] at top
    exact sound.advance next sound.own top _
  | enable next =>
    rw [next] at top
    exact sound.advance next sound.own top _
  | switch target next =>
    rw [next] at top
    have held : processor.held = fun _ => false := top.1
    have remaining := top.2
    rw [held] at remaining
    exact sound.restart held remaining target
  | call idle _ coded =>
    exact sound.restart (sound.held_idle idle) (balanced.calls _ coded) _
  | trap idle _ coded =>
    have held := sound.held_idle idle
    exact sound.replace held
      (List.forall_mem_cons.mpr ⟨balanced.traps _ coded, sound.settled held⟩) _ _
  | interrupt admitted _ coded =>
    have held := sound.held_none admitted
    exact sound.replace held
      (List.forall_mem_cons.mpr ⟨balanced.interrupts _ coded, sound.settled held⟩) _ _
  | notice _ => exact sound
  | finish frames done _ =>
    have idle : processor.rest = [] := by simp [Processor.rest, frames, done]
    have held := sound.held_idle idle
    have settled := sound.settled held
    rw [frames] at settled
    exact sound.replace held (List.forall_mem_cons.mp settled).2 _ _
  | abandon admitted coded =>
    exact sound.restart (sound.held_none admitted) (balanced.abandons _ coded) _

/-- In every run whose code is left only where it holds nothing, latches are held by the
running code alone. -/
theorem sound_of_steps (balanced : code.AllBalanced) (starting : Starting code processor)
    (steps : Relation.ReflTransGen (Step masking code Processor.Unlatched) processor after) :
    Sound after := by
  induction steps with
  | refl => exact sound_of_starting balanced starting
  | tail _ step induction => exact induction.step balanced step

end Soundness

end RiriaKernel.PreemptibleSections
