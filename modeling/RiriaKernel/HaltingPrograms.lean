import Mathlib.Logic.Basic

/-!
# Programs that return or stop

Kernel code threads one state through every call and can end in two ways: it
returns a value, or it stops where it stands and never comes back. Both ways keep
the state they end in, so a property can be asked of the state left behind by a
stopped call as well. `Ends` is the weakest precondition of such a program, and the
rules below take it apart along the program text.
-/

namespace RiriaKernel.HaltingPrograms

variable {Error State Value Next : Type}

/-- From `state` the program either returns with `returned`, or stops with `stopped`. -/
def Ends (program : EStateM Error State Value) (returned : Value → State → Prop)
    (stopped : Error → State → Prop) (state : State) : Prop :=
  match program state with
  | .ok value after => returned value after
  | .error error after => stopped error after

variable {returned : Value → State → Prop} {stopped : Error → State → Prop} {state : State}

@[simp] theorem ends_pure (value : Value) :
    Ends (pure value : EStateM Error State Value) returned stopped state = returned value state := by
  rfl

@[simp] theorem ends_get {returned : State → State → Prop} :
    Ends (get : EStateM Error State State) returned stopped state = returned state state := by
  rfl

@[simp] theorem ends_set {returned : PUnit → State → Prop} (after : State) :
    Ends (set after : EStateM Error State PUnit) returned stopped state = returned ⟨⟩ after := by
  rfl

@[simp] theorem ends_modify {returned : PUnit → State → Prop} (update : State → State) :
    Ends (modify update : EStateM Error State PUnit) returned stopped state =
      returned ⟨⟩ (update state) := by
  rfl

@[simp] theorem ends_throw (error : Error) :
    Ends (throw error : EStateM Error State Value) returned stopped state = stopped error state := by
  rfl

@[simp] theorem ends_bind {returned : Next → State → Prop}
    (program : EStateM Error State Value) (rest : Value → EStateM Error State Next) :
    Ends (program >>= rest) returned stopped state =
      Ends program (fun value => Ends (rest value) returned stopped) stopped state := by
  simp only [Ends, bind, EStateM.bind]
  cases program state <;> rfl

@[simp] theorem ends_map {returned : Next → State → Prop}
    (program : EStateM Error State Value) (transform : Value → Next) :
    Ends (transform <$> program) returned stopped state =
      Ends program (fun value => returned (transform value)) stopped state := by
  simp only [Ends, Functor.map, EStateM.map]
  cases program state <;> rfl

@[simp] theorem ends_ite {condition : Prop} [Decidable condition]
    (accepted rejected : EStateM Error State Value) :
    Ends (if condition then accepted else rejected) returned stopped state =
      if condition then Ends accepted returned stopped state
      else Ends rejected returned stopped state := by
  split <;> rfl

theorem ends_of_ok {program : EStateM Error State Value} {value : Value} {after : State}
    (run : program state = .ok value after) :
    Ends program returned stopped state = returned value after := by
  simp only [Ends, run]

theorem ends_of_error {program : EStateM Error State Value} {error : Error} {after : State}
    (run : program state = .error error after) :
    Ends program returned stopped state = stopped error after := by
  simp only [Ends, run]

theorem ends_mono {program : EStateM Error State Value}
    {returned' : Value → State → Prop} {stopped' : Error → State → Prop}
    (holds : Ends program returned stopped state)
    (onReturn : ∀ value after, returned value after → returned' value after)
    (onStop : ∀ error after, stopped error after → stopped' error after) :
    Ends program returned' stopped' state := by
  unfold Ends at holds ⊢
  cases run : program state with
  | ok value after =>
    rw [run] at holds
    exact onReturn value after holds
  | error error after =>
    rw [run] at holds
    exact onStop error after holds

theorem ends_and {program : EStateM Error State Value}
    {returned' : Value → State → Prop} {stopped' : Error → State → Prop}
    (left : Ends program returned stopped state) (right : Ends program returned' stopped' state) :
    Ends program (fun value after => returned value after ∧ returned' value after)
      (fun error after => stopped error after ∧ stopped' error after) state := by
  unfold Ends at left right ⊢
  cases run : program state <;> rw [run] at left right <;> exact ⟨left, right⟩

theorem ends_of_forall {program : EStateM Error State Value}
    (onReturn : ∀ value after, returned value after)
    (onStop : ∀ error after, stopped error after) : Ends program returned stopped state := by
  unfold Ends
  cases program state with
  | ok value after => exact onReturn value after
  | error error after => exact onStop error after

theorem Ends.returns {program : EStateM Error State Value} {value : Value} {after : State}
    (holds : Ends program returned stopped state) (run : program state = .ok value after) :
    returned value after := by
  rwa [ends_of_ok run] at holds

theorem Ends.stops {program : EStateM Error State Value} {error : Error} {after : State}
    (holds : Ends program returned stopped state) (run : program state = .error error after) :
    stopped error after := by
  rwa [ends_of_error run] at holds

theorem Ends.exists_ok {program : EStateM Error State Value}
    (holds : Ends program returned (fun _ _ => False) state) :
    ∃ value after, program state = .ok value after ∧ returned value after := by
  unfold Ends at holds
  cases run : program state with
  | ok value after =>
    rw [run] at holds
    exact ⟨value, after, rfl, holds⟩
  | error error after =>
    rw [run] at holds
    exact holds.elim

theorem Ends.exists_error {program : EStateM Error State Value}
    (holds : Ends program (fun _ _ => False) stopped state) :
    ∃ error after, program state = .error error after ∧ stopped error after := by
  unfold Ends at holds
  cases run : program state with
  | ok value after =>
    rw [run] at holds
    exact holds.elim
  | error error after =>
    rw [run] at holds
    exact ⟨error, after, rfl, holds⟩

/-- `for (i = start; i < start + count; ++i) body i`. -/
def forCount (body : Nat → EStateM Error State PUnit) :
    (count start : Nat) → EStateM Error State PUnit
  | 0, _ => pure ⟨⟩
  | count + 1, start => do
      body start
      forCount body count (start + 1)

/-- The invariant rule of a counted loop. A stop inside the body is a stop of the loop. -/
theorem ends_forCount {body : Nat → EStateM Error State PUnit} (invariant : Nat → State → Prop)
    {stopped : Error → State → Prop} (count start : Nat)
    (step : ∀ index state, start ≤ index → index < start + count → invariant index state →
      Ends (body index) (fun _ after => invariant (index + 1) after) stopped state)
    {state : State} (initial : invariant start state) :
    Ends (forCount body count start) (fun _ after => invariant (start + count) after)
      stopped state := by
  induction count generalizing start state with
  | zero => simpa [forCount] using initial
  | succ count induction =>
    simp only [forCount, ends_bind]
    apply ends_mono (step start state (Nat.le_refl _) (by omega) initial)
    · intro _ after held
      have rest := induction (start + 1)
        (fun index state lower upper => step index state (by omega) (by omega)) held
      rwa [show start + 1 + count = start + (count + 1) by omega] at rest
    · exact fun _ _ => id

attribute [irreducible] Ends

end RiriaKernel.HaltingPrograms
