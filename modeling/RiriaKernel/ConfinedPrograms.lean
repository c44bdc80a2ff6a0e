import Mathlib.Order.RelClasses
import RiriaKernel.HaltingPrograms

/-!
# Programs that are typed by what holds around them

A program is typed by an index before it and an index after it if what holds at the first index
when it starts holds at the second one when it returns, and if every stop is allowed. A program is
confined to a relation if, from whatever state it starts and however it ends, the relation leads
from the first state to the last: it is typed by what is related to a fixed origin.
-/

namespace RiriaKernel.ConfinedPrograms

open HaltingPrograms

variable {Error State Value Next Index : Type}

def Typed (holds : Index → State → Prop) (stops : Error → State → Prop) (before : Index)
    (program : EStateM Error State Value) (after : Index) : Prop :=
  ∀ state, holds before state → Ends program (fun _ result => holds after result) stops state

section Rules

variable {holds : Index → State → Prop} {stops : Error → State → Prop} {first second third : Index}

theorem typed_bind {program : EStateM Error State Value} {rest : Value → EStateM Error State Next}
    (head : Typed holds stops first program second)
    (tail : ∀ value, Typed holds stops second (rest value) third) :
    Typed holds stops first (program >>= rest) third := by
  intro state here
  rw [ends_bind]
  exact ends_mono (head state here) (fun value after there => tail value after there)
    fun _ _ => id

theorem typed_pure (value : Value) :
    Typed holds stops first (pure value : EStateM Error State Value) first := by
  intro state here
  rwa [ends_pure]

theorem typed_get : Typed holds stops first (get : EStateM Error State State) first := by
  intro state here
  rwa [ends_get]

theorem typed_throw {error : Error} (allowed : ∀ state, holds first state → stops error state) :
    Typed holds stops first (throw error : EStateM Error State Value) second := by
  intro state here
  rw [ends_throw]
  exact allowed state here

theorem typed_modify {update : State → State}
    (moves : ∀ state, holds first state → holds second (update state)) :
    Typed holds stops first (modify update : EStateM Error State PUnit) second := by
  intro state here
  rw [ends_modify]
  exact moves state here

theorem typed_ite {condition : Prop} [Decidable condition]
    {accepted rejected : EStateM Error State Value} (onTrue : Typed holds stops first accepted second)
    (onFalse : Typed holds stops first rejected second) :
    Typed holds stops first (if condition then accepted else rejected) second := by
  split
  · exact onTrue
  · exact onFalse

theorem typed_forCount {body : Nat → EStateM Error State PUnit}
    (step : ∀ index, Typed holds stops first (body index) first) (count start : Nat) :
    Typed holds stops first (forCount body count start) first := by
  induction count generalizing start with
  | zero => exact typed_pure _
  | succ count induction => exact typed_bind (step start) fun _ => induction (start + 1)

end Rules

def Confined (related : State → State → Prop) (program : EStateM Error State Value) : Prop :=
  ∀ state, Ends program (fun _ after => related state after) (fun _ after => related state after) state

end RiriaKernel.ConfinedPrograms
