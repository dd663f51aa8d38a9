import SysProg.Transition.Steps

namespace SysProg.Transition

open Relation

/-! Runs with a history.

`note` keeps something about the steps taken beside the state.  No step reads it,
so a run with a history is a run, and a claim about what a run did becomes an
invariant of the pair. -/

variable {State Past Action : Type*}

structure Traced (State Past : Type*) where
  state : State
  past : Past

namespace Traced

variable {step : Action → State → Option State} {note : Action → State → Past → Past}
  {first last : Traced State Past}

/-- A step of the system that is noted. -/
def Step (step : Action → State → Option State) (note : Action → State → Past → Past)
    (before after : Traced State Past) : Prop :=
  ∃ action, step action before.state = some after.state ∧
    after.past = note action before.state before.past

def run (step : Action → State → Option State) (note : Action → State → Past → Past)
    (allowed : Traced State Past → Traced State Past → Bool) :
    List Action → Traced State Past → Option (Traced State Past)
  | [], traced => some traced
  | action :: rest, traced =>
      match step action traced.state with
      | some state =>
          let after := ⟨state, note action traced.state traced.past⟩
          if allowed traced after then run step note allowed rest after else none
      | none => none

theorem run_steps {allowed : Traced State Past → Traced State Past → Bool} {actions : List Action}
    (ran : run step note allowed actions first = some last) :
    ReflTransGen (Restrict (Step step note) fun before after => allowed before after = true) first
      last := by
  induction actions generalizing first with
  | nil =>
      cases ran
      exact .refl
  | cons action rest ih =>
      simp only [run] at ran
      split at ran
      · rename_i after stepped
        split at ran
        · rename_i meets
          exact (ReflTransGen.single ⟨⟨action, stepped, rfl⟩, meets⟩).trans (ih ran)
        · cases ran
      · cases ran

end Traced

end SysProg.Transition
