import SysProg.Transition.Steps

namespace SysProg.Transition

open Relation

/-! What every run comes to.

`Until step during outcome first` says that a run from `first` cannot get stuck and cannot
go on for ever before it meets `outcome`, and that `during` holds up to then. -/

variable {State : Type*}

inductive Until (step : State → State → Prop) (during outcome : State → Prop) : State → Prop
  | reached {state : State} (here : outcome state) : Until step during outcome state
  | moves {state : State} (now : during state) (some : ∃ next, step state next)
      (each : ∀ next, step state next → Until step during outcome next) :
      Until step during outcome state

namespace Until

variable {step : State → State → Prop} {during during' outcome outcome' : State → Prop}
  {first last : State}

theorem mono (goal : Until step during outcome first)
    (weaker : ∀ state, during state → during' state)
    (results : ∀ state, outcome state → outcome' state) : Until step during' outcome' first := by
  induction goal with
  | reached here => exact .reached (results _ here)
  | moves now some _ ih => exact .moves (weaker _ now) some ih

/-- What follows the outcome follows the start. -/
theorem trans (goal : Until step during outcome first)
    (next : ∀ state, outcome state → Until step during outcome' state) :
    Until step during outcome' first := by
  induction goal with
  | reached here => exact next _ here
  | moves now some _ ih => exact .moves now some ih

/-- A run that another one follows step by step, as long as this one goes on, comes to what
the other comes to. -/
theorem transfer {Other : Type*} {step' : Other → Other → Prop} {before behind : Other → Prop}
    {related : State → Other → Prop} {other : Other} (goal : Until step during outcome first)
    (ends : ∀ state other, related state other → outcome state → behind other)
    (follows : ∀ state other, related state other → during state → (∃ next, step state next) →
      (∀ next, step state next → Until step during outcome next) →
      before other ∧ (∃ next, step' other next) ∧
        ∀ next', step' other next' → ∃ next, step state next ∧ related next next')
    (start : related first other) : Until step' before behind other := by
  induction goal generalizing other with
  | reached here => exact .reached (ends _ _ start here)
  | moves now some each ih =>
      obtain ⟨now', some', back⟩ := follows _ _ start now some each
      refine .moves now' some' fun next' taken => ?_
      obtain ⟨next, step, related⟩ := back next' taken
      exact ih next step related

theorem reaches (goal : Until step during outcome first) :
    ∃ last, outcome last ∧ ReflTransGen step first last := by
  induction goal with
  | reached here => exact ⟨_, here, .refl⟩
  | moves now some each ih =>
      obtain ⟨next, taken⟩ := some
      obtain ⟨last, here, run⟩ := ih next taken
      exact ⟨last, here, run.head taken⟩

/-- A state that is reached comes before the outcome or after it. -/
theorem of_run (goal : Until step during outcome first) (run : ReflTransGen step first last) :
    (during last ∧ Until step during outcome last) ∨
      ∃ middle, outcome middle ∧ ReflTransGen step first middle ∧ ReflTransGen step middle last := by
  induction run using ReflTransGen.head_induction_on with
  | refl =>
      cases goal with
      | reached here => exact .inr ⟨_, here, .refl, .refl⟩
      | moves now some each => exact .inl ⟨now, .moves now some each⟩
  | head taken run ih =>
      cases goal with
      | reached here => exact .inr ⟨_, here, .refl, run.head taken⟩
      | moves now some each =>
          refine (ih (each _ taken)).imp id ?_
          intro later
          obtain ⟨middle, here, before, behind⟩ := later
          exact ⟨middle, here, before.head taken, behind⟩

/-- Steps that lower a number, in states where one of them can be taken until the outcome. -/
theorem of_potential {invariant : State → Prop} (potential : State → Nat)
    (kept : ∀ before after, invariant before → step before after → invariant after)
    (lowers : ∀ before after, invariant before → step before after → potential after < potential before)
    (goes : ∀ state, invariant state → outcome state ∨ ∃ next, step state next)
    (initially : invariant first) : Until step invariant (fun state => invariant state ∧ outcome state) first := by
  induction size : potential first using Nat.strongRecOn generalizing first with
  | ind count ih =>
      rcases goes first initially with here | some
      · exact .reached ⟨initially, here⟩
      · refine .moves initially some fun next taken => ?_
        have lower := lowers first next initially taken
        exact ih (potential next) (size ▸ lower) (kept first next initially taken) rfl

end Until

end SysProg.Transition
