import SysProg.Transition.Steps

namespace SysProg.Transition

open Relation

/-! Forward simulation with stuttering.

A run of the lower system is a run of the upper one as soon as each lower step, taken where
the invariant holds, is an upper step of what `view` shows or does not change it. -/

variable {State Other : Type*} {step : State → State → Prop} {step' : Other → Other → Prop}
  {view : State → Other} {invariant : State → Prop} {first last : State}

structure Simulation (step : State → State → Prop) (step' : Other → Other → Prop)
    (view : State → Other) (invariant : State → Prop) : Prop where
  kept : ∀ before after, step before after → invariant before → invariant after
  follows : ∀ before after, step before after → invariant before →
    view after = view before ∨ step' (view before) (view after)

namespace Simulation

theorem invariant_run (simulation : Simulation step step' view invariant)
    (run : ReflTransGen step first last) (initially : invariant first) : invariant last :=
  invariant_of_run simulation.kept run initially

theorem run (simulation : Simulation step step' view invariant)
    (run : ReflTransGen step first last) (initially : invariant first) :
    ReflTransGen step' (view first) (view last) := by
  induction run with
  | refl => exact .refl
  | tail before taken ih =>
      cases simulation.follows _ _ taken (simulation.invariant_run before initially) with
      | inl same => rwa [same]
      | inr upper => exact ih.tail upper

/-- Safety of the upper system is safety of the lower one. -/
theorem transfer {safe : Other → Prop} (simulation : Simulation step step' view invariant)
    (upper : ∀ other, ReflTransGen step' (view first) other → safe other)
    (run : ReflTransGen step first last) (initially : invariant first) : safe (view last) :=
  upper _ (simulation.run run initially)

end Simulation

end SysProg.Transition
