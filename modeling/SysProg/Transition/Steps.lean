import Mathlib.Logic.Relation

namespace SysProg.Transition

/-! Runs of a transition relation.

A run is a path of `Relation.ReflTransGen`; this file adds the two rules every
safety argument below is built from: an invariant that one step preserves holds
along a run, and a run may be restricted to the steps that meet a condition.  Where
the steps are the moves that a function performs, a run is a list of moves. -/

open Relation

variable {State : Type*} {step : State → State → Prop} {first last : State}

/-- The steps of `step` that also meet `allowed`. -/
def Restrict (step allowed : State → State → Prop) (before after : State) : Prop :=
  step before after ∧ allowed before after

theorem Restrict.run (allowed : State → State → Prop)
    (run : ReflTransGen (Restrict step allowed) first last) : ReflTransGen step first last :=
  ReflTransGen.mono (fun _ _ both => both.1) _ _ run

theorem invariant_of_run {invariant : State → Prop}
    (preserved : ∀ before after, step before after → invariant before → invariant after)
    (run : ReflTransGen step first last) (initially : invariant first) : invariant last := by
  induction run with
  | refl => exact initially
  | tail _ taken ih => exact preserved _ _ taken ih

theorem invariant_of_reached {invariant : State → Prop}
    (preserved : ∀ before after, ReflTransGen step first before → step before after →
      invariant before → invariant after)
    (run : ReflTransGen step first last) (initially : invariant first) : invariant last := by
  induction run with
  | refl => exact initially
  | tail reached taken ih => exact preserved _ _ reached taken ih

theorem run_iff_moves {Move : Type*} {perform : State → Move → Option State}
    (exact : ∀ before after, step before after ↔ ∃ move, perform before move = some after) :
    ReflTransGen step first last ↔ ∃ moves : List Move, moves.foldlM perform first = some last := by
  constructor
  · intro run
    induction run with
    | refl => exact ⟨[], rfl⟩
    | tail _ taken ih =>
        obtain ⟨moves, performed⟩ := ih
        obtain ⟨move, next⟩ := (exact _ _).mp taken
        refine ⟨moves ++ [move], ?_⟩
        rw [List.foldlM_append, performed]
        exact (bind_pure _).trans next
  · rintro ⟨moves, performed⟩
    induction moves generalizing first with
    | nil =>
        cases performed
        exact .refl
    | cons move rest ih =>
        obtain ⟨next, performed, others⟩ := Option.bind_eq_some_iff.mp performed
        exact .head ((exact _ _).mpr ⟨move, performed⟩) (ih others)

end SysProg.Transition
