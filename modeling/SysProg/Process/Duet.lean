import SysProg.Process.Parallel

namespace SysProg.Process

open Transition Relation

/-! Two programs that make calls and do nothing else, in every order of their calls. -/

variable {Msg Op Val Seed Loc World α : Type} {machine : Machine Msg Op Val Seed Loc World}
  {op : Op} {val : Val} {calls xs ys : List (Op × Val)} {value : α}

structure Duet (Msg Op Val Seed World α : Type) where
  world : World
  first : Prog Msg Op Val Seed α
  second : Prog Msg Op Val Seed α

inductive Duet.Step (machine : Machine Msg Op Val Seed Loc World) :
    Duet Msg Op Val Seed World α → Duet Msg Op Val Seed World α → Prop
  | first {world world' : World} {op : Op} {val : Val} {next : Val → Prog Msg Op Val Seed α}
      {other : Prog Msg Op Val Seed α} (done : machine.exec op world = some (val, world')) :
      Step machine ⟨world, .call op next, other⟩ ⟨world', next val, other⟩
  | second {world world' : World} {op : Op} {val : Val} {next : Val → Prog Msg Op Val Seed α}
      {other : Prog Msg Op Val Seed α} (done : machine.exec op world = some (val, world')) :
      Step machine ⟨world, other, .call op next⟩ ⟨world', other, next val⟩

/-- A program that makes the calls one after the other if they return the values beside
them, and then returns. -/
inductive Prog.Makes : Prog Msg Op Val Seed α → List (Op × Val) → α → Prop
  | pure (value : α) : Makes (.pure value) [] value
  | call {op : Op} {val : Val} {next : Val → Prog Msg Op Val Seed α} {calls : List (Op × Val)}
      {value : α} (rest : Makes (next val) calls value) : Makes (.call op next) ((op, val) :: calls) value

/-- Both programs have returned. -/
def Duet.Done (one two : α) (outcome : World → Prop) (duet : Duet Msg Op Val Seed World α) : Prop :=
  duet.first = .pure one ∧ duet.second = .pure two ∧ outcome duet.world

theorem Duet.Done.last {one two : α} {outcome : World → Prop} {duet next : Duet Msg Op Val Seed World α}
    (done : Duet.Done one two outcome duet) : ¬ Duet.Step machine duet next := by
  intro step
  obtain ⟨left, right, _⟩ := done
  cases step with
  | first => cases left
  | second => cases right

/-- Two lists of calls that a relation plans are carried to the end in every order. -/
theorem Pairs.duet {outcome : World → Prop}
    {between : List (Op × Val) → List (Op × Val) → World → Prop} (pairs : Pairs machine outcome between)
    {world : World} {first second : Prog Msg Op Val Seed α} {one two : α} (left : first.Makes xs one)
    (right : second.Makes ys two) (here : between xs ys world) :
    Until (Duet.Step machine) (fun _ => True) (Duet.Done one two outcome) ⟨world, first, second⟩ := by
  induction total : xs.length + ys.length generalizing xs ys world first second with
  | zero =>
      obtain rfl : xs = [] := List.length_eq_zero_iff.mp (by omega)
      obtain rfl : ys = [] := List.length_eq_zero_iff.mp (by omega)
      cases left
      cases right
      exact .reached ⟨rfl, rfl, pairs.ends here⟩
  | succ total ih =>
      have busy : xs ≠ [] ∨ ys ≠ [] := by
        by_contra idle
        simp only [not_or, not_not] at idle
        simp [idle] at total
      refine .moves trivial ?_ ?_
      · rcases pairs.goes here busy with ⟨op, val, rest, rfl, can⟩ | ⟨op, val, rest, rfl, can⟩
        · obtain ⟨⟨got, world'⟩, done⟩ := Option.isSome_iff_exists.mp can
          cases left
          exact ⟨_, .first done⟩
        · obtain ⟨⟨got, world'⟩, done⟩ := Option.isSome_iff_exists.mp can
          cases right
          exact ⟨_, .second done⟩
      · intro next step
        cases step with
        | first done =>
            cases left with
            | call rest =>
                obtain ⟨rfl, still⟩ := pairs.left here done
                refine ih rest right still ?_
                rw [List.length_cons] at total
                omega
        | second done =>
            cases right with
            | call rest =>
                obtain ⟨rfl, still⟩ := pairs.right here done
                refine ih left rest still ?_
                rw [List.length_cons] at total
                omega

/-- The calls of the first program alone. -/
theorem Prog.Makes.goes_first {world world' : World} {prog : Prog Msg Op Val Seed α}
    (other : Prog Msg Op Val Seed α)
    (makes : prog.Makes (calls ++ xs) value) (done : Calls machine calls world world') :
    ∃ rest : Prog Msg Op Val Seed α, rest.Makes xs value ∧
      ReflTransGen (Duet.Step machine) ⟨world, prog, other⟩ ⟨world', rest, other⟩ := by
  induction done generalizing prog with
  | nil => exact ⟨prog, makes, .refl⟩
  | cons done _ ih =>
      cases makes with
      | call behind =>
          obtain ⟨rest, makes, run⟩ := ih behind
          exact ⟨rest, makes, run.head (.first done)⟩

/-- The calls of the second program alone. -/
theorem Prog.Makes.goes_second {world world' : World} {prog : Prog Msg Op Val Seed α}
    (other : Prog Msg Op Val Seed α)
    (makes : prog.Makes (calls ++ xs) value) (done : Calls machine calls world world') :
    ∃ rest : Prog Msg Op Val Seed α, rest.Makes xs value ∧
      ReflTransGen (Duet.Step machine) ⟨world, other, prog⟩ ⟨world', other, rest⟩ := by
  induction done generalizing prog with
  | nil => exact ⟨prog, makes, .refl⟩
  | cons done _ ih =>
      cases makes with
      | call behind =>
          obtain ⟨rest, makes, run⟩ := ih behind
          exact ⟨rest, makes, run.head (.second done)⟩

/-- A run to a state in which nothing moves, before the end, is a run that never ends. -/
theorem Duet.stuck {during : Duet Msg Op Val Seed World α → Prop} {one two : α} {outcome : World → Prop}
    {start last : Duet Msg Op Val Seed World α} (run : ReflTransGen (Duet.Step machine) start last)
    (stuck : ∀ next, ¬ Duet.Step machine last next) (open_ends : ¬ Duet.Done one two outcome last) :
    ¬ Until (Duet.Step machine) during (Duet.Done one two outcome) start := by
  intro goal
  rcases goal.of_run run with ⟨_, rest⟩ | ⟨middle, done, _, behind⟩
  · cases rest with
    | reached here => exact open_ends here
    | moves _ some _ =>
        obtain ⟨next, step⟩ := some
        exact stuck next step
  · cases ReflTransGen.cases_head behind with
    | inl same => exact open_ends (same ▸ done)
    | inr more =>
        obtain ⟨next, step, _⟩ := more
        exact done.last step

end SysProg.Process
