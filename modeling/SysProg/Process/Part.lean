import SysProg.Process.Sequence

namespace SysProg.Process

/-! Programs of the first process that are followed to the end of a part.

What `Yields` says of a part holds of every run of a program that begins with it, also where
nothing is known of what comes behind. -/

open Transition

variable {Msg Op Val Seed Loc World Lane α β : Type} [DecidableEq Lane] [PartialOrder Lane]
  {machine : Machine Msg Op Val Seed Loc World} {lane : Lane} {link : Link} {later : List Msg}
  {world world' : World} {kids : Forest Msg Op Val Seed Loc} {grove grove' : Grove Loc}
  {calls : List (Op × Val)} {value : α}

/-- The first process at a point of its program. -/
def working (link : Link) (later : List Msg) (prog : Prog Msg Op Val Seed Loc)
    (kids : Forest Msg Op Val Seed Loc) : Forest Msg Op Val Seed Loc :=
  .cons ⟨link, later, [], .resume prog⟩ kids .nil

theorem Control.resume_bind {rest : Prog Msg Op Val Seed α} {next : α → Prog Msg Op Val Seed Loc}
    (unfinished : ∀ value, rest ≠ .pure value) : Control.resume (rest.bind next) = .busy (rest.bind next) := by
  cases rest with
  | pure value => exact absurd rfl (unfinished value)
  | write | read | reply | fork | wait | close | call | exit => rfl

/-- The next call of a part does not depend on what comes behind the part. -/
theorem Prog.advance_bind {rest : Prog Msg Op Val Seed α} {next : α → Prog Msg Op Val Seed Loc}
    {after : Advance Msg Op Val Seed Loc World} (other : α → Prog Msg Op Val Seed Loc)
    (unfinished : ∀ value, rest ≠ .pure value)
    (taken : (rest.bind next).advance machine world kids = some after) :
    ∃ more : Prog Msg Op Val Seed α, after.next = more.bind next ∧
      (rest.bind other).advance machine world kids =
        some ⟨after.world, after.kids, more.bind other, after.said⟩ := by
  cases rest with
  | pure value => exact absurd rfl (unfinished value)
  | exit => cases taken
  | write fd msg more =>
      obtain ⟨kids', delivered, rfl⟩ := Option.map_eq_some_iff.mp taken
      exact ⟨more, rfl, by simp [bind, advance, delivered]⟩
  | read fd more =>
      obtain ⟨got, received, rfl⟩ := Option.map_eq_some_iff.mp taken
      exact ⟨more got.1, rfl, by simp [bind, advance, received]⟩
  | reply msg more =>
      cases taken
      exact ⟨more, rfl, rfl⟩
  | fork own seed more =>
      cases taken
      exact ⟨more _, rfl, rfl⟩
  | wait more =>
      obtain ⟨kids', reaped, rfl⟩ := Option.map_eq_some_iff.mp taken
      exact ⟨more, rfl, by simp [bind, advance, reaped]⟩
  | close link more =>
      obtain ⟨kids', closed, rfl⟩ := Option.map_eq_some_iff.mp taken
      exact ⟨more, rfl, by simp [bind, advance, closed]⟩
  | call op more =>
      obtain ⟨done, executed, rfl⟩ := Option.map_eq_some_iff.mp taken
      exact ⟨more done.1, rfl, by simp [bind, advance, executed]⟩

/-- Two states that differ in what the first process does behind the part it is in. -/
inductive Alike (link : Link) (later : List Msg) (next other : α → Prog Msg Op Val Seed Loc) :
    World × Forest Msg Op Val Seed Loc → World × Forest Msg Op Val Seed Loc → Prop
  | part (world : World) (up : List Msg) (kids : Forest Msg Op Val Seed Loc)
      (rest : Prog Msg Op Val Seed α) :
      Alike link later next other (world, .cons ⟨link, later, up, .resume (rest.bind next)⟩ kids .nil)
        (world, .cons ⟨link, later, up, .resume (rest.bind other)⟩ kids .nil)

theorem Alike.symm {next other : α → Prog Msg Op Val Seed Loc}
    {one two : World × Forest Msg Op Val Seed Loc} (alike : Alike link later next other one two) :
    Alike link later other next two one := by
  cases alike with
  | part world up kids rest => exact .part world up kids rest

theorem Alike.moves {next : α → Prog Msg Op Val Seed Loc} {up : List Msg}
    {rest : Prog Msg Op Val Seed α} {state : World × Forest Msg Op Val Seed Loc}
    (other : α → Prog Msg Op Val Seed Loc) (unfinished : ∀ value, rest ≠ .pure value) (stays : rest ≠ .exit)
    (taken : Moves machine (world, .cons ⟨link, later, up, .resume (rest.bind next)⟩ kids .nil) state) :
    ∃ state', Moves machine (world, .cons ⟨link, later, up, .resume (rest.bind other)⟩ kids .nil) state' ∧
      Alike link later next other state state' := by
  have goes_on : ∀ next : α → Prog Msg Op Val Seed Loc, rest.bind next ≠ .exit := by
    intro next leaves
    cases rest with
    | pure value => exact unfinished value rfl
    | exit => exact stays rfl
    | write | read | reply | fork | wait | close | call => cases leaves
  obtain ⟨place, stepped⟩ := taken
  cases place with
  | beside place => cases place <;> cases stepped
  | under place =>
      obtain ⟨⟨world', kids'⟩, moved, rfl⟩ := Option.map_eq_some_iff.mp stepped
      exact ⟨_, ⟨.under place, by simp [Forest.step, moved]⟩, .part world' up kids' rest⟩
  | here =>
      obtain ⟨⟨world', cell, kids'⟩, turned, rfl⟩ := Option.map_eq_some_iff.mp stepped
      rw [Control.resume_bind unfinished, Cell.turn_busy (goes_on next)] at turned
      obtain ⟨after, advanced, same⟩ := Option.map_eq_some_iff.mp turned
      cases same
      obtain ⟨more, behind, advanced'⟩ := Prog.advance_bind other unfinished advanced
      rw [behind]
      refine ⟨_, ⟨.here, ?_⟩, .part after.world (up ++ after.said) after.kids more⟩
      rw [Control.resume_bind unfinished]
      simp [Forest.step, Cell.turn_busy (goes_on other), advanced']

/-- A program that ends if the part before it has the value that it should have. -/
def Prog.stop [DecidableEq α] (value : α) (loc : Loc) (result : α) : Prog Msg Op Val Seed Loc :=
  if result = value then .pure loc else .exit

theorem Prog.stop_same [DecidableEq α] (value : α) (loc : Loc) :
    (stop value loc value : Prog Msg Op Val Seed Loc) = .pure loc := if_pos rfl

theorem Prog.stop_other [DecidableEq α] {result : α} (wrong : result ≠ value) (loc : Loc) :
    (stop value loc result : Prog Msg Op Val Seed Loc) = .exit := if_neg wrong

theorem Finished.waits {loc : Loc} {forest : Forest Msg Op Val Seed Loc}
    (ended : Finished link later (some (loc, grove)) forest) : forest = waiting link loc grove later := by
  cases ended with
  | idle => rfl

section Stop

variable [DecidableEq α] {rest : Prog Msg Op Val Seed α} {up : List Msg} {loc : Loc}

/-- At the end of a run that stops there, the part has its value. -/
theorem Finished.of_stop (ended : Finished link later (some (loc, grove'))
    (.cons ⟨link, later, up, .resume (rest.bind (Prog.stop value loc))⟩ kids .nil)) :
    up = [] ∧ rest = .pure value ∧ kids = grove'.forest := by
  have same := ended.waits
  simp only [waiting, Forest.cons.injEq, Cell.mk.injEq, true_and, and_true] at same
  obtain ⟨⟨rfl, idle⟩, rfl⟩ := same
  refine ⟨rfl, ?_, rfl⟩
  cases rest with
  | pure result =>
      by_cases right : result = value
      · rw [right]
      · rw [show (Prog.pure result).bind (Prog.stop value loc) = .exit from Prog.stop_other right loc] at idle
        cases idle
  | write | read | reply | fork | wait | close | call | exit => cases idle

/-- Before its end the part is in the middle: a run that is over at a wrong place would not
come to its end. -/
theorem Until.inside_stop
    (works : (Forest.cons (Cell.mk link later up (.resume (rest.bind (Prog.stop value loc)))) kids .nil).Working
      link later)
    (onward : ∀ state, Moves machine
      (world, .cons ⟨link, later, up, .resume (rest.bind (Prog.stop value loc))⟩ kids .nil) state →
      Until (Moves machine) (fun state => state.2.Working link later)
        (fun state => Finished link later (some (loc, grove')) state.2 ∧ state.1 = world') state) :
    up = [] ∧ (∀ result, rest ≠ .pure result) ∧ rest ≠ .exit := by
  obtain ⟨prog, inner, works⟩ := works
  simp only [Forest.cons.injEq, Cell.mk.injEq, true_and, and_true] at works
  obtain ⟨⟨rfl, busy⟩, rfl⟩ := works
  have no_exit : rest.bind (Prog.stop value loc) ≠ .exit := by
    intro leaves
    have left : Moves machine
        (world, .cons ⟨link, later, [], .resume (rest.bind (Prog.stop value loc))⟩ kids .nil)
        (world, .cons ⟨link, later, [], .zombie⟩ kids .nil) := by
      rw [leaves]
      exact ⟨.here, rfl⟩
    cases onward _ left with
    | reached here => cases here.1
    | moves now _ _ =>
        obtain ⟨_, _, same⟩ := now
        cases same
  refine ⟨rfl, ?_, ?_⟩
  · intro result pure
    subst pure
    by_cases right : result = value
    · subst right
      rw [show (Prog.pure result).bind (Prog.stop result loc) = .pure loc from Prog.stop_same result loc] at busy
      cases busy
    · exact no_exit (Prog.stop_other right loc)
  · intro exit
    subst exit
    exact no_exit rfl

theorem Yields.until_stop {prog : Prog Msg Op Val Seed α}
    (part : Yields machine lane prog grove.crew grove'.crew calls value)
    (made : Calls machine calls world world') (loc : Loc) :
    Until (Moves machine) (fun state => state.2.Working link later)
      (fun state => Finished link later (some (loc, grove')) state.2 ∧ state.1 = world')
      (world, working link later (prog.bind (Prog.stop value loc)) grove.forest) := by
  let stop : α → Prog Msg Op Val Seed Loc := Prog.stop value loc
  have ends : Runs machine (stop value) grove'.crew (.nil : Trace Lane Op Val) 0 none (some (loc, grove')) := by
    rw [show stop value = .pure loc from Prog.stop_same value loc]
    exact .pure loc grove'
  obtain ⟨steps, runs⟩ := part.before stop (fun _ some => absurd rfl some) ends
  have serving : Serving machine link later (some (loc, grove'))
      (working link later (prog.bind stop) grove.forest)
      (.nil ++ (Trace.only lane calls ++ .nil)) (0 + steps) := .resume (.grove grove) runs
  rw [Trace.nil_append, Trace.append_nil] at serving
  exact serving.until_working made.alone

end Stop

/-- A part of a program of the first process comes to its end, whatever is behind it. -/
theorem Yields.until {prog : Prog Msg Op Val Seed α}
    (part : Yields machine lane prog grove.crew grove'.crew calls value)
    (made : Calls machine calls world world') (loc : Loc) (next : α → Prog Msg Op Val Seed Loc) :
    Until (Moves machine) (fun state => state.2.Working link later)
      (fun state => state = (world', working link later (next value) grove'.forest))
      (world, working link later (prog.bind next) grove.forest) := by
  classical
  let stop : α → Prog Msg Op Val Seed Loc := Prog.stop value loc
  refine (part.until_stop made loc).transfer ?_ ?_
    (.part world [] grove.forest prog : Alike link later stop next _ _)
  · intro state other alike ended
    obtain ⟨world, up, kids, rest⟩ := alike
    obtain ⟨ended, rfl⟩ := ended
    obtain ⟨rfl, rfl, rfl⟩ := ended.of_stop
    rfl
  · intro state other alike works some onward
    obtain ⟨world, up, kids, rest⟩ := alike
    obtain ⟨rfl, unfinished, stays⟩ := Until.inside_stop works onward
    refine ⟨⟨rest.bind next, kids, by rw [Control.resume_bind unfinished]⟩, ?_, ?_⟩
    · obtain ⟨state, taken⟩ := some
      obtain ⟨state', taken', _⟩ := Alike.moves next unfinished stays taken
      exact ⟨state', taken'⟩
    · intro state' taken
      obtain ⟨state, taken', alike⟩ := Alike.moves stop unfinished stays taken
      exact ⟨state, taken', alike.symm⟩

/-- A program that comes to its end, whatever is called before. -/
theorem Ends.until {prog : Prog Msg Op Val Seed Loc} {final : Option (Loc × Grove Loc)}
    (ends : Ends machine lane prog grove.crew calls none final) (made : Calls machine calls world world') :
    Until (Moves machine) (fun state => state.2.Working link later)
      (fun state => Finished link later final state.2 ∧ state.1 = world')
      (world, working link later prog grove.forest) := by
  obtain ⟨steps, runs⟩ := ends
  have serving : Serving machine link later final (working link later prog grove.forest)
      (.nil ++ Trace.only lane calls) (0 + steps) := .resume (.grove grove) runs
  exact serving.until_working made.alone

/-- The first process takes up a command. -/
theorem until_served {loc : Loc} {msg : Msg} {during outcome : World × Forest Msg Op Val Seed Loc → Prop}
    (here : during (world, waiting link loc grove (msg :: later)))
    (goal : Until (Moves machine) during outcome
      (world, working link later (machine.serve loc msg) grove.forest)) :
    Until (Moves machine) during outcome (world, waiting link loc grove (msg :: later)) := by
  refine .moves here ⟨_, .here, rfl⟩ fun state taken => ?_
  rw [waiting_moves taken]
  exact goal

end SysProg.Process
