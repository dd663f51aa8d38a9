import SysProg.Process.Progress
import SysProg.Transition.Until

namespace SysProg.Process

/-! Whole runs.

The first process has no parent: its messages are the commands it reads.  A run of all
processes through one command is decided by the calls that the command makes: if they
return what is expected in every order in which the world admits them, then every run ends,
in the same state of the processes. -/

open Transition

variable {Msg Op Val Seed Loc World Lane : Type} [DecidableEq Lane] [PartialOrder Lane]
  {machine : Machine Msg Op Val Seed Loc World}

def Moves (machine : Machine Msg Op Val Seed Loc World)
    (before after : World × Forest Msg Op Val Seed Loc) : Prop :=
  ∃ place, before.2.step machine before.1 place = some after

theorem Prog.advance_world {prog : Prog Msg Op Val Seed Loc} {world : World}
    {kids : Forest Msg Op Val Seed Loc} {after : Advance Msg Op Val Seed Loc World}
    (advanced : prog.advance machine world kids = some after) :
    after.world = world ∨ ∃ op val, machine.exec op world = some (val, after.world) := by
  cases prog with
  | pure value | exit => cases advanced
  | write fd msg next =>
      obtain ⟨kids', _, rfl⟩ := Option.map_eq_some_iff.mp advanced
      exact .inl rfl
  | read fd next =>
      obtain ⟨got, _, rfl⟩ := Option.map_eq_some_iff.mp advanced
      exact .inl rfl
  | reply msg next | fork own seed next =>
      cases advanced
      exact .inl rfl
  | wait next | close link next =>
      obtain ⟨kids', _, rfl⟩ := Option.map_eq_some_iff.mp advanced
      exact .inl rfl
  | call op next =>
      obtain ⟨⟨val, world'⟩, done, rfl⟩ := Option.map_eq_some_iff.mp advanced
      exact .inr ⟨op, val, done⟩

theorem Cell.turn_world {cell : Cell Msg Op Val Seed Loc} {kids : Forest Msg Op Val Seed Loc}
    {world : World} {after : World × Cell Msg Op Val Seed Loc × Forest Msg Op Val Seed Loc}
    (turned : cell.turn machine world kids = some after) :
    after.1 = world ∨ ∃ op val, machine.exec op world = some (val, after.1) := by
  obtain ⟨link, down, up, control⟩ := cell
  cases control with
  | zombie | reaped => cases turned
  | idle loc =>
      cases down with
      | nil => cases turned
      | cons msg down =>
          cases turned
          exact .inl rfl
  | busy prog =>
      by_cases leaving : prog = .exit
      · subst leaving
        cases turned
        exact .inl rfl
      · rw [Cell.turn_busy leaving] at turned
        obtain ⟨next, advanced, rfl⟩ := Option.map_eq_some_iff.mp turned
        exact Prog.advance_world advanced

/-- A step changes the world by a call at most. -/
theorem Forest.step_world {forest : Forest Msg Op Val Seed Loc} {place : Place} {world : World}
    {after : World × Forest Msg Op Val Seed Loc} (stepped : forest.step machine world place = some after) :
    after.1 = world ∨ ∃ op val, machine.exec op world = some (val, after.1) := by
  induction forest generalizing place after with
  | nil => cases place <;> cases stepped
  | cons cell kids rest kids_ih rest_ih =>
      cases place with
      | under place =>
          obtain ⟨next, moved, rfl⟩ := Option.map_eq_some_iff.mp stepped
          have ih := kids_ih moved
          exact ih
      | beside place =>
          obtain ⟨next, moved, rfl⟩ := Option.map_eq_some_iff.mp stepped
          have ih := rest_ih moved
          exact ih
      | here =>
          obtain ⟨next, turned, rfl⟩ := Option.map_eq_some_iff.mp stepped
          exact Cell.turn_world turned

/-- In every order that the world admits, the calls return what the trace says and lead to
a world of `outcome`; there is always one that can be made. -/
inductive Plan (machine : Machine Msg Op Val Seed Loc World) (outcome : World → Prop) :
    Trace Lane Op Val → World → Prop
  | done {world : World} (here : outcome world) : Plan machine outcome .nil world
  | step {trace : Trace Lane Op Val} {world : World}
      (some : ∃ lane op val rest, Due trace lane op val rest ∧ (machine.exec op world).isSome)
      (value : ∀ lane op val rest got world', Due trace lane op val rest →
        machine.exec op world = .some (got, world') → got = val)
      (onward : ∀ lane op val rest got world', Due trace lane op val rest →
        machine.exec op world = .some (got, world') →
        Plan machine outcome (trace.put lane rest) world') :
      Plan machine outcome trace world

/-- The first process before its next command, or gone. -/
inductive Finished (link : Link) (later : List Msg) :
    Option (Loc × Grove Loc) → Forest Msg Op Val Seed Loc → Prop
  | idle (loc : Loc) (kids : Grove Loc) :
      Finished link later (some (loc, kids)) (.cons ⟨link, later, [], .idle loc⟩ kids.forest .nil)
  | exited {kids : Forest Msg Op Val Seed Loc} (dead : kids.Dead) :
      Finished link later none (.cons ⟨link, later, [], .zombie⟩ kids .nil)

/-- The first process at work on a command; `later` are the commands behind it. -/
inductive Serving (machine : Machine Msg Op Val Seed Loc World) (link : Link) (later : List Msg)
    (final : Option (Loc × Grove Loc)) :
    Forest Msg Op Val Seed Loc → Trace Lane Op Val → Nat → Prop
  | working {prog kids crew under steps trace count}
      (family : Realises machine kids crew under steps)
      (runs : Runs machine prog crew trace count none final)
      (busy : Control.resume prog = .busy prog) :
      Serving machine link later final (.cons ⟨link, later, [], .busy prog⟩ kids .nil)
        (under ++ trace) (steps + count)
  | finished {forest} (ended : Finished link later final forest) :
      Serving machine link later final forest .nil 0

def Forest.Busy : Forest Msg Op Val Seed Loc → Prop
  | .nil => False
  | .cons cell _ _ => ∃ prog, cell.control = .busy prog

/-- The first process is in the middle of a program and has not answered. -/
def Forest.Working (link : Link) (later : List Msg) (forest : Forest Msg Op Val Seed Loc) : Prop :=
  ∃ prog kids, forest = .cons ⟨link, later, [], .busy prog⟩ kids .nil

variable {link : Link} {later : List Msg} {final : Option (Loc × Grove Loc)}
  {forest forest' : Forest Msg Op Val Seed Loc} {trace under : Trace Lane Op Val} {left count steps : Nat}
  {world world' : World} {outcome : World → Prop} {prog : Prog Msg Op Val Seed Loc}
  {kids : Forest Msg Op Val Seed Loc} {crew : Crew Msg Loc Lane}

theorem Serving.resume (family : Realises machine kids crew under steps)
    (runs : Runs machine prog crew trace count none final) :
    Serving machine link later final (.cons ⟨link, later, [], .resume prog⟩ kids .nil)
      (under ++ trace) (steps + count) := by
  cases runs with
  | pure loc grove =>
      obtain ⟨rfl, rfl, rfl⟩ := family.of_grove
      exact .finished (.idle loc grove)
  | exit gone => exact .working family (.exit gone) rfl
  | write only served within apart continues =>
      exact .working family (.write only served within apart continues) rfl
  | read only ordered continues => exact .working family (.read only ordered continues) rfl
  | fork served within apart continues =>
      exact .working family (.fork served within apart continues) rfl
  | wait only continues => exact .working family (.wait only continues) rfl
  | close only continues => exact .working family (.close only continues) rfl
  | call free ordered continues => exact .working family (.call free ordered continues) rfl

theorem Serving.step (serving : Serving machine link later final forest trace count)
    (open_ : 0 < count) {place : Place}
    (stepped : forest.step machine world place = some (world', forest')) :
    Advances machine trace world world' fun trace' =>
      ∃ left, count = left + 1 ∧ Serving machine link later final forest' trace' left := by
  cases serving with
  | finished ended => cases open_
  | @working prog kids crew under steps trace remain family runs busy =>
      cases place with
      | beside place => cases place <;> cases stepped
      | under place =>
          obtain ⟨⟨world'', kids'⟩, moved, same⟩ := Option.map_eq_some_iff.mp stepped
          cases same
          refine (family.step moved).append_right ?_ ?_
          · intro lane some lower less
            by_contra further
            obtain ⟨post, member, used⟩ := family.used some
            exact runs.above post member lane used lower further less
          · intro under' splits
            obtain ⟨left, rfl, family'⟩ := splits
            exact ⟨left + remain, by omega, .working family' runs busy⟩
      | here =>
          obtain ⟨⟨world'', cell, kids'⟩, turned, same⟩ := Option.map_eq_some_iff.mp stepped
          cases same
          by_cases leaving : prog = .exit
          · subst leaving
            cases turned
            cases runs with
            | exit gone =>
                obtain ⟨dead, rfl, rfl⟩ := family.of_gone gone
                exact .silent rfl ⟨0, rfl, .finished (.exited dead)⟩
          · rw [Cell.turn_busy leaving] at turned
            obtain ⟨after, taken, same⟩ := Option.map_eq_some_iff.mp turned
            cases same
            rcases runs.advance family taken with ⟨left, silent, sum, advances⟩ | replied
            · refine advances.mono ?_
              intro total splits
              obtain ⟨crew', under', steps', trace', count', family', runs', rfl, rfl⟩ := splits
              refine ⟨steps' + count', sum, ?_⟩
              rw [silent]
              exact .resume family' runs'
            · obtain ⟨msg, left, same, _⟩ := replied
              cases same

theorem Plan.not_done (plan : Plan machine outcome trace world) {lane : Lane}
    (some : trace lane ≠ []) : ∃ lane op val rest, Due trace lane op val rest ∧
      (machine.exec op world).isSome := by
  cases plan with
  | done here => exact absurd rfl some
  | step some _ _ => exact some

theorem Plan.end_of_nil (plan : Plan machine outcome (.nil : Trace Lane Op Val) world) :
    outcome world := by
  cases plan with
  | done here => exact here
  | step some _ _ =>
      obtain ⟨_, _, _, _, due, _⟩ := some
      exact due.not_nil.elim

theorem Serving.progress (serving : Serving machine link later final forest trace count)
    (open_ : 0 < count) (plan : Plan machine outcome trace world) :
    ∃ next, Moves machine (world, forest) next := by
  cases serving with
  | finished ended => cases open_
  | @working prog kids crew under steps trace remain family runs busy =>
      by_cases leaving : prog = .exit
      · subst leaving
        exact ⟨_, .here, rfl⟩
      rcases family.progress with ⟨place, kids', moved⟩ | waiting
      · exact ⟨(world, _), .under place, by simp [Forest.step, moved]; rfl⟩
      cases runs.stands family waiting busy leaving with
      | goes kids' next said moved =>
          exact ⟨(world, _), .here, by simp [Forest.step, Cell.turn_busy leaving, moved]; rfl⟩
      | waits some offers =>
          obtain ⟨lane, some⟩ := some
          obtain ⟨lane, op, val, rest, due, able⟩ := plan.not_done some
          obtain ⟨⟨got, world'⟩, done⟩ := Option.isSome_iff_exists.mp able
          rcases offers lane op val rest due with offers | ⟨next, same⟩
          · have outer : Offers machine (.cons ⟨link, later, [], .busy prog⟩ kids .nil) op :=
              offers.under
            obtain ⟨place, moved⟩ := outer
            obtain ⟨forest', stepped⟩ := moved world got world' done
            exact ⟨_, place, stepped⟩
          · subst same
            refine ⟨(world', .cons ⟨link, later, [], .resume (next got)⟩ kids .nil), .here, ?_⟩
            simp [Forest.step, Cell.turn_busy leaving, Prog.advance, done]

theorem Runs.positive {answer : Option Msg} (runs : Runs machine prog crew trace count answer final)
    (busy : Control.resume prog = .busy prog) : 0 < count := by
  cases runs with
  | pure loc grove => cases busy
  | exit | reply | leave | write | read | fork | wait | close | call => omega

theorem Serving.ended (serving : Serving machine link later final forest trace 0) :
    trace = .nil ∧ Finished link later final forest := by
  generalize zero : 0 = count at serving
  cases serving with
  | finished ended => exact ⟨rfl, ended⟩
  | working family runs busy =>
      have some := runs.positive busy
      omega

theorem Serving.works (serving : Serving machine link later final forest trace count)
    (open_ : 0 < count) : forest.Working link later := by
  cases serving with
  | finished ended => cases open_
  | working family runs busy => exact ⟨_, _, rfl⟩

theorem Plan.advance {onward : Trace Lane Op Val → Prop} (plan : Plan machine outcome trace world)
    (advances : Advances machine trace world world' onward) :
    ∃ trace', onward trace' ∧ Plan machine outcome trace' world' := by
  cases advances with
  | silent same after =>
      subst same
      exact ⟨trace, after, plan⟩
  | call next ready done after =>
      cases plan with
      | done here => cases next
      | step some value onward =>
          have same := value _ _ _ _ _ _ ⟨next, ready⟩ done
          exact ⟨_, after same, onward _ _ _ _ _ _ ⟨next, ready⟩ done⟩

theorem Forest.Working.busy (works : forest.Working link later) : forest.Busy := by
  obtain ⟨prog, kids, rfl⟩ := works
  exact ⟨prog, rfl⟩

/-- Every run through a program ends, and ends in the same way. -/
theorem Serving.until_working (serving : Serving machine link later final forest trace count)
    (plan : Plan machine outcome trace world) :
    Until (Moves machine) (fun state => state.2.Working link later)
      (fun state => Finished link later final state.2 ∧ outcome state.1) (world, forest) := by
  induction count generalizing trace world forest with
  | zero =>
      obtain ⟨rfl, ended⟩ := serving.ended
      exact .reached ⟨ended, plan.end_of_nil⟩
  | succ left ih =>
      refine .moves (serving.works left.succ_pos) (serving.progress left.succ_pos plan) ?_
      intro state moved
      obtain ⟨world', forest'⟩ := state
      obtain ⟨place, stepped⟩ := moved
      obtain ⟨trace', ⟨left', sum, serving'⟩, plan'⟩ :=
        plan.advance (serving.step left.succ_pos stepped)
      cases sum
      exact ih serving' plan'

theorem Serving.until (serving : Serving machine link later final forest trace count)
    (plan : Plan machine outcome trace world) :
    Until (Moves machine) (fun state => state.2.Busy)
      (fun state => Finished link later final state.2 ∧ outcome state.1) (world, forest) :=
  (serving.until_working plan).mono (fun _ works => works.busy) fun _ => id

/-- The first process before a command, with idle processes below it. -/
def waiting (link : Link) (loc : Loc) (grove : Grove Loc) (commands : List Msg) :
    Forest Msg Op Val Seed Loc :=
  .cons ⟨link, commands, [], .idle loc⟩ grove.forest .nil

/-- The only step of an idle process above idle ones. -/
theorem waiting_moves {loc : Loc} {grove : Grove Loc} {msg : Msg} {state : World × Forest Msg Op Val Seed Loc}
    (taken : Moves machine (world, waiting link loc grove (msg :: later)) state) :
    state = (world, .cons ⟨link, later, [], .resume (machine.serve loc msg)⟩ grove.forest .nil) := by
  obtain ⟨place, stepped⟩ := taken
  cases place with
  | beside place => cases place <;> cases stepped
  | under place => simp [waiting, Forest.step, grove.no_step] at stepped
  | here =>
      cases stepped
      rfl

/-- A command is served as its program runs. -/
theorem Runs.until {loc : Loc} {grove : Grove Loc} {msg : Msg}
    (runs : Runs machine (machine.serve loc msg) grove.crew trace count none final)
    (plan : Plan machine outcome trace world) :
    Until (Moves machine)
      (fun state => state.2.Busy ∨ state = (world, waiting link loc grove (msg :: later)))
      (fun state => Finished link later final state.2 ∧ outcome state.1)
      (world, waiting link loc grove (msg :: later)) := by
  refine .moves (.inr rfl) ⟨_, .here, rfl⟩ fun state taken => ?_
  rw [waiting_moves taken]
  have serving : Serving machine link later final
      (.cons ⟨link, later, [], .resume (machine.serve loc msg)⟩ grove.forest .nil)
      (.nil ++ trace) (0 + count) := .resume (.grove grove) runs
  exact (serving.until plan).mono (fun _ => .inl) fun _ => id

end SysProg.Process
