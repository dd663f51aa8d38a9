import SysProg.Process.Run

namespace SysProg.Process

open Transition

/-! Processes whose input is at its end.

The pipe to a process is written by its parent alone: once the parent is gone and the pipe
is empty, `read` returns 0 and leaves the message `eof` that the buffer was filled with. -/

variable {Msg Op Val Seed Loc World : Type}

/-- An idle process finds that nobody can write to it any more. -/
def Cell.hang (machine : Machine Msg Op Val Seed Loc World) (eof : Msg) (cell : Cell Msg Op Val Seed Loc) :
    Option (Cell Msg Op Val Seed Loc) :=
  match cell.control, cell.down with
  | .idle loc, [] => some { cell with control := .resume (machine.serve loc eof) }
  | _, _ => none

/-- `held` says whether somebody holds the other end of the pipes to these processes. -/
def Forest.hang (machine : Machine Msg Op Val Seed Loc World) (eof : Msg) :
    Bool → Place → Forest Msg Op Val Seed Loc → Option (Forest Msg Op Val Seed Loc)
  | _, _, .nil => none
  | held, .here, .cons cell kids rest =>
      if held then none else (cell.hang machine eof).map fun cell => .cons cell kids rest
  | _, .under place, .cons cell kids rest =>
      (kids.hang machine eof cell.control.alive place).map fun kids => .cons cell kids rest
  | held, .beside place, .cons cell kids rest =>
      (rest.hang machine eof held place).map fun rest => .cons cell kids rest

/-- A step when the input of the first process is at its end. -/
inductive Ebbs (machine : Machine Msg Op Val Seed Loc World) (eof : Msg) :
    World × Forest Msg Op Val Seed Loc → World × Forest Msg Op Val Seed Loc → Prop
  | moves {before after} (taken : Moves machine before after) : Ebbs machine eof before after
  | hangs {world forest forest'} {place : Place}
      (hung : forest.hang machine eof false place = some forest') :
      Ebbs machine eof (world, forest) (world, forest')

/-- No process is left. -/
def Forest.Gone : Forest Msg Op Val Seed Loc → Prop
  | .nil => True
  | .cons cell kids rest => cell.control.alive = false ∧ kids.Gone ∧ rest.Gone

theorem Forest.Dead.gone {forest : Forest Msg Op Val Seed Loc} (dead : forest.Dead) : forest.Gone := by
  induction forest with
  | nil => trivial
  | cons cell kids rest kids_ih rest_ih =>
      obtain ⟨reaped, below, beside⟩ := dead
      refine ⟨?_, kids_ih below, rest_ih beside⟩
      rw [reaped]
      rfl

/-- How far a process is from its exit: idle, past the end, gone. -/
inductive Fading : Control Msg Op Val Seed Loc → Nat → Prop
  | idle (loc : Loc) : Fading (.idle loc) 2
  | exiting : Fading (.busy .exit) 1
  | gone : Fading .zombie 0

/-- Processes without messages, and the steps that they still have before them. -/
inductive Ebbing : Forest Msg Op Val Seed Loc → Nat → Prop
  | nil : Ebbing .nil 0
  | cons {link up control kids rest mine below beside} (stands : Fading control mine)
      (inner : Ebbing kids below) (others : Ebbing rest beside) :
      Ebbing (.cons ⟨link, [], up, control⟩ kids rest) (mine + below + beside)

variable {machine : Machine Msg Op Val Seed Loc World} {eof : Msg} {world : World}
  {forest forest' : Forest Msg Op Val Seed Loc} {count : Nat} {place : Place} {held : Bool}

def Grove.size : Grove Loc → Nat
  | .nil => 0
  | .cons _ _ kids rest => kids.size + rest.size + 1

theorem Grove.ebbing (grove : Grove Loc) :
    Ebbing (grove.forest : Forest Msg Op Val Seed Loc) (2 * grove.size) := by
  induction grove with
  | nil => exact .nil
  | cons link loc kids rest kids_ih rest_ih =>
      have total : 2 * (Grove.cons link loc kids rest).size = 2 + 2 * kids.size + 2 * rest.size := by
        rw [size]
        omega
      rw [total]
      exact .cons (.idle loc) kids_ih rest_ih

theorem Ebbing.ended (ebbing : Ebbing forest 0) : forest.Gone := by
  generalize zero : 0 = count at ebbing
  induction ebbing with
  | nil => trivial
  | cons stands inner others inner_ih others_ih =>
      refine ⟨?_, inner_ih (by omega), others_ih (by omega)⟩
      cases stands with
      | idle loc => omega
      | exiting => omega
      | gone => rfl

/-- A process that takes a step exits. -/
theorem Ebbing.step {after : World × Forest Msg Op Val Seed Loc} (ebbing : Ebbing forest count)
    (stepped : forest.step machine world place = some after) :
    after.1 = world ∧ ∃ left, count = left + 1 ∧ Ebbing after.2 left := by
  induction ebbing generalizing place after with
  | nil => cases place <;> cases stepped
  | @cons link up control kids rest mine below beside stands inner others inner_ih others_ih =>
      cases place with
      | here =>
          cases stands with
          | idle loc => cases stepped
          | exiting =>
              cases stepped
              exact ⟨rfl, 0 + below + beside, by omega, .cons .gone inner others⟩
          | gone => cases stepped
      | under place =>
          obtain ⟨next, moved, rfl⟩ := Option.map_eq_some_iff.mp stepped
          obtain ⟨same, left, rfl, ebbing⟩ := inner_ih moved
          exact ⟨same, mine + left + beside, by omega, .cons stands ebbing others⟩
      | beside place =>
          obtain ⟨next, moved, rfl⟩ := Option.map_eq_some_iff.mp stepped
          obtain ⟨same, left, rfl, ebbing⟩ := others_ih moved
          exact ⟨same, mine + below + left, by omega, .cons stands inner ebbing⟩

/-- A process that reads the end is about to exit. -/
theorem Ebbing.hang (leaves : ∀ loc, machine.serve loc eof = .exit) (ebbing : Ebbing forest count)
    (hung : forest.hang machine eof held place = some forest') :
    ∃ left, count = left + 1 ∧ Ebbing forest' left := by
  induction ebbing generalizing place forest' held with
  | nil => cases place <;> cases hung
  | @cons link up control kids rest mine below beside stands inner others inner_ih others_ih =>
      cases place with
      | here =>
          cases held with
          | true => cases hung
          | false =>
              cases stands with
              | idle loc =>
                  cases hung
                  rw [leaves]
                  exact ⟨1 + below + beside, by omega, .cons .exiting inner others⟩
              | exiting => cases hung
              | gone => cases hung
      | under place =>
          obtain ⟨next, moved, rfl⟩ := Option.map_eq_some_iff.mp hung
          obtain ⟨left, rfl, ebbing⟩ := inner_ih moved
          exact ⟨mine + left + beside, by omega, .cons stands ebbing others⟩
      | beside place =>
          obtain ⟨next, moved, rfl⟩ := Option.map_eq_some_iff.mp hung
          obtain ⟨left, rfl, ebbing⟩ := others_ih moved
          exact ⟨mine + below + left, by omega, .cons stands inner ebbing⟩

/-- While one of the processes is left, the topmost of them can go on: nobody holds the pipe
to a process whose parents are all gone. -/
theorem Ebbing.progress (machine : Machine Msg Op Val Seed Loc World) (eof : Msg) (world : World)
    (ebbing : Ebbing forest count) (some : 0 < count) :
    (∃ place after, forest.step machine world place = .some after) ∨
      ∃ place forest', forest.hang machine eof false place = .some forest' := by
  induction ebbing with
  | nil => omega
  | @cons link up control kids rest mine below beside stands inner others inner_ih others_ih =>
      cases stands with
      | idle loc => exact .inr ⟨.here, _, rfl⟩
      | exiting => exact .inl ⟨.here, _, rfl⟩
      | gone =>
          by_cases under : 0 < below
          · rcases inner_ih under with ⟨place, after, moved⟩ | ⟨place, kids', hung⟩
            · exact .inl ⟨.under place, _, Option.map_eq_some_iff.mpr ⟨after, moved, rfl⟩⟩
            · exact .inr ⟨.under place, _, Option.map_eq_some_iff.mpr ⟨kids', hung, rfl⟩⟩
          · rcases others_ih (by omega) with ⟨place, after, moved⟩ | ⟨place, rest', hung⟩
            · exact .inl ⟨.beside place, _, Option.map_eq_some_iff.mpr ⟨after, moved, rfl⟩⟩
            · exact .inr ⟨.beside place, _, Option.map_eq_some_iff.mpr ⟨rest', hung, rfl⟩⟩

/-- Where the end of the input makes a process exit, all processes do, and the world stays. -/
theorem Ebbing.until (leaves : ∀ loc, machine.serve loc eof = .exit) (ebbing : Ebbing forest count) :
    Until (Ebbs machine eof) (fun now => now.1 = world) (fun now => now.1 = world ∧ now.2.Gone)
      (world, forest) := by
  induction count generalizing forest with
  | zero => exact .reached ⟨rfl, ebbing.ended⟩
  | succ left ih =>
      refine .moves rfl ?_ ?_
      · rcases ebbing.progress machine eof world left.succ_pos with ⟨place, after, moved⟩ | ⟨place, next, hung⟩
        · exact ⟨after, .moves ⟨place, moved⟩⟩
        · exact ⟨(world, next), .hangs hung⟩
      · intro next taken
        cases taken with
        | moves taken =>
            obtain ⟨place, stepped⟩ := taken
            obtain ⟨same, left', sum, ebbing'⟩ := ebbing.step stepped
            cases sum
            obtain ⟨world', forest'⟩ := next
            obtain rfl := same
            exact ih ebbing'
        | hangs hung =>
            obtain ⟨left', sum, ebbing'⟩ := ebbing.hang leaves hung
            cases sum
            exact ih ebbing'

end SysProg.Process
