import SysProg.Process.Run

namespace SysProg.Process

/-! What every run of a program does, whatever it reads.

A program keeps to messages and calls of a kind when it writes no others.  If that holds of
what a process does for each message of the kind, no process makes another call as long as
the first one reads no command. -/

open Relation

variable {Msg Op Val Seed Loc World α β : Type} {machine : Machine Msg Op Val Seed Loc World}
  {asks : Msg → Prop} {calls : Op → Prop}

def Prog.Keeps (asks : Msg → Prop) (calls : Op → Prop) : Prog Msg Op Val Seed α → Prop
  | .pure _ | .exit => True
  | .write _ msg next => asks msg ∧ next.Keeps asks calls
  | .read _ next => ∀ got, (next got).Keeps asks calls
  | .reply _ next | .wait next | .close _ next => next.Keeps asks calls
  | .fork _ _ _ => False
  | .call op next => calls op ∧ ∀ val, (next val).Keeps asks calls

def Control.Keeps (asks : Msg → Prop) (calls : Op → Prop) : Control Msg Op Val Seed Loc → Prop
  | .busy prog => prog.Keeps asks calls
  | .idle _ | .zombie | .reaped => True

def Forest.Keeps (asks : Msg → Prop) (calls : Op → Prop) : Forest Msg Op Val Seed Loc → Prop
  | .nil => True
  | .cons cell kids rest =>
      ((∀ msg ∈ cell.down, asks msg) ∧ cell.control.Keeps asks calls) ∧
        kids.Keeps asks calls ∧ rest.Keeps asks calls

/-- What a step does to the world. -/
def Touches (machine : Machine Msg Op Val Seed Loc World) (calls : Op → Prop) (world world' : World) : Prop :=
  world' = world ∨ ∃ op val, calls op ∧ machine.exec op world = some (val, world')

theorem Prog.Keeps.bind {prog : Prog Msg Op Val Seed α} {next : α → Prog Msg Op Val Seed β}
    (keeps : prog.Keeps asks calls) (behind : ∀ value, (next value).Keeps asks calls) :
    (prog.bind next).Keeps asks calls := by
  induction prog with
  | pure value => exact behind value
  | exit => trivial
  | write fd msg rest ih => exact ⟨keeps.1, ih keeps.2⟩
  | read fd rest ih => exact fun got => ih got (keeps got)
  | reply msg rest ih | wait rest ih | close link rest ih => exact ih keeps
  | fork own seed rest ih => exact keeps.elim
  | call op rest ih => exact ⟨keeps.1, fun val => ih val (keeps.2 val)⟩

theorem Prog.Keeps.resume {prog : Prog Msg Op Val Seed Loc} (keeps : prog.Keeps asks calls) :
    (Control.resume prog).Keeps asks calls := by
  cases prog with
  | pure value => trivial
  | write | read | reply | fork | wait | close | call | exit => exact keeps

theorem Grove.keeps (grove : Grove Loc) :
    (grove.forest : Forest Msg Op Val Seed Loc).Keeps asks calls := by
  induction grove with
  | nil => trivial
  | cons link loc kids rest kids_ih rest_ih => exact ⟨⟨nofun, trivial⟩, kids_ih, rest_ih⟩

section Kids

variable {kids kids' : Forest Msg Op Val Seed Loc} (keeps : kids.Keeps asks calls)

include keeps

theorem Forest.Keeps.deliver {fd : Int} {msg : Msg} (right : asks msg) (done : kids.deliver fd msg = some kids') :
    kids'.Keeps asks calls := by
  induction kids generalizing kids' with
  | nil =>
      cases done
      trivial
  | cons cell inner rest _ ih =>
      obtain ⟨⟨down, control⟩, below, beside⟩ := keeps
      rw [Forest.deliver] at done
      split at done
      · split at done <;> cases done
        refine ⟨⟨fun other inside => ?_, control⟩, below, beside⟩
        rcases List.mem_append.mp inside with old | new
        · exact down other old
        · rwa [List.mem_singleton.mp new]
      · obtain ⟨rest', moved, rfl⟩ := Option.map_eq_some_iff.mp done
        exact ⟨⟨down, control⟩, below, ih beside moved⟩

theorem Forest.Keeps.receive {fd : Int} {got : Option Msg × Forest Msg Op Val Seed Loc}
    (done : kids.receive fd = some got) : got.2.Keeps asks calls := by
  induction kids generalizing got with
  | nil =>
      cases done
      trivial
  | cons cell inner rest _ ih =>
      obtain ⟨⟨down, control⟩, below, beside⟩ := keeps
      rw [Forest.receive] at done
      split at done
      · split at done <;> cases done
        exact ⟨⟨down, control⟩, below, beside⟩
      · obtain ⟨other, moved, rfl⟩ := Option.map_eq_some_iff.mp done
        exact ⟨⟨down, control⟩, below, ih beside moved⟩

theorem Forest.Keeps.reap (done : kids.reap = some kids') : kids'.Keeps asks calls := by
  induction kids generalizing kids' with
  | nil => cases done
  | cons cell inner rest _ ih =>
      obtain ⟨⟨down, control⟩, below, beside⟩ := keeps
      rw [Forest.reap] at done
      split at done
      · cases done
        exact ⟨⟨down, trivial⟩, below, beside⟩
      · obtain ⟨rest', moved, rfl⟩ := Option.map_eq_some_iff.mp done
        exact ⟨⟨down, control⟩, below, ih beside moved⟩

theorem Forest.Keeps.close {link : Link} (done : kids.close link = some kids') : kids'.Keeps asks calls := by
  induction kids generalizing kids' with
  | nil => cases done
  | cons cell inner rest _ ih =>
      obtain ⟨⟨down, control⟩, below, beside⟩ := keeps
      rw [Forest.close] at done
      split at done
      · split at done
        · split at done <;> cases done
          exact beside
        · cases done
      · obtain ⟨rest', moved, rfl⟩ := Option.map_eq_some_iff.mp done
        exact ⟨⟨down, control⟩, below, ih beside moved⟩

theorem Prog.Keeps.advance {prog : Prog Msg Op Val Seed Loc} {world : World}
    {after : Advance Msg Op Val Seed Loc World} (mine : prog.Keeps asks calls)
    (taken : prog.advance machine world kids = some after) :
    after.next.Keeps asks calls ∧ after.kids.Keeps asks calls ∧ Touches machine calls world after.world := by
  cases prog with
  | pure value | exit => cases taken
  | fork own seed next => exact mine.elim
  | write fd msg next =>
      obtain ⟨kids', delivered, rfl⟩ := Option.map_eq_some_iff.mp taken
      exact ⟨mine.2, keeps.deliver mine.1 delivered, .inl rfl⟩
  | read fd next =>
      obtain ⟨got, received, rfl⟩ := Option.map_eq_some_iff.mp taken
      exact ⟨mine got.1, keeps.receive received, .inl rfl⟩
  | reply msg next =>
      cases taken
      exact ⟨mine, keeps, .inl rfl⟩
  | wait next =>
      obtain ⟨kids', reaped, rfl⟩ := Option.map_eq_some_iff.mp taken
      exact ⟨mine, keeps.reap reaped, .inl rfl⟩
  | close link next =>
      obtain ⟨kids', closed, rfl⟩ := Option.map_eq_some_iff.mp taken
      exact ⟨mine, keeps.close closed, .inl rfl⟩
  | call op next =>
      obtain ⟨done, executed, rfl⟩ := Option.map_eq_some_iff.mp taken
      exact ⟨mine.2 done.1, keeps, .inr ⟨op, done.1, mine.1, executed⟩⟩

end Kids

/-- Whatever a process is asked, it keeps to the messages and calls. -/
def Machine.Keeps (machine : Machine Msg Op Val Seed Loc World) (asks : Msg → Prop) (calls : Op → Prop) : Prop :=
  ∀ loc msg, asks msg → (machine.serve loc msg).Keeps asks calls

section Step

variable {world world' : World} {forest forest' : Forest Msg Op Val Seed Loc} {place : Place}

theorem Cell.turn_keeps {cell cell' : Cell Msg Op Val Seed Loc} {kids kids' : Forest Msg Op Val Seed Loc}
    (goes_on : ∀ loc msg, cell.control = .idle loc → msg ∈ cell.down → (machine.serve loc msg).Keeps asks calls)
    (control : cell.control.Keeps asks calls) (below : kids.Keeps asks calls)
    (turned : cell.turn machine world kids = some (world', cell', kids')) :
    cell'.control.Keeps asks calls ∧ kids'.Keeps asks calls ∧ cell'.down <:+ cell.down ∧
      Touches machine calls world world' := by
  obtain ⟨link, down, up, control'⟩ := cell
  cases control' with
  | zombie | reaped => cases turned
  | idle loc =>
      cases down with
      | nil => cases turned
      | cons msg down =>
          cases turned
          exact ⟨(goes_on loc msg rfl List.mem_cons_self).resume, below, List.suffix_cons msg _, .inl rfl⟩
  | busy prog =>
      by_cases leaving : prog = .exit
      · subst leaving
        cases turned
        exact ⟨trivial, below, List.suffix_rfl, .inl rfl⟩
      · rw [Cell.turn_busy leaving] at turned
        obtain ⟨after, advanced, same⟩ := Option.map_eq_some_iff.mp turned
        cases same
        obtain ⟨next, kids, touches⟩ := Prog.Keeps.advance below control advanced
        exact ⟨next.resume, kids, List.suffix_rfl, touches⟩

/-- No process makes another call or asks for something else. -/
theorem Forest.Keeps.step (served : machine.Keeps asks calls) (keeps : forest.Keeps asks calls)
    (stepped : forest.step machine world place = some (world', forest')) :
    forest'.Keeps asks calls ∧ Touches machine calls world world' := by
  induction forest generalizing place forest' with
  | nil => cases place <;> cases stepped
  | cons cell kids rest kids_ih rest_ih =>
      obtain ⟨⟨down, control⟩, below, beside⟩ := keeps
      cases place with
      | here =>
          obtain ⟨⟨world'', cell', kids'⟩, turned, same⟩ := Option.map_eq_some_iff.mp stepped
          cases same
          obtain ⟨control', below', less, touches⟩ := Cell.turn_keeps
            (fun loc msg _ inside => served loc msg (down msg inside)) control below turned
          exact ⟨⟨⟨fun msg inside => down msg (less.mem inside), control'⟩, below', beside⟩, touches⟩
      | under place =>
          obtain ⟨⟨world'', kids'⟩, moved, same⟩ := Option.map_eq_some_iff.mp stepped
          cases same
          obtain ⟨below', touches⟩ := kids_ih below moved
          exact ⟨⟨⟨down, control⟩, below', beside⟩, touches⟩
      | beside place =>
          obtain ⟨⟨world'', rest'⟩, moved, same⟩ := Option.map_eq_some_iff.mp stepped
          cases same
          obtain ⟨beside', touches⟩ := rest_ih beside moved
          exact ⟨⟨⟨down, control⟩, below, beside'⟩, touches⟩

end Step

/-! ## Between two commands -/

/-- What the first process has not read yet. -/
def Forest.unread : Forest Msg Op Val Seed Loc → List Msg
  | .nil => []
  | .cons cell _ _ => cell.down

section Run

variable {later : List Msg} {first last : World × Forest Msg Op Val Seed Loc} {quiet : World → Prop}

theorem Moves.unread (taken : Moves machine first last) : last.2.unread.length ≤ first.2.unread.length := by
  obtain ⟨world, forest⟩ := first
  obtain ⟨place, stepped⟩ := taken
  cases forest with
  | nil => cases place <;> cases stepped
  | cons cell kids rest =>
      cases place with
      | under place | beside place =>
          obtain ⟨after, moved, rfl⟩ := Option.map_eq_some_iff.mp stepped
          exact Nat.le_refl _
      | here =>
          obtain ⟨⟨world', cell', kids'⟩, turned, rfl⟩ := Option.map_eq_some_iff.mp stepped
          obtain ⟨link, down, up, control⟩ := cell
          cases control with
          | zombie | reaped => cases turned
          | idle loc =>
              cases down with
              | nil => cases turned
              | cons msg down =>
                  cases turned
                  exact Nat.le_succ _
          | busy prog =>
              by_cases leaving : prog = .exit
              · subst leaving
                cases turned
                exact Nat.le_refl _
              · rw [Cell.turn_busy leaving] at turned
                obtain ⟨after, advanced, same⟩ := Option.map_eq_some_iff.mp turned
                cases same
                exact Nat.le_refl _

/-- The first process, with `later` still to read, and all others keep to the messages and
calls. -/
def Forest.Minds (asks : Msg → Prop) (calls : Op → Prop) (later : List Msg)
    (forest : Forest Msg Op Val Seed Loc) : Prop :=
  ∃ cell kids, forest = .cons cell kids .nil ∧ cell.down = later ∧ cell.control.Keeps asks calls ∧
    kids.Keeps asks calls

theorem Forest.Minds.moves (served : machine.Keeps asks calls) (minds : first.2.Minds asks calls later)
    (taken : Moves machine first last) :
    last.2.unread.length < later.length ∨
      last.2.Minds asks calls later ∧ Touches machine calls first.1 last.1 := by
  obtain ⟨world, forest⟩ := first
  obtain ⟨⟨link, down, up, control⟩, kids, same, rfl, mine, below⟩ := minds
  obtain rfl := same
  obtain ⟨place, stepped⟩ := taken
  cases place with
  | beside place => cases place <;> cases stepped
  | under place =>
      obtain ⟨⟨world', kids'⟩, moved, rfl⟩ := Option.map_eq_some_iff.mp stepped
      obtain ⟨below', touches⟩ := below.step served moved
      exact .inr ⟨⟨_, _, rfl, rfl, mine, below'⟩, touches⟩
  | here =>
      obtain ⟨⟨world', cell', kids'⟩, turned, rfl⟩ := Option.map_eq_some_iff.mp stepped
      cases control with
      | zombie | reaped => cases turned
      | idle loc =>
          cases down with
          | nil => cases turned
          | cons msg down =>
              cases turned
              exact .inl (Nat.lt_succ_self _)
      | busy prog =>
          by_cases leaving : prog = .exit
          · subst leaving
            cases turned
            exact .inr ⟨⟨_, _, rfl, rfl, trivial, below⟩, .inl rfl⟩
          · rw [Cell.turn_busy leaving] at turned
            obtain ⟨after, advanced, same⟩ := Option.map_eq_some_iff.mp turned
            cases same
            obtain ⟨next, kids, touches⟩ := Prog.Keeps.advance below mine advanced
            exact .inr ⟨⟨_, _, rfl, rfl, next.resume, kids⟩, touches⟩

/-- What these calls keep holds until the first process reads its next message. -/
theorem Forest.Minds.run (served : machine.Keeps asks calls) (minds : first.2.Minds asks calls later)
    (kept : ∀ op val world world', calls op → machine.exec op world = some (val, world') →
      quiet world → quiet world')
    (here : quiet first.1) (run : ReflTransGen (Moves machine) first last) :
    last.2.unread.length < later.length ∨ last.2.Minds asks calls later ∧ quiet last.1 := by
  induction run with
  | refl => exact .inr ⟨minds, here⟩
  | tail _ taken ih =>
      rcases ih with read | ⟨minds, still⟩
      · exact .inl (Nat.lt_of_le_of_lt taken.unread read)
      · refine (minds.moves served taken).imp id fun ⟨minds', touches⟩ => ⟨minds', ?_⟩
        rcases touches with same | ⟨op, val, kind, done⟩
        · rwa [same]
        · exact kept op val _ _ kind done still

end Run

/-! ## Calls that a program cannot go without -/

/-- The program makes the call before it ends. -/
def Prog.Owes (op : Op) : Prog Msg Op Val Seed α → Prop
  | .pure _ => False
  | .exit => True
  | .read _ next => ∀ got, (next got).Owes op
  | .write _ _ next | .reply _ next | .wait next | .close _ next => next.Owes op
  | .fork _ _ next => ∀ link, (next link).Owes op
  | .call other next => other = op ∨ ∀ val, (next val).Owes op

section Owes

variable {op : Op}

theorem Prog.Owes.bind {prog : Prog Msg Op Val Seed α} {next : α → Prog Msg Op Val Seed β}
    (behind : ∀ value, (next value).Owes op) : (prog.bind next).Owes op := by
  induction prog with
  | pure value => exact behind value
  | exit => trivial
  | write fd msg rest ih | reply msg rest ih | wait rest ih | close link rest ih => exact ih
  | read fd rest ih | fork own seed rest ih => exact ih
  | call other rest ih => exact .inr ih

theorem Prog.Owes.resume {prog : Prog Msg Op Val Seed Loc} (owes : prog.Owes op) :
    Control.resume prog = .busy prog := by
  cases prog with
  | pure value => exact owes.elim
  | write | read | reply | fork | wait | close | call | exit => rfl

theorem Prog.Owes.advance {prog : Prog Msg Op Val Seed Loc} {world : World}
    {kids : Forest Msg Op Val Seed Loc} {after : Advance Msg Op Val Seed Loc World} (owes : prog.Owes op)
    (taken : prog.advance machine world kids = some after) :
    after.next.Owes op ∨ ∃ val, machine.exec op world = some (val, after.world) := by
  cases prog with
  | pure value | exit => cases taken
  | write fd msg next =>
      obtain ⟨kids', _, rfl⟩ := Option.map_eq_some_iff.mp taken
      exact .inl owes
  | read fd next =>
      obtain ⟨got, _, rfl⟩ := Option.map_eq_some_iff.mp taken
      exact .inl (owes got.1)
  | reply msg next =>
      cases taken
      exact .inl owes
  | fork own seed next =>
      cases taken
      exact .inl (owes _)
  | wait next | close link next =>
      obtain ⟨kids', _, rfl⟩ := Option.map_eq_some_iff.mp taken
      exact .inl owes
  | call other next =>
      obtain ⟨done, executed, rfl⟩ := Option.map_eq_some_iff.mp taken
      rcases owes with rfl | owes
      · exact .inr ⟨done.1, executed⟩
      · exact .inl (owes done.1)

/-- The first process has the call still to make, or has exited. -/
def Forest.Owes (op : Op) : Forest Msg Op Val Seed Loc → Prop
  | .nil => False
  | .cons cell _ _ => cell.control = .zombie ∨ ∃ prog, cell.control = .busy prog ∧ prog.Owes op

variable {first last : World × Forest Msg Op Val Seed Loc}

theorem Forest.Owes.moves (owes : first.2.Owes op) (taken : Moves machine first last) :
    last.2.Owes op ∨ ∃ val, machine.exec op first.1 = some (val, last.1) := by
  obtain ⟨world, _ | ⟨⟨link, down, up, control⟩, kids, rest⟩⟩ := first
  · exact owes.elim
  obtain ⟨place, stepped⟩ := taken
  cases place with
  | under place | beside place =>
      obtain ⟨after, moved, rfl⟩ := Option.map_eq_some_iff.mp stepped
      exact .inl owes
  | here =>
      obtain ⟨⟨world', cell', kids'⟩, turned, rfl⟩ := Option.map_eq_some_iff.mp stepped
      rcases owes with rfl | ⟨prog, rfl, owes⟩
      · cases turned
      by_cases leaving : prog = .exit
      · subst leaving
        cases turned
        exact .inl (.inl rfl)
      · rw [Cell.turn_busy leaving] at turned
        obtain ⟨after, advanced, same⟩ := Option.map_eq_some_iff.mp turned
        cases same
        refine (owes.advance advanced).imp (fun owes => .inr ⟨_, owes.resume, owes⟩) id

/-- In a run of the first process the call is made, or it is still to be made. -/
theorem Forest.Owes.run (owes : first.2.Owes op) (run : ReflTransGen (Moves machine) first last) :
    last.2.Owes op ∨ ∃ before after val, ReflTransGen (Moves machine) first before ∧
      machine.exec op before.1 = some (val, after.1) ∧ ReflTransGen (Moves machine) after last := by
  induction run with
  | refl => exact .inl owes
  | @tail middle last run taken ih =>
      rcases ih with owes | ⟨before, after, val, ahead, done, behind⟩
      · refine (owes.moves taken).imp id fun ⟨val, done⟩ => ⟨middle, last, val, run, done, .refl⟩
      · exact .inr ⟨before, after, val, ahead, done, behind.tail taken⟩

end Owes

end SysProg.Process
