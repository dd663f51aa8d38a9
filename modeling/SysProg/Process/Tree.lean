import SysProg.Process.Program

namespace SysProg.Process

/-! The tree of processes and its steps.

A forest holds the children of one process in the order of their creation, each
with its pipes and its own children.  What the model leaves out blocks the
process that would do it: a write to a process that is gone, closing the pipes
of a child that has not been waited for or has left processes behind. -/

inductive Control (Msg Op Val Seed Loc : Type) where
  | idle (loc : Loc)
  | busy (prog : Prog Msg Op Val Seed Loc)
  | zombie
  | reaped

/-- A process: the messages on the pipe to it and on the pipe from it, and where
it stands.  An idle process waits for the next message at the head of its loop. -/
structure Cell (Msg Op Val Seed Loc : Type) where
  link : Link
  down : List Msg
  up : List Msg
  control : Control Msg Op Val Seed Loc

inductive Forest (Msg Op Val Seed Loc : Type) where
  | nil
  | cons (cell : Cell Msg Op Val Seed Loc) (kids rest : Forest Msg Op Val Seed Loc)

/-- The loop body of the processes, what a new process runs before its loop, and
the calls that act on the world outside the pipes; `none` blocks the caller. -/
structure Machine (Msg Op Val Seed Loc World : Type) where
  serve : Loc → Msg → Prog Msg Op Val Seed Loc
  boot : Seed → Prog Msg Op Val Seed Loc
  exec : Op → World → Option (Val × World)

variable {Msg Op Val Seed Loc World : Type}

/-- A program that has come to its end is at the head of the loop again. -/
def Control.resume : Prog Msg Op Val Seed Loc → Control Msg Op Val Seed Loc
  | .pure loc => .idle loc
  | prog => .busy prog

def Control.alive : Control Msg Op Val Seed Loc → Bool
  | .idle _ | .busy _ => true
  | .zombie | .reaped => false

namespace Forest

def append : Forest Msg Op Val Seed Loc → Forest Msg Op Val Seed Loc → Forest Msg Op Val Seed Loc
  | .nil, last => last
  | .cons cell kids rest, last => .cons cell kids (rest.append last)

/-- The descriptors that the parent of these processes keeps of them. -/
def descriptors : Forest Msg Op Val Seed Loc → List Int
  | .nil => []
  | .cons cell _ rest => cell.link.read_fd :: cell.link.write_fd :: rest.descriptors

/-- The processes themselves, without their children. -/
def cells : Forest Msg Op Val Seed Loc → List (Cell Msg Op Val Seed Loc)
  | .nil => []
  | .cons cell _ rest => cell :: rest.cells

/-- `write` on the pipe to a child; a descriptor of no child is an error and
changes nothing. -/
def deliver (fd : Int) (msg : Msg) :
    Forest Msg Op Val Seed Loc → Option (Forest Msg Op Val Seed Loc)
  | .nil => some .nil
  | .cons cell kids rest =>
      if cell.link.write_fd = fd then
        if cell.control.alive then
          some (.cons { cell with down := cell.down ++ [msg] } kids rest)
        else none
      else (rest.deliver fd msg).map (.cons cell kids)

def receive (fd : Int) :
    Forest Msg Op Val Seed Loc → Option (Option Msg × Forest Msg Op Val Seed Loc)
  | .nil => some (none, .nil)
  | .cons cell kids rest =>
      if cell.link.read_fd = fd then
        match cell.up with
        | [] => none
        | msg :: up => some (some msg, .cons { cell with up } kids rest)
      else (rest.receive fd).map fun got => (got.1, .cons cell kids got.2)

def reap : Forest Msg Op Val Seed Loc → Option (Forest Msg Op Val Seed Loc)
  | .nil => none
  | .cons cell kids rest =>
      match cell.control with
      | .zombie => some (.cons { cell with control := .reaped } kids rest)
      | _ => (rest.reap).map (.cons cell kids)

def extinct : Forest Msg Op Val Seed Loc → Bool
  | .nil => true
  | .cons cell kids rest =>
      match cell.control with
      | .reaped => kids.extinct && rest.extinct
      | _ => false

/-- `close` on both descriptors of a child that has been waited for and has left no
process behind. -/
def close (link : Link) : Forest Msg Op Val Seed Loc → Option (Forest Msg Op Val Seed Loc)
  | .nil => none
  | .cons cell kids rest =>
      if cell.link = link then
        match cell.control with
        | .reaped => if kids.extinct then some rest else none
        | _ => none
      else (rest.close link).map (.cons cell kids)

variable {first last : Forest Msg Op Val Seed Loc} {fd : Int} {msg : Msg} {link : Link}

@[simp] theorem append_nil (forest : Forest Msg Op Val Seed Loc) : forest.append .nil = forest := by
  induction forest with
  | nil => rfl
  | cons cell kids rest _ ih => simp only [append, ih]

theorem cells_append : (first.append last).cells = first.cells ++ last.cells := by
  induction first with
  | nil => rfl
  | cons cell kids rest _ ih => simp only [append, cells, ih, List.cons_append]

theorem deliver_append (other : ∀ cell ∈ first.cells, cell.link.write_fd ≠ fd) :
    (first.append last).deliver fd msg = (last.deliver fd msg).map first.append := by
  induction first with
  | nil => simp [append]
  | cons cell kids rest _ ih =>
      have mine := other cell List.mem_cons_self
      have theirs := ih fun cell inside => other cell (List.mem_cons_of_mem _ inside)
      simp only [append, deliver, if_neg mine, theirs, Option.map_map]
      rfl

theorem receive_append (other : ∀ cell ∈ first.cells, cell.link.read_fd ≠ fd) :
    (first.append last).receive fd =
      (last.receive fd).map fun got => (got.1, first.append got.2) := by
  induction first with
  | nil => simp [append]
  | cons cell kids rest _ ih =>
      have mine := other cell List.mem_cons_self
      have theirs := ih fun cell inside => other cell (List.mem_cons_of_mem _ inside)
      simp only [append, receive, if_neg mine, theirs, Option.map_map]
      rfl

/-- A descriptor of no child. -/
theorem deliver_unknown (other : ∀ cell ∈ first.cells, cell.link.write_fd ≠ fd) :
    first.deliver fd msg = some first := by
  have all : (first.append .nil).deliver fd msg = _ := deliver_append other
  simpa [deliver] using all

theorem receive_unknown (other : ∀ cell ∈ first.cells, cell.link.read_fd ≠ fd) :
    first.receive fd = some (none, first) := by
  have all : (first.append .nil).receive fd = _ := receive_append other
  simpa [receive] using all

theorem reap_append (other : ∀ cell ∈ first.cells, cell.control ≠ .zombie) :
    (first.append last).reap = last.reap.map first.append := by
  induction first with
  | nil => simp [append]
  | cons cell kids rest _ ih =>
      have mine := other cell List.mem_cons_self
      have theirs := ih fun cell inside => other cell (List.mem_cons_of_mem _ inside)
      have passes : ∀ others : Forest Msg Op Val Seed Loc,
          (cons cell kids others).reap = others.reap.map (.cons cell kids) := by
        intro others
        simp only [reap]
      rw [append, passes, theirs, Option.map_map]
      rfl

theorem close_append (other : ∀ cell ∈ first.cells, cell.link ≠ link) :
    (first.append last).close link = (last.close link).map first.append := by
  induction first with
  | nil => simp [append]
  | cons cell kids rest _ ih =>
      have mine := other cell List.mem_cons_self
      have theirs := ih fun cell inside => other cell (List.mem_cons_of_mem _ inside)
      simp only [append, close, if_neg mine, theirs, Option.map_map]
      rfl

end Forest

/-- What one system call leads to: the world, the children, the rest of the
program and what has been written to the parent. -/
structure Advance (Msg Op Val Seed Loc World : Type) where
  world : World
  kids : Forest Msg Op Val Seed Loc
  next : Prog Msg Op Val Seed Loc
  said : List Msg

def Prog.advance (machine : Machine Msg Op Val Seed Loc World) (prog : Prog Msg Op Val Seed Loc)
    (world : World) (kids : Forest Msg Op Val Seed Loc) :
    Option (Advance Msg Op Val Seed Loc World) :=
  match prog with
  | .write fd msg next => (kids.deliver fd msg).map fun kids => ⟨world, kids, next, []⟩
  | .read fd next => (kids.receive fd).map fun got => ⟨world, got.2, next got.1, []⟩
  | .reply msg next => some ⟨world, kids, next, [msg]⟩
  | .fork own seed next =>
      let link := Link.fresh (own ++ kids.descriptors)
      let child : Cell Msg Op Val Seed Loc := ⟨link, [], [], .resume (machine.boot seed)⟩
      some ⟨world, kids.append (.cons child .nil .nil), next link, []⟩
  | .wait next => (kids.reap).map fun kids => ⟨world, kids, next, []⟩
  | .close link next => (kids.close link).map fun kids => ⟨world, kids, next, []⟩
  | .call op next => (machine.exec op world).map fun done => ⟨done.2, kids, next done.1, []⟩
  | .pure _ | .exit => none

def Cell.turn (machine : Machine Msg Op Val Seed Loc World) (world : World)
    (cell : Cell Msg Op Val Seed Loc) (kids : Forest Msg Op Val Seed Loc) :
    Option (World × Cell Msg Op Val Seed Loc × Forest Msg Op Val Seed Loc) :=
  match cell.control with
  | .idle loc =>
      match cell.down with
      | [] => none
      | msg :: down =>
          some (world, { cell with down, control := .resume (machine.serve loc msg) }, kids)
  | .busy .exit => some (world, { cell with control := .zombie }, kids)
  | .busy prog =>
      (prog.advance machine world kids).map fun after =>
        (after.world,
          { cell with control := .resume after.next, up := cell.up ++ after.said }, after.kids)
  | .zombie | .reaped => none

/-- The place of a process: the first one, among its children, beside it. -/
inductive Place where
  | here
  | under (place : Place)
  | beside (place : Place)
deriving DecidableEq, Repr

def Forest.step (machine : Machine Msg Op Val Seed Loc World) (world : World) :
    Place → Forest Msg Op Val Seed Loc → Option (World × Forest Msg Op Val Seed Loc)
  | _, .nil => none
  | .here, .cons cell kids rest =>
      (cell.turn machine world kids).map fun after => (after.1, .cons after.2.1 after.2.2 rest)
  | .under place, .cons cell kids rest =>
      (kids.step machine world place).map fun after => (after.1, .cons cell after.2 rest)
  | .beside place, .cons cell kids rest =>
      (rest.step machine world place).map fun after => (after.1, .cons cell kids after.2)

end SysProg.Process
