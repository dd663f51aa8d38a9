import SysProg.Services.Tree

namespace SysProg.Services

/-! # The commands of the Manager -/

open Process Data Transition

/-- All commands but the last phase of `exchange` are served by one process at a time, in
the lowest lane; the parties of an exchange have a lane each. -/
abbrev Lane := Bool × Bool

def searching : Lane := (false, false)

abbrev Call := Op × Val

/-- The Manager above its services. -/
structure Manages (memory : Memory) (kids : Grove Memory) : Prop where
  name : memory.service_name = .Manager
  governs : Governs memory.child kids
  sound : Sound kids

def whole (memory : Memory) (kids : Grove Memory) : Branches Label :=
  .cons memory.label (tree kids) .nil

def World.say (world : World) (lines : List Line) : World := { world with out := world.out ++ lines }

def printed (lines : List Line) : List Call := lines.map fun line => (.print line, .unit)

def heard (command : Command) (label : Label) : Line :=
  .receive_command label.1 command.cmd

/-- Lines that services print for commands. -/
def Heard (lines : List Line) : Prop := ∀ line ∈ lines, ∃ command label, line = heard command label

variable {crew : Crew Command Memory Lane} {memory memory' : Memory} {kids kids' : Grove Memory}
  {command : Command} {world world' : World} {calls : List Call} {link : Link}

theorem printed_calls (lines : List Line) (world : World) :
    Calls machine (printed lines) world (world.say lines) := by
  induction lines generalizing world with
  | nil =>
      rw [World.say, List.append_nil]
      exact .nil world
  | cons line rest ih =>
      have behind := ih (world.say [line])
      rw [World.say, World.say, List.append_assoc] at behind
      exact .cons rfl behind

theorem Heard.nil : Heard [] := fun _ inside => nomatch inside

theorem Heard.cons (command : Command) (label : Label) {lines : List Line} (rest : Heard lines) :
    Heard (heard command label :: lines) := by
  intro line inside
  rcases List.mem_cons.mp inside with own | later
  · exact ⟨command, label, own⟩
  · exact rest line later

theorem Heard.append {first second : List Line} (before : Heard first) (behind : Heard second) :
    Heard (first ++ second) := by
  intro line inside
  exact (List.mem_append.mp inside).elim (before line) (behind line)

theorem printed_append (first second : List Line) :
    printed (first ++ second) = printed first ++ printed second := List.map_append

theorem print_yields (quiet : crew.Quiet) (line : Line) :
    Yields machine searching (print line) crew crew (printed [line]) () :=
  Yields.call (quiet.apart _) (.pure ())

theorem announce_yields (quiet : crew.Quiet) (announces : announces memory command) :
    Yields machine searching (announce memory command) crew crew
      (printed [heard command memory.label]) () := by
  rw [announce, if_pos announces]
  exact print_yields quiet _

theorem reply_ends (other : memory.service_name ≠ .Manager) (after : Memory) (kids : Grove Memory) :
    Ends machine searching ((reply memory command).bind fun _ => .pure after) kids.crew []
      (some command) (some (after, kids)) := by
  rw [reply, if_neg (Memory.not_manager other)]
  exact .of_runs (.reply command after kids)

theorem serve_some (some : command.type ≠ .empty) :
    serve memory command = (announce memory command).bind fun _ => handle memory command := by
  rw [serve, if_neg fun both => some both.2]
  rfl

theorem served_until {later : List Command}
    (ends : Ends machine searching (serve memory command) kids.crew calls none
      (some (memory', kids')))
    (made : Calls machine calls world world') :
    Until (Moves machine)
      (fun state => state.2.Busy ∨ state = (world, waiting link memory kids (command :: later)))
      (fun state => state = (world', waiting link memory' kids' later))
      (world, waiting link memory kids (command :: later)) := by
  obtain ⟨steps, runs⟩ := ends
  refine (Runs.until runs made.alone).mono (fun _ => id) ?_
  intro state reached
  obtain ⟨last, forest⟩ := state
  obtain ⟨ended, same⟩ := reached
  cases ended with
  | idle => exact Prod.ext same rfl

/-- No process is left but the Manager, and it has exited. -/
def Over (link : Link) (later : List Command) (forest : Forest Command Op Val Name Memory) : Prop :=
  ∃ kids : Forest Command Op Val Name Memory, kids.Dead ∧
    forest = .cons ⟨link, later, [], .zombie⟩ kids .nil

theorem exits_until {later : List Command}
    (ends : Ends machine searching (serve memory command) kids.crew calls none none)
    (made : Calls machine calls world world') :
    Until (Moves machine)
      (fun state => state.2.Busy ∨ state = (world, waiting link memory kids (command :: later)))
      (fun state => state.1 = world' ∧ Over link later state.2)
      (world, waiting link memory kids (command :: later)) := by
  obtain ⟨steps, runs⟩ := ends
  refine (Runs.until runs made.alone).mono (fun _ => id) ?_
  intro state reached
  obtain ⟨last, forest⟩ := state
  obtain ⟨ended, same⟩ := reached
  cases ended with
  | exited dead => exact ⟨same, _, dead, rfl⟩

/-! ## A small tree -/

def Birth.blank : Birth := ⟨0, 7, .zero, .zero, .zero, .zero, .zero, 0⟩

def World.blank : World := ⟨fun _ => .blank, 0, fun _ => none, []⟩

def Name.A : Name := ⟨"A", by decide⟩

def Name.B : Name := ⟨"B", by decide⟩

def Memory.root : Memory := (Memory.start .Manager .blank).setChild [⟨.A, ⟨3, 6⟩⟩]

def leaf : Grove Memory := .cons ⟨3, 6⟩ ((Memory.start .A .blank).setSecret 9) .nil .nil

theorem Manages.small : Manages .root leaf where
  name := rfl
  governs := ⟨rfl, by decide, by decide, by decide⟩
  sound := ⟨by decide, ⟨rfl, .nil, .nil, nofun⟩, trivial, trivial⟩

theorem clear_small : Memory.root.Clear ∧ Clear leaf := by
  refine ⟨⟨fun _ => rfl, fun _ => rfl⟩, ?_, trivial, trivial⟩
  exact ⟨fun _ => rfl, fun _ => rfl⟩

end SysProg.Services
