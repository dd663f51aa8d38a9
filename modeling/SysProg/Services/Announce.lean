import SysProg.Process.Manners
import SysProg.Services.Kill
import SysProg.Services.Standstill

namespace SysProg.Services

/-! # Who has received a command

The services among which a command searches print that they have received it, each of them
once and in preorder, and nobody else does. -/

open Process Data Transition Relation

variable {command : Command} {memory : Memory} {kids grove : Grove Memory} {world world' : World}
  {link : Link} {later : List Command} {lines : List Line}

def Line.announces : Line → Bool
  | .receive_command _ _ => true
  | _ => false

/-- The lines `<name> has received <command>` that have been printed. -/
def World.announced (world : World) : List Line := world.out.filter Line.announces

/-- The services among which a command searches. -/
def searched : Input → List Label → List Label
  | .spawn parent_service _, labels => Branches.upTo (Named parent_service) labels
  | .kill target, labels => Branches.upTo (Named target) labels
  | .exchange service_a service_b, labels =>
      Branches.longer (Branches.upTo (Named service_a) labels) (Branches.upTo (Named service_b) labels)

theorem searched_prefix (input : Input) (labels : List Label) : searched input labels <+: labels := by
  cases input with
  | spawn parent_service new_child_service => exact Branches.upTo_prefix labels
  | kill target => exact Branches.upTo_prefix labels
  | exchange service_a service_b =>
      rw [searched, Branches.longer]
      split <;> exact Branches.upTo_prefix labels

/-- The services that a command looks for. -/
def sought : Input → List Name
  | .spawn parent_service _ => [parent_service]
  | .kill target => [target]
  | .exchange service_a service_b => [service_a, service_b]

theorem longer_all {first second labels : List Label} (ahead : first <+: labels) (ahead' : second <+: labels)
    (all : first = labels ∨ second = labels) : Branches.longer first second = labels := by
  rw [Branches.longer]
  split
  · rename_i shorter
    rcases all with rfl | rfl
    · exact ahead'.eq_of_length_le shorter
    · rfl
  · rename_i longer
    rcases all with rfl | rfl
    · rfl
    · exact absurd ahead.length_le longer

/-- A command searches among all services if one that it looks for is missing. -/
theorem searched_absent {input : Input} {labels : List Label} {name : Name} (inside : name ∈ sought input)
    (absent : ¬ labels.any (Named name)) : searched input labels = labels := by
  cases input with
  | spawn parent_service new_child_service =>
      obtain rfl := List.mem_singleton.mp inside
      exact Branches.upTo_absent absent
  | kill target =>
      obtain rfl := List.mem_singleton.mp inside
      exact Branches.upTo_absent absent
  | exchange service_a service_b =>
      refine longer_all (Branches.upTo_prefix labels) (Branches.upTo_prefix labels) ?_
      rcases List.mem_cons.mp inside with rfl | second
      · exact .inl (Branches.upTo_absent absent)
      · obtain rfl := List.mem_singleton.mp second
        exact .inr (Branches.upTo_absent absent)

/-- No service that `suicide` kills finds its own name in the message, in which `suicide`
does not set the name. -/
def Unaddressed (command : Command) : Grove Memory → Prop
  | .nil => True
  | .cons _ memory kids rest =>
      command.content0 ≠ memory.service_name ∧ Unaddressed memory.birth.suicide_child kids ∧
        Unaddressed command rest

/-! ## The lines of a search -/

theorem doomed_silent (unaddressed : Unaddressed command grove) : doomed command grove = [] := by
  induction grove generalizing command with
  | nil => rfl
  | cons link memory kids rest kids_ih rest_ih =>
      obtain ⟨here, below, beside⟩ := unaddressed
      rw [doomed, if_neg here, kids_ih below, rest_ih beside]
      rfl

/-- A `kill` is announced up to its target. -/
theorem killLines_searched {sent : Command} (unaddressed : Unaddressed sent grove) :
    killLines command grove =
      (Branches.upTo (Named command.content0) (tree grove).labels).map (heard command) := by
  induction grove generalizing sent with
  | nil => rfl
  | cons link memory kids rest kids_ih rest_ih =>
      obtain ⟨_, below, beside⟩ := unaddressed
      rw [killLines, tree, Branches.labels, Branches.upTo, doomed_silent below, kids_ih below, rest_ih beside,
        Branches.upTo_append]
      by_cases mine : Named command.content0 memory.label
      · rw [if_pos mine, if_pos mine]
        rfl
      · rw [if_neg mine, if_neg mine, List.map_cons]
        by_cases inside : (tree kids).labels.any (Named command.content0)
        · rw [if_pos inside, if_pos inside, List.append_nil]
        · rw [if_neg inside, if_neg inside, Branches.upTo_absent inside, List.map_append]

theorem tourLines_searched {service_a service_b : Name} {labels : List Label} (unique : Unique labels)
    (differ : service_a ≠ service_b) :
    let command := read_and_split (.exchange service_a service_b)
    tourLines command 2 labels = (searched (.exchange service_a service_b) labels).map (heard command) := by
  intro command
  have apart : ∀ label, Named service_a label → ¬ Named service_b label :=
    fun label first second => differ ((Named_iff.mp first).symm.trans (Named_iff.mp second))
  exact congrArg (List.map (heard command)) (Branches.upToNth_two (unique.at_most_once _) (unique.at_most_once _) apart)

theorem announced_heard (labels : List Label) :
    (labels.map (heard command)).filter Line.announces = labels.map (heard command) := by
  refine List.filter_eq_self.mpr fun line inside => ?_
  obtain ⟨label, _, rfl⟩ := List.mem_map.mp inside
  rfl

/-- What is printed between the lines of a search does not announce anything. -/
theorem announced_after {labels : List Label} {report : List Line} (silent : report.filter Line.announces = [])
    (out : world'.out = world.out ++ labels.map (heard command) ++ report) :
    world'.announced = world.announced ++ labels.map (heard command) := by
  rw [World.announced, out, List.filter_append, List.filter_append, silent, List.append_nil, announced_heard]
  rfl

/-! ## What nobody announces -/

/-- A call other than an announcement. -/
def Hushed (op : Op) : Prop := ∀ line, op = .print line → line.announces = false

theorem exec_announced {op : Op} {val : Val} (hushed : Hushed op) (done : exec op world = some (val, world')) :
    world'.announced = world.announced := by
  rcases exec_printed done with ⟨line, same, out⟩ | out
  · rw [World.announced, out, List.filter_append, List.filter_singleton, hushed line same, cond_false,
      List.append_nil]
    rfl
  · rw [World.announced, out]
    rfl

/-- From here on nobody announces anything before the Manager reads its next command. -/
structure Settled (later : List Command) (lines : List Line)
    (state : World × Forest Command Op Val Name Memory) : Prop where
  here : state.1.announced = lines
  onward : ∀ last, ReflTransGen (Moves machine) state last →
    last.2.unread.length < later.length ∨ last.1.announced = lines

/-- All that is announced when every run comes to a settled state. -/
def Announces (later : List Command) (lines : List Line)
    (start : World × Forest Command Op Val Name Memory) : Prop :=
  (∀ state, ReflTransGen (Moves machine) start state → later.length ≤ state.2.unread.length →
      state.1.announced <+: lines) ∧
    Until (Moves machine) (fun _ => True) (fun state => state.1.announced = lines) start

theorem run_announced {first last : World × Forest Command Op Val Name Memory}
    (run : ReflTransGen (Moves machine) first last) : first.1.announced <+: last.1.announced :=
  (run_out run).filter _

theorem Settled.announces {during : World × Forest Command Op Val Name Memory → Prop}
    {start : World × Forest Command Op Val Name Memory}
    (goal : Until (Moves machine) during (Settled later lines) start) : Announces later lines start := by
  constructor
  · intro state run reading
    rcases goal.of_run run with ⟨_, ahead⟩ | ⟨middle, settled, _, behind⟩
    · obtain ⟨last, settled, run'⟩ := ahead.reaches
      exact settled.here ▸ run_announced run'
    · rcases settled.onward state behind with read | same
      · exact absurd read (Nat.not_lt.mpr reading)
      · exact same ▸ List.prefix_rfl
  · exact goal.mono (fun _ _ => trivial) fun _ settled => settled.here

/-- The messages of the last phase of an exchange. -/
def Starts (command : Command) : Prop := command.type = .start_exchange

theorem keeps_openFifo (path : String) (side : Side) : (openFifo path side).Keeps Starts Hushed :=
  ⟨nofun, fun _ => ⟨nofun, fun _ => trivial⟩⟩

theorem keeps_readSecret (path : String) (buffer : UInt64) : (readSecret path buffer).Keeps Starts Hushed := by
  refine ⟨nofun, fun val => ?_⟩
  match val with
  | .secret (some secret) => trivial
  | .secret none | .unit | .birth _ => trivial

theorem keeps_print {line : Line} (silent : line.announces = false) : (print line).Keeps Starts Hushed := by
  refine ⟨fun other same => ?_, fun _ => trivial⟩
  cases same
  exact silent

theorem keeps_read (fd : Int) (buffer : Command) : (read fd buffer).Keeps Starts Hushed := fun _ => trivial

theorem keeps_write (fd : Int) (starts : Starts command) : (write fd command).Keeps Starts Hushed := ⟨starts, trivial⟩

theorem keeps_exchanges (memory : Memory) (command : Command) : (exchanges memory command).Keeps Starts Hushed := by
  have calls : ∀ (path : String) (secret : UInt64) (side : Side), (writeSecret path secret).Keeps Starts Hushed ∧
      (closeFifo path side).Keeps Starts Hushed :=
    fun path secret side => ⟨⟨nofun, fun _ => trivial⟩, ⟨nofun, fun _ => trivial⟩⟩
  rw [exchanges]
  split
  · refine (keeps_openFifo _ _).bind fun _ => (keeps_openFifo _ _).bind fun _ => (keeps_readSecret _ _).bind fun _ => ?_
    refine (keeps_print rfl).bind fun _ => (calls _ _ .reader).1.bind fun _ => (calls _ 0 _).2.bind fun _ => ?_
    exact (calls _ 0 _).2.bind fun _ => trivial
  · split
    · refine (keeps_openFifo _ _).bind fun _ => (keeps_openFifo _ _).bind fun _ => (calls _ _ .reader).1.bind fun _ => ?_
      refine (keeps_readSecret _ _).bind fun _ => (keeps_print rfl).bind fun _ => (calls _ 0 _).2.bind fun _ => ?_
      exact (calls _ 0 _).2.bind fun _ => trivial
    · trivial

theorem keeps_forward (memory : Memory) (index : Fin 2) (starts : Starts command) :
    (forward memory index command).Keeps Starts Hushed :=
  (keeps_write _ starts).bind fun _ => (keeps_read _ _).bind fun _ => trivial

theorem keeps_forwardBoth (memory : Memory) (starts : Starts command) :
    (forwardBoth memory command).Keeps Starts Hushed :=
  (keeps_write _ starts).bind fun _ => (keeps_write _ starts).bind fun _ =>
    (keeps_read _ _).bind fun _ => (keeps_read _ _).bind fun _ => trivial

theorem keeps_forwardAround (memory : Memory) (index : Fin 2) (own : Command) (starts : Starts command) :
    (forwardAround memory index command own).Keeps Starts Hushed :=
  (keeps_write _ starts).bind fun _ => (keeps_exchanges _ _).bind fun _ => (keeps_read _ _).bind fun _ => trivial

theorem keeps_takePart (memory : Memory) : (takePart memory).Keeps Starts Hushed := by
  rw [takePart, reply]
  split <;> trivial

/-- In the last phase of an exchange nobody announces anything. -/
theorem machine_keeps : machine.Keeps Starts Hushed := by
  intro memory command starts
  show (serve memory command).Keeps Starts Hushed
  rw [serve_start starts, takeExchange]
  split
  · exact (keeps_exchanges _ _).bind keeps_takePart
  split
  · exact (keeps_forwardAround _ _ _ starts).bind keeps_takePart
  split
  · exact (keeps_forwardAround _ _ _ starts).bind keeps_takePart
  dsimp only
  split
  · split
    · exact (keeps_forwardBoth _ starts).bind fun _ => trivial
    · exact (keeps_forward _ _ starts).bind fun _ => trivial
  · split <;> exact (keeps_forward _ _ starts).bind fun _ => trivial

theorem keeps_lastPhase (memory : Memory) (command : Command) : (lastPhase memory command).Keeps Starts Hushed := by
  have starts : Starts (command.typed .start_exchange) := rfl
  rw [lastPhase]
  split
  · exact keeps_forwardAround _ _ _ starts
  split
  · exact keeps_forwardAround _ _ _ starts
  split
  · exact keeps_forward _ _ starts
  · exact keeps_forwardBoth _ starts

theorem keeps_close_exchange (command : Command) (memory : Memory) :
    (close_exchange command memory).Keeps Starts Hushed :=
  ⟨nofun, fun _ => ⟨nofun, fun _ => (keeps_print rfl).bind fun _ => trivial⟩⟩

theorem Settled.of_minds {state : World × Forest Command Op Val Name Memory}
    (minds : state.2.Minds Starts Hushed later) (here : state.1.announced = lines) : Settled later lines state := by
  refine ⟨here, fun last run => ?_⟩
  have kept : ∀ op val world world', Hushed op → machine.exec op world = some (val, world') →
      world.announced = lines → world'.announced = lines :=
    fun op val world world' hushed done same => (exec_announced hushed done).trans same
  exact (minds.run machine_keeps kept here run).imp id And.right

theorem Over.stuck {forest : Forest Command Op Val Name Memory} (gone : Over link later forest) :
    Stuck machine (world, forest) := by
  obtain ⟨inner, dead, rfl⟩ := gone
  intro next moved
  obtain ⟨place, stepped⟩ := moved
  cases place with
  | here => cases stepped
  | under place => simp [Forest.step, dead.no_step] at stepped
  | beside place => cases place <;> cases stepped

theorem Settled.of_stuck {state : World × Forest Command Op Val Name Memory} (stuck : Stuck machine state)
    (here : state.1.announced = lines) : Settled later lines state := by
  refine ⟨here, fun last run => .inr ?_⟩
  cases run.cases_head with
  | inl same => exact same ▸ here
  | inr moved =>
      obtain ⟨next, taken, _⟩ := moved
      exact absurd taken (stuck next)

/-! ## Each command -/

section Commands

variable (manages : Manages memory kids) (world : World) (link : Link) (later : List Command)

theorem settled_waiting {memory' : Memory} {kids' : Grove Memory} (here : world.announced = lines) :
    Settled later lines (world, waiting link memory' kids' later) :=
  .of_minds ⟨_, _, rfl, rfl, trivial, kids'.keeps⟩ here

include manages

theorem spawn_announces (narrow : (whole memory kids).Narrow (child_len - 1))
    (parent_service new_child_service : Name) :
    let command := read_and_split (.spawn parent_service new_child_service)
    Announces later (world.announced ++
        (Branches.upTo (Named parent_service) (whole memory kids).labels).map (heard command))
      (world, waiting link memory kids (command :: later)) := by
  intro command
  have type : command.type = .spawn := rfl
  let birth := world.births world.created
  by_cases jams : (whole memory kids).labels.any (Named command.content0) ∧ command.content1 = .Manager
  · obtain ⟨there, manager⟩ := jams
    have halts := spawn_manager_jams type manager manages narrow there world link later
    have goal : Until (Moves machine) (fun _ => True) (Settled later _)
        (world, working link later (machine.serve memory command) kids.forest) :=
      halts.mono (fun _ _ => trivial) fun _ ended => .of_stuck ended.2.stuck (announced_after rfl ended.2.met)
    exact Settled.announces (until_served trivial goal)
  · have fresh : (whole memory kids).labels.any (Named command.content0) → command.content1 ≠ .Manager :=
      fun there manager => jams ⟨there, manager⟩
    obtain ⟨memory', kids', _, ends⟩ := serve_spawn_manager type manages fresh birth narrow.attach
    refine Settled.announces ((served_until ends (spawnCalls_made command _ world)).mono (fun _ => id) ?_)
    intro state same
    obtain rfl := same
    refine settled_waiting _ link later ?_
    rw [World.spawned]
    split
    · exact announced_after rfl rfl
    · exact announced_after rfl rfl

theorem kill_announces (unaddressed : Unaddressed memory.birth.suicide_child kids) (target : Name) :
    let command := read_and_split (.kill target)
    Announces later (world.announced ++
        (Branches.upTo (Named target) (whole memory kids).labels).map (heard command))
      (world, waiting link memory kids (command :: later)) := by
  intro command
  have type : command.type = .kill := rfl
  rw [whole, Branches.labels_single, Branches.upTo]
  by_cases all : target = .Manager
  · have ends := serve_kill_all type manages all
    have named : Named target memory.label := decide_eq_true (manages.name.trans all.symm)
    rw [doomed_silent unaddressed] at ends
    rw [if_pos named]
    refine Settled.announces ((exits_until ends (printed_calls _ world)).mono (fun _ => id) ?_)
    intro state reached
    obtain ⟨last, forest⟩ := state
    obtain ⟨rfl, gone⟩ := reached
    exact .of_stuck gone.stuck (announced_after rfl (List.append_assoc _ _ _).symm)
  · have stranger := whole_stranger manages all
    obtain ⟨memory', kids', _, ends⟩ := serve_kill_manager type manages all
    rw [killLines_searched unaddressed] at ends
    rw [if_neg stranger]
    refine Settled.announces ((served_until ends (printed_calls _ world)).mono (fun _ => id) ?_)
    intro state same
    obtain rfl := same
    refine settled_waiting _ link later (announced_after ?_ (List.append_assoc _ _ _).symm)
    rw [killReport]
    split <;> rfl

theorem exchange_announces (unique : Unique (whole memory kids).labels) (service_a service_b : Name)
    (differ : service_a ≠ service_b) :
    let command := read_and_split (.exchange service_a service_b)
    Announces later (world.announced ++
        (searched (.exchange service_a service_b) (whole memory kids).labels).map (heard command))
      (world, waiting link memory kids (command :: later)) := by
  intro command
  have type : command.type = .exchange := rfl
  have goal := exchange_opened manages unique type world link later
  rw [tourLines_searched unique differ] at goal
  refine Settled.announces (goal.mono (fun _ => id) ?_)
  intro state same
  obtain rfl := same
  refine .of_minds ?_ ?_
  · refine ⟨_, _, rfl, rfl, Prog.Keeps.resume ?_, Grove.keeps _⟩
    exact (keeps_lastPhase _ _).bind (keeps_close_exchange command)
  · exact announced_after rfl ((World.opened_out _).trans (List.append_nil _).symm)

end Commands

/-- A command is announced by the services among which it searches, by each of them once and
in preorder, and by nobody else, in every run and whatever becomes of the command.  A service that
`spawn P Manager` starts waits on its pipe here; in service.c it reads the typed lines, so what is
announced after that command is not told. -/
theorem announced_searched (world : World) (link : Link) (later : List Command) (manages : Manages memory kids)
    (narrow : (whole memory kids).Narrow (child_len - 1)) (unique : Unique (whole memory kids).labels)
    (unaddressed : Unaddressed memory.birth.suicide_child kids) (input : Input)
    (differ : ∀ service_a service_b, input = .exchange service_a service_b → service_a ≠ service_b) :
    let command := read_and_split input
    let start := (world, waiting link memory kids (command :: later))
    let labels := (whole memory kids).labels
    let lines := world.announced ++ (searched input labels).map (heard command)
    (searched input labels <+: labels ∧ ((searched input labels).map Prod.fst).Nodup ∧
        ∀ name ∈ sought input, ¬ labels.any (Named name) → searched input labels = labels) ∧
      (∀ state, ReflTransGen (Moves machine) start state → later.length ≤ state.2.unread.length →
        state.1.announced <+: lines) ∧
      Until (Moves machine) (fun _ => True) (fun state => state.1.announced = lines) start := by
  intro command start labels lines
  have ahead := searched_prefix input labels
  refine ⟨⟨ahead, unique.sublist (ahead.sublist.map _), fun name inside absent => searched_absent inside absent⟩, ?_⟩
  cases input with
  | spawn parent_service new_child_service =>
      exact spawn_announces manages world link later narrow parent_service new_child_service
  | kill target => exact kill_announces manages world link later unaddressed target
  | exchange service_a service_b =>
      exact exchange_announces manages world link later unique service_a service_b (differ _ _ rfl)

/-- The Manager above A and B. -/
def Memory.pair : Memory := (Memory.start .Manager .blank).setChild [⟨.A, ⟨3, 6⟩⟩, ⟨.B, ⟨7, 10⟩⟩]

def leaves : Grove Memory :=
  .cons ⟨3, 6⟩ (.start .A .blank) .nil (.cons ⟨7, 10⟩ (.start .B .blank) .nil .nil)

theorem Manages.leaves : Manages .pair leaves where
  name := rfl
  governs := ⟨rfl, by decide, by decide, by decide⟩
  sound := ⟨by decide, ⟨rfl, .nil, .nil, nofun⟩, trivial,
    by decide, ⟨rfl, .nil, .nil, nofun⟩, trivial, trivial⟩

/-- B, behind the service that is killed, announces nothing. -/
theorem announced_searched_pair :
    let command := read_and_split (.kill .A)
    let start := (World.blank, waiting ⟨0, 1⟩ .pair leaves [command])
    let lines := [.receive_command .Manager "kill A", .receive_command .A "kill A"]
    (∀ state, ReflTransGen (Moves machine) start state → state.1.announced <+: lines) ∧
      Until (Moves machine) (fun _ => True) (fun state => state.1.announced = lines) start := by
  intro command start lines
  have narrow : (whole .pair leaves).Narrow (child_len - 1) :=
    ⟨by decide, ⟨by decide, trivial, by decide, trivial, trivial⟩, trivial⟩
  have unique : Unique (whole .pair leaves).labels := by
    rw [Unique]
    decide
  have unaddressed : Unaddressed Memory.pair.birth.suicide_child leaves :=
    ⟨by decide, trivial, by decide, trivial, trivial⟩
  obtain ⟨_, every, goal⟩ := announced_searched .blank ⟨0, 1⟩ [] .leaves narrow unique unaddressed
    (.kill .A) (by rintro _ _ ⟨⟩)
  exact ⟨fun state run => every state run (Nat.zero_le _), goal⟩

end SysProg.Services
