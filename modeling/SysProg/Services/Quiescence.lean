import SysProg.Services.Exchange
import SysProg.Services.Kill
import SysProg.Services.Spawn

namespace SysProg.Services

/-! # Between two commands

The tree of names that a list of commands asks for, and that the processes come to rest in
it each time the Manager reads a command. -/

open Process Data Transition

abbrev Family := Branches Name

def Is (name : Name) (other : Name) : Bool := other = name

/-- The services after a command; `none` when the Manager has killed itself. -/
def Family.after (family : Family) : Input → Option Family
  | .spawn parent_service new_child_service =>
      some (Branches.attach (Is parent_service) new_child_service family)
  | .kill target => if target = .Manager then none else some (Branches.prune (Is target) family)
  | .exchange _ _ => some family

/-- The commands that may be given to these services. -/
def Family.Admits (family : Family) : Input → Prop
  | .spawn parent_service new_child_service =>
      new_child_service ≠ .Manager ∧ new_child_service ∉ family.labels ∧
        (Branches.attach (Is parent_service) new_child_service family).Narrow child_len
  | .kill _ => True
  | .exchange service_a service_b =>
      service_a ≠ service_b ∧ service_a ∈ family.labels ∧ service_b ∈ family.labels ∧
        fifoName service_b service_a ≠ fifoName service_a service_b

def Family.AdmitsAll (family : Family) : List Input → Prop
  | [] => True
  | input :: rest => family.Admits input ∧ ∀ next, family.after input = some next → next.AdmitsAll rest

/-- All processes are idle, the pipes are empty, the registers are -1, and every `child`
lists the children of its process. -/
def Quiescent (link : Link) (forest : Forest Command Op Val Name Memory) : Prop :=
  ∃ memory kids later, forest = waiting link memory kids later ∧ Manages memory kids ∧
    memory.Clear ∧ Clear kids

def Reads : Forest Command Op Val Name Memory → Prop
  | .nil => False
  | .cons cell _ _ => ∃ memory, cell.control = .idle memory

/-- The processes rest as this family, and these commands are still to come. -/
structure Rests (link : Link) (family : Family) (later : List Command)
    (state : World × Forest Command Op Val Name Memory) (memory : Memory) (kids : Grove Memory) : Prop where
  waits : state.2 = waiting link memory kids later
  manages : Manages memory kids
  clear : memory.Clear
  clears : Clear kids
  names : (whole memory kids).map Prod.fst = family
  distinct : family.labels.Nodup
  free : ∀ path, Free state.1 path

variable {link : Link} {family : Family} {later : List Command} {memory : Memory} {kids : Grove Memory}
  {state : World × Forest Command Op Val Name Memory} {command : Command}

theorem Rests.unique (rests : Rests link family later state memory kids) :
    Unique (whole memory kids).labels := by
  have distinct := rests.distinct
  rw [← rests.names, Branches.labels_map] at distinct
  exact distinct

theorem spawned_fifos (world : World) (command : Command) (labels : List Label) :
    (world.spawned command labels).fifos = world.fifos := by
  rw [World.spawned]
  split <;> rfl

/-- The services rest again after a `spawn`, the new one among them. -/
theorem Rests.spawned {parent_service new_child_service : Name}
    (rests : Rests link family (read_and_split (.spawn parent_service new_child_service) :: later) state
      memory kids)
    (admits : family.Admits (.spawn parent_service new_child_service)) :
    Until (Moves machine) (fun now => now.2.Busy ∨ now = state)
      (fun now => ∃ memory' kids',
        Rests link (Branches.attach (Is parent_service) new_child_service family) later now memory' kids' ∧
        whole memory' kids' = (whole memory kids).attach (Named parent_service)
          (new_child_service, (state.1.births state.1.created).secret) ∧
        now.1 = state.1.spawned (read_and_split (.spawn parent_service new_child_service))
          (whole memory kids).labels)
      state := by
  obtain ⟨other, fresh, narrow⟩ := admits
  obtain ⟨world, forest⟩ := state
  obtain ⟨waits, manages, clear, clears, names, distinct, free⟩ := rests
  subst waits names
  let birth := world.births world.created
  have shape : Branches.attach (Is parent_service) new_child_service ((whole memory kids).map Prod.fst) =
      ((whole memory kids).attach (Named parent_service) (new_child_service, birth.secret)).map Prod.fst :=
    Branches.attach_map Prod.fst (new_child_service, birth.secret)
  rw [shape, Branches.narrow_map] at narrow
  have type : (read_and_split (.spawn parent_service new_child_service)).type = .spawn := rfl
  obtain ⟨memory', kids', adopts, ends⟩ := serve_spawn_manager type manages (fun _ => other) birth narrow
  have placed : whole memory' kids' =
      (whole memory kids).attach (Named parent_service) (new_child_service, birth.secret) := by
    rw [whole, adopts.label]
    exact adopts.tree
  refine (served_until ends (spawnCalls_made _ _ world)).mono (fun _ => id) ?_
  intro _ same
  obtain rfl := same
  refine ⟨memory', kids', ⟨rfl, ?_, adopts.registers clear, adopts.clear clears, ?_, ?_, ?_⟩, placed, rfl⟩
  · exact ⟨(congrArg Prod.fst adopts.label).trans manages.name, adopts.governs, adopts.sound⟩
  · rw [placed, shape]
  · exact Branches.nodup_attach distinct fresh
  · intro path
    rw [Free, spawned_fifos]
    exact free path

theorem Rests.spawn {parent_service new_child_service : Name}
    (rests : Rests link family (read_and_split (.spawn parent_service new_child_service) :: later) state
      memory kids)
    (admits : family.Admits (.spawn parent_service new_child_service)) :
    Until (Moves machine) (fun now => now.2.Busy ∨ now = state)
      (fun now => ∃ memory' kids',
        Rests link (Branches.attach (Is parent_service) new_child_service family) later now memory' kids')
      state := by
  refine (rests.spawned admits).mono (fun _ => id) ?_
  intro now reached
  obtain ⟨memory', kids', rests', _⟩ := reached
  exact ⟨memory', kids', rests'⟩

theorem Rests.killed {target : Name} (other : target ≠ .Manager)
    (rests : Rests link family (read_and_split (.kill target) :: later) state memory kids) :
    Until (Moves machine) (fun now => now.2.Busy ∨ now = state)
      (fun now => ∃ memory' kids' lines,
        Rests link (Branches.prune (Is target) family) later now memory' kids' ∧ Heard lines ∧
        whole memory' kids' = (whole memory kids).prune (Named target) ∧
        now.1 = state.1.say (lines ++ [killReport (read_and_split (.kill target))
          ((whole memory kids).labels.any (Named target))
          ((whole memory kids).branch (Named target)).length]))
      state := by
  obtain ⟨world, forest⟩ := state
  obtain ⟨waits, manages, clear, clears, names, distinct, free⟩ := rests
  subst waits names
  obtain ⟨memory', kids', lines, manages', registers, clear', heard, pruned, goal⟩ :=
    kill_until world link later manages other
  refine goal.mono (fun _ => id) ?_
  intro _ same
  obtain rfl := same
  refine ⟨memory', kids', lines, ⟨rfl, manages', registers clear, clear' clears, ?_, ?_, free⟩, heard,
    pruned, rfl⟩
  · rw [pruned, Branches.prune_map]
    rfl
  · exact distinct.sublist Branches.labels_prune

theorem Rests.kill {target : Name} (other : target ≠ .Manager)
    (rests : Rests link family (read_and_split (.kill target) :: later) state memory kids) :
    Until (Moves machine) (fun now => now.2.Busy ∨ now = state)
      (fun now => ∃ memory' kids',
        Rests link (Branches.prune (Is target) family) later now memory' kids') state := by
  refine (rests.killed other).mono (fun _ => id) ?_
  intro now reached
  obtain ⟨memory', kids', _, rests', _⟩ := reached
  exact ⟨memory', kids', rests'⟩

/-- A `kill` of the Manager leaves no service. -/
theorem Rests.all_killed
    (rests : Rests link family (read_and_split (.kill .Manager) :: later) state memory kids) :
    Until (Moves machine) (fun now => now.2.Busy ∨ now = state)
      (fun now => Over link later now.2 ∧ ∃ lines, Heard lines ∧
        now.1 = state.1.say (lines ++ [.killed .Manager ((whole memory kids).labels.length - 1)]))
      state := by
  obtain ⟨world, forest⟩ := state
  obtain ⟨waits, manages, clear, clears, names, distinct, free⟩ := rests
  subst waits
  have type : (read_and_split (.kill .Manager)).type = .kill := rfl
  have ends := serve_kill_all type manages rfl
  have count : ((tree kids).labels.length : Int) = (whole memory kids).labels.length - 1 := by
    rw [whole, Branches.labels_single, List.length_cons]
    omega
  rw [count] at ends
  refine (exits_until ends (printed_calls _ world)).mono (fun _ => id) ?_
  intro now gone
  exact ⟨gone.2, _, .cons _ _ (doomed_heard _ _), gone.1⟩

theorem Rests.kill_all
    (rests : Rests link family (read_and_split (.kill .Manager) :: later) state memory kids) :
    Until (Moves machine) (fun now => now.2.Busy ∨ now = state) (fun now => Over link later now.2) state :=
  rests.all_killed.mono (fun _ => id) fun _ gone => gone.1

/-- The services rest again after an `exchange`, two of them with each other's secret. -/
theorem Rests.exchanged {service_a service_b : Name}
    (rests : Rests link family (read_and_split (.exchange service_a service_b) :: later) state memory kids)
    (admits : family.Admits (.exchange service_a service_b)) :
    Until (Moves machine) (fun now => now.2.Busy ∨ now = state)
      (fun now => ∃ memory' kids' lines first second,
        Rests link family later now memory' kids' ∧ Heard lines ∧
        (service_a, first) ∈ (whole memory kids).labels ∧ (service_b, second) ∈ (whole memory kids).labels ∧
        whole memory' kids' =
          (whole memory kids).map (trade (read_and_split (.exchange service_a service_b)) first second) ∧
        now.1 = state.1.exchanged (read_and_split (.exchange service_a service_b)) first second lines)
      state := by
  obtain ⟨differ, there, there', different⟩ := admits
  have unique := rests.unique
  obtain ⟨world, forest⟩ := state
  obtain ⟨waits, manages, clear, clears, names, distinct, free⟩ := rests
  subst waits names
  rw [Branches.labels_map] at there there'
  obtain ⟨⟨name, secret_a⟩, listed, rfl⟩ := List.mem_map.mp there
  obtain ⟨⟨name', secret_b⟩, listed', rfl⟩ := List.mem_map.mp there'
  obtain ⟨memory', kids', lines, manages', clear', clears', heard, swapped, goal⟩ :=
    exchange_until world link later (read_and_split (.exchange name name')) manages clear clears unique rfl
      differ listed listed' (free _) (free _) different
  refine goal.mono (fun _ => id) ?_
  intro _ same
  obtain rfl := same
  refine ⟨memory', kids', lines, secret_a, secret_b, ⟨rfl, manages', clear', clears', ?_, distinct,
    fun path => ?_⟩, heard, listed, listed', swapped, rfl⟩
  · rw [swapped, Branches.map_map]
    congr 1
    funext label
    exact trade_name label
  · show (if _ then _ else _) = _ ∨ (if _ then _ else _) = _
    split
    · exact .inl rfl
    · exact free path

theorem Rests.exchange {service_a service_b : Name}
    (rests : Rests link family (read_and_split (.exchange service_a service_b) :: later) state memory kids)
    (admits : family.Admits (.exchange service_a service_b)) :
    Until (Moves machine) (fun now => now.2.Busy ∨ now = state)
      (fun now => ∃ memory' kids', Rests link family later now memory' kids') state := by
  refine (rests.exchanged admits).mono (fun _ => id) ?_
  intro now reached
  obtain ⟨memory', kids', _, _, _, rests', _⟩ := reached
  exact ⟨memory', kids', rests'⟩

/-! ## All commands -/

/-- If the Manager reads a command, all is at rest. -/
def RestsToRead (link : Link) (state : World × Forest Command Op Val Name Memory) : Prop :=
  Reads state.2 → Quiescent link state.2

theorem Rests.quiescent (rests : Rests link family later state memory kids) : RestsToRead link state :=
  fun _ => ⟨memory, kids, later, rests.waits, rests.manages, rests.clear, rests.clears⟩

/-- In the middle of a command the Manager does not read. -/
theorem rests_during {start : World × Forest Command Op Val Name Memory} (rests : RestsToRead link start)
    (during : state.2.Busy ∨ state = start) : RestsToRead link state := by
  intro reads
  rcases during with busy | rfl
  · obtain ⟨world, _ | ⟨cell, inner, others⟩⟩ := state
    · exact reads.elim
    · obtain ⟨prog, busy⟩ := busy
      obtain ⟨memory, idle⟩ := reads
      rw [idle] at busy
      cases busy
  · exact rests reads

theorem Rests.done (rests : Rests link family [] state memory kids)
    (next : World × Forest Command Op Val Name Memory) : ¬ Moves machine state next := by
  obtain ⟨world, forest⟩ := state
  obtain rfl := rests.waits
  intro moved
  obtain ⟨place, stepped⟩ := moved
  cases place with
  | here => cases stepped
  | beside place => cases place <;> cases stepped
  | under place => simp [waiting, Forest.step, kids.no_step] at stepped

theorem Over.reads {forest : Forest Command Op Val Name Memory} (gone : Over link later forest) :
    ¬ Reads forest := by
  obtain ⟨below, _, rfl⟩ := gone
  intro stands
  obtain ⟨memory, idle⟩ := stands
  cases idle

theorem Over.done (gone : Over link later state.2)
    (next : World × Forest Command Op Val Name Memory) : ¬ Moves machine state next := by
  obtain ⟨world, forest⟩ := state
  obtain ⟨below, dead, rfl⟩ := gone
  intro moved
  obtain ⟨place, stepped⟩ := moved
  cases place with
  | here => cases stepped
  | beside place => cases place <;> cases stepped
  | under place => simp [Forest.step, dead.no_step] at stepped

/-- Every run through the commands ends, and the services are at rest each time the
Manager reads one. -/
theorem commands_until (inputs : List Input)
    (rests : Rests link family (inputs.map read_and_split) state memory kids)
    (admits : family.AdmitsAll inputs) :
    Until (Moves machine) (RestsToRead link)
      (fun now => RestsToRead link now ∧ ∀ next, ¬ Moves machine now next) state := by
  induction inputs generalizing family state memory kids with
  | nil => exact .reached ⟨rests.quiescent, rests.done⟩
  | cons input inputs ih =>
      obtain ⟨admitted, others⟩ := admits
      have during : ∀ now : World × Forest Command Op Val Name Memory,
          now.2.Busy ∨ now = state → RestsToRead link now :=
        fun _ => rests_during rests.quiescent
      cases input with
      | spawn parent_service new_child_service =>
          refine ((rests.spawn admitted).mono during fun _ => id).trans ?_
          intro now reached
          obtain ⟨memory', kids', rests'⟩ := reached
          exact ih rests' (others _ rfl)
      | kill target =>
          by_cases all : target = .Manager
          · subst all
            refine (rests.kill_all.mono during fun _ => id).trans ?_
            intro now gone
            exact .reached ⟨fun reads => absurd reads gone.reads, gone.done⟩
          · refine ((rests.kill all).mono during fun _ => id).trans ?_
            intro now reached
            obtain ⟨memory', kids', rests'⟩ := reached
            exact ih rests' (others _ (if_neg all))
      | exchange service_a service_b =>
          refine ((rests.exchange admitted).mono during fun _ => id).trans ?_
          intro now reached
          obtain ⟨memory', kids', rests'⟩ := reached
          exact ih rests' (others _ rfl)

/-- The Manager when it is started, with the commands that it will read. -/
def starting (link : Link) (inputs : List Input) : Forest Command Op Val Name Memory :=
  .cons ⟨link, inputs.map read_and_split, [], .resume (machine.boot .Manager)⟩ .nil .nil

def Family.alone : Family := .cons .Manager .nil .nil

def World.started (world : World) : World :=
  let birth := world.births world.created
  { world with
    created := world.created + 1
    out := world.out ++ [.born .Manager birth.pid birth.secret] }

theorem started_until (world : World) (link : Link) (inputs : List Input)
    (free : ∀ path, Free world path) :
    Until (Moves machine) (fun now => now.2.Busy)
      (fun now => Rests link .alone (inputs.map read_and_split) now
        (.start .Manager (world.births world.created)) .nil ∧ now.1 = world.started)
      (world, starting link inputs) := by
  let birth := world.births world.created
  obtain ⟨steps, runs⟩ := boot_manager_ends birth
  have made : Calls machine (births .Manager birth) world world.started := .cons rfl (.cons rfl (.nil _))
  have serving : Serving machine link (inputs.map read_and_split) (some (.start .Manager birth, .nil))
      (starting link inputs) (.nil ++ Trace.only searching (births .Manager birth)) (0 + steps) :=
    .resume .nil runs
  refine (serving.until made.alone).mono (fun _ => id) ?_
  intro state reached
  obtain ⟨last, forest⟩ := state
  obtain ⟨ended, rfl⟩ := reached
  cases ended with
  | idle =>
      refine ⟨⟨rfl, ⟨rfl, ⟨rfl, .nil, .nil, nofun⟩, trivial⟩, ?_, trivial, rfl, List.nodup_singleton _,
        free⟩, rfl⟩
      exact ⟨fun _ => rfl, fun _ => rfl⟩

theorem starting_until (world : World) (link : Link) (inputs : List Input)
    (free : ∀ path, Free world path) :
    Until (Moves machine) (fun now => now.2.Busy)
      (fun now => Rests link .alone (inputs.map read_and_split) now
        (.start .Manager (world.births world.created)) .nil) (world, starting link inputs) :=
  (started_until world link inputs free).mono (fun _ => id) fun _ => And.left

/-- Each time the Manager reads a command, all services are idle and the pipes empty, the
registers are -1, and every `child` lists the children of its service. -/
theorem commands_quiescent (world : World) (link : Link) (inputs : List Input)
    (free : ∀ path, Free world path) (admits : Family.alone.AdmitsAll inputs)
    (state : World × Forest Command Op Val Name Memory)
    (run : Relation.ReflTransGen (Moves machine) (world, starting link inputs) state)
    (reads : Reads state.2) : Quiescent link state.2 := by
  have never : RestsToRead link (world, starting link inputs) := by
    intro stands
    obtain ⟨memory, idle⟩ := stands
    cases idle
  have started := (starting_until world link inputs free).mono
    (fun _ busy => rests_during never (.inl busy)) fun _ => id
  have goal := started.trans fun now rests => commands_until inputs rests admits
  rcases goal.of_run run with ⟨during, _⟩ | ⟨last, ⟨rests, stuck⟩, _, behind⟩
  · exact during reads
  · rcases Relation.ReflTransGen.cases_head behind with rfl | ⟨next, taken, _⟩
    · exact rests reads
    · exact absurd taken (stuck next)

theorem commands_quiescent_between :
    let exchange := Input.exchange .Manager .A
    ∃ state memory kids, state.2 = waiting ⟨0, 1⟩ memory kids [read_and_split exchange] ∧
      Relation.ReflTransGen (Moves machine) (.blank, starting ⟨0, 1⟩ [.spawn .Manager .A, exchange]) state ∧
      Quiescent ⟨0, 1⟩ state.2 := by
  intro exchange
  have free : ∀ path, Free .blank path := fun _ => .inl rfl
  have admits : Family.alone.AdmitsAll [.spawn .Manager .A, exchange] := by
    refine ⟨⟨by decide, by decide, ⟨by decide, ⟨by decide, trivial, trivial⟩, trivial⟩⟩, fun next same => ?_⟩
    cases same
    exact ⟨⟨by decide, by decide, by decide, by decide⟩, fun _ _ => trivial⟩
  obtain ⟨ready, rests, boot⟩ :=
    (starting_until .blank ⟨0, 1⟩ [.spawn .Manager .A, exchange] free).reaches
  obtain ⟨state, ⟨memory, kids, rests'⟩, run⟩ := (rests.spawn admits.1).reaches
  have reads : Reads state.2 := by
    rw [rests'.waits]
    exact ⟨memory, rfl⟩
  exact ⟨state, memory, kids, rests'.waits, boot.trans run,
    commands_quiescent .blank ⟨0, 1⟩ _ free admits state (boot.trans run) reads⟩

end SysProg.Services
