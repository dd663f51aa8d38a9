import SysProg.Process.Jam
import SysProg.Services.Channels
import SysProg.Services.Spawn

namespace SysProg.Services

/-! # Commands that never come to an end

A new service that is called Manager does not tell its parent that it is there, so the parent
and all services above it wait.  It waits on its pipe itself here; in service.c it takes commands
from the standard input, as `is_manager` goes by the name, and leaves at the end of it.  A service
whose partner in an exchange is missing waits for the partner to open the FIFO. -/

open Process Data Transition

variable {command : Command} {memory : Memory} {kids grove before : Grove Memory} {link : Link}
  {world : World}

/-! ## Asking a child -/

/-- `write` to a child and `read` of its answer. -/
def ask (link : Link) (command buffer : Command) : Run Command := do
  write link.write_fd command
  read link.read_fd buffer

theorem ask_yields {rest : Grove Memory} {answer buffer : Command} {memory' : Memory} {kids' : Grove Memory}
    {calls : List Call} (distinct : ((before.append (.cons link memory kids rest)).crew :
      Crew Command Memory Lane).Distinct)
    (served : Ends machine searching (serve memory command) kids.crew calls (some answer)
      (some (memory', kids'))) :
    Yields machine searching (ask link command buffer) (before.append (.cons link memory kids rest)).crew
      (before.append (.cons link memory' kids' rest)).crew calls answer := by
  obtain ⟨steps, runs⟩ := served
  have quiet : Crew.Quiet ((before.append (.cons link memory kids rest)).crew : Crew Command Memory Lane) :=
    Grove.crew_quiet _
  rw [Grove.crew_append] at distinct quiet
  rw [Grove.crew_append, Grove.crew_append, ← List.append_nil calls]
  exact Yields.ask distinct quiet runs (.pure answer)

/-! ## A new Manager -/

/-- What has been printed when a `spawn` of a Manager among the services with these labels has
come to a standstill. -/
def Begot (command : Command) (labels : List Label) (world last : World) : Prop :=
  let birth := world.births world.created
  last.out = world.out ++ (Branches.upTo (Named command.content0) labels).map (heard command) ++
    [.born command.content1 birth.pid birth.secret]

/-- The loop over these services, behind others, comes to a standstill. -/
def SpawnJams (command : Command) (grove : Grove Memory) : Prop :=
  ∀ (before : Grove Memory) (receive_child : Command) (world : World) (next : Bool × Command → Run Memory),
    ((before.append grove).crew : Crew Command Memory Lane).Distinct →
    Jams machine ((spawnChildren command (entries grove) receive_child).bind next) (before.append grove)
      world (Begot command (tree grove).labels world)

theorem Begot.behind {first second : List Label} {last : World} (absent : ¬ first.any (Named command.content0))
    (begot : Begot command second (world.say (first.map (heard command))) last) :
    Begot command (first ++ second) world last := by
  rw [Begot, Branches.upTo_append, if_neg absent, List.map_append, ← List.append_assoc]
  exact begot

theorem spawnCalls_absent {labels : List Label} {birth : Birth} (absent : ¬ labels.any (Named command.content0)) :
    spawnCalls command birth labels = printed (labels.map (heard command)) := by
  rw [spawnCalls, if_neg absent, Branches.upTo_absent absent, List.append_nil]

theorem serve_spawn_jams (type : command.type = .spawn) (manager : command.content1 = .Manager)
    (governs : Governs memory.child kids)
    (room : command.content0 = memory.service_name → memory.num_child < child_len)
    (below : command.content0 ≠ memory.service_name → SpawnJams command kids) (world : World) :
    Jams machine (machine.serve memory command) kids world
      (Begot command (memory.label :: (tree kids).labels) world) := by
  have announced : announces memory command := by rw [announces, type]
  show Jams machine (serve memory command) _ _ _
  rw [serve_spawn type]
  refine Jams.behind (announce_yields kids.crew_quiet announced) (printed_calls _ world) memory ?_
  by_cases mine : command.content0 = memory.service_name
  · have named : Named command.content0 memory.label := decide_eq_true mine.symm
    rw [spawn, trySpawn_mine mine (room mine), manager]
    refine Jams.forks (boot_manager_ends (world.births world.created)) (.cons rfl (.cons rfl (.nil _))) ?_
    rw [Begot, Branches.upTo, if_pos named, manager]
    rfl
  · have named : ¬ Named command.content0 memory.label := by
      rw [Named, decide_eq_true_eq]
      exact Ne.symm mine
    have absent : ¬ [memory.label].any (Named command.content0) := by
      rwa [List.any_cons, List.any_nil, Bool.or_false]
    have jams := below mine .nil memory.receive_child (world.say [heard command memory.label])
    rw [spawn, trySpawn, if_neg mine, governs.listed]
    show Jams machine (((spawnChildren command (entries kids) memory.receive_child).bind _).bind _) _ _ _
    rw [Prog.bind_assoc]
    exact (jams _ governs.distinct).mono fun _ begot => begot.behind absent

theorem spawn_jams (type : command.type = .spawn) (manager : command.content1 = .Manager) (sound : Sound grove)
    (narrow : (tree grove).Narrow (child_len - 1)) (there : (tree grove).labels.any (Named command.content0)) :
    SpawnJams command grove := by
  induction grove with
  | nil => cases there
  | cons link memory kids rest kids_ih rest_ih =>
      obtain ⟨other, governs, inner, outer⟩ := sound
      obtain ⟨width, below, beside⟩ := narrow
      intro before receive_child world next distinct
      have parts : (tree (.cons link memory kids rest)).labels =
          (memory.label :: (tree kids).labels) ++ (tree rest).labels := rfl
      have room : memory.num_child < child_len := by
        rw [Memory.num_child, governs.listed, entries_length]
        exact Nat.lt_of_le_sub_one (by decide) width
      by_cases here : (memory.label :: (tree kids).labels).any (Named command.content0)
      · have jams : Jams machine (machine.serve memory command) kids world
            (Begot command (memory.label :: (tree kids).labels) world) := by
          refine serve_spawn_jams type manager governs (fun _ => room) (fun different => ?_) world
          have stranger : Named command.content0 memory.label = false := decide_eq_false (Ne.symm different)
          rw [List.any_cons, stranger, Bool.false_or] at here
          exact kids_ih inner below here
        refine (Jams.asks jams distinct.earlier (.waits _)).mono fun last begot => ?_
        rw [Begot, parts, Branches.upTo_append, if_pos here]
        exact begot
      · have below_absent : ¬ (tree kids).labels.any (Named command.content0) := by
          rw [List.any_cons, Bool.or_eq_true, not_or] at here
          exact here.2
        have mine : command.content0 = memory.service_name → memory.num_child < child_len := fun _ => room
        have searches : command.content0 ≠ memory.service_name →
            SpawnSearches command (world.births world.created) kids :=
          fun _ => spawn_searches type inner (fun inside => absurd inside below_absent) below.attach
        obtain ⟨memory', kids', answer, adopts, said, ends⟩ :=
          serve_spawn_ends type governs inner other (fun inside => absurd inside here) mine searches
        rw [spawnCalls_absent here] at ends
        have failed : ¬ answer.type = .spawn_success := by
          rw [said, Bool.eq_false_iff.mpr here]
          simp [spawnAnswer]
        rw [parts, List.any_append, Bool.eq_false_iff.mpr here, Bool.false_or] at there
        have moved : before.append (.cons link memory' kids' rest) =
            (before.append (.cons link memory' kids' .nil)).append rest :=
          (Grove.append_assoc before (.cons link memory' kids' .nil) rest).symm
        let onward (answer : Command) : Run (Bool × Command) :=
          if answer.type = .spawn_success then .pure (true, answer)
          else spawnChildren command (entries rest) answer
        show Jams machine ((ask link command receive_child).bind fun answer => (onward answer).bind next) _ _ _
        refine Jams.behind (ask_yields distinct ends) (printed_calls _ world) memory ?_
        rw [show onward answer = spawnChildren command (entries rest) answer from if_neg failed, moved]
        refine (rest_ih outer beside there _ answer _ next ?_).mono fun last begot => begot.behind here
        rw [← moved]
        rw [Grove.crew_append] at distinct ⊢
        exact distinct.replace

theorem spawn_manager_jams (type : command.type = .spawn) (manager : command.content1 = .Manager)
    (manages : Manages memory kids) (narrow : (whole memory kids).Narrow (child_len - 1))
    (there : (whole memory kids).labels.any (Named command.content0)) (world : World) :
    Jams machine (machine.serve memory command) kids world (Begot command (whole memory kids).labels world) := by
  obtain ⟨name, governs, sound⟩ := manages
  obtain ⟨width, below, _⟩ := narrow
  rw [whole, Branches.labels_single] at there ⊢
  refine serve_spawn_jams type manager governs (fun _ => ?_) (fun different => ?_) world
  · rw [Memory.num_child, governs.listed, entries_length]
    exact Nat.lt_of_le_sub_one (by decide) width
  · rw [List.any_cons, show Named command.content0 memory.label = false from decide_eq_false (Ne.symm different),
      Bool.false_or] at there
    exact spawn_jams type manager sound below there

/-! ## A partner that is missing -/

/-- One of the two services is among those with these labels, and not the other. -/
structure Lone (command : Command) (index : Fin 2) (labels : List Label) : Prop where
  there : has command index labels
  missing : ∀ other, other ≠ index → ¬ has command other labels

theorem has_append {index : Fin 2} {first second : List Label} :
    has command index (first ++ second) = (has command index first || has command index second) :=
  List.any_append

theorem open_jams {path : String} (side : Side) (fresh : world.fifos path = some .fresh) (next : Val → Run Memory)
    (kids : Grove Memory) :
    Jams machine (.call (.arrive path side) fun _ => .call (.open path side) next) kids world
      (fun last => last.out = world.out) := by
  refine Jams.call (exec_arrive fresh) (Jams.blocked ?_ rfl)
  have found : (world.setFifo path (some (Fifo.fresh.enter side))).fifos path = some (Fifo.fresh.enter side) :=
    if_pos rfl
  refine (exec_open found).trans (if_neg ?_)
  cases side <;> exact Nat.lt_irrefl 0

/-- A service that takes part in an exchange waits for its partner. -/
theorem exchanges_jams {index : Fin 2} (mine : command.content index = memory.service_name)
    (fresh : world.fifos command.fifo1 = some .fresh) (next : Memory → Run Memory) (kids : Grove Memory) :
    Jams machine ((exchanges memory command).bind next) kids world (fun last => last.out = world.out) := by
  rw [exchanges]
  by_cases first : command.content0 = memory.service_name
  · rw [if_pos first]
    exact open_jams .writer fresh _ kids
  · have second : command.content1 = memory.service_name := by
      obtain rfl | rfl : index = 0 ∨ index = 1 := by omega
      · exact absurd mine first
      · exact mine
    rw [if_neg first, if_pos second]
    exact open_jams .reader fresh _ kids

/-- These services, behind others, hold up a service that asks for the last phase. -/
def StartJams (command : Command) (index : Fin 2) (grove : Grove Memory) : Prop :=
  ∃ link, toward (command.content index) grove = some link ∧
    ∀ (before : Grove Memory) (world : World) (passes : Nat) (prog : Run Memory),
      ((before.append grove).crew : Crew Command Memory Lane).Distinct →
      world.fifos command.fifo1 = some .fresh → Comes (before.append grove).links link.read_fd passes prog →
      Jams machine (.write link.write_fd command prog) (before.append grove) world
        (fun last => last.out = world.out)

theorem Lone.below {index : Fin 2} {label : Label} {labels : List Label}
    (lone : Lone command index (label :: labels)) (stranger : ¬ Named (command.content index) label) :
    Lone command index labels := by
  obtain ⟨there, missing⟩ := lone
  constructor
  · rwa [has_cons, Bool.eq_false_iff.mpr stranger, Bool.false_or] at there
  · intro other different inside
    refine missing other different ?_
    rw [has_cons, inside, Bool.or_true]

theorem passing_one {index : Fin 2} (awake : memory.pipe_read index ≠ -1)
    (asleep : ∀ other, other ≠ index → memory.pipe_read other = -1) :
    passing memory command = forward memory index command := by
  match index with
  | 0 => rw [passing, if_neg fun both => both.2 (asleep 1 (by decide)), if_pos awake]
  | 1 =>
      have none := asleep 0 (by decide)
      rw [passing, if_neg fun both => both.1 none, if_neg fun some => some none]

theorem serve_start_jams {index : Fin 2} (type : command.type = .start_exchange) (governs : Governs memory.child kids)
    (led : Led command memory kids) (unique : Unique (memory.label :: (tree kids).labels))
    (lone : Lone command index (memory.label :: (tree kids).labels))
    (fresh : world.fifos command.fifo1 = some .fresh)
    (below : Lone command index (tree kids).labels → StartJams command index kids) :
    Jams machine (machine.serve memory command) kids world (fun last => last.out = world.out) := by
  have asleep : ∀ other, other ≠ index → memory.pipe_read other = -1 := by
    intro other different
    refine led.unrouted fun inside => lone.missing other different ?_
    rw [has_cons, inside, Bool.or_true]
  show Jams machine (serve memory command) _ _ _
  rw [serve_start type]
  by_cases mine : command.content index = memory.service_name
  · have all : ∀ other, memory.pipe_read other = -1 := by
      intro other
      by_cases same : other = index
      · exact led.unrouted (same ▸ unique.absent (Named_mine mine))
      · exact asleep other same
    rw [takeExchange, if_pos ⟨all 0, all 1⟩]
    exact exchanges_jams mine fresh _ kids
  · have stranger : ¬ Named (command.content index) memory.label := by
      rw [Named_stranger mine]
      exact Bool.false_ne_true
    have lone_below := lone.below stranger
    obtain ⟨link, way, jams⟩ := below lone_below
    have reads : memory.pipe_read index = link.read_fd := by
      rw [led.read index, way]
      rfl
    have writes : memory.pipe_write index = link.write_fd := by
      rw [led.write index, way]
      rfl
    have awake : memory.pipe_read index ≠ -1 := led.routed governs lone_below.there
    have strangers : ∀ other, command.content other ≠ memory.service_name := by
      intro other named
      by_cases same : other = index
      · exact mine (same ▸ named)
      · refine lone.missing other same ?_
        rw [has_cons, Named_mine named, Bool.true_or]
    rw [takeExchange_passing (fun both => ?_) strangers, passing_one awake asleep]
    · show Jams machine (.write (memory.pipe_write index) command (.read (memory.pipe_read index) _)) _ _ _
      rw [reads, writes]
      exact jams .nil world 0 _ governs.distinct fresh (.waits _)
    · obtain rfl | rfl : index = 0 ∨ index = 1 := by omega
      · exact awake both.1
      · exact awake both.2

theorem start_jams {index : Fin 2} (type : command.type = .start_exchange) (sound : Sound grove)
    (leds : AllLed command grove) (unique : Unique (tree grove).labels)
    (lone : Lone command index (tree grove).labels) : StartJams command index grove := by
  induction grove with
  | nil => cases lone.there
  | cons link memory kids rest kids_ih rest_ih =>
      obtain ⟨other, governs, inner, outer⟩ := sound
      obtain ⟨led, inner_led, outer_led⟩ := leds
      have parts : Unique ((memory.label :: (tree kids).labels) ++ (tree rest).labels) := unique
      have whole : (tree (.cons link memory kids rest)).labels =
          (memory.label :: (tree kids).labels) ++ (tree rest).labels := rfl
      rw [whole] at lone
      by_cases here : has command index (memory.label :: (tree kids).labels)
      · have lone_here : Lone command index (memory.label :: (tree kids).labels) := by
          refine ⟨here, fun other different inside => lone.missing other different ?_⟩
          rw [has_append, inside, Bool.true_or]
        refine ⟨link, if_pos here, fun before world passes prog distinct fresh comes => ?_⟩
        have jams := serve_start_jams type governs led parts.left lone_here fresh
          (kids_ih inner inner_led (Unique.below parts.left))
        rw [Grove.links_append] at comes
        exact jams.asks distinct.earlier comes
      · have lone_beside : Lone command index (tree rest).labels := by
          obtain ⟨there, missing⟩ := lone
          constructor
          · rwa [has_append, Bool.eq_false_iff.mpr here, Bool.false_or] at there
          · intro other different inside
            refine missing other different ?_
            rw [has_append, inside, Bool.or_true]
        obtain ⟨way, found, jams⟩ := rest_ih outer outer_led parts.right lone_beside
        refine ⟨way, (if_neg here).trans found, fun before world passes prog distinct fresh comes => ?_⟩
        have moved : before.append (.cons link memory kids rest) =
            (before.append (.cons link memory kids .nil)).append rest :=
          (Grove.append_assoc before (.cons link memory kids .nil) rest).symm
        rw [moved] at distinct comes ⊢
        exact jams _ world passes prog distinct fresh comes

/-! ## Up to the last phase -/

/-- The world when the last phase of an exchange begins. -/
def World.opened (world : World) (command : Command) (lines : List Line) : World :=
  ((world.mkfifo command.request.fifo1).mkfifo command.request.fifo2).say lines

theorem World.mkfifo_out (path : String) : (world.mkfifo path).out = world.out := by
  rw [World.mkfifo]
  split <;> rfl

theorem World.opened_out (lines : List Line) : (world.opened command lines).out = world.out ++ lines := by
  rw [World.opened, World.say, mkfifo_out, mkfifo_out]

theorem World.say_mkfifo (lines : List Line) (path : String) :
    (world.say lines).mkfifo path = (world.mkfifo path).say lines := by
  simp only [World.mkfifo, World.say]
  cases world.fifos path <;> rfl

/-- The first FIFO is there and nobody has it open. -/
theorem World.opened_fresh (free : Free world command.request.fifo1) (lines : List Line) :
    (world.opened command lines).fifos command.request.fifo1 = some .fresh := by
  rw [World.opened, mkfifo_free free, World.mkfifo]
  split
  · exact if_pos rfl
  · show (if _ then _ else _) = _
    split
    · rfl
    · exact if_pos rfl

theorem searchCalls_opened (label : Label) (lines : List Line) :
    Calls machine (searchCalls command label lines) world (world.opened command (heard command label :: lines)) := by
  have made : Calls machine (searchCalls command label lines) world
      ((((world.say [heard command label]).mkfifo command.request.fifo1).mkfifo command.request.fifo2).say lines) :=
    (printed_calls [heard command label] world).append
      (.cons (exec_mkfifo_world _ _) (.cons (exec_mkfifo_world _ _) (printed_calls lines _)))
  have same : world.opened command (heard command label :: lines) =
      ((((world.say [heard command label]).mkfifo command.request.fifo1).mkfifo command.request.fifo2).say lines) := by
    rw [World.say_mkfifo, World.say_mkfifo, World.opened, World.say, World.say, World.say, List.append_assoc]
    rfl
  rw [same]
  exact made

/-- Every run of an `exchange` comes to the last phase, with the ways in the registers. -/
theorem exchange_opened (manages : Manages memory kids) (unique : Unique (whole memory kids).labels)
    (type : command.type = .exchange) (world : World) (link : Link) (later : List Command) :
    Until (Moves machine) (fun _ => True)
      (fun state => state = (world.opened command (tourLines command 2 (whole memory kids).labels),
        working link later
          ((lastPhase (memory.led command.request kids) command.request).bind (close_exchange command))
          (routes command.request kids).forest))
      (world, waiting link memory kids (command :: later)) := by
  rw [whole, Branches.labels_single] at unique ⊢
  obtain ⟨lines, said, traverses⟩ := traverse_manager manages type
  have silent : command.request.print = false := rfl
  obtain ⟨search, phase, program, last, searches⟩ := startExchange_searches manages unique silent
  have opens : Yields machine searching ((openExchange memory command).bind fun _ => search) kids.crew
      (routes command.request kids).crew (searchCalls command memory.label lines ++ [])
      (memory.led command.request kids) :=
    (openExchange_yields manages type traverses).bind searches
  rw [List.append_nil] at opens
  rw [said, ← last]
  refine until_served trivial ?_
  show Until _ _ _ (world, working link later (serve memory command) kids.forest)
  rw [serve_exchange_opens manages type, program]
  have calls : Calls machine (searchCalls command memory.label lines) world _ := searchCalls_opened memory.label lines
  have whole : (openExchange memory command).bind (fun _ => (search.bind phase).bind (close_exchange command)) =
      ((openExchange memory command).bind fun _ => search).bind
        fun memory => (phase memory).bind (close_exchange command) := by
    simp only [Prog.bind_assoc]
  rw [whole]
  exact (opens.until calls memory _).mono (fun _ _ => trivial) fun _ => id

end SysProg.Services
