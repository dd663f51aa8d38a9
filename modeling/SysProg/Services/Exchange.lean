import SysProg.Services.Partners

namespace SysProg.Services

/-! # `exchange` -/

open Process Data Transition

variable {command : Command} {memory : Memory} {kids : Grove Memory} {first second : UInt64}
  {index : Fin 2}

theorem searching_lowest (lane : Lane) : searching ≤ lane := by
  obtain ⟨one, two⟩ := lane
  exact ⟨Bool.false_le one, Bool.false_le two⟩

theorem manager_finds (silent : command.print = false) (index : Fin 2) (manages : Manages memory kids)
    (unique : Unique (memory.label :: (tree kids).labels)) :
    Yields machine searching (finds memory command index) kids.crew
      (route index (command.content index) kids).crew []
      (memory.lead index (toward (command.content index) kids)) := by
  let request := { command with target := index }
  have request_finds : Finds request index := ⟨rfl, silent⟩
  have below : Unique (tree kids).labels := Unique.below unique
  have search : Yields machine searching (finds memory request index) kids.crew
      (route index (request.content index) kids).crew []
      (memory.lead index (toward (request.content index) kids)) :=
    finds_manager request_finds manages unique (find_searches request_finds manages.sound below)
  exact search

theorem Manages.lead (manages : Manages memory kids) (target : Name) :
    Manages (memory.lead index (toward target kids)) (route index target kids) where
  name := (Memory.lead_name _).trans manages.name
  governs := by
    rw [Memory.lead_child]
    exact manages.governs.route
  sound := manages.sound.route

/-- The memory of the Manager, and its services, when the registers show the ways. -/
def Memory.led (memory : Memory) (command : Command) (kids : Grove Memory) : Memory :=
  (memory.lead 0 (toward command.content0 kids)).lead 1 (toward command.content1 kids)

def routes (command : Command) (kids : Grove Memory) : Grove Memory :=
  route 1 command.content1 (route 0 command.content0 kids)

theorem led_label : (memory.led command kids).label = memory.label := by
  rw [Memory.led, Memory.lead_label, Memory.lead_label]

theorem tree_routes : tree (routes command kids) = tree kids := by
  rw [routes, tree_route, tree_route]

theorem Manages.fit (manages : Manages memory kids) (clear : memory.Clear) (clears : Clear kids)
    (unique : Unique (memory.label :: (tree kids).labels)) (type : command.type = .start_exchange)
    (differ : command.content0 ≠ command.content1)
    (holds : Holds command first second (memory.label :: (tree kids).labels)) :
    Fit command first second (memory.led command kids) (routes command kids) := by
  have below : Unique (tree kids).labels := Unique.below unique
  have sound : Sound (routes command kids) := manages.sound.route.route
  have leds : AllLed command (routes command kids) := clears.led
  constructor
  · rw [Memory.led, Memory.lead_child, Memory.lead_child]
    exact manages.governs.route.route
  · exact (clear.led kids).route.route
  · exact sound
  · exact leds
  · rw [led_label, tree_routes]
    exact unique
  · refine each_serves type differ sound leds ?_ ?_
    · rw [tree_routes]
      exact below
    · rw [tree_routes]
      exact fun label inside => holds label (List.mem_cons_of_mem _ inside)

structure Exchanged (command : Command) (first second : UInt64) (memory after : Memory)
    (kids kids' : Grove Memory) : Prop where
  label : after.label = trade command first second memory.label
  child : after.child = memory.child
  below : Traded command first second kids kids'

theorem led_name : (memory.led command kids).service_name = memory.service_name :=
  congrArg Prod.fst led_label

theorem led_secret : (memory.led command kids).secret = memory.secret := congrArg Prod.snd led_label

theorem led_child : (memory.led command kids).child = memory.child := by
  rw [Memory.led, Memory.lead_child, Memory.lead_child]

theorem has_routes {index : Fin 2} (there : has command index (memory.label :: (tree kids).labels))
    (other : command.content index ≠ memory.service_name) :
    has command index (tree (routes command kids)).labels := by
  rw [has_cons, Named_stranger other, Bool.false_or] at there
  rw [tree_routes]
  exact there

/-- The last phase of an exchange in the Manager, behind the searches. -/
def lastPhase (memory : Memory) (receive_parent : Command) : Run Memory :=
  if memory.service_name = receive_parent.content0 then
    forwardAround memory 1 (receive_parent.typed .start_exchange) receive_parent
  else if memory.service_name = receive_parent.content1 then
    forwardAround memory 0 (receive_parent.typed .start_exchange) receive_parent
  else if memory.pipe_write 0 = memory.pipe_write 1 then
    forward memory 0 (receive_parent.typed .start_exchange)
  else forwardBoth memory (receive_parent.typed .start_exchange)

section Manager

variable (manages : Manages memory kids) (unique : Unique (memory.label :: (tree kids).labels))
  (silent : command.print = false)

include manages unique silent

/-- `startExchange` searches for both services, except for itself, before the last phase. -/
theorem startExchange_searches :
    ∃ (search : Run Memory) (phase : Memory → Run Memory),
      startExchange memory command = search.bind phase ∧
      phase (memory.led command kids) = lastPhase (memory.led command kids) command ∧
      Yields machine searching search kids.crew (routes command kids).crew [] (memory.led command kids) := by
  rw [startExchange, lastPhase, led_name]
  by_cases is_first : memory.service_name = command.content0
  · have absent : ¬ (tree kids).labels.any (Named command.content0) :=
      unique.absent (Named_iff.mpr is_first)
    have led : memory.led command kids = memory.lead 1 (toward command.content1 kids) := by
      rw [Memory.led, toward_absent absent]
      rfl
    have routed : routes command kids = route 1 command.content1 kids := by
      rw [routes, route_absent absent]
    rw [if_pos is_first, if_pos is_first]
    refine ⟨finds memory command 1, _, rfl, rfl, ?_⟩
    rw [led, routed]
    exact manager_finds silent 1 manages unique
  by_cases is_second : memory.service_name = command.content1
  · have absent : ¬ (tree kids).labels.any (Named command.content1) :=
      unique.absent (Named_iff.mpr is_second)
    have led : memory.led command kids = memory.lead 0 (toward command.content0 kids) := by
      rw [Memory.led, toward_absent absent]
      rfl
    have routed : routes command kids = route 0 command.content0 kids := by
      rw [routes, route_absent]
      rwa [tree_route]
    rw [if_neg is_first, if_pos is_second, if_neg is_first, if_pos is_second]
    refine ⟨finds memory command 0, _, rfl, rfl, ?_⟩
    rw [led, routed]
    exact manager_finds silent 0 manages unique
  · have unique' : Unique ((memory.lead 0 (toward command.content0 kids)).label ::
        (tree (route 0 command.content0 kids)).labels) := by
      rw [Memory.lead_label, tree_route]
      exact unique
    have two := manager_finds silent 1 (manages.lead command.content0) unique'
    rw [toward_route] at two
    rw [if_neg is_first, if_neg is_second, if_neg is_first, if_neg is_second]
    refine ⟨(finds memory command 0).bind fun memory => finds memory command 1, _,
      (Prog.bind_assoc _ _ _).symm, rfl, ?_⟩
    have both : Yields machine searching
        ((finds memory command 0).bind fun memory => finds memory command 1) kids.crew
        (routes command kids).crew ([] ++ []) (memory.led command kids) :=
      (manager_finds silent 0 manages unique).bind two
    exact both

end Manager

/-- What the last phase makes of the Manager and its services. -/
def Ending (command : Command) (first second : UInt64) (memory : Memory) (kids : Grove Memory) : Prop :=
  ∃ after : Command → Memory,
    (∀ answer, (after answer).label = trade command first second memory.label) ∧
    (∀ answer, (after answer).child = memory.child) ∧
    Passes (command.typed .start_exchange) first second (lastPhase (memory.led command kids) command)
      (routes command kids) (deal (command.typed .start_exchange) first second true true) after

section Last

variable (manages : Manages memory kids) (clear : memory.Clear) (clears : Clear kids)
  (unique : Unique (memory.label :: (tree kids).labels)) (differ : command.content0 ≠ command.content1)
  (holds : Holds command first second (memory.label :: (tree kids).labels))

include manages clear clears unique differ holds

theorem lastPhase_first (mine : command.content0 = memory.service_name)
    (there : has command 1 (memory.label :: (tree kids).labels)) : Ending command first second memory kids := by
  have fit : Fit (command.typed .start_exchange) first second (memory.led command kids)
      (routes command kids) :=
    manages.fit clear clears unique rfl differ holds
  have not_second : command.content 1 ≠ memory.service_name := fun same => differ (mine.trans same.symm)
  have secret := (holds memory.label List.mem_cons_self).1 mine.symm
  have passes := fit.first_above command rfl (mine.trans led_name.symm) (led_secret.trans secret)
    (has_routes there not_second)
  have phase : lastPhase (memory.led command kids) command =
      forwardAround (memory.led command kids) 1 (command.typed .start_exchange) command :=
    if_pos (led_name.trans mine.symm)
  refine ⟨((memory.led command kids).setSecret second).setReceived, fun _ => ?_, fun _ => led_child,
    phase ▸ passes⟩
  show ((memory.led command kids).service_name, second) = _
  rw [led_name]
  exact (trade_first mine).symm

theorem lastPhase_second (mine : command.content1 = memory.service_name)
    (there : has command 0 (memory.label :: (tree kids).labels)) : Ending command first second memory kids := by
  have fit : Fit (command.typed .start_exchange) first second (memory.led command kids)
      (routes command kids) :=
    manages.fit clear clears unique rfl differ holds
  have not_first : command.content 0 ≠ memory.service_name := fun same => differ (same.trans mine.symm)
  have stranger : ¬ memory.service_name = command.content0 := Ne.symm not_first
  have secret := (holds memory.label List.mem_cons_self).2 mine.symm
  have passes := fit.second_above command rfl (mine.trans led_name.symm)
    (fun same => not_first (same.trans led_name)) (led_secret.trans secret) (has_routes there not_first)
  have phase : lastPhase (memory.led command kids) command =
      forwardAround (memory.led command kids) 0 (command.typed .start_exchange) command :=
    (if_neg fun same => stranger (led_name.symm.trans same)).trans (if_pos (led_name.trans mine.symm))
  refine ⟨((memory.led command kids).setSecret first).setReceived, fun _ => ?_, fun _ => led_child,
    phase ▸ passes⟩
  show ((memory.led command kids).service_name, first) = _
  rw [led_name]
  exact (trade_second differ mine).symm

theorem lastPhase_neither (strangers : ∀ index, command.content index ≠ memory.service_name)
    (there : has command 0 (memory.label :: (tree kids).labels))
    (there' : has command 1 (memory.label :: (tree kids).labels)) : Ending command first second memory kids := by
  have fit : Fit (command.typed .start_exchange) first second (memory.led command kids)
      (routes command kids) :=
    manages.fit clear clears unique rfl differ holds
  have phase : lastPhase (memory.led command kids) command =
      if (memory.led command kids).pipe_write 0 = (memory.led command kids).pipe_write 1 then
        forward (memory.led command kids) 0 (command.typed .start_exchange)
      else forwardBoth (memory.led command kids) (command.typed .start_exchange) :=
    (if_neg fun same => strangers 0 (same.symm.trans led_name)).trans
      (if_neg fun same => strangers 1 (same.symm.trans led_name))
  have label : ∀ answer, ((memory.led command kids).setReceived answer).label =
      trade command first second memory.label :=
    fun _ => led_label.trans (trade_stranger strangers).symm
  refine ⟨(memory.led command kids).setReceived, label, fun _ => led_child, ?_⟩
  rw [phase]
  rcases fit.both (has_routes there (strangers 0)) (has_routes there' (strangers 1)) with
    ⟨_, write, passes⟩ | ⟨_, write, passes⟩
  · rw [if_pos write]
    exact passes
  · rw [if_neg write]
    exact passes

theorem lastPhase_ending (there : ∀ index, has command index (memory.label :: (tree kids).labels)) :
    Ending command first second memory kids := by
  by_cases is_first : command.content0 = memory.service_name
  · exact lastPhase_first manages clear clears unique differ holds is_first (there 1)
  by_cases is_second : command.content1 = memory.service_name
  · exact lastPhase_second manages clear clears unique differ holds is_second (there 0)
  have strangers : ∀ index, command.content index ≠ memory.service_name := by
    intro index
    match index with
    | 0 => exact is_first
    | 1 => exact is_second
  exact lastPhase_neither manages clear clears unique differ holds strangers (there 0) (there 1)

/-- `startExchange` searches for both services, and then they do their parts. -/
theorem startExchange_spans (silent : command.print = false)
    (there : ∀ index, has command index (memory.label :: (tree kids).labels)) :
    ∃ after kids', Exchanged (command.typed .start_exchange) first second memory after
        (routes command kids) kids' ∧
      Spans machine (startExchange memory command) kids.crew kids'.crew
        (deal (command.typed .start_exchange) first second true true) after := by
  obtain ⟨search, phase, program, last, yields⟩ := startExchange_searches manages unique silent
  obtain ⟨after, label, child, kids', answer, traded, spans⟩ :=
    lastPhase_ending manages clear clears unique differ holds there
  refine ⟨after answer, kids', ⟨label answer, child answer, traded⟩, ?_⟩
  rw [← last] at spans
  have all := Spans.behind yields searching_lowest spans
  rwa [Trace.only_nil, Trace.nil_append, ← program] at all

end Last

def Command.request (command : Command) : Command := { command.withFifos with print := false }

/-- What is called before the last phase; `lines` are those of `traverse`. -/
def searchCalls (command : Command) (label : Label) (lines : List Line) : List Call :=
  printed [heard command label] ++
    ((.mkfifo command.request.fifo1, .unit) :: (.mkfifo command.request.fifo2, .unit) :: printed lines)

def closingCalls (command : Command) : List Call :=
  [(.unlink command.request.fifo1, .unit), (.unlink command.request.fifo2, .unit),
    (.print (.exchanged command.content0 command.content1), .unit)]

theorem traverse_manager (manages : Manages memory kids) (type : command.type = .exchange) :
    ∃ lines, tourLines command 2 (memory.label :: (tree kids).labels) = heard command memory.label :: lines ∧
      Yields machine searching (traverse memory command.withFifos) kids.crew kids.crew (printed lines) () := by
  have exchanges : command.withFifos.type = .exchange := type
  have asks : command.withFifos.seeking 2 = command.withFifos := rfl
  obtain ⟨lines, answer, said, _, prog, same, yields⟩ :=
    traverse_yields manages.governs Nat.two_pos (tours exchanges rfl manages.sound)
  refine ⟨lines, said, ?_⟩
  rw [← asks, same]
  refine yields.map ?_
  rw [reply, if_pos (Memory.manager manages.name)]
  exact .pure ()

def close_exchange (command : Command) (memory : Memory) : Run Memory := do
  let _ ← call (.unlink command.request.fifo1)
  let _ ← call (.unlink command.request.fifo2)
  print (.exchanged command.content0 command.content1)
  .pure memory.clear

theorem close_exchange_ends (command : Command) (memory : Memory) (kids : Grove Memory) :
    Ends machine closing (close_exchange command memory) kids.crew (closingCalls command) none
      (some (memory.clear, kids)) := by
  let calls : Run Unit := (call (.unlink command.request.fifo1)).bind fun _ =>
    (call (.unlink command.request.fifo2)).bind fun _ =>
      print (.exchanged command.content0 command.content1)
  have free : Crew.Apart {closing} (kids.crew : Crew Command Memory Lane) := kids.crew_quiet.apart _
  have yields : Yields machine closing calls kids.crew kids.crew (closingCalls command) () :=
    .call free (.call free (.call free (.pure ())))
  show Ends machine closing (calls.bind fun _ => .pure memory.clear) _ _ _ _
  exact yields.finish (.of_runs (.pure memory.clear kids))

theorem closing_highest (lane : Lane) : lane ≤ closing := by
  obtain ⟨one, two⟩ := lane
  exact ⟨Bool.le_true one, Bool.le_true two⟩

/-- What the Manager does before `startExchange`. -/
def openExchange (memory : Memory) (command : Command) : Run Unit := do
  announce memory command
  let _ ← call (.mkfifo command.request.fifo1)
  let _ ← call (.mkfifo command.request.fifo2)
  traverse memory command.withFifos

theorem serve_exchange_opens (manages : Manages memory kids) (type : command.type = .exchange) :
    serve memory command = (openExchange memory command).bind fun _ =>
      (startExchange memory command.request).bind (close_exchange command) := by
  rw [serve_exchange type, exchange, if_pos (Memory.manager manages.name)]
  show _ = ((announce memory command).bind _).bind _
  rw [Prog.bind_assoc]
  rfl

theorem openExchange_yields (manages : Manages memory kids) (type : command.type = .exchange) {lines : List Line}
    (traverses : Yields machine searching (traverse memory command.withFifos) kids.crew kids.crew
      (printed lines) ()) :
    Yields machine searching (openExchange memory command) kids.crew kids.crew
      (searchCalls command memory.label lines) () := by
  have announced : announces memory command := by
    rw [announces, type]
    simp [Memory.manager manages.name]
  have free : Crew.Apart {searching} (kids.crew : Crew Command Memory Lane) := kids.crew_quiet.apart _
  exact (announce_yields kids.crew_quiet announced).bind (.call free (.call free traverses))

theorem serve_exchange_manager (manages : Manages memory kids) (clear : memory.Clear)
    (clears : Clear kids) (unique : Unique (memory.label :: (tree kids).labels))
    (type : command.type = .exchange) (differ : command.content0 ≠ command.content1)
    (holds : Holds command first second (memory.label :: (tree kids).labels))
    (there : ∀ index, has command index (memory.label :: (tree kids).labels)) :
    ∃ lines after kids' steps, Heard lines ∧
      Exchanged (command.request.typed .start_exchange) first second memory after (routes command kids) kids' ∧
      Runs machine (serve memory command) kids.crew
        (.only searching (searchCalls command memory.label lines) ++
          .pair firstLane secondLane (firstCalls command.request first second)
            (secondCalls command.request second first) (.only closing (closingCalls command)))
        steps none (some (after.clear, kids')) := by
  obtain ⟨lines, said, traverses⟩ := traverse_manager manages type
  have silent : command.request.print = false := rfl
  have differ' : command.request.content0 ≠ command.request.content1 := differ
  obtain ⟨after, kids', exchanged, spans⟩ :=
    startExchange_spans manages clear clears unique differ' holds silent there
  obtain ⟨_, ending⟩ := close_exchange_ends command after kids'
  have above : Trace.Above (.only closing (closingCalls command))
      (deal (command.request.typed .start_exchange) first second true true) := by
    intro later some lane _
    rw [Trace.only_within closing _ later some]
    exact closing_highest lane
  obtain ⟨_, last_phase⟩ := spans.before (close_exchange command) above ending
  have search := openExchange_yields manages type traverses
  obtain ⟨steps, runs⟩ := search.before
    (fun _ => (startExchange memory command.request).bind (close_exchange command))
    (fun later _ => searching_lowest later) last_phase
  refine ⟨lines, after, kids', steps, .of_tour said, exchanged, ?_⟩
  rw [serve_exchange_opens manages type]
  exact runs

/-! ## The world -/

/-- A FIFO that can be created, or is there and in nobody's hands. -/
def Free (world : World) (path : String) : Prop :=
  world.fifos path = none ∨ world.fifos path = some .fresh

theorem exec_mkfifo {world : World} {path : String} (free : Free world path) :
    exec (.mkfifo path) world = some (.unit, world.setFifo path (some .fresh)) := by
  rcases free with none | there
  · rw [exec, none]
  · have same : world.setFifo path (some .fresh) = world := by
      rw [World.setFifo]
      congr 1
      funext other
      split
      · rename_i here
        rw [here, there]
      · rfl
    rw [exec, there, same]

theorem meeting_start (world : World) (lines : List Line) :
    meeting command (world.say lines) first second 0 0 =
      ((world.setFifo command.fifo1 (some .fresh)).setFifo command.fifo2 (some .fresh)).say lines := by
  have forth : Fifo.forth first 0 0 = .fresh := by
    apply Fifo.ext <;> simp [Fifo.forth, Fifo.fresh]
  have back : Fifo.back second 0 0 = .fresh := by
    apply Fifo.ext <;> simp [Fifo.back, Fifo.fresh]
  have silent : told command first second 0 0 = [] := by simp [told]
  rw [meeting, forth, back, silent, World.meet, List.append_nil]
  simp only [World.say, World.setFifo]
  congr 1
  funext path
  by_cases one : path = command.fifo1
  · simp [one]
  · simp [one]

theorem searchCalls_made {world : World} (free : Free world command.request.fifo1)
    (free' : Free world command.request.fifo2)
    (different : command.request.fifo2 ≠ command.request.fifo1) (label : Label) (lines : List Line)
    (first second : UInt64) :
    Calls machine (searchCalls command label lines) world
      (meeting command.request (world.say (heard command label :: lines)) first second 0 0) := by
  have still : Free ((world.say [heard command label]).setFifo command.request.fifo1 (some .fresh))
      command.request.fifo2 := by
    have same : ((world.say [heard command label]).setFifo command.request.fifo1 (some .fresh)).fifos
        command.request.fifo2 = world.fifos command.request.fifo2 := if_neg different
    rw [Free, same]
    exact free'
  have made : Calls machine ((.mkfifo command.request.fifo1, .unit) ::
      (.mkfifo command.request.fifo2, .unit) :: printed lines) (world.say [heard command label]) _ :=
    .cons (exec_mkfifo free) (.cons (exec_mkfifo still) (printed_calls lines _))
  have all := (printed_calls [heard command label] world).append made
  have out : world.say (heard command label :: lines) = (world.say [heard command label]).say lines := by
    rw [World.say, World.say, World.say, List.append_assoc]
    rfl
  rw [out, meeting_start]
  exact all

/-- The world after an exchange: the FIFOs are gone. -/
def World.exchanged (world : World) (command : Command) (first second : UInt64) (lines : List Line) :
    World :=
  { world with
    fifos := fun path =>
      if path = command.request.fifo1 ∨ path = command.request.fifo2 then none else world.fifos path
    out := world.out ++ lines ++
      [.acquire_secret command.content0 command.content1 second,
        .acquire_secret command.content1 command.content0 first,
        .exchanged command.content0 command.content1] }

theorem closingCalls_made (command : Command) (world : World) (first second : UInt64) (lines : List Line) :
    Calls machine (closingCalls command) (meeting command.request (world.say lines) first second 9 9)
      (world.exchanged command first second lines) := by
  have made : Calls machine (closingCalls command) (meeting command.request (world.say lines) first second 9 9)
      _ := .cons rfl (.cons rfl (.cons rfl (.nil _)))
  have same : world.exchanged command first second lines =
      ((((meeting command.request (world.say lines) first second 9 9).setFifo command.request.fifo1
        none).setFifo command.request.fifo2 none).say [.exchanged command.content0 command.content1]) := by
    rw [World.exchanged, meeting, World.meet]
    simp only [World.say, World.setFifo]
    congr 1
    · funext path
      by_cases one : path = command.request.fifo1
      · simp [one]
      · by_cases two : path = command.request.fifo2 <;> simp [one, two]
    · simp [told, Command.request, Command.withFifos]
  rw [same]
  exact made

theorem closing_forks (calls : List Call) :
    Trace.Forks firstLane secondLane (.only closing calls : Trace Lane Op Val) where
  left_right := by decide
  right_left := by decide
  behind := by
    intro later some
    rw [Trace.only_within closing calls later some]
    exact ⟨lt_of_le_of_ne (closing_highest _) (by decide), lt_of_le_of_ne (closing_highest _) (by decide)⟩

theorem exchange_plan {world : World} (free : Free world command.request.fifo1)
    (free' : Free world command.request.fifo2)
    (different : command.request.fifo2 ≠ command.request.fifo1) (label : Label) (lines : List Line)
    (first second : UInt64) :
    Plan machine
      (fun last => last = world.exchanged command first second (heard command label :: lines))
      (.only searching (searchCalls command label lines) ++
        .pair firstLane secondLane (firstCalls command.request first second)
          (secondCalls command.request second first) (.only closing (closingCalls command))) world := by
  refine (searchCalls_made free free' different label lines first second).plan
    (fun later _ => searching_lowest later) ?_
  refine (exchange_pairs different _ first second).plan (closing_forks _) ?_
    ⟨0, 0, by constructor <;> omega, rfl, rfl, rfl⟩
  intro _ same
  obtain rfl := same
  exact (closingCalls_made command world first second _).alone

theorem Unique.secret {labels : List Label} (unique : Unique labels) {name : Name} {secret : UInt64}
    (there : (name, secret) ∈ labels) {label : Label} (inside : label ∈ labels) (same : label.1 = name) :
    label.2 = secret :=
  congrArg Prod.snd (List.inj_on_of_nodup_map unique inside there same)

/-- What every run of an `exchange` comes to. -/
theorem exchange_until (world : World) (link : Link) (later : List Command) (command : Command)
    (manages : Manages memory kids)
    (clear : memory.Clear) (clears : Clear kids) (unique : Unique (whole memory kids).labels)
    (type : command.type = .exchange) (differ : command.content0 ≠ command.content1)
    (there : (command.content0, first) ∈ (whole memory kids).labels)
    (there' : (command.content1, second) ∈ (whole memory kids).labels)
    (free : Free world command.request.fifo1) (free' : Free world command.request.fifo2)
    (different : command.request.fifo2 ≠ command.request.fifo1) :
    ∃ memory' kids' lines, Manages memory' kids' ∧ memory'.Clear ∧ Clear kids' ∧ Heard lines ∧
      whole memory' kids' = (whole memory kids).map (trade command first second) ∧
      Until (Moves machine)
        (fun state => state.2.Busy ∨ state = (world, waiting link memory kids (command :: later)))
        (fun state => state = (world.exchanged command first second lines,
          waiting link memory' kids' later))
        (world, waiting link memory kids (command :: later)) := by
  have labels : (whole memory kids).labels = memory.label :: (tree kids).labels := Branches.labels_single _ _
  rw [labels] at unique there there'
  have holds : Holds command first second (memory.label :: (tree kids).labels) :=
    fun label inside => ⟨unique.secret there inside, unique.secret there' inside⟩
  have both : ∀ index, has command index (memory.label :: (tree kids).labels) := by
    intro index
    match index with
    | 0 => exact List.any_eq_true.mpr ⟨_, there, Named_iff.mpr rfl⟩
    | 1 => exact List.any_eq_true.mpr ⟨_, there', Named_iff.mpr rfl⟩
  obtain ⟨lines, after, kids', steps, hears, ⟨label, child, below⟩, runs⟩ :=
    serve_exchange_manager manages clear clears unique type differ holds both
  have name : after.service_name = .Manager := by
    have same : after.service_name = memory.service_name :=
      (congrArg Prod.fst label).trans (trade_name memory.label)
    exact same.trans manages.name
  have listed : entries kids' = entries kids := by
    rw [below.listed, routes, entries_route, entries_route]
  refine ⟨after.clear, kids', heard command memory.label :: lines, ⟨name, ?_, below.sound⟩,
    ⟨fun _ => rfl, fun _ => rfl⟩, below.clear, .cons _ _ hears, ?_, ?_⟩
  · show Governs after.child kids'
    rw [child]
    exact manages.governs.congr listed
  · have swapped := below.swapped
    rw [tree_routes] at swapped
    show Branches.cons after.label (tree kids') .nil = _
    rw [label, swapped]
    rfl
  · have plan := exchange_plan free free' different memory.label lines first second
    refine (Runs.until runs plan).mono (fun _ => id) ?_
    intro state reached
    obtain ⟨last, forest⟩ := state
    obtain ⟨ended, same⟩ := reached
    cases ended with
    | idle => exact Prod.ext same rfl

/-- An `exchange` of two services that are there swaps their secrets, each of them in its
own branch and nobody else, and leaves all else as it was. -/
theorem exchange_swaps (world : World) (link : Link) (later : List Command)
    (manages : Manages memory kids) (clear : memory.Clear) (clears : Clear kids)
    (unique : Unique (whole memory kids).labels) (service_a service_b : Name) (secret_a secret_b : UInt64)
    (differ : service_a ≠ service_b) (there : (service_a, secret_a) ∈ (whole memory kids).labels)
    (there' : (service_b, secret_b) ∈ (whole memory kids).labels)
    (free : Free world (fifoName service_a service_b)) (free' : Free world (fifoName service_b service_a))
    (different : fifoName service_b service_a ≠ fifoName service_a service_b) :
    let command := read_and_split (.exchange service_a service_b)
    let start := (world, waiting link memory kids (command :: later))
    Until (Moves machine) (fun state => state.2.Busy ∨ state = start)
      (fun state => ∃ memory' kids' lines, state.2 = waiting link memory' kids' later ∧
        Manages memory' kids' ∧ memory'.Clear ∧ Clear kids' ∧ Heard lines ∧
        whole memory' kids' = (whole memory kids).map (fun label =>
          if label.1 = service_a then (label.1, secret_b)
          else if label.1 = service_b then (label.1, secret_a)
          else label) ∧
        state.1.out = world.out ++ lines ++
          [.acquire_secret service_a service_b secret_b, .acquire_secret service_b service_a secret_a,
            .exchanged service_a service_b])
      start := by
  intro command start
  obtain ⟨memory', kids', lines, manages', clear', clears', heard, swapped, goal⟩ :=
    exchange_until world link later command manages clear clears unique rfl differ there there' free free'
      different
  refine goal.mono (fun _ => id) ?_
  intro state same
  obtain rfl := same
  exact ⟨memory', kids', lines, rfl, manages', clear', clears', heard, swapped, rfl⟩

theorem unique_small : Unique (whole .root leaf).labels := by
  rw [Unique]
  decide

theorem exchange_swaps_small :
    let command := read_and_split (.exchange .Manager .A)
    let start := (World.blank, waiting ⟨0, 1⟩ .root leaf [command])
    Until (Moves machine) (fun state => state.2.Busy ∨ state = start)
      (fun state => ∃ memory' kids' lines, state.2 = waiting ⟨0, 1⟩ memory' kids' [] ∧
        memory'.Clear ∧ Clear kids' ∧
        whole memory' kids' = .cons (.Manager, 9) (.cons (.A, 7) .nil .nil) .nil ∧
        state.1.out = lines ++ [.acquire_secret .Manager .A 9, .acquire_secret .A .Manager 7,
          .exchanged .Manager .A])
      start := by
  intro command start
  obtain ⟨clear, clears⟩ := clear_small
  have swaps := exchange_swaps .blank ⟨0, 1⟩ [] .small clear clears unique_small .Manager .A 7 9 (by decide)
    (by decide) (by decide) (.inl rfl) (.inl rfl) (by decide)
  refine swaps.mono (fun _ => id) ?_
  intro state reached
  obtain ⟨memory', kids', lines, waits, _, clear', clears', _, swapped, out⟩ := reached
  exact ⟨memory', kids', lines, waits, clear', clears', swapped, out⟩

/-! ## Every order of steps -/

/-- A call prints at most the line that it is about. -/
theorem exec_printed {op : Op} {world world' : World} {val : Val} (done : exec op world = some (val, world')) :
    (∃ line, op = .print line ∧ world'.out = world.out ++ [line]) ∨ world'.out = world.out := by
  match op with
  | .undefined => cases done
  | .birth | .unlink path =>
      cases done
      exact .inr rfl
  | .print line =>
      cases done
      exact .inl ⟨line, rfl, rfl⟩
  | .mkfifo path =>
      rw [exec] at done
      split at done <;> cases done <;> exact .inr rfl
  | .arrive path side | .close path side =>
      obtain ⟨fifo, _, same⟩ := Option.map_eq_some_iff.mp done
      cases same
      exact .inr rfl
  | .open path side | .write path secret =>
      obtain ⟨fifo, _, same⟩ := Option.bind_eq_some_iff.mp done
      split at same <;> cases same
      exact .inr rfl
  | .read path =>
      obtain ⟨fifo, _, same⟩ := Option.bind_eq_some_iff.mp done
      split at same
      · cases same
        exact .inr rfl
      · split at same <;> cases same
        exact .inr rfl

theorem exec_out {op : Op} {world world' : World} {val : Val} (done : exec op world = some (val, world')) :
    world.out <+: world'.out := by
  rcases exec_printed done with ⟨line, _, out⟩ | out
  · rw [out]
    exact List.prefix_append _ _
  · exact out ▸ List.prefix_rfl

/-- What has been printed stays printed. -/
theorem run_out {first last : World × Forest Command Op Val Name Memory}
    (run : Relation.ReflTransGen (Moves machine) first last) : first.1.out <+: last.1.out := by
  induction run with
  | refl => exact List.prefix_rfl
  | tail _ step ih =>
      obtain ⟨place, stepped⟩ := step
      rcases Forest.step_world stepped with same | ⟨op, val, done⟩
      · rwa [same]
      · exact ih.trans (exec_out done)

/-- In no state before the end of an `exchange` are all processes stuck, whatever the order
of their steps, and the three lines are printed in one order. -/
theorem exchange_never_stuck (world : World) (link : Link) (later : List Command)
    (manages : Manages memory kids) (clear : memory.Clear) (clears : Clear kids)
    (unique : Unique (whole memory kids).labels) (service_a service_b : Name) (secret_a secret_b : UInt64)
    (differ : service_a ≠ service_b) (there : (service_a, secret_a) ∈ (whole memory kids).labels)
    (there' : (service_b, secret_b) ∈ (whole memory kids).labels)
    (free : Free world (fifoName service_a service_b)) (free' : Free world (fifoName service_b service_a))
    (different : fifoName service_b service_a ≠ fifoName service_a service_b) :
    let command := read_and_split (.exchange service_a service_b)
    let start := (world, waiting link memory kids (command :: later))
    ∃ lines, Heard lines ∧
      let final := world.out ++ lines ++
        [.acquire_secret service_a service_b secret_b, .acquire_secret service_b service_a secret_a,
          .exchanged service_a service_b]
      ∀ state, Relation.ReflTransGen (Moves machine) start state →
        ((∃ next, Moves machine state next) ∧ state.1.out <+: final) ∨
        ∃ last memory' kids', Relation.ReflTransGen (Moves machine) start last ∧
          Relation.ReflTransGen (Moves machine) last state ∧
          last.2 = waiting link memory' kids' later ∧ last.1.out = final := by
  intro command start
  obtain ⟨memory', kids', lines, manages', clear', clears', heard, swapped, goal⟩ :=
    exchange_until world link later command manages clear clears unique rfl differ there there' free free'
      different
  refine ⟨lines, heard, fun state run => ?_⟩
  rcases goal.of_run run with ⟨_, ahead⟩ | ⟨last, rfl, before, behind⟩
  · obtain ⟨last, ended, run'⟩ := ahead.reaches
    have printed := run_out run'
    rw [ended] at printed
    cases ahead with
    | reached here =>
        subst here
        exact .inr ⟨_, memory', kids', run, .refl, rfl, rfl⟩
    | moves now some each => exact .inl ⟨some, printed⟩
  · exact .inr ⟨_, memory', kids', before, behind, rfl, rfl⟩

theorem exchange_never_stuck_small :
    let command := read_and_split (.exchange .Manager .A)
    let start := (World.blank, waiting ⟨0, 1⟩ .root leaf [command])
    ∃ lines, Heard lines ∧
      let final := lines ++ [.acquire_secret .Manager .A 9, .acquire_secret .A .Manager 7,
        .exchanged .Manager .A]
      ∀ state, Relation.ReflTransGen (Moves machine) start state → state.1.out.length < final.length →
        ∃ next, Moves machine state next := by
  intro command start
  obtain ⟨clear, clears⟩ := clear_small
  obtain ⟨lines, heard, every⟩ := exchange_never_stuck .blank ⟨0, 1⟩ [] .small clear clears unique_small
    .Manager .A 7 9 (by decide) (by decide) (by decide) (.inl rfl) (.inl rfl) (by decide)
  refine ⟨lines, heard, fun state run short => ?_⟩
  rcases every state run with ⟨some, _⟩ | ⟨last, memory', kids', _, behind, _, out⟩
  · exact some
  · have printed := (run_out behind).length_le
    rw [out] at printed
    exact absurd short (not_lt.mpr printed)

end SysProg.Services
