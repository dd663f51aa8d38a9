import SysProg.Process.Manners
import SysProg.Services.Standstill

namespace SysProg.Services

/-! # An exchange with a service that is missing

The Manager does not look at what its searches have found.  With one service missing the
other one waits for it; with both missing the Manager says that they have exchanged their
secrets. -/

open Process Data Transition Relation

variable {command : Command} {memory : Memory} {kids : Grove Memory} {world : World} {link : Link}
  {later : List Command} {index : Fin 2}

/-! ## The last phase with one service -/

theorem links_entries (grove : Grove Memory) : grove.links = (entries grove).map Service.link := by
  induction grove with
  | nil => rfl
  | cons link memory kids rest _ ih => rw [Grove.links, entries, List.map_cons, ih]

theorem Led.unwritten (led : Led command memory kids) (outside : ¬ has command index (tree kids).labels) :
    memory.pipe_write index = -1 := by
  rw [led.write index, toward_absent outside]
  rfl

section Last

variable (led : Led command memory kids) (governs : Governs memory.child kids)
  (writable : ∀ service ∈ memory.child, 0 ≤ service.link.write_fd)

include governs

theorem Governs.link_listed {way : Link} (inside : way ∈ kids.links) :
    ∃ service ∈ memory.child, service.link = way := by
  rw [links_entries] at inside
  rw [governs.listed]
  exact List.mem_map.mp inside

theorem Governs.read_apart : ∀ way ∈ kids.links, way.read_fd ≠ -1 := by
  intro way inside
  obtain ⟨service, listed, rfl⟩ := governs.link_listed inside
  have readable := governs.readable service listed
  omega

include writable

theorem Governs.write_apart : ∀ way ∈ kids.links, way.write_fd ≠ -1 := by
  intro way inside
  obtain ⟨service, listed, rfl⟩ := governs.link_listed inside
  have written := writable service listed
  omega

include led

/-- The Manager as one of the two services waits for the other. -/
theorem forwardAround_jams {other : Fin 2} {own : Command} (mine : own.content index = memory.service_name)
    (missing : ¬ has command other (tree kids).labels) (fresh : world.fifos own.fifo1 = some .fresh)
    (next : Memory → Run Memory) :
    Jams machine ((forwardAround memory other command own).bind next) kids world
      (fun last => last.out = world.out) := by
  show Jams machine (.write (memory.pipe_write other) command (((exchanges memory own).bind _).bind next)) _ _ _
  rw [led.unwritten missing, Prog.bind_assoc]
  exact Jams.write_unknown (governs.write_apart writable) (exchanges_jams mine fresh _ kids)

/-- The Manager above one of the two services waits for it. -/
theorem forwardBoth_jams (starts : StartJams command index kids)
    (missing : ∀ other, other ≠ index → ¬ has command other (tree kids).labels)
    (fresh : world.fifos command.fifo1 = some .fresh) (next : Memory → Run Memory) :
    memory.pipe_write 0 ≠ memory.pipe_write 1 ∧
      Jams machine ((forwardBoth memory command).bind next) kids world (fun last => last.out = world.out) := by
  obtain ⟨way, toward_way, jams⟩ := starts
  have reads : memory.pipe_read index = way.read_fd := by
    rw [led.read index, toward_way]
    rfl
  have writes : memory.pipe_write index = way.write_fd := by
    rw [led.write index, toward_way]
    rfl
  have there : way.write_fd ≠ -1 := by
    refine governs.write_apart writable way ?_
    rw [links_entries]
    exact List.mem_map.mpr (toward_mem toward_way)
  show _ ∧ Jams machine (.write (memory.pipe_write 0) command (.write (memory.pipe_write 1) command
    (.read (memory.pipe_read 0) fun got => .read (memory.pipe_read 1) _))) _ _ _
  match index with
  | 0 =>
      have absent := missing 1 (by decide)
      rw [led.unwritten absent, writes, reads]
      exact ⟨there, jams .nil world 1 _ governs.distinct fresh (.write (governs.write_apart writable) (.waits _))⟩
  | 1 =>
      have absent := missing 0 (by decide)
      rw [led.unwritten absent, led.unrouted absent, writes, reads]
      refine ⟨there.symm, Jams.write_unknown (governs.write_apart writable) ?_⟩
      exact jams .nil world 1 _ governs.distinct fresh (.read governs.read_apart (.waits _))

end Last

theorem lastPhase_jams (led : Led (command.typed .start_exchange) memory kids)
    (governs : Governs memory.child kids)
    (writable : ∀ service ∈ memory.child, 0 ≤ service.link.write_fd) (sound : Sound kids)
    (leds : AllLed (command.typed .start_exchange) kids) (unique : Unique (memory.label :: (tree kids).labels))
    (lone : Lone command index (memory.label :: (tree kids).labels))
    (fresh : world.fifos command.fifo1 = some .fresh) (next : Memory → Run Memory) :
    Jams machine ((lastPhase memory command).bind next) kids world (fun last => last.out = world.out) := by
  let sent := command.typed .start_exchange
  have below : ∀ other, other ≠ index → ¬ has sent other (tree kids).labels := by
    intro other different inside
    refine lone.missing other different ?_
    rw [has_cons, show has command other (tree kids).labels = true from inside, Bool.or_true]
  have own : ∀ other, command.content other = memory.service_name → other = index := by
    intro other mine
    by_contra different
    refine lone.missing other different ?_
    rw [has_cons, Named_mine mine, Bool.true_or]
  rw [lastPhase]
  by_cases first : memory.service_name = command.content0
  · rw [if_pos first]
    obtain rfl := own 0 first.symm
    have mine : command.content 0 = memory.service_name := first.symm
    exact forwardAround_jams led governs writable mine (below 1 (by decide)) fresh next
  by_cases second : memory.service_name = command.content1
  · rw [if_neg first, if_pos second]
    obtain rfl := own 1 second.symm
    have mine : command.content 1 = memory.service_name := second.symm
    exact forwardAround_jams led governs writable mine (below 0 (by decide)) fresh next
  have stranger : ¬ Named (command.content index) memory.label := by
    obtain rfl | rfl : index = 0 ∨ index = 1 := by omega
    · exact fun named => first (Named_iff.mp named)
    · exact fun named => second (Named_iff.mp named)
  have lone_below : Lone sent index (tree kids).labels := ⟨(lone.below stranger).there, below⟩
  have starts := start_jams rfl sound leds (Unique.below unique) lone_below
  obtain ⟨apart, jams⟩ := forwardBoth_jams led governs writable starts below fresh next
  rw [if_neg first, if_neg second, if_neg apart]
  exact jams

/-- Every run of an `exchange` with one of the two services gets stuck before its end. -/
theorem exchange_sticks (manages : Manages memory kids) (clear : memory.Clear) (clears : Clear kids)
    (unique : Unique (whole memory kids).labels) (type : command.type = .exchange)
    (lone : Lone command.request index (whole memory kids).labels)
    (writable : ∀ service ∈ memory.child, 0 ≤ service.link.write_fd) (free : Free world command.request.fifo1)
    (link : Link) (later : List Command) :
    Until (Moves machine) (fun _ => True)
      (fun state => state.2.Working link later ∧ Halted machine
        (fun last => last.out = world.out ++ tourLines command 2 (whole memory kids).labels) state)
      (world, waiting link memory kids (command :: later)) := by
  let sent := command.request.typed .start_exchange
  refine (exchange_opened manages unique type world link later).trans ?_
  intro _ same
  obtain rfl := same
  have fresh := World.opened_fresh free (tourLines command 2 (whole memory kids).labels)
  rw [whole, Branches.labels_single] at unique lone
  have led : Led sent (memory.led command.request kids) (routes command.request kids) := (clear.led kids).route.route
  have governs : Governs (memory.led command.request kids).child (routes command.request kids) := by
    rw [led_child]
    exact manages.governs.route.route
  rw [← led_label, ← tree_routes] at unique lone
  have jams := lastPhase_jams led governs (by rwa [led_child]) manages.sound.route.route clears.led unique lone fresh
    (close_exchange command)
  refine (jams link later).mono (fun _ _ => trivial) ?_
  intro state reached
  obtain ⟨works, stuck, out⟩ := reached
  exact ⟨works, stuck, out.trans (World.opened_out _)⟩

/-! ## The last phase with neither service -/

theorem Memory.Clear.cleared (clear : memory.Clear) : memory.clear = memory := by
  obtain ⟨read, write⟩ := clear
  have reads : memory.pipe_read = fun _ => -1 := funext read
  have writes : memory.pipe_write = fun _ => -1 := funext write
  rw [Memory.clear, ← reads]
  congr 1
  rw [reads, writes]

theorem led_absent (memory : Memory) (absent : ∀ index, ¬ has command index (tree kids).labels) :
    memory.led command kids = memory ∧ routes command kids = kids := by
  have first : ¬ (tree kids).labels.any (Named command.content0) := absent 0
  have second : ¬ (tree kids).labels.any (Named command.content1) := absent 1
  constructor
  · rw [Memory.led, toward_absent first, toward_absent second]
    rfl
  · rw [routes, route_absent first, route_absent second]

/-- The Manager asks nobody and hears from nobody. -/
theorem lastPhase_idle (clear : memory.Clear) (governs : Governs memory.child kids)
    (writable : ∀ service ∈ memory.child, 0 ≤ service.link.write_fd)
    (strangers : ∀ index, command.content index ≠ memory.service_name)
    {outcome : World × Forest Command Op Val Name Memory → Prop} (next : Memory → Run Memory)
    (goal : Until (Moves machine) (fun state => state.2.Working link later) outcome
      (world, working link later (next memory) kids.forest)) :
    Until (Moves machine) (fun state => state.2.Working link later) outcome
      (world, working link later ((lastPhase memory command).bind next) kids.forest) := by
  obtain ⟨read, write⟩ := clear
  have not_first : ¬ memory.service_name = command.content0 := Ne.symm (strangers 0)
  have not_second : ¬ memory.service_name = command.content1 := Ne.symm (strangers 1)
  rw [lastPhase, if_neg not_first, if_neg not_second, if_pos ((write 0).trans (write 1).symm)]
  show Until _ _ _ (world, working link later (.write (memory.pipe_write 0) _ (.read (memory.pipe_read 0) _)) _)
  rw [write 0, read 0]
  exact until_write_unknown (governs.write_apart writable) (until_read_unknown governs.read_apart goal)

/-- Every run of an `exchange` with neither of the two services comes to its end, with nothing
changed but what the Manager says. -/
theorem exchange_claims (manages : Manages memory kids) (clear : memory.Clear)
    (unique : Unique (whole memory kids).labels) (type : command.type = .exchange)
    (absent : ∀ index, ¬ has command.request index (whole memory kids).labels)
    (writable : ∀ service ∈ memory.child, 0 ≤ service.link.write_fd) (link : Link) (later : List Command) :
    Until (Moves machine) (fun _ => True)
      (fun state => state.2 = waiting link memory kids later ∧
        state.1.out = world.out ++ tourLines command 2 (whole memory kids).labels ++
          [.exchanged command.content0 command.content1])
      (world, waiting link memory kids (command :: later)) := by
  refine (exchange_opened manages unique type world link later).trans ?_
  intro _ same
  obtain rfl := same
  rw [whole, Branches.labels_single] at absent ⊢
  have strangers : ∀ index, command.request.content index ≠ memory.service_name := by
    intro index mine
    refine absent index ?_
    rw [has_cons, Named_mine mine, Bool.true_or]
  have below : ∀ index, ¬ has command.request index (tree kids).labels := by
    intro index inside
    refine absent index ?_
    rw [has_cons, inside, Bool.or_true]
  obtain ⟨led, routed⟩ := led_absent memory below
  rw [led, routed]
  have closes := close_exchange_ends command memory kids
  refine (lastPhase_idle clear manages.governs writable strangers (close_exchange command)
    ((closes.until (.cons rfl (.cons rfl (.cons rfl (.nil _))))).mono (fun _ => id) ?_)).mono (fun _ _ => trivial)
      fun _ => id
  intro state reached
  obtain ⟨last, forest⟩ := state
  obtain ⟨ended, rfl⟩ := reached
  obtain rfl := ended.waits
  refine ⟨congrArg (waiting link · kids later) clear.cleared, ?_⟩
  show (World.opened _ _ _).out ++ _ = _
  rw [World.opened_out]

/-! ## What is said in the end -/

/-- The Manager is back in its loop above idle services, the names, the secrets and the
registers are what they were, and it has not said that the two have exchanged their secrets. -/
structure NoEffect (world : World) (link : Link) (later : List Command) (memory : Memory) (kids : Grove Memory)
    (said : Line) (state : World × Forest Command Op Val Name Memory) : Prop where
  back : ∃ memory' kids', state.2 = waiting link memory' kids' later ∧
    memory'.Clear ∧ Clear kids' ∧ whole memory' kids' = whole memory kids
  silent : ∃ lines, state.1.out = world.out ++ lines ∧ said ∉ lines

theorem close_exchange_owes (command : Command) (memory : Memory) :
    (close_exchange command memory).Owes (.print (.exchanged command.content0 command.content1)) :=
  .inr fun _ => .inr fun _ => .inl rfl

/-- The Manager does not come back from an `exchange` without saying that it has happened. -/
theorem exchange_says (manages : Manages memory kids) (type : command.type = .exchange)
    {state : World × Forest Command Op Val Name Memory} {memory' : Memory} {kids' : Grove Memory}
    (run : ReflTransGen (Moves machine) (world, waiting link memory kids (command :: later)) state)
    (back : state.2 = waiting link memory' kids' later) :
    ∃ ahead behind, state.1.out =
      world.out ++ (ahead ++ .exchanged command.content0 command.content1 :: behind) := by
  let line : Line := .exchanged command.content0 command.content1
  cases run.cases_head with
  | inl same =>
      rw [← same] at back
      simp [waiting] at back
  | inr moved =>
      obtain ⟨next, taken, run'⟩ := moved
      rw [waiting_moves taken] at run'
      have served : (serve memory command).Owes (.print line) := by
        rw [serve_exchange_opens manages type]
        exact .bind fun _ => .bind (close_exchange_owes command)
      have owes : Forest.Owes (.print line) (.cons ⟨link, later, [], .resume (machine.serve memory command)⟩
          kids.forest .nil) := .inr ⟨_, served.resume, served⟩
      rcases owes.run run' with still | ⟨first, last, val, before, done, after⟩
      · rw [back] at still
        rcases still with gone | ⟨prog, busy, _⟩
        · cases gone
        · cases busy
      · obtain ⟨ahead, out⟩ := run_out before
        obtain ⟨behind, out'⟩ := run_out after
        have printed : first.1.out ++ [line] = last.1.out :=
          congrArg World.out (Prod.mk.inj (Option.some.inj done)).2
        refine ⟨ahead, behind, ?_⟩
        have whole : world.out ++ ahead ++ [line] ++ behind = state.1.out := by
          rw [← out', ← printed, ← out]
        rw [← whole, List.append_assoc, List.append_assoc, List.singleton_append]

theorem exchange_affects (manages : Manages memory kids) (type : command.type = .exchange)
    {state : World × Forest Command Op Val Name Memory}
    (run : ReflTransGen (Moves machine) (world, waiting link memory kids (command :: later)) state) :
    ¬ NoEffect world link later memory kids (.exchanged command.content0 command.content1) state := by
  intro stays
  obtain ⟨⟨memory', kids', back, _⟩, lines, out, silent⟩ := stays
  obtain ⟨ahead, behind, told⟩ := exchange_says manages type run back
  rw [out, List.append_cancel_left_eq] at told
  exact silent (told ▸ List.mem_append_right _ List.mem_cons_self)

/-- An `exchange` with a service that is missing never goes without effect.  With both services
missing nothing changes, but the Manager says that they have exchanged their secrets; with one
of them missing the other waits for it for ever, and so does the Manager. -/
theorem exchange_missing (world : World) (link : Link) (later : List Command) (manages : Manages memory kids)
    (clear : memory.Clear) (clears : Clear kids) (unique : Unique (whole memory kids).labels)
    (service_a service_b : Name) :
    let command := read_and_split (.exchange service_a service_b)
    let start := (world, waiting link memory kids (command :: later))
    let said := Line.exchanged service_a service_b
    let there := fun name => (whole memory kids).labels.any (Named name)
    ¬ (there service_a ∧ there service_b) →
      (∀ state, ReflTransGen (Moves machine) start state → ¬ NoEffect world link later memory kids said state) ∧
      ((∀ service ∈ memory.child, 0 ≤ service.link.write_fd) → Free world (fifoName service_a service_b) →
        Until (Moves machine) (fun _ => True)
          (fun state => ∃ lines, Heard lines ∧
            if there service_a ∨ there service_b then
              state.2.Working link later ∧ Stuck machine state ∧ state.1.out = world.out ++ lines
            else state.2 = waiting link memory kids later ∧ state.1.out = world.out ++ lines ++ [said])
          start) := by
  intro command start said there missing
  have type : command.type = .exchange := rfl
  refine ⟨fun state run => exchange_affects manages type run, fun writable free => ?_⟩
  have heard := tourLines_heard command 2 (whole memory kids).labels
  by_cases one : there service_a ∨ there service_b
  · obtain ⟨index, lone⟩ : ∃ index, Lone command.request index (whole memory kids).labels := by
      rcases one with first | second
      · refine ⟨0, first, fun other different inside => ?_⟩
        match other with
        | 0 => exact different rfl
        | 1 => exact missing ⟨first, inside⟩
      · refine ⟨1, second, fun other different inside => ?_⟩
        match other with
        | 0 => exact missing ⟨inside, second⟩
        | 1 => exact different rfl
    refine (exchange_sticks manages clear clears unique type lone writable free link later).mono (fun _ => id) ?_
    intro state reached
    obtain ⟨works, stuck, out⟩ := reached
    refine ⟨_, heard, ?_⟩
    rw [if_pos one]
    exact ⟨works, stuck, out⟩
  · have absent : ∀ index, ¬ has command.request index (whole memory kids).labels := by
      intro index inside
      match index with
      | 0 => exact one (.inl inside)
      | 1 => exact one (.inr inside)
    refine (exchange_claims manages clear unique type absent writable link later).mono (fun _ => id) ?_
    intro state reached
    obtain ⟨back, out⟩ := reached
    refine ⟨_, heard, ?_⟩
    rw [if_neg one]
    exact ⟨back, out⟩

theorem exchange_missing_both :
    let service_c : Name := ⟨"C", by decide⟩
    let command := read_and_split (.exchange .B service_c)
    let start := (World.blank, waiting ⟨0, 1⟩ .root leaf [command])
    (∀ state, ReflTransGen (Moves machine) start state →
        ¬ NoEffect .blank ⟨0, 1⟩ [] .root leaf (.exchanged .B service_c) state) ∧
      Until (Moves machine) (fun _ => True)
        (fun state => state.2 = waiting ⟨0, 1⟩ .root leaf [] ∧
          ∃ lines, Heard lines ∧ state.1.out = lines ++ [.exchanged .B service_c])
        start := by
  intro service_c command start
  obtain ⟨clear, clears⟩ := clear_small
  obtain ⟨never, goal⟩ := exchange_missing .blank ⟨0, 1⟩ [] .small clear clears unique_small .B service_c
    (by decide)
  refine ⟨never, (goal (by decide) (.inl rfl)).mono (fun _ => id) ?_⟩
  intro state reached
  obtain ⟨lines, heard, result⟩ := reached
  rw [if_neg (by decide)] at result
  exact ⟨result.1, lines, heard, result.2⟩

/-- With A waiting for B, which is missing, the Manager does not come back. -/
theorem exchange_missing_one :
    let command := read_and_split (.exchange .A .B)
    let start := (World.blank, waiting ⟨0, 1⟩ .root leaf [command])
    ¬ Until (Moves machine) (fun _ => True) (NoEffect .blank ⟨0, 1⟩ [] .root leaf (.exchanged .A .B)) start ∧
      Until (Moves machine) (fun _ => True)
        (fun state => state.2.Working ⟨0, 1⟩ [] ∧ Stuck machine state) start := by
  intro command start
  obtain ⟨clear, clears⟩ := clear_small
  have lone : Lone command.request 0 (whole .root leaf).labels := by
    refine ⟨by decide, fun other different => ?_⟩
    match other with
    | 0 => exact absurd rfl different
    | 1 => decide
  constructor
  · intro goal
    obtain ⟨state, unchanged, run⟩ := goal.reaches
    have type : command.type = .exchange := rfl
    exact exchange_affects .small type run unchanged
  · have type : command.type = .exchange := rfl
    have free : Free .blank command.request.fifo1 := .inl rfl
    have goal := exchange_sticks .small clear clears unique_small type lone (by decide) free ⟨0, 1⟩ []
    exact goal.mono (fun _ => id) fun state ended => ⟨ended.1, ended.2.stuck⟩

end SysProg.Services
