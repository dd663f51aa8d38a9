import SysProg.Services.Trade

namespace SysProg.Services

/-! # What a service does in the last phase of an exchange -/

open Process Data Transition

variable {command : Command} {memory memory' : Memory} {kids kids' : Grove Memory} {first second : UInt64}
  {index : Fin 2}

theorem serve_start (type : command.type = .start_exchange) :
    serve memory command = takeExchange memory command := by
  have silent : ¬ announces memory command := by
    rw [announces, type]
    simp
  rw [serve_some (by simp [type]), announce, if_neg silent, Prog.pure_bind, handle, type]

theorem Led.routed (led : Led command memory kids) (governs : Governs memory.child kids)
    (inside : has command index (tree kids).labels) : memory.pipe_read index ≠ -1 := by
  have found : (toward (command.content index) kids).isSome := toward_isSome.trans inside
  obtain ⟨link, way⟩ := Option.isSome_iff_exists.mp found
  obtain ⟨service, listed, same⟩ := toward_mem way
  have readable := governs.readable service (governs.listed ▸ listed)
  rw [led.read index, way, ← same]
  show service.link.read_fd ≠ -1
  omega

theorem Led.unrouted (led : Led command memory kids) (outside : ¬ has command index (tree kids).labels) :
    memory.pipe_read index = -1 := by
  rw [led.read index, toward_absent outside]
  rfl

theorem Fit.routed (fit : Fit command first second memory kids)
    (inside : has command index (tree kids).labels) : memory.pipe_read index ≠ -1 :=
  fit.led.routed fit.governs inside

theorem Fit.unrouted (fit : Fit command first second memory kids)
    (outside : ¬ has command index (tree kids).labels) : memory.pipe_read index = -1 :=
  fit.led.unrouted outside

theorem Passes.serves {prog : Run Memory} {trace : Trace Lane Op Val} {after : Command → Memory}
    {next : Memory → Run Memory} {said : Command → Command}
    (passes : Passes command first second prog kids trace after)
    (governs : Governs memory.child kids) (type : command.type = .start_exchange)
    (same : takeExchange memory command = prog.bind next)
    (ends : ∀ answer, next (after answer) = .reply (said answer) (.pure (after answer).clear))
    (child : ∀ answer, (after answer).child = memory.child)
    (label : ∀ answer, (after answer).label = trade command first second memory.label)
    (calls : trace = deal command first second (has command 0 (memory.label :: (tree kids).labels))
      (has command 1 (memory.label :: (tree kids).labels))) :
    Serves command first second memory kids := by
  obtain ⟨kids', answer, traded, spans⟩ := passes
  subst calls
  have ending : Runs machine (next (after answer)) kids'.crew (.nil : Trace Lane Op Val) 1
      (some (said answer)) (some ((after answer).clear, kids')) := by
    rw [ends answer]
    exact .reply (said answer) (after answer).clear kids'
  obtain ⟨steps, runs⟩ := spans.before next (Trace.nil_above _) ending
  refine ⟨(after answer).clear, kids', said answer, steps, ⟨label answer, ?_, ?_, traded⟩, ?_⟩
  · exact ⟨fun _ => rfl, fun _ => rfl⟩
  · show Governs (after answer).child kids'
    rw [child answer]
    exact governs.congr traded.listed
  · rw [Trace.append_nil] at runs
    rw [serve_start type, same]
    exact runs

theorem takePart_other (other : memory.service_name ≠ .Manager) :
    takePart memory = .reply memory.send_parent (.pure memory.clear) := by
  rw [takePart, reply, if_neg (Memory.not_manager other)]
  rfl

theorem has_cons {label : Label} {labels : List Label} :
    has command index (label :: labels) = (Named (command.content index) label || has command index labels) :=
  List.any_cons

theorem Named_stranger (stranger : command.content index ≠ memory.service_name) :
    Named (command.content index) memory.label = false :=
  decide_eq_false (Ne.symm stranger)

theorem Named_mine (mine : command.content index = memory.service_name) :
    Named (command.content index) memory.label = true :=
  decide_eq_true mine.symm

theorem trade_stranger (strangers : ∀ index, command.content index ≠ memory.service_name) :
    trade command first second memory.label = memory.label :=
  (if_neg (Ne.symm (strangers 0))).trans (if_neg (Ne.symm (strangers 1)))

/-- What a service that is neither of the two does with its children. -/
def passing (memory : Memory) (command : Command) : Run Memory :=
  if memory.pipe_read 0 ≠ -1 ∧ memory.pipe_read 1 ≠ -1 then
    if memory.pipe_read 0 ≠ memory.pipe_read 1 then forwardBoth memory command
    else forward memory 0 command
  else if memory.pipe_read 0 ≠ -1 then forward memory 0 command
  else forward memory 1 command

def relay (memory : Memory) : Run Memory := .reply memory.receive_child (.pure memory.clear)

theorem relay_received (memory : Memory) (answer : Command) :
    relay (memory.setReceived answer) = .reply answer (.pure (memory.setReceived answer).clear) := rfl

theorem takeExchange_passing (awake : ¬ (memory.pipe_read 0 = -1 ∧ memory.pipe_read 1 = -1))
    (strangers : ∀ index, command.content index ≠ memory.service_name) :
    takeExchange memory command = (passing memory command).bind relay := by
  have not_first : ¬ command.content0 = memory.service_name := strangers 0
  have not_second : ¬ command.content1 = memory.service_name := strangers 1
  rw [takeExchange, if_neg awake, if_neg not_first, if_neg not_second, passing]
  dsimp only
  split
  · split <;> rfl
  · split <;> rfl

/-- A service that is neither of the two relays what a child answers. -/
theorem Passes.relays {prog : Run Memory} {trace : Trace Lane Op Val}
    (passes : Passes command first second prog kids trace memory.setReceived)
    (fit : Fit command first second memory kids) (type : command.type = .start_exchange)
    (awake : ¬ (memory.pipe_read 0 = -1 ∧ memory.pipe_read 1 = -1))
    (strangers : ∀ index, command.content index ≠ memory.service_name)
    (program : passing memory command = prog)
    (calls : trace = deal command first second (has command 0 (tree kids).labels)
      (has command 1 (tree kids).labels)) :
    Serves command first second memory kids := by
  refine passes.serves fit.governs type ?_ (relay_received memory) (fun _ => rfl)
    (fun _ => (trade_stranger strangers).symm) ?_
  · rw [takeExchange_passing awake strangers, program]
  · rw [calls, has_cons, has_cons, Named_stranger (strangers 0), Named_stranger (strangers 1),
      Bool.false_or, Bool.false_or]

/-- A service that is neither of the two, above one or both of them. -/
theorem Fit.relays (fit : Fit command first second memory kids) (type : command.type = .start_exchange)
    (strangers : ∀ index, command.content index ≠ memory.service_name)
    (inside : has command index (tree kids).labels) : Serves command first second memory kids := by
  have zero_one : (0 : Fin 2) ≠ 1 := by decide
  by_cases below : has command 0 (tree kids).labels
  · have routed := fit.routed below
    have awake : ¬ (memory.pipe_read 0 = -1 ∧ memory.pipe_read 1 = -1) := fun both => routed both.1
    by_cases below' : has command 1 (tree kids).labels
    · have routed' := fit.routed below'
      have whole : deal command first second true true =
          deal command first second (has command 0 (tree kids).labels) (has command 1 (tree kids).labels) := by
        rw [below, below']
      rcases fit.both below below' with ⟨read, _, passes⟩ | ⟨read, _, passes⟩
      · refine passes.relays fit type awake strangers ?_ whole
        rw [passing, if_pos ⟨routed, routed'⟩, if_neg fun other => other read]
      · refine passes.relays fit type awake strangers ?_ whole
        rw [passing, if_pos ⟨routed, routed'⟩, if_pos read]
    · have unrouted := fit.unrouted below'
      refine (fit.one zero_one below below').relays fit type awake strangers ?_ ?_
      · rw [passing, if_neg fun both => both.2 unrouted, if_pos routed]
      · rw [deal_own zero_one below below']
  · have unrouted := fit.unrouted below
    have below' : has command 1 (tree kids).labels := by
      match index with
      | 0 => exact absurd inside below
      | 1 => exact inside
    have routed' := fit.routed below'
    have awake : ¬ (memory.pipe_read 0 = -1 ∧ memory.pipe_read 1 = -1) := fun both => routed' both.2
    refine (fit.one zero_one.symm below' below).relays fit type awake strangers ?_ ?_
    · rw [passing, if_neg fun both => both.1 unrouted, if_neg fun some => some unrouted]
    · rw [deal_own zero_one.symm below' below]

theorem Command.typed_self {type : CommandType} (same : command.type = type) : command.typed type = command := by
  subst same
  rfl

theorem trade_first (mine : command.content0 = memory.service_name) :
    trade command first second memory.label = (memory.service_name, second) :=
  if_pos mine.symm

theorem trade_second (differ : command.content0 ≠ command.content1)
    (mine : command.content1 = memory.service_name) :
    trade command first second memory.label = (memory.service_name, first) :=
  (if_neg fun same => differ (same.symm.trans mine.symm)).trans (if_pos mine.symm)

theorem Fit.serves_first (fit : Fit command first second memory kids) (type : command.type = .start_exchange)
    (differ : command.content0 ≠ command.content1) (other : memory.service_name ≠ .Manager)
    (mine : command.content0 = memory.service_name) (secret : memory.secret = first) :
    Serves command first second memory kids := by
  have mine' : command.content 0 = memory.service_name := mine
  have not_second : command.content 1 ≠ memory.service_name := fun same => differ (mine.trans same.symm)
  have outside : ¬ has command 0 (tree kids).labels := fit.outside mine'
  have ends : ∀ received : Command, takePart ((memory.setSecret second).setReceived received) =
      .reply memory.send_parent (.pure ((memory.setSecret second).setReceived received).clear) :=
    fun _ => takePart_other other
  by_cases inside : has command 1 (tree kids).labels
  · have awake : ¬ (memory.pipe_read 0 = -1 ∧ memory.pipe_read 1 = -1) := fun both => fit.routed inside both.2
    refine (fit.first_above command (Command.typed_self type) mine secret inside).serves fit.governs type ?_ ends
      (fun _ => rfl) (fun _ => (trade_first mine).symm) ?_
    · rw [takeExchange, if_neg awake, if_pos mine]
      rfl
    · rw [has_cons, has_cons, Named_mine mine', inside, Bool.true_or, Bool.or_true]
  · have asleep : memory.pipe_read 0 = -1 ∧ memory.pipe_read 1 = -1 :=
      ⟨fit.unrouted outside, fit.unrouted inside⟩
    have absent : Absent command (tree kids).labels := by
      intro index
      match index with
      | 0 => exact outside
      | 1 => exact inside
    have alone : Passes command first second (exchanges memory command) kids
        (deal command first second true false) fun _ => memory.setSecret second := by
      refine ⟨kids, command, .absent absent fit.sound fit.leds, ?_⟩
      rw [deal_first, ← secret]
      exact .of_yields (exchangeFirst_yields (kids.crew_quiet.apart _) mine second) nofun
    refine alone.serves fit.governs type ?_ (fun _ => takePart_other other) (fun _ => rfl)
      (fun _ => (trade_first mine).symm) ?_
    · rw [takeExchange, if_pos asleep]
      rfl
    · rw [has_cons, has_cons, Named_mine mine', Named_stranger not_second, Bool.true_or, Bool.false_or,
        Bool.eq_false_iff.mpr inside]

theorem Fit.serves_second (fit : Fit command first second memory kids) (type : command.type = .start_exchange)
    (differ : command.content0 ≠ command.content1) (other : memory.service_name ≠ .Manager)
    (mine : command.content1 = memory.service_name) (secret : memory.secret = second) :
    Serves command first second memory kids := by
  have mine' : command.content 1 = memory.service_name := mine
  have not_first : command.content 0 ≠ memory.service_name := fun same => differ (same.trans mine.symm)
  have outside : ¬ has command 1 (tree kids).labels := fit.outside mine'
  have ends : ∀ received : Command, takePart ((memory.setSecret first).setReceived received) =
      .reply memory.send_parent (.pure ((memory.setSecret first).setReceived received).clear) :=
    fun _ => takePart_other other
  by_cases inside : has command 0 (tree kids).labels
  · have awake : ¬ (memory.pipe_read 0 = -1 ∧ memory.pipe_read 1 = -1) := fun both => fit.routed inside both.1
    have stranger : ¬ command.content0 = memory.service_name := not_first
    refine (fit.second_above command (Command.typed_self type) mine not_first secret inside).serves fit.governs type
      ?_ ends (fun _ => rfl) (fun _ => (trade_second differ mine).symm) ?_
    · rw [takeExchange, if_neg awake, if_neg stranger, if_pos mine]
      rfl
    · rw [has_cons, has_cons, Named_mine mine', inside, Bool.true_or, Bool.or_true]
  · have asleep : memory.pipe_read 0 = -1 ∧ memory.pipe_read 1 = -1 :=
      ⟨fit.unrouted inside, fit.unrouted outside⟩
    have absent : Absent command (tree kids).labels := by
      intro index
      match index with
      | 0 => exact inside
      | 1 => exact outside
    have alone : Passes command first second (exchanges memory command) kids
        (deal command first second false true) fun _ => memory.setSecret first := by
      refine ⟨kids, command, .absent absent fit.sound fit.leds, ?_⟩
      rw [deal_second, ← secret]
      exact .of_yields (exchangeSecond_yields (kids.crew_quiet.apart _) mine not_first first) nofun
    refine alone.serves fit.governs type ?_ (fun _ => takePart_other other) (fun _ => rfl)
      (fun _ => (trade_second differ mine).symm) ?_
    · rw [takeExchange, if_pos asleep]
      rfl
    · rw [has_cons, has_cons, Named_mine mine', Named_stranger not_first, Bool.true_or, Bool.false_or,
        Bool.eq_false_iff.mpr inside]

/-- Every service on the way to one of the two does its part. -/
theorem Fit.serves (fit : Fit command first second memory kids) (type : command.type = .start_exchange)
    (differ : command.content0 ≠ command.content1) (other : memory.service_name ≠ .Manager)
    (holds : Holds command first second (memory.label :: (tree kids).labels))
    (concerned : has command index (memory.label :: (tree kids).labels)) :
    Serves command first second memory kids := by
  obtain ⟨secret_first, secret_second⟩ := holds memory.label List.mem_cons_self
  by_cases is_first : command.content0 = memory.service_name
  · exact fit.serves_first type differ other is_first (secret_first is_first.symm)
  by_cases is_second : command.content1 = memory.service_name
  · exact fit.serves_second type differ other is_second (secret_second is_second.symm)
  have strangers : ∀ index, command.content index ≠ memory.service_name := by
    intro index
    match index with
    | 0 => exact is_first
    | 1 => exact is_second
  rw [has_cons, Named_stranger (strangers index), Bool.false_or] at concerned
  exact fit.relays type strangers concerned

/-- So do the services side by side below a service. -/
theorem each_serves (type : command.type = .start_exchange) (differ : command.content0 ≠ command.content1)
    {grove : Grove Memory} (sound : Sound grove) (leds : AllLed command grove)
    (unique : Unique (tree grove).labels) (holds : Holds command first second (tree grove).labels) :
    Each command first second grove := by
  induction grove with
  | nil => trivial
  | cons link memory kids rest kids_ih rest_ih =>
      obtain ⟨other, governs, inner, outer⟩ := sound
      obtain ⟨led, inner_led, outer_led⟩ := leds
      have parts : Unique ((memory.label :: (tree kids).labels) ++ (tree rest).labels) := unique
      have below : Unique (tree kids).labels := Unique.below parts.left
      have here : Holds command first second (memory.label :: (tree kids).labels) :=
        fun label inside => holds label (List.mem_append_left (tree rest).labels inside)
      have inner_holds : Holds command first second (tree kids).labels :=
        fun label inside => here label (List.mem_cons_of_mem _ inside)
      have outer_holds : Holds command first second (tree rest).labels :=
        fun label inside => holds label (List.mem_append_right (memory.label :: (tree kids).labels) inside)
      have fit : Fit command first second memory kids :=
        ⟨governs, led, inner, inner_led, parts.left, kids_ih inner inner_led below inner_holds⟩
      exact ⟨fun index concerned => fit.serves type differ other here concerned,
        rest_ih outer outer_led parts.right outer_holds⟩

end SysProg.Services
