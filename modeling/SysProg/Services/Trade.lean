import SysProg.Services.Rendezvous
import SysProg.Services.Search

namespace SysProg.Services

/-! # The last phase of an exchange

Once the registers show the way, `start_exchange` reaches the two services, each of them
calls in a lane of its own, and the registers are cleared on the way back. -/

open Process Data Transition

def firstLane : Lane := (true, false)

def secondLane : Lane := (false, true)

def closing : Lane := (true, true)

def reader : Option Link → Int
  | some link => link.read_fd
  | none => -1

def writer : Option Link → Int
  | some link => link.write_fd
  | none => -1

/-- The registers of a service show the ways to the two services. -/
structure Led (command : Command) (memory : Memory) (kids : Grove Memory) : Prop where
  read : ∀ index, memory.pipe_read index = reader (toward (command.content index) kids)
  write : ∀ index, memory.pipe_write index = writer (toward (command.content index) kids)

def AllLed (command : Command) : Grove Memory → Prop
  | .nil => True
  | .cons _ memory kids rest => Led command memory kids ∧ AllLed command kids ∧ AllLed command rest

variable {command : Command} {memory memory' : Memory} {kids kids' grove : Grove Memory}

theorem Memory.lead_same (index : Fin 2) (way : Option Link) (read : memory.pipe_read index = -1)
    (write : memory.pipe_write index = -1) :
    (memory.lead index way).pipe_read index = reader way ∧
      (memory.lead index way).pipe_write index = writer way := by
  cases way with
  | none => exact ⟨read, write⟩
  | some link => exact ⟨if_pos rfl, if_pos rfl⟩

theorem Memory.lead_other {index other : Fin 2} (different : other ≠ index) (way : Option Link) :
    (memory.lead index way).pipe_read other = memory.pipe_read other ∧
      (memory.lead index way).pipe_write other = memory.pipe_write other := by
  cases way with
  | none => exact ⟨rfl, rfl⟩
  | some link => exact ⟨if_neg different, if_neg different⟩

theorem Led.route {index : Fin 2} {target : Name} (led : Led command memory kids) :
    Led command memory (route index target kids) := by
  constructor
  · intro index
    rw [toward_route]
    exact led.read index
  · intro index
    rw [toward_route]
    exact led.write index

theorem Memory.Clear.led (clear : memory.Clear) (kids : Grove Memory) :
    Led command ((memory.lead 0 (toward command.content0 kids)).lead 1 (toward command.content1 kids))
      kids := by
  obtain ⟨read, write⟩ := clear
  let before := memory.lead 0 (toward command.content0 kids)
  have zero : (0 : Fin 2) ≠ 1 := by decide
  obtain ⟨first_read, first_write⟩ :=
    memory.lead_same 0 (toward command.content0 kids) (read 0) (write 0)
  obtain ⟨still_read, still_write⟩ := before.lead_other zero (toward command.content1 kids)
  obtain ⟨before_read, before_write⟩ := memory.lead_other zero.symm (toward command.content0 kids)
  obtain ⟨second_read, second_write⟩ := before.lead_same 1 (toward command.content1 kids)
    (before_read.trans (read 1)) (before_write.trans (write 1))
  constructor
  · intro index
    match index with
    | 0 => exact still_read.trans first_read
    | 1 => exact second_read
  · intro index
    match index with
    | 0 => exact still_write.trans first_write
    | 1 => exact second_write

theorem Clear.led (clear : Clear grove) :
    AllLed command (route 1 command.content1 (route 0 command.content0 grove)) := by
  induction grove with
  | nil => trivial
  | cons link memory kids rest kids_ih rest_ih =>
      obtain ⟨here, inner, outer⟩ := clear
      refine ⟨?_, kids_ih inner, rest_ih outer⟩
      rw [toward_route]
      exact (here.led kids).route.route

/-! ## What the exchange makes of the tree -/

/-- The secrets of the two services, swapped. -/
def trade (command : Command) (first second : UInt64) (label : Label) : Label :=
  if label.1 = command.content0 then (label.1, second)
  else if label.1 = command.content1 then (label.1, first)
  else label

/-- Neither of the two services is among these. -/
def Absent (command : Command) (labels : List Label) : Prop :=
  ∀ index, ¬ labels.any (Named (command.content index))

/-- The services with these labels have the secrets that are to be swapped. -/
def Holds (command : Command) (first second : UInt64) (labels : List Label) : Prop :=
  ∀ label ∈ labels, (label.1 = command.content0 → label.2 = first) ∧
    (label.1 = command.content1 → label.2 = second)

structure Traded (command : Command) (first second : UInt64) (before after : Grove Memory) : Prop where
  listed : entries after = entries before
  swapped : tree after = (tree before).map (trade command first second)
  sound : Sound after
  clear : Clear after

variable {first second : UInt64} {front back front' back' : Grove Memory} {link : Link}

@[simp] theorem trade_name (label : Label) : (trade command first second label).1 = label.1 := by
  rw [trade]
  split
  · rfl
  · split <;> rfl

theorem Absent.left {labels more : List Label} (absent : Absent command (labels ++ more)) :
    Absent command labels := by
  intro index there
  refine absent index ?_
  rw [List.any_append, there, Bool.true_or]

theorem Absent.right {labels more : List Label} (absent : Absent command (labels ++ more)) :
    Absent command more := by
  intro index there
  refine absent index ?_
  rw [List.any_append, there, Bool.or_true]

theorem Absent.below {label : Label} {labels : List Label} (absent : Absent command (label :: labels)) :
    Absent command labels := by
  intro index there
  refine absent index ?_
  rw [List.any_cons, there, Bool.or_true]

theorem Absent.trade {labels : List Label} (absent : Absent command labels) :
    ∀ label ∈ labels, trade command first second label = label := by
  intro label inside
  have other : ∀ index, label.1 ≠ command.content index := by
    intro index same
    exact absent index (List.any_eq_true.mpr ⟨label, inside, Named_iff.mpr same⟩)
  exact (if_neg (other 0)).trans (if_neg (other 1))

theorem Absent.clear (absent : Absent command (tree grove).labels) (led : AllLed command grove) :
    Clear grove := by
  induction grove with
  | nil => trivial
  | cons link memory kids rest kids_ih rest_ih =>
      obtain ⟨⟨read, write⟩, inner, outer⟩ := led
      have inside : Absent command (memory.label :: (tree kids).labels) := Absent.left absent
      have below : Absent command (tree kids).labels := Absent.below inside
      have all : Absent command ((memory.label :: (tree kids).labels) ++ (tree rest).labels) := absent
      have beside : Absent command (tree rest).labels := Absent.right all
      refine ⟨⟨?_, ?_⟩, kids_ih below inner, rest_ih beside outer⟩
      · intro index
        rw [read, toward_absent (below index)]
        rfl
      · intro index
        rw [write, toward_absent (below index)]
        rfl

theorem Traded.absent (absent : Absent command (tree grove).labels) (sound : Sound grove)
    (led : AllLed command grove) : Traded command first second grove grove where
  listed := rfl
  swapped := (Branches.map_fixed (Absent.trade absent)).symm
  sound := sound
  clear := Absent.clear absent led

theorem Traded.append (before : Traded command first second front front')
    (behind : Traded command first second back back') :
    Traded command first second (front.append back) (front'.append back') where
  listed := by rw [entries_append, entries_append, before.listed, behind.listed]
  swapped := by rw [tree_append, tree_append, before.swapped, behind.swapped, Branches.map_append]
  sound := before.sound.append behind.sound
  clear := before.clear.append behind.clear

structure Trades (command : Command) (first second : UInt64) (memory memory' : Memory)
    (kids kids' : Grove Memory) : Prop where
  label : memory'.label = trade command first second memory.label
  registers : memory'.Clear
  governs : Governs memory'.child kids'
  below : Traded command first second kids kids'

theorem Trades.traded (trades : Trades command first second memory memory' kids kids') (link : Link)
    (other : memory.service_name ≠ .Manager) :
    Traded command first second (.cons link memory kids .nil) (.cons link memory' kids' .nil) := by
  have name : memory'.service_name = memory.service_name :=
    (congrArg Prod.fst trades.label).trans (trade_name memory.label)
  constructor
  · rw [entries, entries, name]
    rfl
  · rw [tree, tree, trades.label, trades.below.swapped]
    rfl
  · exact ⟨name ▸ other, trades.governs, trades.below.sound, trivial⟩
  · exact ⟨trades.registers, trades.below.clear, trivial⟩

/-! ## What the two services call -/

variable {crew : Crew Command Memory Lane}

theorem exchangeFirst_yields (free : Crew.Apart {firstLane} crew)
    (mine : command.content0 = memory.service_name) (theirs : UInt64) :
    Yields machine firstLane (exchanges memory command) crew crew
      (firstCalls command memory.secret theirs) (memory.setSecret theirs) := by
  have calls : Yields machine firstLane (exchangeFirst memory command) crew crew
      (firstCalls command memory.secret theirs) (memory.setSecret theirs) := by
    rw [firstCalls, mine]
    exact .call free (.call free (.call free (.call free (.call free (.call free (.call free
      (.call free (.call free (.pure _)))))))))
  rw [exchanges, if_pos mine]
  exact calls

theorem exchangeSecond_yields (free : Crew.Apart {secondLane} crew)
    (mine : command.content1 = memory.service_name) (other : command.content0 ≠ memory.service_name)
    (theirs : UInt64) :
    Yields machine secondLane (exchanges memory command) crew crew
      (secondCalls command memory.secret theirs) (memory.setSecret theirs) := by
  have calls : Yields machine secondLane (exchangeSecond memory command) crew crew
      (secondCalls command memory.secret theirs) (memory.setSecret theirs) := by
    rw [secondCalls, mine]
    exact .call free (.call free (.call free (.call free (.call free (.call free (.call free
      (.call free (.call free (.pure _)))))))))
  rw [exchanges, if_neg other, if_pos mine]
  exact calls

/-- The calls of the services of an exchange that are in a part of the tree. -/
def deal (command : Command) (first second : UInt64) (one two : Bool) : Trace Lane Op Val :=
  .only firstLane (if one then firstCalls command first second else []) ++
    .only secondLane (if two then secondCalls command second first else [])

theorem deal_append {one two one' two' : Bool} (once : ¬ (one ∧ one')) (once' : ¬ (two ∧ two')) :
    deal command first second one two ++ deal command first second one' two' =
      deal command first second (one || one') (two || two') := by
  funext lane
  have apart : firstLane ≠ secondLane := by decide
  by_cases on_first : lane = firstLane
  · subst on_first
    cases one <;> cases one' <;> simp_all [deal]
  · by_cases on_second : lane = secondLane
    · subst on_second
      cases two <;> cases two' <;> simp_all [deal]
    · simp [deal, on_first, on_second]

theorem deal_first : deal command first second true false =
    .only firstLane (firstCalls command first second) := by
  simp [deal]

theorem deal_second : deal command first second false true =
    .only secondLane (secondCalls command second first) := by
  simp [deal]

theorem deal_around_first :
    deal command first second false true ++ .only firstLane (firstCalls command first second) =
      deal command first second true true := by
  rw [← deal_first]
  exact deal_append (by simp) (by simp)

theorem deal_around_second :
    deal command first second true false ++ .only secondLane (secondCalls command second first) =
      deal command first second true true := by
  rw [← deal_second]
  exact deal_append (by simp) (by simp)

def has (command : Command) (index : Fin 2) (labels : List Label) : Bool :=
  labels.any (Named (command.content index))

def Serves (command : Command) (first second : UInt64) (memory : Memory) (kids : Grove Memory) : Prop :=
  let labels := memory.label :: (tree kids).labels
  ∃ memory' kids' answer steps, Trades command first second memory memory' kids kids' ∧
    Runs machine (serve memory command) kids.crew
      (deal command first second (has command 0 labels) (has command 1 labels)) steps (some answer)
      (some (memory', kids'))

/-- The children that lead to one of the two services take part in the exchange. -/
def Each (command : Command) (first second : UInt64) : Grove Memory → Prop
  | .nil => True
  | .cons _ memory kids rest =>
      (∀ index, has command index (memory.label :: (tree kids).labels) →
        Serves command first second memory kids) ∧ Each command first second rest

/-- A service that is ready for the last phase, above others that are. -/
structure Fit (command : Command) (first second : UInt64) (memory : Memory) (kids : Grove Memory) :
    Prop where
  governs : Governs memory.child kids
  led : Led command memory kids
  sound : Sound kids
  leds : AllLed command kids
  unique : Unique (memory.label :: (tree kids).labels)
  each : Each command first second kids

theorem Sound.of_append (sound : Sound (front.append back)) : Sound front ∧ Sound back := by
  induction front with
  | nil => exact ⟨trivial, sound⟩
  | cons link memory kids rest _ ih =>
      obtain ⟨other, governs, inner, outer⟩ := sound
      exact ⟨⟨other, governs, inner, (ih outer).1⟩, (ih outer).2⟩

theorem AllLed.of_append (led : AllLed command (front.append back)) :
    AllLed command front ∧ AllLed command back := by
  induction front with
  | nil => exact ⟨trivial, led⟩
  | cons link memory kids rest _ ih =>
      obtain ⟨here, inner, outer⟩ := led
      exact ⟨⟨here, inner, (ih outer).1⟩, (ih outer).2⟩

theorem Each.of_append (each : Each command first second (front.append back)) :
    Each command first second front ∧ Each command first second back := by
  induction front with
  | nil => exact ⟨trivial, each⟩
  | cons link memory kids rest _ ih =>
      obtain ⟨here, outer⟩ := each
      exact ⟨⟨here, (ih outer).1⟩, (ih outer).2⟩

theorem split_at {target : Name} (there : (tree grove).labels.any (Named target)) :
    ∃ before link memory kids rest, grove = before.append (.cons link memory kids rest) ∧
      (memory.label :: (tree kids).labels).any (Named target) ∧
      ¬ (tree before).labels.any (Named target) := by
  induction grove with
  | nil => cases there
  | cons link memory kids rest _ ih =>
      by_cases here : (memory.label :: (tree kids).labels).any (Named target)
      · exact ⟨.nil, link, memory, kids, rest, rfl, here, nofun⟩
      · have whole : (tree (.cons link memory kids rest)).labels =
            (memory.label :: (tree kids).labels) ++ (tree rest).labels := rfl
        rw [whole, List.any_append, Bool.or_eq_true] at there
        obtain ⟨before, link', memory', kids', rest', rfl, found, absent⟩ := ih (there.resolve_left here)
        refine ⟨.cons link memory kids before, link', memory', kids', rest', rfl, found, ?_⟩
        have front : (tree (.cons link memory kids before)).labels =
            (memory.label :: (tree kids).labels) ++ (tree before).labels := rfl
        rw [front, List.any_append, Bool.or_eq_true]
        exact fun either => either.elim here absent

theorem toward_at {target : Name} {before rest : Grove Memory}
    (absent : ¬ (tree before).labels.any (Named target))
    (here : (memory.label :: (tree kids).labels).any (Named target)) :
    toward target (before.append (.cons link memory kids rest)) = some link := by
  induction before with
  | nil => exact if_pos here
  | cons link' memory' kids' more _ ih =>
      have whole : (tree (.cons link' memory' kids' more)).labels =
          (memory'.label :: (tree kids').labels) ++ (tree more).labels := rfl
      rw [whole, List.any_append, Bool.or_eq_true, not_or] at absent
      exact (if_neg absent.1).trans (ih absent.2)

variable {before rest : Grove Memory} {index : Fin 2}

theorem labels_at : (tree (before.append (.cons link memory kids rest))).labels =
    (tree before).labels ++ ((memory.label :: (tree kids).labels) ++ (tree rest).labels) := by
  rw [tree_append, Branches.labels_append]
  rfl

theorem crew_at : ((before.append (.cons link memory kids rest)).crew : Crew Command Memory Lane) =
    before.crew ++ (link, .quiet memory kids) :: rest.crew :=
  Grove.crew_append _ _

theorem others_quiet : (before.crew ++ rest.crew : Crew Command Memory Lane).Quiet :=
  ((Grove.crew_still before).append (Grove.crew_still rest)).quiet

theorem Fit.alone {parent : Memory}
    (fit : Fit command first second parent (before.append (.cons link memory kids rest)))
    (only : ∀ index, has command index (memory.label :: (tree kids).labels) ∨
      ¬ has command index (tree (before.append (.cons link memory kids rest))).labels) :
    Absent command (tree before).labels ∧ Absent command (tree rest).labels := by
  have unique := Unique.below fit.unique
  rw [labels_at] at unique
  have parts : ∀ index, ¬ has command index (tree before).labels ∧ ¬ has command index (tree rest).labels := by
    intro index
    rcases only index with here | nowhere
    · refine ⟨fun there => ?_, unique.right.apart here⟩
      refine unique.apart there ?_
      rw [List.any_append, Bool.or_eq_true]
      exact .inl here
    · rw [labels_at, has, List.any_append, List.any_append, Bool.or_eq_true, Bool.or_eq_true,
        not_or, not_or] at nowhere
      exact ⟨nowhere.1, nowhere.2.2⟩
  exact ⟨fun index => (parts index).1, fun index => (parts index).2⟩

theorem Fit.child {parent : Memory}
    (fit : Fit command first second parent (before.append (.cons link memory kids rest)))
    (only : ∀ index, has command index (memory.label :: (tree kids).labels) ∨
      ¬ has command index (tree (before.append (.cons link memory kids rest))).labels)
    (here : has command index (memory.label :: (tree kids).labels)) :
    ∃ memory' kids' answer steps,
      Traded command first second (before.append (.cons link memory kids rest))
        (before.append (.cons link memory' kids' rest)) ∧
      Runs machine (serve memory command) kids.crew
        (deal command first second (has command 0 (memory.label :: (tree kids).labels))
          (has command 1 (memory.label :: (tree kids).labels))) steps (some answer)
        (some (memory', kids')) := by
  obtain ⟨absent_before, absent_rest⟩ := fit.alone only
  obtain ⟨sound_before, other, _, _, sound_rest⟩ := fit.sound.of_append
  obtain ⟨led_before, _, _, led_rest⟩ := fit.leds.of_append
  obtain ⟨_, serves, _⟩ := fit.each.of_append
  obtain ⟨memory', kids', answer, steps, trades, runs⟩ := serves index here
  have child := trades.traded link other
  refine ⟨memory', kids', answer, steps, ?_, runs⟩
  exact (Traded.absent absent_before sound_before led_before).append
    (child.append (.absent absent_rest sound_rest led_rest))

theorem Fit.registers {parent : Memory}
    (fit : Fit command first second parent (before.append (.cons link memory kids rest)))
    (absent : ¬ has command index (tree before).labels)
    (here : has command index (memory.label :: (tree kids).labels)) :
    parent.pipe_read index = link.read_fd ∧ parent.pipe_write index = link.write_fd := by
  have way : toward (command.content index) (before.append (.cons link memory kids rest)) = some link :=
    toward_at absent here
  refine ⟨(fit.led.read index).trans ?_, (fit.led.write index).trans ?_⟩
  · rw [way]
    rfl
  · rw [way]
    rfl

theorem forward_spans {parent : Memory} {answer : Command} {trace : Trace Lane Op Val} {steps : Nat}
    (registers : parent.pipe_read index = link.read_fd ∧ parent.pipe_write index = link.write_fd)
    (distinct : ((before.append (.cons link memory kids rest)).crew : Crew Command Memory Lane).Distinct)
    (served : Runs machine (serve memory command) kids.crew trace steps (some answer)
      (some (memory', kids'))) :
    Spans machine (forward parent index command)
      (before.append (.cons link memory kids rest)).crew
      (before.append (.cons link memory' kids' rest)).crew trace (parent.setReceived answer) := by
  rw [crew_at] at distinct
  rw [crew_at, crew_at]
  show Spans machine (.write _ command (.read _ fun got =>
    .pure (parent.setReceived (got.getD parent.receive_child)))) _ _ _ _
  rw [registers.1, registers.2]
  exact .ask distinct others_quiet served rfl

theorem forwardAround_spans {parent : Memory} {own answer : Command} {lane : Lane} {calls : List Call}
    {secret : UInt64} {trace : Trace Lane Op Val} {steps : Nat}
    (registers : parent.pipe_read index = link.read_fd ∧ parent.pipe_write index = link.write_fd)
    (distinct : ((before.append (.cons link memory kids rest)).crew : Crew Command Memory Lane).Distinct)
    (served : Runs machine (serve memory command) kids.crew trace steps (some answer)
      (some (memory', kids')))
    (part : ∀ {crew : Crew Command Memory Lane}, Crew.Apart {lane} crew →
      Yields machine lane (exchanges parent own) crew crew calls (parent.setSecret secret))
    (some_calls : calls ≠ []) (apart : Process.Apart {lane} trace.lanes) :
    Spans machine (forwardAround parent index command own)
      (before.append (.cons link memory kids rest)).crew
      (before.append (.cons link memory' kids' rest)).crew (trace ++ .only lane calls)
      ((parent.setSecret secret).setReceived answer) := by
  rw [crew_at] at distinct
  rw [crew_at, crew_at]
  show Spans machine (.write _ command ((exchanges parent own).bind fun memory =>
    .read (memory.pipe_read index) fun got =>
      .pure (memory.setReceived (got.getD memory.receive_child)))) _ _ _ _
  have free : Crew.Apart {lane}
      (before.crew ++ (link, .running trace.lanes answer (some (memory', kids'))) :: rest.crew) := by
    have quiet : Crew.Apart {lane} (before.crew ++ rest.crew : Crew Command Memory Lane) :=
      others_quiet.apart _
    obtain ⟨front, back⟩ := Crew.apart_append.mp quiet
    exact Crew.apart_append.mpr ⟨front, Crew.apart_cons.mpr ⟨apart, back⟩⟩
  have reads_on : (parent.setSecret secret).pipe_read index = link.read_fd := registers.1
  let next (got : Option Command) : Run Memory :=
    .pure ((parent.setSecret secret).setReceived (got.getD parent.receive_child))
  have reads : Prog.read ((parent.setSecret secret).pipe_read index) next = .read link.read_fd next := by
    rw [reads_on]
  rw [registers.2]
  exact .around distinct others_quiet served (part free) some_calls reads rfl

theorem deal_apart (lane : Lane) (one two : Bool) (not_first : one → ¬ lane ≤ firstLane ∧ ¬ firstLane ≤ lane)
    (not_second : two → ¬ lane ≤ secondLane ∧ ¬ secondLane ≤ lane) :
    Process.Apart {lane} (deal command first second one two).lanes := by
  intro _ same other inside
  obtain rfl := same
  by_cases on_first : other = firstLane
  · subst on_first
    cases one with
    | true => exact not_first rfl
    | false =>
        have apart : firstLane ≠ secondLane := by decide
        exact absurd (by simp [deal, apart]) inside
  · by_cases on_second : other = secondLane
    · subst on_second
      cases two with
      | true => exact not_second rfl
      | false =>
          have apart : secondLane ≠ firstLane := by decide
          exact absurd (by simp [deal, apart]) inside
    · exact absurd (by simp [deal, on_first, on_second]) inside

theorem deal_own {i j : Fin 2} {labels : List Label} (different : i ≠ j) (mine : has command i labels)
    (absent : ¬ has command j labels) :
    deal command first second (has command 0 labels) (has command 1 labels) =
      deal command first second (i = 0) (i = 1) := by
  have theirs := Bool.eq_false_iff.mpr absent
  match i, j with
  | 0, 0 | 1, 1 => exact absurd rfl different
  | 0, 1 => rw [mine, theirs]; rfl
  | 1, 0 => rw [mine, theirs]; rfl

section Pair

variable {middle : Grove Memory} {one two : Link} {left right left' right' : Memory}
  {under beside under' beside' : Grove Memory}

/-- Two children with other services before, between and behind them. -/
def pairOf (before : Grove Memory) (one : Link) (left : Memory) (under : Grove Memory)
    (middle : Grove Memory) (two : Link) (right : Memory) (beside rest : Grove Memory) : Grove Memory :=
  before.append (.cons one left under (middle.append (.cons two right beside rest)))

theorem pairOf_labels : (tree (pairOf before one left under middle two right beside rest)).labels =
    (tree before).labels ++ ((left.label :: (tree under).labels) ++ ((tree middle).labels ++
      ((right.label :: (tree beside).labels) ++ (tree rest).labels))) := by
  rw [pairOf, labels_at, labels_at]

theorem pairOf_crew :
    ((pairOf before one left under middle two right beside rest).crew : Crew Command Memory Lane) =
      before.crew ++ (one, .quiet left under) :: (middle.crew ++ (two, .quiet right beside) :: rest.crew) := by
  rw [pairOf, crew_at, crew_at]

/-- The two services are in these children, one in each, and nowhere else. -/
theorem pairOf_absent {i j : Fin 2} (different : i ≠ j)
    (unique : Unique (tree (pairOf before one left under middle two right beside rest)).labels)
    (in_left : has command i (left.label :: (tree under).labels))
    (in_right : has command j (right.label :: (tree beside).labels)) :
    Absent command (tree before).labels ∧ Absent command (tree middle).labels ∧
      Absent command (tree rest).labels ∧ ¬ has command j (left.label :: (tree under).labels) ∧
      ¬ has command i (right.label :: (tree beside).labels) := by
  rw [pairOf_labels] at unique
  have from_left := unique.right
  have from_middle := from_left.right
  have from_right := from_middle.right
  have no_i := from_left.apart in_left
  have no_j := from_right.apart in_right
  simp only [List.any_append, Bool.or_eq_true, not_or] at no_i
  have before_i : ¬ has command i (tree before).labels := by
    intro there
    have absent := unique.apart there
    simp only [List.any_append, Bool.or_eq_true, not_or] at absent
    exact absent.1 in_left
  have before_j : ¬ has command j (tree before).labels := by
    intro there
    have absent := unique.apart there
    simp only [List.any_append, Bool.or_eq_true, not_or] at absent
    exact absent.2.2.1 in_right
  have left_j : ¬ has command j (left.label :: (tree under).labels) := by
    intro there
    have absent := from_left.apart there
    simp only [List.any_append, Bool.or_eq_true, not_or] at absent
    exact absent.2.1 in_right
  have middle_j : ¬ has command j (tree middle).labels := by
    intro there
    have absent := from_middle.apart there
    simp only [List.any_append, Bool.or_eq_true, not_or] at absent
    exact absent.1 in_right
  have either : ∀ index : Fin 2, index = i ∨ index = j := by omega
  refine ⟨fun index => ?_, fun index => ?_, fun index => ?_, left_j, no_i.2.1⟩
  · rcases either index with rfl | rfl
    · exact before_i
    · exact before_j
  · rcases either index with rfl | rfl
    · exact no_i.1
    · exact middle_j
  · rcases either index with rfl | rfl
    · exact no_i.2.2
    · exact no_j

theorem Fit.pair {parent : Memory} {i j : Fin 2}
    (fit : Fit command first second parent (pairOf before one left under middle two right beside rest))
    (different : i ≠ j) (in_left : has command i (left.label :: (tree under).labels))
    (in_right : has command j (right.label :: (tree beside).labels)) :
    ∃ left' under' right' beside' reply reply' steps steps',
      Traded command first second (pairOf before one left under middle two right beside rest)
        (pairOf before one left' under' middle two right' beside' rest) ∧
      Runs machine (serve left command) under.crew (deal command first second (i = 0) (i = 1)) steps
        (some reply) (some (left', under')) ∧
      Runs machine (serve right command) beside.crew (deal command first second (j = 0) (j = 1)) steps'
        (some reply') (some (right', beside')) := by
  obtain ⟨absent_before, absent_middle, absent_rest, left_j, right_i⟩ :=
    pairOf_absent different (Unique.below fit.unique) in_left in_right
  obtain ⟨sound_before, other, _, _, sound_more⟩ := fit.sound.of_append
  obtain ⟨led_before, _, _, led_more⟩ := fit.leds.of_append
  obtain ⟨_, serves, each_more⟩ := fit.each.of_append
  obtain ⟨sound_middle, other', _, _, sound_rest⟩ := Sound.of_append sound_more
  obtain ⟨led_middle, _, _, led_rest⟩ := AllLed.of_append led_more
  obtain ⟨_, serves', _⟩ := Each.of_append each_more
  obtain ⟨left', under', reply, steps, trades, runs⟩ := serves i in_left
  obtain ⟨right', beside', reply', steps', trades', runs'⟩ := serves' j in_right
  have here := trades.traded one other
  have there := trades'.traded two other'
  refine ⟨left', under', right', beside', reply, reply', steps, steps', ?_, ?_, ?_⟩
  · exact (Traded.absent absent_before sound_before led_before).append (here.append
      ((Traded.absent absent_middle sound_middle led_middle).append
        (there.append (.absent absent_rest sound_rest led_rest))))
  · rwa [deal_own different in_left left_j] at runs
  · rwa [deal_own different.symm in_right right_i] at runs'

theorem pairOf_split : pairOf before one left under middle two right beside rest =
    (before.append (.cons one left under middle)).append (.cons two right beside rest) := by
  rw [Grove.append_assoc]
  rfl

theorem Fit.pair_registers {parent : Memory} {i j : Fin 2}
    (fit : Fit command first second parent (pairOf before one left under middle two right beside rest))
    (different : i ≠ j) (in_left : has command i (left.label :: (tree under).labels))
    (in_right : has command j (right.label :: (tree beside).labels)) :
    (parent.pipe_read i = one.read_fd ∧ parent.pipe_write i = one.write_fd) ∧
      parent.pipe_read j = two.read_fd ∧ parent.pipe_write j = two.write_fd := by
  obtain ⟨absent_before, absent_middle, _, left_j, _⟩ :=
    pairOf_absent different (Unique.below fit.unique) in_left in_right
  have absent : ¬ has command j (tree (before.append (.cons one left under middle))).labels := by
    rw [labels_at, has, List.any_append, List.any_append, Bool.or_eq_true, Bool.or_eq_true]
    intro either
    obtain there | there | there := either
    · exact absent_before j there
    · exact left_j there
    · exact absent_middle j there
  refine ⟨fit.registers (absent_before i) in_left, ?_⟩
  rw [pairOf_split] at fit
  exact fit.registers absent in_right

theorem pairOf_apart
    (distinct : ((pairOf before one left under middle two right beside rest).crew :
      Crew Command Memory Lane).Distinct) :
    one.read_fd ≠ two.read_fd ∧ one.write_fd ≠ two.write_fd := by
  rw [pairOf_split, crew_at, crew_at] at distinct
  have inside : (one, Status.quiet left under) ∈
      before.crew ++ (one, .quiet left under) :: (middle.crew : Crew Command Memory Lane) := by simp
  exact ⟨distinct.reader _ inside, distinct.writer _ inside⟩

theorem deals_apart : Process.Apart (deal command first second false true).lanes
    (deal command first second true false).lanes := by
  have second_first : ¬ secondLane ≤ firstLane ∧ ¬ firstLane ≤ secondLane := by decide
  intro lane inside
  rw [deal_second] at inside
  rw [Trace.only_within secondLane _ lane inside]
  exact deal_apart secondLane true false (fun _ => second_first) nofun _ rfl

theorem forwardBoth_left {parent : Memory} {reply reply' : Command} {steps steps' : Nat}
    (registers : parent.pipe_read 0 = one.read_fd ∧ parent.pipe_write 0 = one.write_fd)
    (registers' : parent.pipe_read 1 = two.read_fd ∧ parent.pipe_write 1 = two.write_fd)
    (distinct : ((pairOf before one left under middle two right beside rest).crew :
      Crew Command Memory Lane).Distinct)
    (served : Runs machine (serve left command) under.crew (deal command first second true false)
      steps (some reply) (some (left', under')))
    (served' : Runs machine (serve right command) beside.crew (deal command first second false true)
      steps' (some reply') (some (right', beside'))) :
    Spans machine (forwardBoth parent command)
      (pairOf before one left under middle two right beside rest).crew
      (pairOf before one left' under' middle two right' beside' rest).crew
      (deal command first second true false ++ deal command first second false true)
      (parent.setReceived reply') := by
  have quiet : ((pairOf before one left under middle two right beside rest).crew :
      Crew Command Memory Lane).Quiet := Grove.crew_quiet _
  rw [pairOf_crew] at distinct quiet
  rw [pairOf_crew, pairOf_crew]
  show Spans machine (.write (parent.pipe_write 0) command (.write (parent.pipe_write 1) command
    (.read (parent.pipe_read 0) fun got => .read (parent.pipe_read 1) fun more =>
      .pure (parent.setReceived (more.getD (got.getD parent.receive_child)))))) _ _ _ _
  rw [registers.1, registers.2, registers'.1, registers'.2]
  exact .both distinct quiet (.middle _ _) (.deep _ _ _ _) (.middle _ _) (.deep _ _ _ _) served
    served' deals_apart rfl

theorem forwardBoth_right {parent : Memory} {reply reply' : Command} {steps steps' : Nat}
    (registers : parent.pipe_read 0 = two.read_fd ∧ parent.pipe_write 0 = two.write_fd)
    (registers' : parent.pipe_read 1 = one.read_fd ∧ parent.pipe_write 1 = one.write_fd)
    (distinct : ((pairOf before one left under middle two right beside rest).crew :
      Crew Command Memory Lane).Distinct)
    (served : Runs machine (serve right command) beside.crew (deal command first second true false)
      steps' (some reply') (some (right', beside')))
    (served' : Runs machine (serve left command) under.crew (deal command first second false true)
      steps (some reply) (some (left', under'))) :
    Spans machine (forwardBoth parent command)
      (pairOf before one left under middle two right beside rest).crew
      (pairOf before one left' under' middle two right' beside' rest).crew
      (deal command first second true false ++ deal command first second false true)
      (parent.setReceived reply) := by
  have quiet : ((pairOf before one left under middle two right beside rest).crew :
      Crew Command Memory Lane).Quiet := Grove.crew_quiet _
  rw [pairOf_crew] at distinct quiet
  rw [pairOf_crew, pairOf_crew]
  show Spans machine (.write (parent.pipe_write 0) command (.write (parent.pipe_write 1) command
    (.read (parent.pipe_read 0) fun got => .read (parent.pipe_read 1) fun more =>
      .pure (parent.setReceived (more.getD (got.getD parent.receive_child)))))) _ _ _ _
  rw [registers.1, registers.2, registers'.1, registers'.2]
  exact .both distinct quiet (.deep _ _ _ _) (.middle _ _) (.deep _ _ _ _) (.middle _ _) served
    served' deals_apart rfl

end Pair

/-! ## The ways through a service -/

/-- A part of a program of the last phase: what it makes of the children, and the memory. -/
def Passes (command : Command) (first second : UInt64) (prog : Run Memory) (kids : Grove Memory)
    (trace : Trace Lane Op Val) (memory : Command → Memory) : Prop :=
  ∃ kids' answer, Traded command first second kids kids' ∧
    Spans machine prog kids.crew kids'.crew trace (memory answer)

theorem Fit.only_child {i j : Fin 2} (fit : Fit command first second memory kids) (different : i ≠ j)
    (inside : has command i (tree kids).labels) (outside : ¬ has command j (tree kids).labels) :
    ∃ (before : Grove Memory) (link : Link) (child : Memory) (below rest : Grove Memory)
        (child' : Memory) (below' : Grove Memory) (answer : Command) (steps : Nat),
      kids = before.append (.cons link child below rest) ∧
      (memory.pipe_read i = link.read_fd ∧ memory.pipe_write i = link.write_fd) ∧
      Traded command first second kids (before.append (.cons link child' below' rest)) ∧
      Runs machine (serve child command) below.crew (deal command first second (i = 0) (i = 1)) steps
        (some answer) (some (child', below')) := by
  obtain ⟨before, link, child, below, rest, rfl, here, absent⟩ := split_at inside
  have not_there : ¬ has command j (child.label :: (tree below).labels) := by
    intro there
    refine outside ?_
    rw [labels_at, has, List.any_append, List.any_append, Bool.or_eq_true, Bool.or_eq_true]
    exact .inr (.inl there)
  have only : ∀ index, has command index (child.label :: (tree below).labels) ∨
      ¬ has command index (tree (before.append (.cons link child below rest))).labels := by
    intro index
    have either : index = i ∨ index = j := by omega
    rcases either with rfl | rfl
    · exact .inl here
    · exact .inr outside
  obtain ⟨child', below', answer, steps, traded, runs⟩ := fit.child only here
  rw [deal_own different here not_there] at runs
  exact ⟨before, link, child, below, rest, child', below', answer, steps, rfl,
    fit.registers absent here, traded, runs⟩

theorem Fit.one {i j : Fin 2} (fit : Fit command first second memory kids) (different : i ≠ j)
    (inside : has command i (tree kids).labels) (outside : ¬ has command j (tree kids).labels) :
    Passes command first second (forward memory i command) kids
      (deal command first second (i = 0) (i = 1)) memory.setReceived := by
  obtain ⟨_, _, _, _, _, _, _, answer, _, rfl, registers, traded, runs⟩ :=
    fit.only_child different inside outside
  exact ⟨_, answer, traded, forward_spans registers fit.governs.distinct runs⟩

theorem Fit.outside {index : Fin 2} (fit : Fit command first second memory kids)
    (mine : command.content index = memory.service_name) : ¬ has command index (tree kids).labels := by
  exact fit.unique.absent (Named_iff.mpr mine.symm)

theorem Fit.first_above (fit : Fit command first second memory kids) (own : Command)
    (same : own.typed .start_exchange = command) (mine : command.content0 = memory.service_name)
    (secret : memory.secret = first) (inside : has command 1 (tree kids).labels) :
    Passes command first second (forwardAround memory 1 command own) kids
      (deal command first second true true) (memory.setSecret second).setReceived := by
  have different : (1 : Fin 2) ≠ 0 := by decide
  obtain ⟨_, _, _, _, _, _, _, answer, _, rfl, registers, traded, runs⟩ :=
    fit.only_child different inside (fit.outside mine)
  have lanes : ¬ firstLane ≤ secondLane ∧ ¬ secondLane ≤ firstLane := by decide
  have apart : Process.Apart {firstLane} (deal command first second false true).lanes :=
    deal_apart firstLane false true nofun fun _ => lanes
  subst same secret
  have mine' : own.content0 = memory.service_name := mine
  have spans := forwardAround_spans registers fit.governs.distinct runs
    (fun free => exchangeFirst_yields free mine' second) nofun apart
  refine ⟨_, answer, traded, ?_⟩
  rw [← deal_around_first]
  exact spans

theorem Fit.second_above (fit : Fit command first second memory kids) (own : Command)
    (same : own.typed .start_exchange = command) (mine : command.content1 = memory.service_name)
    (other : command.content0 ≠ memory.service_name) (secret : memory.secret = second)
    (inside : has command 0 (tree kids).labels) :
    Passes command first second (forwardAround memory 0 command own) kids
      (deal command first second true true) (memory.setSecret first).setReceived := by
  have different : (0 : Fin 2) ≠ 1 := by decide
  obtain ⟨_, _, _, _, _, _, _, answer, _, rfl, registers, traded, runs⟩ :=
    fit.only_child different inside (fit.outside mine)
  have lanes : ¬ secondLane ≤ firstLane ∧ ¬ firstLane ≤ secondLane := by decide
  have apart : Process.Apart {secondLane} (deal command first second true false).lanes :=
    deal_apart secondLane true false (fun _ => lanes) nofun
  subst same secret
  have mine' : own.content1 = memory.service_name := mine
  have other' : own.content0 ≠ memory.service_name := other
  have spans := forwardAround_spans registers fit.governs.distinct runs
    (fun free => exchangeSecond_yields free mine' other' first) nofun apart
  refine ⟨_, answer, traded, ?_⟩
  rw [← deal_around_second]
  exact spans

theorem Fit.both (fit : Fit command first second memory kids) (inside : has command 0 (tree kids).labels)
    (inside' : has command 1 (tree kids).labels) :
    (memory.pipe_read 0 = memory.pipe_read 1 ∧ memory.pipe_write 0 = memory.pipe_write 1 ∧
      Passes command first second (forward memory 0 command) kids
        (deal command first second true true) memory.setReceived) ∨
    (memory.pipe_read 0 ≠ memory.pipe_read 1 ∧ memory.pipe_write 0 ≠ memory.pipe_write 1 ∧
      Passes command first second (forwardBoth memory command) kids
        (deal command first second true true) memory.setReceived) := by
  have zero_one : (0 : Fin 2) ≠ 1 := by decide
  have whole : deal command first second true false ++ deal command first second false true =
      deal command first second true true := deal_append (by simp) (by simp)
  obtain ⟨before, link, child, below, rest, rfl, here, absent⟩ := split_at inside
  by_cases together : has command 1 (child.label :: (tree below).labels)
  · have only : ∀ index, has command index (child.label :: (tree below).labels) ∨
        ¬ has command index (tree (before.append (.cons link child below rest))).labels := by
      intro index
      match index with
      | 0 => exact .inl here
      | 1 => exact .inl together
    obtain ⟨absent_before, _⟩ := fit.alone only
    obtain ⟨child', below', answer, steps, traded, runs⟩ := fit.child only here
    have registers := fit.registers (absent_before 0) here
    have registers' := fit.registers (absent_before 1) together
    have has_first : has command 0 (child.label :: (tree below).labels) = true := here
    rw [has_first, together] at runs
    refine .inl ⟨registers.1.trans registers'.1.symm, registers.2.trans registers'.2.symm, _, answer,
      traded, ?_⟩
    exact forward_spans registers fit.governs.distinct runs
  · have beside : has command 1 (tree before).labels ∨ has command 1 (tree rest).labels := by
      rw [labels_at, has, List.any_append, List.any_append, Bool.or_eq_true, Bool.or_eq_true] at inside'
      rcases inside' with there | there | there
      · exact .inl there
      · exact absurd there together
      · exact .inr there
    right
    rcases beside with there | there
    · obtain ⟨front, link', child', below', middle, rfl, here', _⟩ := split_at there
      rw [← pairOf_split] at fit ⊢
      obtain ⟨registers', registers⟩ := fit.pair_registers zero_one.symm here' here
      obtain ⟨_, _, _, _, reply, reply', _, _, traded, runs', runs⟩ :=
        fit.pair zero_one.symm here' here
      obtain ⟨read, write⟩ := pairOf_apart fit.governs.distinct
      refine ⟨?_, ?_, _, reply, traded, whole ▸ ?_⟩
      · rw [registers.1, registers'.1]
        exact read.symm
      · rw [registers.2, registers'.2]
        exact write.symm
      · exact forwardBoth_right registers registers' fit.governs.distinct runs runs'
    · obtain ⟨middle, link', child', below', back, rfl, here', _⟩ := split_at there
      obtain ⟨registers, registers'⟩ := Fit.pair_registers fit zero_one here here'
      obtain ⟨_, _, _, _, reply, reply', _, _, traded, runs, runs'⟩ := Fit.pair fit zero_one here here'
      obtain ⟨read, write⟩ := pairOf_apart fit.governs.distinct
      refine ⟨?_, ?_, _, reply', traded, whole ▸ ?_⟩
      · rw [registers.1, registers'.1]
        exact read
      · rw [registers.2, registers'.2]
        exact write
      · exact forwardBoth_left registers registers' fit.governs.distinct runs runs'

end SysProg.Services
