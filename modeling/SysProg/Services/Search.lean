import SysProg.Services.Manager

namespace SysProg.Services

/-! # The search for the two services of an exchange

`traverse` changes nothing.  `finds` leaves the way to a service in the registers of all
services above it. -/

open Process Data Transition

variable {memory : Memory} {command : Command} {kids : Grove Memory}

theorem serve_exchange (type : command.type = .exchange) :
    serve memory command = (announce memory command).bind fun _ => exchange memory command := by
  rw [serve_some (by rw [type]; nofun)]
  congr 1
  funext _
  rw [handle, type]

/-! ## `traverse` -/

/-- Whether a service is one of the two that `traverse` looks for. -/
def Partner (command : Command) (label : Label) : Bool :=
  Named command.content0 label || Named command.content1 label

/-- The message of a `traverse` that has so many services left to find. -/
def Command.seeking (command : Command) (left : Nat) : Command := { command with cnt := 2 - left }

/-- The lines of a `traverse` of the services with these labels. -/
def tourLines (command : Command) (left : Nat) (labels : List Label) : List Line :=
  (Branches.upToNth (Partner command) left labels).map (heard command)

/-- The answer to a `traverse`: the last of the services has been found among these, or the
search goes on with fewer. -/
structure Toured (command : Command) (left : Nat) (labels : List Label) (answer : Command) : Prop where
  found : left ≤ labels.countP (Partner command) → answer.type = .exchange_success
  onward : labels.countP (Partner command) < left →
    answer = command.seeking (left - labels.countP (Partner command))

/-- The loop over these services, behind others, changes nothing. -/
def Tours (command : Command) (grove : Grove Memory) : Prop :=
  ∀ (left : Nat) (before : Crew Command Memory Lane), 0 < left →
    (before ++ grove.crew).Distinct → (before ++ grove.crew).Quiet →
    ∃ answer, Toured command left (tree grove).labels answer ∧
      Yields machine searching
        (traverseChildren (entries grove) (command.seeking left) (command.seeking left))
        (before ++ grove.crew) (before ++ grove.crew)
        (printed (tourLines command left (tree grove).labels)) answer

theorem tourLines_heard (command : Command) (left : Nat) (labels : List Label) :
    Heard (tourLines command left labels) := by
  intro line inside
  obtain ⟨label, _, rfl⟩ := List.mem_map.mp inside
  exact ⟨command, label, rfl⟩

theorem Heard.of_tour {left : Nat} {labels : List Label} {line : Line} {lines : List Line}
    (said : tourLines command left labels = line :: lines) : Heard lines := by
  intro other inside
  refine tourLines_heard command left labels other ?_
  rw [said]
  exact List.mem_cons_of_mem line inside

theorem tourLines_append {left : Nat} (first second : List Label) :
    tourLines command left (first ++ second) =
      tourLines command left first ++ tourLines command (left - first.countP (Partner command)) second := by
  rw [tourLines, Branches.upToNth_append, List.map_append]
  rfl

theorem Partner_iff : Partner command memory.label ↔ memory.Concerned command := by
  rw [Partner, Bool.or_eq_true, Named, Named, decide_eq_true_eq, decide_eq_true_eq]
  exact or_congr eq_comm eq_comm

/-- One service less is left to find below one of the two. -/
def Partner.count (command : Command) (label : Label) : Nat := if Partner command label then 1 else 0

theorem tourLines_cons {left : Nat} {label : Label} (labels : List Label)
    (some : 0 < left + Partner.count command label) :
    tourLines command (left + Partner.count command label) (label :: labels) =
      heard command label :: tourLines command left labels := by
  rw [Partner.count] at some ⊢
  by_cases partner : Partner command label
  · rw [if_pos partner, tourLines, Branches.upToNth, if_pos partner]
    rfl
  · rw [if_neg partner] at some ⊢
    obtain ⟨less, rfl⟩ := Nat.exists_eq_succ_of_ne_zero some.ne'
    show List.map _ (Branches.upToNth _ (less + 1) _) = _
    rw [Branches.upToNth, if_neg partner]
    rfl

theorem Toured.cons {left : Nat} {labels : List Label} {answer : Command} (label : Label)
    (toured : Toured command left labels answer) :
    Toured command (left + Partner.count command label) (label :: labels) answer := by
  obtain ⟨found, onward⟩ := toured
  have count : (label :: labels).countP (Partner command) =
      labels.countP (Partner command) + Partner.count command label := List.countP_cons
  constructor
  · intro enough
    exact found (by omega)
  · intro further
    rw [onward (by omega), count, Nat.add_sub_add_right]

/-- What `traverse` answers, and that it changes nothing. -/
theorem traverse_yields {left : Nat} (governs : Governs memory.child kids) (more : 0 < left)
    (tours : Tours command kids) :
    ∃ lines answer,
      tourLines command left (memory.label :: (tree kids).labels) = heard command memory.label :: lines ∧
      Toured command left (memory.label :: (tree kids).labels) answer ∧
      ∃ prog, traverse memory (command.seeking left) = (prog : Run Command).bind (reply memory) ∧
        Yields machine searching prog kids.crew kids.crew (printed lines) answer := by
  let cnt := if memory.Concerned (command.seeking left) then (command.seeking left).cnt + 1
    else (command.seeking left).cnt
  obtain ⟨less, rfl⟩ : ∃ less, left = less + Partner.count command memory.label := by
    refine ⟨left - Partner.count command memory.label, ?_⟩
    rw [Partner.count]
    split <;> omega
  have counted : cnt = 2 - (less : Int) := by
    have own : cnt = if memory.Concerned command then
        2 - ((less + Partner.count command memory.label : Nat) : Int) + 1
        else 2 - ((less + Partner.count command memory.label : Nat) : Int) := rfl
    rw [own, Partner.count]
    by_cases concerned : memory.Concerned command
    · rw [if_pos concerned, if_pos (Partner_iff.mpr concerned)]
      omega
    · rw [if_neg concerned, if_neg fun partner => concerned (Partner_iff.mp partner)]
      omega
  refine ⟨tourLines command less (tree kids).labels, ?_⟩
  by_cases both : cnt = 2
  · obtain rfl : less = 0 := by omega
    let answer := (command.seeking (0 + Partner.count command memory.label)).typed .exchange_success
    have toured : Toured command 0 (tree kids).labels answer :=
      ⟨fun _ => rfl, fun further => absurd further (Nat.not_lt_zero _)⟩
    refine ⟨answer, tourLines_cons _ more, toured.cons _, .pure answer, if_pos both, ?_⟩
    rw [tourLines, Branches.upToNth_zero]
    exact .pure _
  · obtain ⟨answer, toured, yields⟩ :=
      tours less [] (by omega) governs.distinct kids.crew_quiet
    refine ⟨answer, tourLines_cons _ more, toured.cons _, _, if_neg both, ?_⟩
    rw [governs.listed, show { command.seeking (less + _) with cnt } = command.seeking less by
      rw [Command.seeking, Command.seeking, counted]]
    exact yields

theorem serve_traverse_ends {left : Nat} (type : command.type = .exchange) (print : command.print)
    (governs : Governs memory.child kids) (other : memory.service_name ≠ .Manager) (more : 0 < left)
    (tours : Tours command kids) :
    ∃ answer, Toured command left (memory.label :: (tree kids).labels) answer ∧
      Ends machine searching (serve memory (command.seeking left)) kids.crew
        (printed (tourLines command left (memory.label :: (tree kids).labels))) (some answer)
        (some (memory, kids)) := by
  obtain ⟨lines, answer, said, toured, prog, same, yields⟩ := traverse_yields governs more tours
  have type' : (command.seeking left).type = .exchange := type
  have print' : (command.seeking left).print := print
  have announced : announces memory (command.seeking left) := by
    rw [announces, type']
    simp [print']
  refine ⟨answer, toured, ?_⟩
  rw [serve_exchange type', said, ← List.singleton_append, printed_append]
  refine (announce_yields kids.crew_quiet announced).ends ?_
  rw [exchange, if_neg (Memory.not_manager other), if_pos print', same]
  show Ends machine searching ((prog.bind (reply memory)).bind fun _ => .pure memory) _ _ _ _
  rw [Prog.bind_assoc]
  exact yields.finish (reply_ends other memory kids)

theorem tours (type : command.type = .exchange) (print : command.print) {grove : Grove Memory}
    (sound : Sound grove) : Tours command grove := by
  induction grove with
  | nil =>
      intro left before more _ _
      have nothing : tourLines command left (tree .nil).labels = [] := by
        obtain ⟨less, rfl⟩ := Nat.exists_eq_succ_of_ne_zero more.ne'
        rfl
      refine ⟨command.seeking left, ⟨fun none => absurd more (Nat.not_lt.mpr none), fun _ => rfl⟩, ?_⟩
      rw [nothing]
      exact .pure _
  | cons link memory kids rest kids_ih rest_ih =>
      obtain ⟨other, governs, inner, outer⟩ := sound
      intro left before more distinct quiet
      let labels := memory.label :: (tree kids).labels
      have whole : (tree (.cons link memory kids rest)).labels = labels ++ (tree rest).labels := rfl
      obtain ⟨answer, toured, steps, runs⟩ :=
        serve_traverse_ends type print governs other more (kids_ih inner)
      rw [whole, tourLines_append, printed_append]
      by_cases enough : left ≤ labels.countP (Partner command)
      · have success := toured.found enough
        have silent : tourLines command (left - labels.countP (Partner command)) (tree rest).labels = [] := by
          rw [Nat.sub_eq_zero_of_le enough, tourLines, Branches.upToNth_zero]
          rfl
        refine ⟨answer, ⟨fun _ => success, fun further => ?_⟩, ?_⟩
        · rw [List.countP_append] at further
          omega
        · rw [silent]
          refine Yields.ask distinct quiet runs ?_
          show Yields machine searching (if answer.type = .exchange_success then _ else _) _ _ _ _
          rw [if_pos success]
          exact .pure answer
      · have again := toured.onward (Nat.lt_of_not_le enough)
        have searching_on : answer.type ≠ .exchange_success := by
          rw [again, show (command.seeking _).type = .exchange from type]
          nofun
        have moved : before ++ (Grove.cons link memory kids rest).crew =
            (before ++ [(link, .quiet memory kids)]) ++ (rest.crew : Crew Command Memory Lane) := by
          rw [List.append_assoc]
          rfl
        obtain ⟨answer', ⟨found, onward⟩, yields⟩ :=
          rest_ih outer (left - labels.countP (Partner command)) (before ++ [(link, .quiet memory kids)])
            (by omega) (moved ▸ distinct) (moved ▸ quiet)
        refine ⟨answer', ⟨fun both => found ?_, fun further => ?_⟩, ?_⟩
        · rw [List.countP_append] at both
          omega
        · rw [List.countP_append] at further
          rw [onward (by omega), List.countP_append, Nat.sub_sub]
        · refine Yields.ask distinct quiet runs ?_
          show Yields machine searching (if answer.type = .exchange_success then _ else _)
            (before ++ (Grove.cons link memory kids rest).crew) _ _ _
          rw [if_neg searching_on, moved, again]
          exact yields

/-! ## `finds` -/

/-- The child on the way to a service. -/
def toward (target : Name) : Grove Memory → Option Link
  | .nil => none
  | .cons link memory kids rest =>
      if (memory.label :: (tree kids).labels).any (Named target) then some link else toward target rest

/-- The registers of one index show the way, if there is one. -/
def Memory.lead (memory : Memory) (index : Fin 2) : Option Link → Memory
  | some link => memory.register index ⟨.empty, link⟩
  | none => memory

/-- Services whose registers show the way. -/
def route (index : Fin 2) (target : Name) : Grove Memory → Grove Memory
  | .nil => .nil
  | .cons link memory kids rest =>
      .cons link (memory.lead index (toward target kids)) (route index target kids)
        (route index target rest)

def Unique (labels : List Label) : Prop := (labels.map Prod.fst).Nodup

section Route

variable {index : Fin 2} {target : Name} {grove : Grove Memory}

@[simp] theorem Memory.lead_label (way : Option Link) : (memory.lead index way).label = memory.label := by
  cases way <;> rfl

@[simp] theorem Memory.lead_name (way : Option Link) :
    (memory.lead index way).service_name = memory.service_name := by
  cases way <;> rfl

@[simp] theorem Memory.lead_child (way : Option Link) : (memory.lead index way).child = memory.child := by
  cases way <;> rfl

@[simp] theorem tree_route : tree (route index target grove) = tree grove := by
  induction grove with
  | nil => rfl
  | cons link memory kids rest kids_ih rest_ih => simp only [route, tree, Memory.lead_label, kids_ih, rest_ih]

@[simp] theorem entries_route : entries (route index target grove) = entries grove := by
  induction grove with
  | nil => rfl
  | cons link memory kids rest _ ih => simp only [route, entries, Memory.lead_name, ih]

theorem Governs.route {child : List Service} (governs : Governs child grove) :
    Governs child (route index target grove) :=
  governs.congr entries_route

theorem Sound.route (sound : Sound grove) : Sound (route index target grove) := by
  induction grove with
  | nil => trivial
  | cons link memory kids rest kids_ih rest_ih =>
      obtain ⟨other, governs, inner, outer⟩ := sound
      refine ⟨?_, ?_, kids_ih inner, rest_ih outer⟩
      · rw [Memory.lead_name]
        exact other
      · rw [Memory.lead_child]
        exact governs.route

theorem toward_absent (absent : ¬ (tree grove).labels.any (Named target)) :
    toward target grove = none := by
  induction grove with
  | nil => rfl
  | cons link memory kids rest _ ih =>
      have whole : (tree (.cons link memory kids rest)).labels =
          (memory.label :: (tree kids).labels) ++ (tree rest).labels := rfl
      rw [whole, List.any_append, Bool.or_eq_true, not_or] at absent
      rw [toward, if_neg absent.1, ih absent.2]

theorem route_absent (absent : ¬ (tree grove).labels.any (Named target)) :
    route index target grove = grove := by
  induction grove with
  | nil => rfl
  | cons link memory kids rest kids_ih rest_ih =>
      simp only [tree, Branches.labels, List.any_cons, List.any_append, Bool.or_eq_true, not_or] at absent
      rw [route, toward_absent absent.2.1, kids_ih absent.2.1, rest_ih absent.2.2]
      rfl

theorem toward_route (other : Name) : toward other (route index target grove) = toward other grove := by
  induction grove with
  | nil => rfl
  | cons link memory kids rest _ ih => simp only [route, toward, Memory.lead_label, tree_route, ih]

theorem toward_mem {link : Link} (found : toward target grove = some link) :
    ∃ service ∈ entries grove, service.link = link := by
  induction grove with
  | nil => cases found
  | cons link' memory kids rest _ ih =>
      rw [toward] at found
      split at found
      · cases found
        exact ⟨_, List.mem_cons_self, rfl⟩
      · obtain ⟨service, inside, same⟩ := ih found
        exact ⟨service, List.mem_cons_of_mem _ inside, same⟩

end Route

theorem Named_iff {name : Name} {label : Label} : Named name label ↔ label.1 = name := by
  rw [Named, decide_eq_true_eq]

theorem any_named {name : Name} {labels : List Label} :
    labels.any (Named name) ↔ name ∈ labels.map Prod.fst := by
  simp only [List.any_eq_true, Named_iff, List.mem_map]

/-- A name is in one of two parts at most. -/
theorem Unique.apart {first second : List Label} {name : Name} (unique : Unique (first ++ second))
    (here : first.any (Named name)) : ¬ second.any (Named name) := by
  rw [Unique, List.map_append, List.nodup_append] at unique
  intro there
  exact unique.2.2 name (any_named.mp here) name (any_named.mp there) rfl

theorem Unique.left {first second : List Label} (unique : Unique (first ++ second)) : Unique first := by
  rw [Unique, List.map_append] at unique
  exact unique.of_append_left

theorem Unique.right {first second : List Label} (unique : Unique (first ++ second)) : Unique second := by
  rw [Unique, List.map_append] at unique
  exact unique.of_append_right

theorem Unique.below {label : Label} {labels : List Label} (unique : Unique (label :: labels)) :
    Unique labels := by
  rw [Unique, List.map_cons] at unique
  exact unique.of_cons

/-- The name of a service is not below it. -/
theorem Unique.absent {label : Label} {labels : List Label} {name : Name} (unique : Unique (label :: labels))
    (mine : Named name label) : ¬ labels.any (Named name) := by
  rw [Unique, List.map_cons, List.nodup_cons] at unique
  rw [any_named, ← Named_iff.mp mine]
  exact unique.1

/-- Distinct names are each the name of one service at most. -/
theorem Unique.at_most_once {labels : List Label} (unique : Unique labels) (name : Name) :
    labels.countP (Named name) ≤ 1 := by
  have counted : labels.countP (Named name) = (labels.map Prod.fst).count name := by
    rw [List.count, List.countP_map]
    rfl
  rw [counted]
  exact List.nodup_iff_count_le_one.mp unique name

/-- The `type` of the answer to a `finds`. -/
def findAnswer (found : Bool) : CommandType := if found then .find_success else .find_failed

/-- The request of `finds` for one of the two services. -/
structure Finds (command : Command) (index : Fin 2) : Prop where
  target : command.target = index
  silent : command.print = false

/-- The loop over these services, behind others, leaves the way in them. -/
def FindSearches (command : Command) (index : Fin 2) (grove : Grove Memory) : Prop :=
  ∀ (type : CommandType) (before : Crew Command Memory Lane),
    (before ++ grove.crew).Distinct → (before ++ grove.crew).Quiet →
    ∃ service type', service.map Service.link = toward (command.content index) grove ∧
      (service ≠ none → type' = .find_success) ∧
      Yields machine searching
        (findsChildren (entries grove) (command.typed type) (command.typed type))
        (before ++ grove.crew) (before ++ (route index (command.content index) grove).crew) []
        (service, command.typed type')

variable {index : Fin 2}

theorem finds_self (finds : Finds command index) (mine : memory.service_name = command.content index) :
    Services.finds memory command index =
      (reply memory (command.typed .find_success)).bind fun _ => .pure memory := by
  have same : { command with target := index } = command := by
    rw [← finds.target]
  rw [Services.finds, same, if_pos mine]
  rfl

theorem finds_below (finds : Finds command index) (other : memory.service_name ≠ command.content index) :
    Services.finds memory command index =
      (findsChildren memory.child command command).bind fun got => found memory index got.1 got.2 := by
  have same : { command with target := index } = command := by
    rw [← finds.target]
  rw [Services.finds, same, if_neg other]
  rfl

theorem toward_isSome {target : Name} {grove : Grove Memory} :
    (toward target grove).isSome = (tree grove).labels.any (Named target) := by
  induction grove with
  | nil => rfl
  | cons link memory kids rest _ ih =>
      have whole : (tree (.cons link memory kids rest)).labels =
          (memory.label :: (tree kids).labels) ++ (tree rest).labels := rfl
      rw [toward, whole, List.any_append]
      by_cases here : (memory.label :: (tree kids).labels).any (Named target)
      · rw [if_pos here, here]
        rfl
      · rw [if_neg here, ih, Bool.eq_false_iff.mpr here, Bool.false_or]

theorem found_eq {service : Option Service} {way : Option Link} {type : CommandType}
    (same : service.map Service.link = way) (success : service ≠ none → type = .find_success) :
    found memory index service (command.typed type) =
      (reply memory (command.typed (findAnswer way.isSome))).bind fun _ =>
        .pure (memory.lead index way) := by
  subst same
  cases service with
  | none => rfl
  | some service =>
      rw [success nofun]
      rfl

theorem finds_splits (finds : Finds command index) (governs : Governs memory.child kids)
    (unique : Unique (memory.label :: (tree kids).labels))
    (searches : FindSearches command index kids) :
    let found := (memory.label :: (tree kids).labels).any (Named (command.content index))
    ∃ (prog : Run (Option Service × Command)) (next : Option Service × Command → Run Memory)
        (value : Option Service × Command),
      Services.finds memory command index = prog.bind next ∧
      Yields machine searching prog kids.crew (route index (command.content index) kids).crew [] value ∧
      next value = (reply memory (command.typed (findAnswer found))).bind fun _ =>
        .pure (memory.lead index (toward (command.content index) kids)) := by
  intro found
  by_cases mine : memory.service_name = command.content index
  · have here : Named (command.content index) memory.label := Named_iff.mpr mine
    have absent : ¬ (tree kids).labels.any (Named (command.content index)) := unique.absent here
    have there : found = true := by
      show (memory.label :: (tree kids).labels).any _ = true
      rw [List.any_cons, here, Bool.true_or]
    refine ⟨.pure (none, command), fun _ => _, (none, command), finds_self finds mine, ?_, ?_⟩
    · rw [route_absent absent]
      exact .pure _
    · rw [there, toward_absent absent]
      rfl
  · have stranger : Named (command.content index) memory.label = false := decide_eq_false mine
    obtain ⟨service, type, same, success, yields⟩ :=
      searches command.type [] governs.distinct kids.crew_quiet
    refine ⟨_, _, (service, command.typed type), finds_below finds mine, ?_, ?_⟩
    · rw [governs.listed]
      exact yields
    · show Services.found memory index service (command.typed type) = _
      rw [found_eq same success, toward_isSome]
      show _ = (reply memory (command.typed (findAnswer (List.any _ _)))).bind _
      rw [List.any_cons, stranger, Bool.false_or]

theorem serve_finds_ends (finds : Finds command index) (type : command.type = .exchange)
    (governs : Governs memory.child kids) (other : memory.service_name ≠ .Manager)
    (unique : Unique (memory.label :: (tree kids).labels))
    (searches : FindSearches command index kids) :
    Ends machine searching (serve memory command) kids.crew []
      (some (command.typed (findAnswer
        ((memory.label :: (tree kids).labels).any (Named (command.content index))))))
      (some (memory.lead index (toward (command.content index) kids),
        route index (command.content index) kids)) := by
  obtain ⟨prog, next, value, same, yields, ends⟩ := finds_splits finds governs unique searches
  have stranger := Memory.not_manager other
  have silent : ¬ announces memory command := by
    rw [announces, type]
    simp [finds.silent, stranger]
  rw [serve_exchange type, announce, if_neg silent, Prog.pure_bind, exchange, if_neg stranger,
    if_neg (by simp [finds.silent]), finds.target, same]
  refine yields.finish ?_
  rw [ends]
  exact reply_ends other _ _

theorem finds_manager (finds : Finds command index) (manages : Manages memory kids)
    (unique : Unique (memory.label :: (tree kids).labels))
    (searches : FindSearches command index kids) :
    Yields machine searching (Services.finds memory command index) kids.crew
      (route index (command.content index) kids).crew []
      (memory.lead index (toward (command.content index) kids)) := by
  obtain ⟨prog, next, value, same, yields, ends⟩ := finds_splits finds manages.governs unique searches
  rw [same]
  refine yields.map ?_
  rw [ends, reply, if_pos (Memory.manager manages.name)]
  exact .pure _

theorem find_searches (finds : Finds command index) {grove : Grove Memory} (sound : Sound grove)
    (unique : Unique (tree grove).labels) : FindSearches command index grove := by
  induction grove with
  | nil =>
      intro type before _ _
      exact ⟨none, type, rfl, nofun, .pure _⟩
  | cons link memory kids rest kids_ih rest_ih =>
      obtain ⟨other, governs, inner, outer⟩ := sound
      have parts : Unique ((memory.label :: (tree kids).labels) ++ (tree rest).labels) := unique
      have below : Unique (tree kids).labels := Unique.below parts.left
      let target := command.content index
      let memory' := memory.lead index (toward target kids)
      let kids' := route index target kids
      let found := (memory.label :: (tree kids).labels).any (Named target)
      have finds' : Finds (command.typed .exchange) index := ⟨finds.target, finds.silent⟩
      have served : Ends machine searching (serve memory (command.typed .exchange)) kids.crew []
          (some (command.typed (findAnswer found))) (some (memory', kids')) :=
        serve_finds_ends finds' rfl governs other parts.left (kids_ih inner below)
      obtain ⟨steps, runs⟩ := served
      intro type before distinct quiet
      by_cases here : found
      · have beside : ¬ (tree rest).labels.any (Named target) := parts.apart here
        rw [here] at runs
        refine ⟨some ⟨memory.service_name, link⟩, .find_success, (if_pos here).symm, fun _ => rfl, ?_⟩
        rw [route, route_absent beside, ← List.append_nil []]
        exact Yields.ask distinct quiet runs (.pure _)
      · have absent : found = false := Bool.eq_false_iff.mpr here
        have moved : ∀ others : Grove Memory, before ++ (Grove.cons link memory' kids' others).crew =
            (before ++ [(link, .quiet memory' kids')]) ++ (others.crew : Crew Command Memory Lane) := by
          intro others
          rw [List.append_assoc]
          rfl
        rw [absent] at runs
        obtain ⟨service, type', same, success, yields⟩ := rest_ih outer parts.right .find_failed
          (before ++ [(link, .quiet memory' kids')]) (by rw [← moved]; exact distinct.replace)
          (by rw [← moved]; exact quiet.replace rfl)
        refine ⟨service, type', same.trans (if_neg here).symm, success, ?_⟩
        rw [← moved, ← moved] at yields
        rw [← List.append_nil []]
        exact Yields.ask distinct quiet runs yields

end SysProg.Services
