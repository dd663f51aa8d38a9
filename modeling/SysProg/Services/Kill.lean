import SysProg.Services.Manager

namespace SysProg.Services

/-! # `kill` -/

open Process Data Transition

variable {memory : Memory} {command : Command} {kids : Grove Memory}

/-- The lines of services that are sent `suicide`: a service prints when the name in the
message, which `suicide` itself does not set, happens to be its own. -/
def doomed (command : Command) : Grove Memory → List Line
  | .nil => []
  | .cons _ memory kids rest =>
      (if command.content0 = memory.service_name then [heard command memory.label] else []) ++
        doomed memory.birth.suicide_child kids ++ doomed command rest

def fallen : Grove Memory → Crew Command Memory Lane
  | .nil => []
  | .cons link _ _ rest => (link, .gone) :: fallen rest

theorem fallen_gone (grove : Grove Memory) : (fallen grove).Gone := by
  induction grove with
  | nil => exact fun _ inside => nomatch inside
  | cons link memory kids rest _ ih =>
      intro post inside
      cases List.mem_cons.mp inside with
      | inl same => exact same ▸ rfl
      | inr later => exact ih post later

theorem doomed_heard (kids : Grove Memory) (command : Command) : Heard (doomed command kids) := by
  induction kids generalizing command with
  | nil => exact .nil
  | cons link memory kids rest kids_ih rest_ih =>
      refine Heard.append (Heard.append ?_ (kids_ih _)) (rest_ih _)
      split
      · exact .cons command memory.label .nil
      · exact .nil

theorem serve_suicide (type : command.type = .suicide) :
    serve memory command = (announce memory command).bind fun _ => suicide memory := by
  rw [serve_some (by rw [type]; nofun)]
  congr 1
  funext _
  rw [handle, type]

theorem announce_suicide_yields {crew : Crew Command Memory Lane} (quiet : crew.Quiet)
    (type : command.type = .suicide) :
    Yields machine searching (announce memory command) crew crew
      (printed (if command.content0 = memory.service_name then [heard command memory.label] else []))
      () := by
  by_cases mine : command.content0 = memory.service_name
  · have announced : announces memory command := by
      rw [announces, type]
      exact decide_eq_true mine.symm
    rw [if_pos mine]
    exact announce_yields quiet announced
  · have silent : ¬ announces memory command := by
      rw [announces, type]
      simpa using Ne.symm mine
    rw [if_neg mine, announce, if_neg silent]
    exact .pure ()

structure Suicide (answer : Command) (size : Nat) : Prop where
  type : answer.type = .suicide_success
  killed : answer.killed = size

/-- The children of a service that kills itself are all gone. -/
def Falls (grove : Grove Memory) : Prop :=
  ∀ (send_child receive_child : Command) (num_killed : Int) (before : Crew Command Memory Lane),
    before.Gone → (before ++ grove.crew).Distinct →
    Yields machine searching (suicideChildren send_child (entries grove) receive_child num_killed)
      (before ++ grove.crew) (before ++ fallen grove) (printed (doomed send_child grove))
      (num_killed + (tree grove).labels.length)

theorem serve_suicide_ends (type : command.type = .suicide) (governs : Governs memory.child kids)
    (other : memory.service_name ≠ .Manager) (falls : Falls kids) :
    ∃ answer, Suicide answer ((tree kids).labels.length + 1) ∧
      Ends machine searching (serve memory command) kids.crew
        (printed ((if command.content0 = memory.service_name then [heard command memory.label] else []) ++
          doomed memory.birth.suicide_child kids)) (some answer) none := by
  let size : Int := 1 + (tree kids).labels.length
  refine ⟨{ memory.birth.suicide_parent.typed .suicide_success with killed := size }, ⟨rfl, ?_⟩, ?_⟩
  · show size = _
    omega
  · rw [serve_suicide type, printed_append]
    refine (announce_suicide_yields kids.crew_quiet type).ends ?_
    have none : Crew.Gone ([] : Crew Command Memory Lane) := fun _ inside => nomatch inside
    have dead := falls memory.birth.suicide_child memory.birth.suicide_received 1 [] none governs.distinct
    rw [← governs.listed] at dead
    refine dead.finish ?_
    rw [leave, if_neg (Memory.not_manager other)]
    exact .of_runs (.leave _ (fallen_gone kids))

theorem falls {grove : Grove Memory} (sound : Sound grove) : Falls grove := by
  induction grove with
  | nil =>
      intro send_child receive_child num_killed before _ _
      have same : num_killed + ((tree .nil).labels.length : Int) = num_killed := Int.add_zero _
      rw [same]
      exact .pure num_killed
  | cons link memory kids rest kids_ih rest_ih =>
      obtain ⟨other, governs, inner, outer⟩ := sound
      intro send_child receive_child num_killed before gone distinct
      have type : (send_child.typed .suicide).type = .suicide := rfl
      obtain ⟨answer, suicide, steps, runs⟩ := serve_suicide_ends type governs other (kids_ih inner)
      let child : Link × Status Command Memory Lane := (link, .gone)
      have moved : before ++ (link, .gone) :: (rest.crew : Crew Command Memory Lane) =
          (before ++ [child]) ++ rest.crew := by
        rw [List.append_assoc, List.singleton_append]
      have moved' : before ++ fallen (.cons link memory kids rest) =
          (before ++ [child]) ++ fallen rest := by
        rw [List.append_assoc, List.singleton_append]
        rfl
      have gone' : Crew.Gone (before ++ [child]) := by
        intro post inside
        cases List.mem_append.mp inside with
        | inl left => exact gone post left
        | inr right => rw [List.mem_singleton.mp right]
      have count : num_killed + ((tree (.cons link memory kids rest)).labels.length : Int) =
          num_killed + answer.killed + (tree rest).labels.length := by
        rw [suicide.killed, tree, Branches.labels, List.length_cons, List.length_append]
        omega
      have onward := rest_ih outer send_child answer (num_killed + answer.killed) (before ++ [child])
        gone' (moved ▸ distinct.replace)
      rw [← moved, ← moved'] at onward
      have still : ∀ post ∈ before ++ (rest.crew : Crew Command Memory Lane), post.2.Still :=
        gone.still.append rest.crew_still
      have quiet : (before ++ (Grove.cons link memory kids rest).crew).Quiet :=
        (gone.still.append (Grove.crew_still _)).quiet
      rw [count, doomed, printed_append]
      exact Yields.ask distinct quiet runs (Yields.wait still onward)

/-- The lines of services among which the target of a `kill` is searched. -/
def killLines (command : Command) : Grove Memory → List Line
  | .nil => []
  | .cons _ memory kids rest =>
      heard command memory.label ::
        if Named command.content0 memory.label then doomed memory.birth.suicide_child kids
        else killLines command kids ++
          if (tree kids).labels.any (Named command.content0) then [] else killLines command rest

theorem killLines_heard (command : Command) (kids : Grove Memory) :
    Heard (killLines command kids) := by
  induction kids with
  | nil => exact .nil
  | cons link memory kids rest kids_ih rest_ih =>
      rw [killLines]
      refine .cons command memory.label ?_
      split
      · exact doomed_heard kids _
      · refine kids_ih.append ?_
        split
        · exact .nil
        · exact rest_ih

/-- What a `kill` makes of services that are asked one after the other. -/
structure Killed (command : Command) (before after : Grove Memory) : Prop where
  kept : (entries after).Sublist (entries before)
  tree : tree after = (tree before).prune (Named command.content0)
  sound : Sound after
  clear : Clear before → Clear after

structure KillTold (found : Bool) (size : Nat) (receive_child receive_child' : Command) : Prop where
  killed : found → receive_child'.type ≠ .kill_failed ∧ receive_child'.killed = size
  failed : ¬ found → receive_child.type = .kill_failed → receive_child'.type = .kill_failed

/-- The loop over these services, behind others, kills the target if it is there. -/
def KillSearches (command : Command) (grove : Grove Memory) : Prop :=
  ∃ grove', Killed command grove grove' ∧
    ∀ (before : Crew Command Memory Lane) (passed : List Service) (receive_child : Command),
      before.Still → (before ++ grove.crew).Distinct →
      ∃ receive_child',
        KillTold ((tree grove).labels.any (Named command.content0))
          ((tree grove).branch (Named command.content0)).length receive_child receive_child' ∧
        Yields machine searching (killChildren command passed (entries grove) receive_child)
          (before ++ grove.crew) (before ++ grove'.crew) (printed (killLines command grove))
          ((tree grove).labels.any (Named command.content0), passed ++ entries grove', receive_child')

/-- What a `kill` makes of a service that survives it. -/
structure Loses (command : Command) (memory memory' : Memory) (kids kids' : Grove Memory) : Prop where
  label : memory'.label = memory.label
  registers : memory.Clear → memory'.Clear
  tree : tree kids' = (tree kids).prune (Named command.content0)
  governs : Governs memory'.child kids'
  sound : Sound kids'
  clear : Clear kids → Clear kids'

def killAnswer (found : Bool) : CommandType := if found then .kill_success else .kill_failed

theorem tryKill_yields (governs : Governs memory.child kids) (searches : KillSearches command kids) :
    let found := (tree kids).labels.any (Named command.content0)
    let size := ((tree kids).branch (Named command.content0)).length
    ∃ memory' kids', Loses command memory memory' kids kids' ∧
      KillTold found size (command.typed .kill_failed) memory'.receive_child ∧
      memory'.send_parent = memory'.receive_child.typed (killAnswer found) ∧
      Yields machine searching (tryKill memory command) kids.crew kids'.crew
        (printed (killLines command kids)) memory' := by
  intro found size
  obtain ⟨kids', killed, search⟩ := searches
  have none : Crew.Still ([] : Crew Command Memory Lane) := fun _ inside => nomatch inside
  obtain ⟨receive_child, told, yields⟩ :=
    search [] [] (command.typed .kill_failed) none governs.distinct
  let memory' := ((memory.setChild (entries kids')).setReceived receive_child).setAnswer
    (receive_child.typed (killAnswer found))
  refine ⟨memory', kids', ⟨rfl, id, killed.tree, governs.sublist killed.kept, killed.sound, killed.clear⟩,
    told, rfl, ?_⟩
  rw [tryKill, governs.listed]
  exact yields.map (.pure memory')

theorem serve_kill (type : command.type = .kill) :
    serve memory command = (announce memory command).bind fun _ => kill memory command := by
  rw [serve_some (by rw [type]; nofun)]
  congr 1
  funext _
  rw [handle, type]

theorem serve_kill_ends (type : command.type = .kill) (governs : Governs memory.child kids)
    (other : memory.service_name ≠ .Manager) (stranger : memory.service_name ≠ command.content0)
    (searches : KillSearches command kids) :
    let found := (tree kids).labels.any (Named command.content0)
    ∃ memory' kids' answer, Loses command memory memory' kids kids' ∧
      answer.type = killAnswer found ∧
      (found → answer.killed = (((tree kids).branch (Named command.content0)).length : Int)) ∧
      Ends machine searching (serve memory command) kids.crew
        (printed (heard command memory.label :: killLines command kids)) (some answer)
        (some (memory', kids')) := by
  intro found
  obtain ⟨memory', kids', loses, told, answer, yields⟩ := tryKill_yields governs searches
  have announced : announces memory command := by rw [announces, type]
  have other' : memory'.service_name ≠ .Manager := by
    have same : memory'.service_name = memory.service_name := congrArg Prod.fst loses.label
    rw [same]
    exact other
  refine ⟨memory', kids', memory'.send_parent, loses, ?_, ?_, ?_⟩
  · rw [answer]
    rfl
  · intro here
    rw [answer]
    exact (told.killed here).2
  · rw [serve_kill type]
    refine (announce_yields kids.crew_quiet announced).ends ?_
    rw [kill, if_neg stranger]
    refine yields.finish ?_
    rw [reportKill, if_neg (Memory.not_manager other')]
    exact .of_runs (.reply memory'.send_parent memory' kids')

variable {link : Link} {rest : Grove Memory}

theorem kill_target (governs : Governs memory.child kids) (sound : Sound kids)
    (other : memory.service_name ≠ .Manager) (mine : command.content0 = memory.service_name)
    (services : List Service) (before : Crew Command Memory Lane) (passed : List Service)
    (receive_child : Command) (still : before.Still)
    (distinct : (before ++ (Grove.cons link memory kids rest).crew).Distinct) :
    ∃ receive_child', Suicide receive_child' ((tree kids).labels.length + 1) ∧
      Yields machine searching
        (killChildren command passed (⟨memory.service_name, link⟩ :: services) receive_child)
        (before ++ (Grove.cons link memory kids rest).crew) (before ++ rest.crew)
        (printed (heard command memory.label :: doomed memory.birth.suicide_child kids))
        (true, passed ++ services, receive_child') := by
  have type : (command.typed .suicide).type = .suicide := rfl
  obtain ⟨answer, suicide, steps, runs⟩ := serve_suicide_ends type governs other (falls sound)
  have hears : (command.typed .suicide).content0 = memory.service_name := mine
  rw [if_pos hears] at runs
  have quiet : (before ++ (Grove.cons link memory kids rest).crew).Quiet :=
    (still.append (Grove.crew_still _)).quiet
  have others : ∀ post ∈ before, post.1 ≠ link :=
    fun post inside same => distinct.reader post inside (congrArg Link.read_fd same)
  refine ⟨answer, suicide, ?_⟩
  rw [killChildren, if_pos mine, ← List.append_nil (printed _)]
  refine Yields.ask distinct quiet runs (Yields.wait (still.append rest.crew_still) ?_)
  exact Yields.close others (.pure _)

theorem kill_passed {memory' : Memory} {kids' : Grove Memory} {answer : Command}
    {calls more : List Call} {services : List Service} {before last : Crew Command Memory Lane}
    {passed : List Service} {receive_child : Command} {value : Bool × List Service × Command}
    (stranger : command.content0 ≠ memory.service_name) (still : before.Still)
    (distinct : (before ++ (Grove.cons link memory kids rest).crew).Distinct)
    (served : Ends machine searching (serve memory command) kids.crew calls (some answer)
      (some (memory', kids')))
    (continues : Yields machine searching
      (if answer.type = .kill_success then
          .pure (true, passed ++ ⟨memory.service_name, link⟩ :: services, answer)
        else killChildren command (passed ++ [⟨memory.service_name, link⟩]) services answer)
      (before ++ (Grove.cons link memory' kids' rest).crew) last more value) :
    Yields machine searching
      (killChildren command passed (⟨memory.service_name, link⟩ :: services) receive_child)
      (before ++ (Grove.cons link memory kids rest).crew) last (calls ++ more) value := by
  obtain ⟨steps, runs⟩ := served
  have quiet : (before ++ (Grove.cons link memory kids rest).crew).Quiet :=
    (still.append (Grove.crew_still _)).quiet
  rw [killChildren, if_neg stranger]
  exact Yields.ask distinct quiet runs continues

theorem kill_searches (type : command.type = .kill) {grove : Grove Memory} (sound : Sound grove) :
    KillSearches command grove := by
  induction grove with
  | nil =>
      refine ⟨.nil, ⟨.refl _, rfl, trivial, id⟩, fun before passed receive_child _ _ => ?_⟩
      refine ⟨receive_child, ⟨fun found => absurd found Bool.false_ne_true, fun _ => id⟩, ?_⟩
      rw [entries, List.append_nil]
      exact .pure _
  | cons link memory kids rest kids_ih rest_ih =>
      obtain ⟨other, governs, inner, outer⟩ := sound
      by_cases mine : command.content0 = memory.service_name
      · have named : Named command.content0 memory.label = true := decide_eq_true mine.symm
        refine ⟨rest, ⟨?_, ?_, outer, fun clear => clear.2.2⟩, ?_⟩
        · exact List.sublist_cons_self _ _
        · rw [tree, Branches.prune, if_pos named]
        · intro before passed receive_child still distinct
          obtain ⟨answer, suicide, yields⟩ :=
            kill_target governs inner other mine (entries rest) before passed receive_child still distinct
          refine ⟨answer, ⟨fun _ => ⟨?_, ?_⟩, fun absent => ?_⟩, ?_⟩
          · rw [suicide.type]
            simp
          · rw [suicide.killed, tree, Branches.branch, if_pos named]
            rfl
          · simp [tree, Branches.labels, named] at absent
          · rw [killLines, if_pos named]
            have here : (tree (.cons link memory kids rest)).labels.any (Named command.content0) = true := by
              rw [tree, Branches.labels, List.any_cons, named, Bool.true_or]
            rw [here]
            exact yields
      · have named : Named command.content0 memory.label = false := decide_eq_false (Ne.symm mine)
        have stranger : ¬ Named command.content0 memory.label := Bool.eq_false_iff.mp named
        obtain ⟨memory', kids', answer, loses, said, counted, ends⟩ :=
          serve_kill_ends type governs other (Ne.symm mine) (kids_ih inner)
        have same : memory'.service_name = memory.service_name := congrArg Prod.fst loses.label
        have other' : memory'.service_name ≠ .Manager := same ▸ other
        by_cases found : (tree kids).labels.any (Named command.content0)
        · have answered : answer.type = .kill_success := by
            rw [said, killAnswer, if_pos found]
          have here : (tree (.cons link memory kids rest)).labels.any (Named command.content0) = true := by
            rw [tree, Branches.labels, List.any_cons, List.any_append, found, Bool.true_or, Bool.or_true]
          refine ⟨.cons link memory' kids' rest, ⟨?_, ?_, ?_, ?_⟩, ?_⟩
          · rw [entries, entries, same]
          · rw [tree, tree, Branches.prune, if_neg stranger, if_pos found, loses.tree, loses.label]
          · exact ⟨other', loses.governs, loses.sound, outer⟩
          · exact fun clear => ⟨loses.registers clear.1, loses.clear clear.2.1, clear.2.2⟩
          · intro before passed receive_child still distinct
            refine ⟨answer, ⟨fun _ => ⟨?_, ?_⟩, fun absent => absurd here absent⟩, ?_⟩
            · rw [answered]
              simp
            · rw [counted found, tree, Branches.branch, if_neg stranger, if_pos found]
            · rw [killLines, if_neg stranger, if_pos found, here, List.append_nil, entries, entries,
                same, ← List.append_nil (printed _)]
              refine kill_passed mine still distinct ends ?_
              rw [if_pos answered]
              exact .pure _
        · have answered : answer.type = .kill_failed := by
            rw [said, killAnswer, if_neg found]
          have further : ¬ answer.type = .kill_success := by
            rw [answered]
            simp
          have there : (tree (.cons link memory kids rest)).labels.any (Named command.content0) =
              (tree rest).labels.any (Named command.content0) := by
            rw [tree, Branches.labels, List.any_cons, List.any_append, named,
              Bool.eq_false_iff.mpr found, Bool.false_or, Bool.false_or]
          obtain ⟨rest', killed, search⟩ := rest_ih outer
          refine ⟨.cons link memory' kids' rest', ⟨?_, ?_, ?_, ?_⟩, ?_⟩
          · rw [entries, entries, same]
            exact killed.kept.cons_cons _
          · rw [tree, tree, Branches.prune, if_neg stranger, if_neg found, loses.tree, loses.label,
              Branches.prune_absent found, killed.tree]
          · exact ⟨other', loses.governs, loses.sound, killed.sound⟩
          · exact fun clear => ⟨loses.registers clear.1, loses.clear clear.2.1, killed.clear clear.2.2⟩
          · intro before passed receive_child still distinct
            let child : Link × Status Command Memory Lane := (link, .quiet memory' kids')
            have moved : ∀ others : Grove Memory, before ++ (Grove.cons link memory' kids' others).crew =
                (before ++ [child]) ++ others.crew := by
              intro others
              rw [List.append_assoc, List.singleton_append]
              rfl
            have still' : Crew.Still (before ++ [child]) :=
              still.append fun post inside => by rw [List.mem_singleton.mp inside]; trivial
            have distinct' : ((before ++ [child]) ++ rest.crew).Distinct := by
              rw [← moved]
              exact distinct.replace
            obtain ⟨receive_child', told, yields⟩ := search (before ++ [child])
              (passed ++ [⟨memory.service_name, link⟩]) answer still' distinct'
            rw [there]
            refine ⟨receive_child', ⟨fun here => ?_, fun absent _ => told.failed absent answered⟩, ?_⟩
            · rw [tree, Branches.branch, if_neg stranger, if_neg found]
              exact told.killed here
            · have listed : passed ++ entries (.cons link memory' kids' rest') =
                  (passed ++ [⟨memory.service_name, link⟩]) ++ entries rest' := by
                rw [List.append_assoc, List.singleton_append, entries, same]
              rw [killLines, if_neg stranger, if_neg found, ← List.cons_append, printed_append, listed]
              refine kill_passed mine still distinct ends ?_
              rw [if_neg further, moved, moved]
              exact yields

/-! ## The Manager -/

def killReport (command : Command) (found : Bool) (size : Nat) : Line :=
  if found then .killed command.content0 (size - 1) else .not_exist command.content0

theorem reportKill_manager (manager : memory.service_name = .Manager) {found : Bool} {size : Nat}
    (told : KillTold found size (command.typed .kill_failed) memory.receive_child)
    (kids : Grove Memory) :
    Ends machine searching (reportKill memory command) kids.crew
      (printed [killReport command found size]) none (some (memory, kids)) := by
  have tells : tellKill memory.receive_child command = print (killReport command found size) := by
    cases found with
    | false => rw [tellKill, if_pos (told.failed nofun rfl)]; rfl
    | true =>
        obtain ⟨success, counted⟩ := told.killed rfl
        rw [tellKill, if_neg success, counted]
        rfl
  rw [reportKill, if_pos (Memory.manager manager), tells]
  exact (print_yields kids.crew_quiet _).finish (.of_runs (.pure memory kids))

theorem serve_kill_manager (type : command.type = .kill) (manages : Manages memory kids)
    (other : command.content0 ≠ .Manager) :
    let found := (tree kids).labels.any (Named command.content0)
    let size := ((tree kids).branch (Named command.content0)).length
    ∃ memory' kids', Loses command memory memory' kids kids' ∧
      Ends machine searching (serve memory command) kids.crew
        (printed (heard command memory.label :: killLines command kids ++
          [killReport command found size])) none (some (memory', kids')) := by
  intro found size
  obtain ⟨name, governs, sound⟩ := manages
  obtain ⟨memory', kids', loses, told, _, yields⟩ :=
    tryKill_yields governs (kill_searches type sound)
  have name' : memory'.service_name = .Manager := (congrArg Prod.fst loses.label).trans name
  have announced : announces memory command := by rw [announces, type]
  have stranger : memory.service_name ≠ command.content0 := name.trans_ne other.symm
  refine ⟨memory', kids', loses, ?_⟩
  rw [serve_kill type, List.cons_append, ← List.singleton_append, printed_append]
  refine (announce_yields kids.crew_quiet announced).ends ?_
  rw [kill, if_neg stranger, printed_append]
  exact yields.ends (reportKill_manager name' told kids')

theorem serve_kill_all (type : command.type = .kill) (manages : Manages memory kids)
    (mine : command.content0 = .Manager) :
    Ends machine searching (serve memory command) kids.crew
      (printed (heard command memory.label :: doomed memory.birth.suicide_child kids ++
        [.killed command.content0 (tree kids).labels.length])) none none := by
  obtain ⟨name, governs, sound⟩ := manages
  have announced : announces memory command := by rw [announces, type]
  have self : memory.service_name = command.content0 := name.trans mine.symm
  have none : Crew.Gone ([] : Crew Command Memory Lane) := fun _ inside => nomatch inside
  have dead := falls sound memory.birth.suicide_child memory.birth.suicide_received 1 [] none governs.distinct
  rw [← governs.listed] at dead
  have count : (1 + (tree kids).labels.length - 1 : Int) = (tree kids).labels.length := by omega
  rw [serve_kill type, List.cons_append, ← List.singleton_append, printed_append]
  refine (announce_yields kids.crew_quiet announced).ends ?_
  rw [kill, if_pos self, printed_append]
  refine dead.ends ?_
  rw [leave, if_pos (Memory.manager name), count, self]
  show Ends machine searching ((print _).bind fun _ => .exit) _ _ _ _
  exact (print_yields (fallen_gone kids).still.quiet _).finish (.of_runs (.exit (fallen_gone kids)))

theorem whole_stranger {target : Name} (manages : Manages memory kids) (other : target ≠ .Manager) :
    ¬ Named target memory.label := by
  rw [Named, decide_eq_true_eq]
  exact fun same => other (same.symm.trans manages.name)

/-- What every run of a `kill` below the Manager comes to. -/
theorem kill_until (world : World) (link : Link) (later : List Command)
    (manages : Manages memory kids) {target : Name} (other : target ≠ .Manager) :
    let command := read_and_split (.kill target)
    let start := (world, waiting link memory kids (command :: later))
    let found := (whole memory kids).labels.any (Named target)
    let size := ((whole memory kids).branch (Named target)).length
    ∃ memory' kids' lines, Manages memory' kids' ∧ (memory.Clear → memory'.Clear) ∧
      (Clear kids → Clear kids') ∧ Heard lines ∧
      whole memory' kids' = (whole memory kids).prune (Named target) ∧
      Until (Moves machine) (fun state => state.2.Busy ∨ state = start)
        (fun state => state = (world.say (lines ++ [killReport command found size]),
          waiting link memory' kids' later))
        start := by
  intro command start found size
  have type : command.type = .kill := rfl
  have stranger := whole_stranger manages other
  obtain ⟨memory', kids', loses, ends⟩ := serve_kill_manager type manages other
  have name' := (congrArg Prod.fst loses.label).trans manages.name
  have below : (tree kids).labels.any (Named target) = found := by
    show _ = (whole memory kids).labels.any _
    rw [whole, Branches.labels_single, List.any_cons, Bool.eq_false_iff.mpr stranger, Bool.false_or]
  have counted : killReport command found ((tree kids).branch (Named target)).length =
      killReport command found size := by
    by_cases here : found
    · have there : (tree kids).labels.any (Named target) := below.trans here
      show _ = killReport command found ((whole memory kids).branch (Named target)).length
      rw [whole, Branches.branch, if_neg stranger, if_pos there]
    · rw [killReport, killReport, if_neg here, if_neg here]
  refine ⟨memory', kids', _, ⟨name', loses.governs, loses.sound⟩, loses.registers, loses.clear,
    .cons command memory.label (killLines_heard command kids), ?_, ?_⟩
  · rw [whole, whole, Branches.prune, if_neg stranger, loses.label, loses.tree]
    split
    · rfl
    · rename_i absent
      have nothing : (tree kids).prune (Named target) = tree kids := Branches.prune_absent absent
      show Branches.cons _ ((tree kids).prune (Named target)) .nil = _
      rw [nothing]
      rfl
  · rw [← counted, ← below]
    exact served_until ends (printed_calls _ world)

/-- After a `kill` the tree of the first service with the name is gone, and the Manager
tells how many services were below it; the whole tree goes if this is the Manager itself; if
there is no such service, nothing has changed, and the Manager says that. -/
theorem kill_removes (world : World) (link : Link) (later : List Command)
    (manages : Manages memory kids) (target : Name) :
    let command := read_and_split (.kill target)
    let start := (world, waiting link memory kids (command :: later))
    let labels := (whole memory kids).labels
    let size := ((whole memory kids).branch (Named target)).length
    Until (Moves machine) (fun state => state.2.Busy ∨ state = start)
      (fun state => ∃ lines report, Heard lines ∧
        state.1 = world.say (lines ++ [report]) ∧
        if target = .Manager then
          report = .killed .Manager (labels.length - 1) ∧ Over link later state.2
        else
          ∃ memory' kids', state.2 = waiting link memory' kids' later ∧ Manages memory' kids' ∧
            if labels.any (Named target) then
              report = .killed target (size - 1) ∧
              whole memory' kids' = (whole memory kids).prune (Named target)
            else
              report = .not_exist target ∧ whole memory' kids' = whole memory kids)
      start := by
  intro command start labels size
  have type : command.type = .kill := rfl
  have lists : labels.length = (tree kids).labels.length + 1 := by
    show (whole memory kids).labels.length = _
    rw [whole, Branches.labels_single, List.length_cons]
  by_cases all : target = .Manager
  · have ends := serve_kill_all type manages all
    refine (exits_until ends (printed_calls _ world)).mono (fun _ => id) ?_
    intro state reached
    obtain ⟨said, gone⟩ := reached
    refine ⟨_, _, .cons command memory.label (doomed_heard kids _), said, ?_⟩
    · rw [if_pos all, lists]
      refine ⟨?_, gone⟩
      subst all
      have count : (((tree kids).labels.length + 1 : Nat) : Int) - 1 = (tree kids).labels.length := by omega
      rw [count]
      rfl
  · obtain ⟨memory', kids', lines, manages', _, _, heard, pruned, goal⟩ :=
      kill_until world link later manages all
    refine goal.mono (fun _ => id) ?_
    intro state same
    obtain rfl := same
    refine ⟨lines, _, heard, rfl, ?_⟩
    rw [if_neg all]
    refine ⟨memory', kids', rfl, manages', ?_⟩
    by_cases found : labels.any (Named target)
    · have there : (whole memory kids).labels.any (Named target) := found
      rw [if_pos found, killReport, if_pos there]
      exact ⟨rfl, pruned⟩
    · have absent : ¬ (whole memory kids).labels.any (Named target) := found
      rw [if_neg found, killReport, if_neg absent, pruned, Branches.prune_absent absent]
      exact ⟨rfl, rfl⟩

theorem kill_removes_below :
    let command := read_and_split (.kill .A)
    let start := (World.blank, waiting ⟨0, 1⟩ .root leaf [command])
    Until (Moves machine) (fun state => state.2.Busy ∨ state = start)
      (fun state => ∃ memory' kids' lines, state.2 = waiting ⟨0, 1⟩ memory' kids' [] ∧
        whole memory' kids' = .cons (.Manager, 7) .nil .nil ∧
        state.1.out = lines ++ [.killed .A 0])
      start := by
  intro command start
  refine (kill_removes .blank ⟨0, 1⟩ [] .small .A).mono (fun _ => id) ?_
  intro state reached
  obtain ⟨lines, report, _, said, result⟩ := reached
  have other : Name.A ≠ .Manager := by decide
  have found : (whole .root leaf).labels.any (Named .A) := by decide
  rw [if_neg other] at result
  obtain ⟨memory', kids', waits, _, result⟩ := result
  rw [if_pos found] at result
  obtain ⟨rfl, placed⟩ := result
  exact ⟨memory', kids', lines, waits, placed, congrArg World.out said⟩

end SysProg.Services
