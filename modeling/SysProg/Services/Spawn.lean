import SysProg.Services.Manager

namespace SysProg.Services

/-! # `spawn` -/

open Process Data Transition

def births (service_name : Name) (birth : Birth) : List Call :=
  [(.birth, .birth birth), (.print (.born service_name birth.pid birth.secret), .unit)]

/-- The calls that a `spawn` leads to among the services with these labels. -/
def spawnCalls (command : Command) (birth : Birth) (labels : List Label) : List Call :=
  printed ((Branches.upTo (Named command.content0) labels).map (heard command)) ++
    if labels.any (Named command.content0) then births command.content1 birth else []

variable {crew : Crew Command Memory Lane} {memory : Memory} {command : Command} {birth : Birth}

theorem spawnCalls_append (first second : List Label) :
    spawnCalls command birth (first ++ second) =
      if first.any (Named command.content0) then spawnCalls command birth first
      else spawnCalls command birth first ++ spawnCalls command birth second := by
  rw [spawnCalls, Branches.upTo_append, List.any_append]
  by_cases found : first.any (Named command.content0)
  · simp [found, spawnCalls]
  · have absent : first.any (Named command.content0) = false := Bool.eq_false_iff.mpr found
    simp only [absent, Bool.false_eq_true, if_false, Bool.false_or, spawnCalls,
      Branches.upTo_absent found, printed, List.map_append, List.append_nil, List.append_assoc]

/-- What a `spawn` makes of a service and the services below it. -/
structure Adopts (command : Command) (birth : Birth) (memory memory' : Memory)
    (kids kids' : Grove Memory) : Prop where
  label : memory'.label = memory.label
  registers : memory.Clear → memory'.Clear
  tree : .cons memory.label (tree kids') .nil =
    (Branches.cons memory.label (tree kids) .nil).attach (Named command.content0)
      (command.content1, birth.secret)
  governs : Governs memory'.child kids'
  sound : Sound kids'
  clear : Clear kids → Clear kids'

/-- What a `spawn` makes of services that are asked one after the other. -/
structure Spawned (command : Command) (birth : Birth) (before after : Grove Memory) : Prop where
  entries : entries after = entries before
  tree : tree after =
    (tree before).attach (Named command.content0) (command.content1, birth.secret)
  sound : Sound after
  clear : Clear before → Clear after

theorem start_yields (quiet : crew.Quiet) (birth : Birth) :
    Yields machine searching start crew crew [(.birth, .birth birth)] birth :=
  Yields.call (quiet.apart _) (.pure birth)

def Memory.greeted (service_name : Name) (birth : Birth) : Memory :=
  (Memory.start service_name birth).setAnswer (birth.send_parent.typed .spawn_success)

theorem boot_ends {service_name : Name} (other : service_name ≠ .Manager) (birth : Birth) :
    Ends machine searching (machine.boot service_name) [] (births service_name birth)
      (some (birth.send_parent.typed .spawn_success))
      (some (.greeted service_name birth, .nil)) := by
  have quiet : Crew.Quiet ([] : Crew Command Memory Lane) := fun _ inside => nomatch inside
  have stranger : ¬ (Memory.start service_name birth).is_manager := Memory.not_manager other
  refine (start_yields quiet birth).ends ?_
  refine (print_yields quiet _).ends ?_
  rw [greet, if_neg stranger]
  exact .of_runs (.reply _ _ .nil)

theorem boot_manager_ends (birth : Birth) :
    Ends machine searching (machine.boot .Manager) [] (births .Manager birth) none
      (some (.start .Manager birth, .nil)) := by
  have quiet : Crew.Quiet ([] : Crew Command Memory Lane) := fun _ inside => nomatch inside
  have manager : (Memory.start .Manager birth).is_manager := Memory.manager rfl
  refine (start_yields quiet birth).ends ?_
  refine (print_yields quiet _).ends ?_
  rw [greet, if_pos manager]
  exact .of_runs (.pure _ .nil)

theorem serve_spawn (type : command.type = .spawn) :
    serve memory command = (announce memory command).bind fun _ => spawn memory command := by
  rw [serve_some (by rw [type]; nofun)]
  congr 1
  funext _
  rw [handle, type]

theorem reportSpawn_ends (other : memory.service_name ≠ .Manager) (kids : Grove Memory) :
    Ends machine searching (reportSpawn memory command) kids.crew [] (some memory.send_parent)
      (some (memory.denied, kids)) := by
  have quiet : ¬ memory.denied.is_manager := by
    rw [Memory.denied]
    split <;> exact Memory.not_manager other
  have silent : tellSpawn memory.denied command = .pure () := by
    rw [tellSpawn, if_neg fun both => quiet both.1, if_neg fun both => quiet both.1]
  rw [reportSpawn, silent]
  exact reply_ends other _ kids

variable {kids : Grove Memory}

theorem greeting_last {child : List Service} {service : Service}
    (listed : memory.child = child ++ [service]) :
    greeting memory = read service.link.read_fd memory.receive_child := by
  rw [greeting, listed, List.getLast?_concat]

theorem trySpawn_mine (mine : command.content0 = memory.service_name)
    (room : memory.num_child < child_len) :
    trySpawn memory command =
      .fork memory.descriptors command.content1 fun link =>
        .read link.read_fd fun got =>
          .pure (((memory.setChild (memory.child ++ [⟨command.content1, link⟩])).setReceived
            (got.getD memory.receive_child)).setAnswer
              (memory.send_parent.typed .spawn_success)) := by
  rw [trySpawn, if_pos mine, spawns, if_pos room]
  show Prog.fork _ _ _ = _
  congr 1
  funext link
  show (greeting _).bind _ = _
  rw [greeting_last rfl]
  rfl

theorem trySpawn_target (governs : Governs memory.child kids) (sound : Sound kids)
    (mine : command.content0 = memory.service_name) (fresh : command.content1 ≠ .Manager)
    (room : memory.num_child < child_len) (birth : Birth) :
    ∃ memory' kids', Adopts command birth memory memory' kids kids' ∧
      memory'.send_parent.type = .spawn_success ∧
      memory'.denied.receive_child.type = .spawn_success ∧
      Yields machine searching (trySpawn memory command) kids.crew kids'.crew
        (births command.content1 birth) memory' := by
  let link := Link.fresh (memory.descriptors ++ (kids.crew : Crew Command Memory Lane).descriptors)
  let born := Memory.greeted command.content1 birth
  let child := memory.child ++ [⟨command.content1, link⟩]
  let memory' := ((memory.setChild child).setReceived (birth.send_parent.typed .spawn_success)).setAnswer
    (memory.send_parent.typed .spawn_success)
  refine ⟨memory', kids.append (.cons link born .nil .nil), ?_, rfl, ?_, ?_⟩
  · have named : Named command.content0 memory.label := by
      rw [Named, decide_eq_true_eq]
      exact mine.symm
    constructor
    · rfl
    · exact id
    · rw [Branches.attach, if_pos named, tree_append]
      rfl
    · exact governs.adopt Lane born memory.descriptors
    · exact sound.append ⟨fresh, ⟨rfl, .nil, .nil, List.forall_mem_nil _⟩, trivial, trivial⟩
    · exact fun clear => clear.append ⟨⟨fun _ => rfl, fun _ => rfl⟩, trivial, trivial⟩
  · have some : memory'.num_child ≠ 0 := by
      show (memory.child ++ [_]).length ≠ 0
      simp
    rw [Memory.denied, if_neg some]
    rfl
  · obtain ⟨steps, served⟩ := boot_ends fresh birth
    have free : ∀ post ∈ (kids.crew : Crew Command Memory Lane), post.1.read_fd ≠ link.read_fd := by
      intro post inside same
      have listed : post.1.read_fd ∈ (entries kids).map fun service => service.link.read_fd :=
        crew_readers Lane kids ▸ List.mem_map_of_mem inside
      obtain ⟨service, member, named⟩ := List.mem_map.mp listed
      have used := (mem_descriptors Lane member).1
      exact Link.fresh_read _ (List.mem_append_right _ (same ▸ named ▸ used))
    rw [trySpawn_mine mine room, Grove.crew_append]
    exact Yields.spawn free kids.crew_quiet served (.pure memory')

/-- The loop over these services, behind others, finds the parent if it is there. -/
def SpawnSearches (command : Command) (birth : Birth) (grove : Grove Memory) : Prop :=
  ∃ grove', Spawned command birth grove grove' ∧
    ∀ (before : Crew Command Memory Lane) (receive_child : Command),
      (before ++ grove.crew).Distinct → (before ++ grove.crew).Quiet →
      ∃ receive_child',
        (grove = .nil → receive_child' = receive_child) ∧
        (grove ≠ .nil → receive_child'.type =
          spawnAnswer ((tree grove).labels.any (Named command.content0))) ∧
        Yields machine searching (spawnChildren command (entries grove) receive_child)
          (before ++ grove.crew) (before ++ grove'.crew)
          (spawnCalls command birth (tree grove).labels)
          ((tree grove).labels.any (Named command.content0), receive_child')

theorem trySpawn_yields (governs : Governs memory.child kids) (sound : Sound kids)
    (fresh : (memory.label :: (tree kids).labels).any (Named command.content0) → command.content1 ≠ .Manager)
    (room : command.content0 = memory.service_name → memory.num_child < child_len)
    (searches : command.content0 ≠ memory.service_name → SpawnSearches command birth kids) :
    ∃ memory' kids', Adopts command birth memory memory' kids kids' ∧
      memory'.send_parent.type =
        spawnAnswer ((memory.label :: (tree kids).labels).any (Named command.content0)) ∧
      memory'.denied.receive_child.type =
        spawnAnswer ((memory.label :: (tree kids).labels).any (Named command.content0)) ∧
      Yields machine searching (trySpawn memory command) kids.crew kids'.crew
        (if Named command.content0 memory.label then births command.content1 birth
          else spawnCalls command birth (tree kids).labels) memory' := by
  by_cases mine : command.content0 = memory.service_name
  · have named : Named command.content0 memory.label = true := decide_eq_true mine.symm
    have here : (memory.label :: (tree kids).labels).any (Named command.content0) := by
      rw [List.any_cons, named, Bool.true_or]
    obtain ⟨memory', kids', adopts, answer, told, yields⟩ :=
      trySpawn_target governs sound mine (fresh here) (room mine) birth
    simp only [List.any_cons, named, Bool.true_or, if_true]
    exact ⟨memory', kids', adopts, answer, told, yields⟩
  · have named : Named command.content0 memory.label = false := decide_eq_false (Ne.symm mine)
    obtain ⟨kids', spawned, search⟩ := searches mine
    obtain ⟨receive_child, _, told, yields⟩ := search [] memory.receive_child governs.distinct kids.crew_quiet
    simp only [List.any_cons, named, Bool.false_or, Bool.false_eq_true, if_false]
    let memory' := (memory.setReceived receive_child).setAnswer
      (memory.send_parent.typed (spawnAnswer ((tree kids).labels.any (Named command.content0))))
    refine ⟨memory', kids', ?_, rfl, ?_, ?_⟩
    · constructor
      · rfl
      · exact id
      · by_cases below : (tree kids).labels.any (Named command.content0)
        · rw [Branches.attach, if_neg (by simp [named]), if_pos below, spawned.tree]
        · rw [Branches.attach, if_neg (by simp [named]), if_neg below, spawned.tree,
            Branches.attach_absent below, Branches.attach]
      · exact governs.congr spawned.entries
      · exact spawned.sound
      · exact spawned.clear
    · cases kids with
      | nil =>
          have none : memory'.num_child = 0 := by
            show memory.child.length = 0
            rw [governs.listed]
            rfl
          rw [Memory.denied, if_pos none]
          rfl
      | cons link first inner rest =>
          have some : memory'.num_child ≠ 0 := by
            show memory.child.length ≠ 0
            rw [governs.listed]
            exact Nat.succ_ne_zero _
          rw [Memory.denied, if_neg some]
          exact told (by simp)
    · rw [trySpawn, if_neg mine, governs.listed]
      exact yields.map (.pure memory')

theorem spawnCalls_cons (label : Label) (labels : List Label) :
    spawnCalls command birth (label :: labels) =
      printed [heard command label] ++
        if Named command.content0 label then births command.content1 birth
        else spawnCalls command birth labels := by
  by_cases named : Named command.content0 label
  · simp [spawnCalls, printed, Branches.upTo, named]
  · simp only [spawnCalls, Branches.upTo, List.any_cons, Bool.eq_false_iff.mpr named, Bool.false_or,
      Bool.false_eq_true, if_false, printed, List.map_cons, List.map_nil, List.cons_append,
      List.nil_append]

theorem Adopts.denied {memory' : Memory} {kids' : Grove Memory}
    (adopts : Adopts command birth memory memory' kids kids') :
    Adopts command birth memory memory'.denied kids kids' := by
  rw [Memory.denied]
  split
  · exact ⟨adopts.label, adopts.registers, adopts.tree, adopts.governs, adopts.sound, adopts.clear⟩
  · exact adopts

theorem serve_spawn_ends (type : command.type = .spawn) (governs : Governs memory.child kids)
    (sound : Sound kids) (other : memory.service_name ≠ .Manager)
    (fresh : (memory.label :: (tree kids).labels).any (Named command.content0) → command.content1 ≠ .Manager)
    (room : command.content0 = memory.service_name → memory.num_child < child_len)
    (searches : command.content0 ≠ memory.service_name → SpawnSearches command birth kids) :
    ∃ memory' kids' answer, Adopts command birth memory memory' kids kids' ∧
      answer.type = spawnAnswer ((memory.label :: (tree kids).labels).any (Named command.content0)) ∧
      Ends machine searching (serve memory command) kids.crew
        (spawnCalls command birth (memory.label :: (tree kids).labels)) (some answer)
        (some (memory', kids')) := by
  obtain ⟨memory', kids', adopts, answer, _, yields⟩ :=
    trySpawn_yields governs sound fresh room searches
  have label := adopts.label
  have other' : memory'.service_name ≠ .Manager := by
    have same : memory'.service_name = memory.service_name := congrArg Prod.fst label
    rw [same]
    exact other
  have announced : announces memory command := by rw [announces, type]
  refine ⟨memory'.denied, kids', memory'.send_parent, ?_, answer, ?_⟩
  · exact adopts.denied
  · rw [serve_spawn type, spawnCalls_cons]
    refine (announce_yields kids.crew_quiet announced).ends ?_
    exact yields.finish (reportSpawn_ends other' kids')

theorem Narrow_of_attach {label : Label} {inner outer : Branches Label} {test : Label → Bool}
    {new : Label} {bound : Nat}
    (narrow : ((Branches.cons label inner outer).attach test new).Narrow bound) :
    (test label → inner.width < bound) ∧
    (¬ test label → (inner.attach test new).Narrow bound) ∧
    (¬ (label :: inner.labels).any test → (outer.attach test new).Narrow bound) := by
  rw [Branches.attach] at narrow
  by_cases meets : test label
  · rw [if_pos meets] at narrow
    have wide := narrow.1
    rw [Branches.width_append] at wide
    simp only [Branches.width] at wide
    exact ⟨fun _ => by omega, fun other => absurd meets other, fun absent => by simp [meets] at absent⟩
  · rw [if_neg meets] at narrow
    by_cases below : inner.labels.any test
    · rw [if_pos below] at narrow
      refine ⟨fun same => absurd same meets, fun _ => narrow.2.1, fun absent => ?_⟩
      rw [List.any_cons, below, Bool.or_true] at absent
      exact absurd rfl absent
    · rw [if_neg below] at narrow
      refine ⟨fun same => absurd same meets, fun _ => ?_, fun _ => narrow.2.2⟩
      rw [Branches.attach_absent below]
      exact narrow.2.1

theorem spawnChildren_round {link : Link} {memory' : Memory} {kids' : Grove Memory}
    {services : List Service} {receive_child answer : Command} {before rest last : Crew Command Memory Lane}
    {calls more : List Call} {value : Bool × Command}
    (served : Ends machine searching (serve memory command) kids.crew calls (some answer)
      (some (memory', kids')))
    (distinct : (before ++ (link, .quiet memory kids) :: rest).Distinct)
    (quiet : (before ++ (link, .quiet memory kids) :: rest).Quiet)
    (continues : Yields machine searching
      (if answer.type = .spawn_success then .pure (true, answer)
        else spawnChildren command services answer)
      (before ++ (link, .quiet memory' kids') :: rest) last more value) :
    Yields machine searching
      (spawnChildren command (⟨memory.service_name, link⟩ :: services) receive_child)
      (before ++ (link, .quiet memory kids) :: rest) last (calls ++ more) value := by
  obtain ⟨steps, runs⟩ := served
  exact Yields.ask distinct quiet runs continues

theorem spawn_searches (type : command.type = .spawn) {grove : Grove Memory} (sound : Sound grove)
    (fresh : (tree grove).labels.any (Named command.content0) → command.content1 ≠ .Manager)
    (narrow : ((tree grove).attach (Named command.content0)
      (command.content1, birth.secret)).Narrow child_len) :
    SpawnSearches command birth grove := by
  induction grove with
  | nil =>
      refine ⟨.nil, ⟨rfl, rfl, trivial, id⟩, fun before receive_child _ _ => ?_⟩
      exact ⟨receive_child, fun _ => rfl, fun some => absurd rfl some, .pure _⟩
  | cons link memory kids rest kids_ih rest_ih =>
      obtain ⟨other, governs, inner, outer⟩ := sound
      obtain ⟨here, below, beside⟩ := Narrow_of_attach narrow
      have parts : (tree (.cons link memory kids rest)).labels =
          (memory.label :: (tree kids).labels) ++ (tree rest).labels := rfl
      rw [parts, List.any_append, Bool.or_eq_true] at fresh
      have fresh_here : (memory.label :: (tree kids).labels).any (Named command.content0) →
          command.content1 ≠ .Manager := fun there => fresh (.inl there)
      have fresh_below : (tree kids).labels.any (Named command.content0) → command.content1 ≠ .Manager := by
        intro there
        refine fresh_here ?_
        rw [List.any_cons, there, Bool.or_true]
      have room : command.content0 = memory.service_name → memory.num_child < child_len := by
        intro mine
        rw [Memory.num_child, governs.listed, entries_length]
        exact here (decide_eq_true mine.symm)
      have searches : command.content0 ≠ memory.service_name → SpawnSearches command birth kids := by
        intro different
        have stranger : ¬ Named command.content0 memory.label := by
          rw [Named, decide_eq_true_eq]
          exact Ne.symm different
        exact kids_ih inner fresh_below (below stranger)
      obtain ⟨memory', kids', answer, adopts, said, ends⟩ :=
        serve_spawn_ends type governs inner other fresh_here room searches
      have named : memory'.service_name = memory.service_name := congrArg Prod.fst adopts.label
      have other' : memory'.service_name ≠ .Manager := named ▸ other
      have whole : tree (.cons link memory kids rest) =
          (Branches.cons memory.label (tree kids) .nil).append (tree rest) := rfl
      have single : (Branches.cons memory.label (tree kids') .nil).append (tree rest) =
          tree (.cons link memory' kids' rest) := by
        rw [tree, adopts.label]
        rfl
      rw [SpawnSearches, whole, Branches.labels_append, Branches.labels_single, List.any_append,
        spawnCalls_append]
      by_cases found : (memory.label :: (tree kids).labels).any (Named command.content0)
      · have answered : answer.type = .spawn_success := by
          rw [said, found]
          rfl
        rw [if_pos found, found, Bool.true_or]
        refine ⟨.cons link memory' kids' rest, ⟨?_, ?_, ?_, ?_⟩, fun before receive_child distinct quiet => ?_⟩
        · rw [entries, entries, named]
        · rw [whole, Branches.attach_append, Branches.labels_single, if_pos found, ← adopts.tree, single]
        · exact ⟨other', adopts.governs, adopts.sound, outer⟩
        · exact fun clear => ⟨adopts.registers clear.1, adopts.clear clear.2.1, clear.2.2⟩
        · refine ⟨answer, by simp, fun _ => answered, ?_⟩
          rw [← List.append_nil (spawnCalls _ _ _)]
          refine spawnChildren_round ends distinct quiet ?_
          rw [if_pos answered]
          exact .pure _
      · have absent := Bool.eq_false_iff.mpr found
        have answered : answer.type = .spawn_failed := by
          rw [said, absent]
          rfl
        have further : ¬ answer.type = .spawn_success := by
          rw [answered]
          simp
        obtain ⟨rest', spawned, search⟩ := rest_ih outer (fun there => fresh (.inr there)) (beside found)
        rw [if_neg found, absent, Bool.false_or]
        refine ⟨.cons link memory' kids' rest', ⟨?_, ?_, ?_, ?_⟩, fun before receive_child distinct quiet => ?_⟩
        · rw [entries, entries, named, spawned.entries]
        · have kept := adopts.tree
          rw [Branches.attach_absent (by rwa [Branches.labels_single])] at kept
          rw [whole, Branches.attach_append, Branches.labels_single, if_neg found, ← spawned.tree,
            ← kept, tree, adopts.label]
          rfl
        · exact ⟨other', adopts.governs, adopts.sound, spawned.sound⟩
        · exact fun clear => ⟨adopts.registers clear.1, adopts.clear clear.2.1, spawned.clear clear.2.2⟩
        · have moved : before ++ (link, .quiet memory' kids') :: (rest.crew : Crew Command Memory Lane) =
              (before ++ [(link, .quiet memory' kids')]) ++ rest.crew := by
            rw [List.append_assoc, List.singleton_append]
          have moved' : before ++ (link, .quiet memory' kids') :: (rest'.crew : Crew Command Memory Lane) =
              (before ++ [(link, .quiet memory' kids')]) ++ rest'.crew := by
            rw [List.append_assoc, List.singleton_append]
          obtain ⟨receive_child', none, told, yields⟩ :=
            search (before ++ [(link, .quiet memory' kids')]) answer (moved ▸ distinct.replace)
              (moved ▸ quiet.replace rfl)
          refine ⟨receive_child', by simp, fun _ => ?_, ?_⟩
          · cases rest with
            | nil =>
                rw [none rfl, answered]
                rfl
            | cons => exact told (by simp)
          · refine spawnChildren_round ends distinct quiet ?_
            rw [if_neg further]
            show Yields machine searching _ (before ++ (link, .quiet memory' kids') :: rest.crew)
              (before ++ (link, .quiet memory' kids') :: rest'.crew) _ _
            rw [moved, moved']
            exact yields

/-! ## The Manager -/

def spawnReport (command : Command) (found : Bool) : Line :=
  if found then .spawned command.content0 command.content1 else .not_exist command.content0

theorem reportSpawn_manager (manager : memory.service_name = .Manager) {found : Bool}
    (told : memory.denied.receive_child.type = spawnAnswer found) (kids : Grove Memory) :
    Ends machine searching (reportSpawn memory command) kids.crew
      (printed [spawnReport command found]) none (some (memory.denied, kids)) := by
  have manages : memory.denied.is_manager := by
    rw [Memory.denied]
    split <;> exact Memory.manager manager
  have tells : tellSpawn memory.denied command = print (spawnReport command found) := by
    cases found with
    | false => rw [tellSpawn, if_pos ⟨manages, told⟩]; rfl
    | true =>
        have failed : ¬ (memory.denied.is_manager ∧ memory.denied.receive_child.type = .spawn_failed) := by
          rw [told]
          nofun
        rw [tellSpawn, if_neg failed, if_pos ⟨manages, told⟩]
        rfl
  rw [reportSpawn, reply, if_pos (Memory.manager manager), tells]
  exact (print_yields kids.crew_quiet _).finish (.of_runs (.pure memory.denied kids))

theorem serve_spawn_manager (type : command.type = .spawn) (manages : Manages memory kids)
    (fresh : (whole memory kids).labels.any (Named command.content0) → command.content1 ≠ .Manager) (birth : Birth)
    (narrow : ((whole memory kids).attach (Named command.content0)
      (command.content1, birth.secret)).Narrow child_len) :
    ∃ memory' kids', Adopts command birth memory memory' kids kids' ∧
      Ends machine searching (serve memory command) kids.crew
        (spawnCalls command birth (whole memory kids).labels ++
          printed [spawnReport command ((whole memory kids).labels.any (Named command.content0))])
        none (some (memory', kids')) := by
  obtain ⟨name, governs, sound⟩ := manages
  rw [whole, Branches.labels_single] at fresh
  obtain ⟨here, below, _⟩ := Narrow_of_attach narrow
  have room : command.content0 = memory.service_name → memory.num_child < child_len := by
    intro mine
    rw [Memory.num_child, governs.listed, entries_length]
    exact here (decide_eq_true mine.symm)
  have searches : command.content0 ≠ memory.service_name → SpawnSearches command birth kids := by
    intro different
    have stranger : ¬ Named command.content0 memory.label := by
      rw [Named, decide_eq_true_eq]
      exact Ne.symm different
    refine spawn_searches type sound (fun there => fresh ?_) (below stranger)
    rw [List.any_cons, there, Bool.or_true]
  obtain ⟨memory', kids', adopts, _, told, yields⟩ :=
    trySpawn_yields governs sound fresh room searches
  have name' : memory'.service_name = .Manager := (congrArg Prod.fst adopts.label).trans name
  have announced : announces memory command := by rw [announces, type]
  refine ⟨memory'.denied, kids', adopts.denied, ?_⟩
  rw [whole, Branches.labels_single, serve_spawn type, spawnCalls_cons, List.append_assoc]
  refine (announce_yields kids.crew_quiet announced).ends ?_
  exact yields.ends (reportSpawn_manager name' told kids')

def World.spawned (world : World) (command : Command) (labels : List Label) : World :=
  let birth := world.births world.created
  let asked := world.say ((Branches.upTo (Named command.content0) labels).map (heard command))
  if labels.any (Named command.content0) then
    { asked with created := world.created + 1 }.say
      [.born command.content1 birth.pid birth.secret, .spawned command.content0 command.content1]
  else asked.say [.not_exist command.content0]

theorem spawnCalls_made (command : Command) (labels : List Label) (world : World) :
    Calls machine
      (spawnCalls command (world.births world.created) labels ++
        printed [spawnReport command (labels.any (Named command.content0))])
      world (world.spawned command labels) := by
  have asked := printed_calls ((Branches.upTo (Named command.content0) labels).map (heard command)) world
  rw [spawnCalls, List.append_assoc]
  refine asked.append ?_
  by_cases found : labels.any (Named command.content0)
  · rw [if_pos found, World.spawned, if_pos found, found]
    exact .cons rfl (printed_calls [_, _] _)
  · rw [if_neg found, World.spawned, if_neg found, Bool.eq_false_iff.mpr found]
    exact printed_calls _ _

/-- After a `spawn` the new service is the last child of the first service with the
parent's name, and the Manager says so; if there is none, nothing changes, and it says that. -/
theorem spawn_attaches (world : World) (link : Link) (later : List Command)
    (manages : Manages memory kids) (narrow : (whole memory kids).Narrow (child_len - 1))
    (parent_service new_child_service : Name) (fresh : new_child_service ≠ .Manager) :
    let command := read_and_split (.spawn parent_service new_child_service)
    let start := (world, waiting link memory kids (command :: later))
    let labels := (whole memory kids).labels
    let birth := world.births world.created
    let asked := (Branches.upTo (Named parent_service) labels).map (heard command)
    Until (Moves machine) (fun state => state.2.Busy ∨ state = start)
      (fun state => ∃ memory' kids', state.2 = waiting link memory' kids' later ∧
        Manages memory' kids' ∧
        if labels.any (Named parent_service) then
          whole memory' kids' = (whole memory kids).attach (Named parent_service)
            (new_child_service, birth.secret) ∧
          state.1.created = world.created + 1 ∧
          state.1.out = world.out ++ asked ++
            [.born new_child_service birth.pid birth.secret,
              .spawned parent_service new_child_service]
        else
          whole memory' kids' = whole memory kids ∧ state.1.created = world.created ∧
          state.1.out = world.out ++ asked ++ [.not_exist parent_service])
      start := by
  intro command start labels birth asked
  have type : command.type = .spawn := rfl
  have fresh' : command.content1 ≠ .Manager := fresh
  obtain ⟨memory', kids', adopts, ends⟩ :=
    serve_spawn_manager type manages (fun _ => fresh') birth narrow.attach
  refine (served_until ends (spawnCalls_made command labels world)).mono (fun _ => id) ?_
  intro state same
  obtain rfl := same
  have name' := (congrArg Prod.fst adopts.label).trans manages.name
  have placed : whole memory' kids' = (whole memory kids).attach (Named parent_service)
      (new_child_service, birth.secret) := by
    rw [whole, adopts.label]
    exact adopts.tree
  refine ⟨memory', kids', rfl, ⟨name', adopts.governs, adopts.sound⟩, ?_⟩
  by_cases found : labels.any (Named parent_service)
  · have there : labels.any (Named command.content0) := found
    rw [if_pos found, World.spawned, if_pos there]
    exact ⟨placed, rfl, rfl⟩
  · have absent : ¬ labels.any (Named command.content0) := found
    rw [if_neg found, World.spawned, if_neg absent]
    exact ⟨placed.trans (Branches.attach_absent found), rfl, rfl⟩

theorem spawn_attaches_below :
    let command := read_and_split (.spawn .A .B)
    let start := (World.blank, waiting ⟨0, 1⟩ .root leaf [command])
    Until (Moves machine) (fun state => state.2.Busy ∨ state = start)
      (fun state => ∃ memory' kids', state.2 = waiting ⟨0, 1⟩ memory' kids' [] ∧
        whole memory' kids' =
          .cons (.Manager, 7) (.cons (.A, 9) (.cons (.B, 7) .nil .nil) .nil) .nil ∧
        state.1.created = 1 ∧
        state.1.out = [.receive_command .Manager "spawn A B", .receive_command .A "spawn A B",
          .born .B 0 7, .spawned .A .B])
      start := by
  intro command start
  have narrow : (whole .root leaf).Narrow (child_len - 1) :=
    ⟨by decide, ⟨by decide, trivial, trivial⟩, trivial⟩
  refine (spawn_attaches .blank ⟨0, 1⟩ [] .small narrow .A .B (by decide)).mono (fun _ => id) ?_
  intro state reached
  obtain ⟨memory', kids', waits, _, result⟩ := reached
  have found : (whole .root leaf).labels.any (Named .A) := by decide
  rw [if_pos found] at result
  obtain ⟨placed, created, out⟩ := result
  exact ⟨memory', kids', waits, placed, created, out⟩

end SysProg.Services
