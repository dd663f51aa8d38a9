import Mathlib.Logic.Equiv.Basic
import SysProg.Process.Hangup
import SysProg.Services.Announce
import SysProg.Services.Quiescence

namespace SysProg.Services

open Process Data Transition

/-! # A whole session

`Town` is what the services are for: a tree of names with secrets on which `spawn`, `kill` and
`exchange` act at once, each with its report.  The processes follow it: whatever the order of
their steps, a session ends in the tree and with the reports of `Town.session`. -/

/-- What is printed beside the announcements. -/
def World.reports (world : World) : List Line := world.out.filter fun line => !line.announces

structure Town where
  services : Branches Label
  created : Nat
  reports : List Line
  closed : Bool

def secretOf (name : Name) (services : Branches Label) : UInt64 :=
  match services.labels.find? (Named name) with
  | some label => label.2
  | none => 0

def swapSecrets (service_a service_b : Name) (services : Branches Label) : Branches Label :=
  services.map fun label =>
    if label.1 = service_a then (label.1, secretOf service_b services)
    else if label.1 = service_b then (label.1, secretOf service_a services)
    else label

namespace Town

def report (town : Town) (lines : List Line) : Town :=
  { town with reports := town.reports ++ lines }

/-- One command, with the births that are still to come. -/
def obey (births : Nat → Birth) (town : Town) : Input → Town
  | .spawn parent_service new_child_service =>
      let birth := births town.created
      if town.services.labels.any (Named parent_service) then
        { town with
          services := town.services.attach (Named parent_service) (new_child_service, birth.secret)
          created := town.created + 1 }.report
            [.born new_child_service birth.pid birth.secret,
              .spawned parent_service new_child_service]
      else town.report [.not_exist parent_service]
  | .kill target =>
      if target = .Manager then
        { town with closed := true }.report [.killed target (town.services.labels.length - 1)]
      else if town.services.labels.any (Named target) then
        { town with services := town.services.prune (Named target) }.report
          [.killed target ((town.services.branch (Named target)).length - 1)]
      else town.report [.not_exist target]
  | .exchange service_a service_b =>
      { town with services := swapSecrets service_a service_b town.services }.report
        [.acquire_secret service_a service_b (secretOf service_b town.services),
          .acquire_secret service_b service_a (secretOf service_a town.services),
          .exchanged service_a service_b]

/-- The commands up to the one that kills the Manager. -/
def session (births : Nat → Birth) (town : Town) : List Input → Town
  | [] => town
  | input :: inputs =>
      if (town.obey births input).closed then town.obey births input
      else (town.obey births input).session births inputs

/-- The Manager alone. -/
def first (world : World) : Town :=
  let birth := world.births world.created
  ⟨.cons (.Manager, birth.secret) .nil .nil, world.created + 1,
    world.reports ++ [.born .Manager birth.pid birth.secret], false⟩

end Town

variable {link : Link} {family : Family} {later : List Command} {memory : Memory} {kids : Grove Memory}
  {state : World × Forest Command Op Val Name Memory} {world : World} {births : Nat → Birth}
  {town : Town} {lines : List Line}

theorem Heard.unreported (heard : Heard lines) : lines.filter (fun line => !line.announces) = [] := by
  refine List.filter_eq_nil_iff.mpr fun line inside => ?_
  obtain ⟨command, label, rfl⟩ := heard line inside
  simp [Services.heard, Line.announces]

theorem reports_after {world' : World} {heard report : List Line} (silent : Heard heard)
    (kept : report.filter (fun line => !line.announces) = report)
    (out : world'.out = world.out ++ heard ++ report) : world'.reports = world.reports ++ report := by
  rw [World.reports, out, List.filter_append, List.filter_append, silent.unreported, kept,
    List.append_nil]
  rfl

/-- The processes rest as this town, and these commands are still to come. -/
structure Lives (link : Link) (births : Nat → Birth) (town : Town) (later : List Command)
    (state : World × Forest Command Op Val Name Memory) (memory : Memory) (kids : Grove Memory) :
    Prop where
  rests : Rests link (town.services.map Prod.fst) later state memory kids
  services : whole memory kids = town.services
  births : state.1.births = births
  created : state.1.created = town.created
  reports : state.1.reports = town.reports

theorem secretOf_eq {services : Branches Label} {name : Name} {secret : UInt64}
    (unique : Unique services.labels) (there : (name, secret) ∈ services.labels) :
    secretOf name services = secret := by
  rw [secretOf]
  split
  · rename_i label found
    exact unique.secret there (List.mem_of_find?_eq_some found) (Named_iff.mp (List.find?_some found))
  · rename_i absent
    exact absurd (Named_iff.mpr rfl) (List.find?_eq_none.mp absent _ there)

theorem Lives.unique (lives : Lives link births town later state memory kids) :
    Unique town.services.labels :=
  lives.services ▸ lives.rests.unique

theorem heard_map (command : Command) (labels : List Label) : Heard (labels.map (heard command)) := by
  intro line inside
  obtain ⟨label, _, rfl⟩ := List.mem_map.mp inside
  exact ⟨command, label, rfl⟩

theorem spawned_reports (world : World) (parent_service new_child_service : Name)
    (labels : List Label) :
    (world.spawned (read_and_split (.spawn parent_service new_child_service)) labels).reports =
      world.reports ++
        if labels.any (Named parent_service) then
          [.born new_child_service (world.births world.created).pid (world.births world.created).secret,
            .spawned parent_service new_child_service]
        else [.not_exist parent_service] := by
  have said := heard_map (read_and_split (.spawn parent_service new_child_service))
    (Branches.upTo (Named parent_service) labels)
  rw [World.spawned]
  by_cases found : labels.any (Named parent_service)
  · have found' : labels.any
        (Named (read_and_split (.spawn parent_service new_child_service)).content0) := found
    rw [if_pos found', if_pos found]
    exact reports_after said rfl rfl
  · have absent' : ¬ labels.any
        (Named (read_and_split (.spawn parent_service new_child_service)).content0) := found
    rw [if_neg absent', if_neg found]
    exact reports_after said rfl rfl

theorem spawned_births (world : World) (command : Command) (labels : List Label) :
    (world.spawned command labels).births = world.births ∧
      (world.spawned command labels).created =
        if labels.any (Named command.content0) then world.created + 1 else world.created := by
  rw [World.spawned]
  split <;> exact ⟨rfl, rfl⟩

theorem Lives.spawn {parent_service new_child_service : Name}
    (lives : Lives link births town (read_and_split (.spawn parent_service new_child_service) :: later)
      state memory kids)
    (admits : Family.Admits (town.services.map Prod.fst) (.spawn parent_service new_child_service)) :
    Until (Moves machine) (fun _ => True)
      (fun now => ∃ memory' kids', Lives link births
        (town.obey births (.spawn parent_service new_child_service)) later now memory' kids') state := by
  obtain ⟨rests, services, rfl, created, reports⟩ := lives
  refine (rests.spawned admits).mono (fun _ _ => trivial) ?_
  intro now reached
  obtain ⟨memory', kids', rests', placed, same⟩ := reached
  rw [services, created] at placed
  rw [services] at same
  have shape : Branches.attach (Is parent_service) new_child_service (town.services.map Prod.fst) =
      (town.services.attach (Named parent_service)
        (new_child_service, (state.1.births town.created).secret)).map Prod.fst :=
    Branches.attach_map Prod.fst (new_child_service, (state.1.births town.created).secret)
  rw [shape] at rests'
  obtain ⟨births', created'⟩ := spawned_births state.1
    (read_and_split (.spawn parent_service new_child_service)) town.services.labels
  have reports' := spawned_reports state.1 parent_service new_child_service town.services.labels
  rw [← same] at births' created' reports'
  refine ⟨memory', kids', ?_⟩
  rw [Town.obey]
  by_cases found : town.services.labels.any (Named parent_service)
  · rw [if_pos found]
    rw [if_pos found, reports, created] at reports'
    exact ⟨rests', placed, births', created'.trans ((if_pos found).trans (congrArg (· + 1) created)), reports'⟩
  · have absent : town.services.attach (Named parent_service)
        (new_child_service, (state.1.births town.created).secret) = town.services :=
      Branches.attach_absent found
    rw [absent] at rests' placed
    rw [if_neg found]
    rw [if_neg found, reports] at reports'
    exact ⟨rests', placed, births', created'.trans ((if_neg found).trans created), reports'⟩

theorem Lives.kill {target : Name} (other : target ≠ .Manager)
    (lives : Lives link births town (read_and_split (.kill target) :: later) state memory kids) :
    Until (Moves machine) (fun _ => True)
      (fun now => ∃ memory' kids',
        Lives link births (town.obey births (.kill target)) later now memory' kids') state := by
  obtain ⟨rests, services, rfl, created, reports⟩ := lives
  refine (rests.killed other).mono (fun _ _ => trivial) ?_
  intro now reached
  obtain ⟨memory', kids', lines, rests', heard, pruned, same⟩ := reached
  rw [services] at pruned same
  have shape : Branches.prune (Is target) (town.services.map Prod.fst) =
      (town.services.prune (Named target)).map Prod.fst := Branches.prune_map Prod.fst
  rw [shape] at rests'
  refine ⟨memory', kids', ?_⟩
  rw [Town.obey, if_neg other]
  by_cases found : town.services.labels.any (Named target)
  · rw [if_pos found]
    refine ⟨rests', pruned, by rw [same]; rfl, by rw [same]; exact created, ?_⟩
    rw [killReport, if_pos found] at same
    rw [reports_after heard rfl (by rw [same, World.say, List.append_assoc]), reports]
    rfl
  · have absent : town.services.prune (Named target) = town.services := Branches.prune_absent found
    rw [absent] at rests' pruned
    rw [if_neg found]
    refine ⟨rests', pruned, by rw [same]; rfl, by rw [same]; exact created, ?_⟩
    rw [killReport, if_neg found] at same
    rw [reports_after heard rfl (by rw [same, World.say, List.append_assoc]), reports]
    rfl

theorem Lives.exchange {service_a service_b : Name}
    (lives : Lives link births town (read_and_split (.exchange service_a service_b) :: later) state
      memory kids)
    (admits : Family.Admits (town.services.map Prod.fst) (.exchange service_a service_b)) :
    Until (Moves machine) (fun _ => True)
      (fun now => ∃ memory' kids', Lives link births
        (town.obey births (.exchange service_a service_b)) later now memory' kids') state := by
  have unique := lives.unique
  obtain ⟨rests, services, rfl, created, reports⟩ := lives
  refine (rests.exchanged admits).mono (fun _ _ => trivial) ?_
  intro now reached
  obtain ⟨memory', kids', lines, first, second, rests', heard, there, there', swapped, same⟩ := reached
  rw [services] at there there' swapped
  have one := secretOf_eq unique there
  have two := secretOf_eq unique there'
  have placed : whole memory' kids' = swapSecrets service_a service_b town.services := by
    rw [swapped, swapSecrets, one, two]
    rfl
  refine ⟨memory', kids', ?_, placed, by rw [same]; rfl, by rw [same]; exact created, ?_⟩
  · rw [Town.obey, one, two]
    have names : (swapSecrets service_a service_b town.services).map Prod.fst =
        town.services.map Prod.fst := by
      rw [← placed, rests'.names]
    show Rests link ((swapSecrets service_a service_b town.services).map Prod.fst) _ _ _ _
    rw [names]
    exact rests'
  · rw [Town.obey, one, two, reports_after heard rfl (by rw [same]; rfl), reports]
    rfl

/-! ## All commands -/

/-- The end of a session. -/
structure Follows (link : Link) (births : Nat → Birth) (town : Town)
    (state : World × Forest Command Op Val Name Memory) : Prop where
  reports : state.1.reports = town.reports
  created : state.1.created = town.created
  ends : ∀ next, ¬ Moves machine state next
  gone : town.closed → ∃ later, Over link later state.2
  stays : ¬ town.closed → ∃ memory kids, state.2 = waiting link memory kids [] ∧
    Manages memory kids ∧ whole memory kids = town.services ∧ memory.Clear ∧ Clear kids

theorem swapSecrets_names (service_a service_b : Name) (services : Branches Label) :
    (swapSecrets service_a service_b services).map Prod.fst = services.map Prod.fst := by
  rw [swapSecrets, Branches.map_map]
  congr 1
  funext label
  simp only [Function.comp_apply]
  split
  · rfl
  · split <;> rfl

/-- The names after a command, as the rules of what may be asked for see them. -/
theorem obey_names (births : Nat → Birth) (town : Town) (input : Input) (goes : input ≠ .kill .Manager) :
    Family.after (town.services.map Prod.fst) input =
      some ((town.obey births input).services.map Prod.fst) := by
  cases input with
  | spawn parent_service new_child_service =>
      have shape : Branches.attach (Is parent_service) new_child_service (town.services.map Prod.fst) =
          (town.services.attach (Named parent_service)
            (new_child_service, (births town.created).secret)).map Prod.fst :=
        Branches.attach_map Prod.fst (new_child_service, (births town.created).secret)
      rw [Family.after, shape, Town.obey]
      by_cases found : town.services.labels.any (Named parent_service)
      · rw [if_pos found]
        rfl
      · rw [if_neg found, Branches.attach_absent found]
        rfl
  | kill target =>
      have other : target ≠ .Manager := fun same => goes (congrArg Input.kill same)
      have shape : Branches.prune (Is target) (town.services.map Prod.fst) =
          (town.services.prune (Named target)).map Prod.fst := Branches.prune_map Prod.fst
      rw [Family.after, if_neg other, shape, Town.obey, if_neg other]
      by_cases found : town.services.labels.any (Named target)
      · rw [if_pos found]
        rfl
      · rw [if_neg found, Branches.prune_absent found]
        rfl
  | exchange service_a service_b =>
      rw [Family.after, Town.obey]
      exact congrArg some (swapSecrets_names service_a service_b town.services).symm

theorem obey_closed (births : Nat → Birth) (town : Town) (input : Input) (open' : town.closed = false)
    (goes : input ≠ .kill .Manager) : (town.obey births input).closed = false := by
  cases input with
  | spawn parent_service new_child_service =>
      rw [Town.obey]
      split <;> exact open'
  | kill target =>
      have other : target ≠ .Manager := fun same => goes (congrArg Input.kill same)
      rw [Town.obey, if_neg other]
      split <;> exact open'
  | exchange service_a service_b => exact open'

theorem Lives.obeys {input : Input}
    (lives : Lives link births town (read_and_split input :: later) state memory kids)
    (admits : Family.Admits (town.services.map Prod.fst) input) (goes : input ≠ .kill .Manager) :
    Until (Moves machine) (fun _ => True)
      (fun now => ∃ memory' kids',
        Lives link births (town.obey births input) later now memory' kids') state := by
  cases input with
  | spawn parent_service new_child_service => exact lives.spawn admits
  | kill target => exact lives.kill fun same => goes (congrArg Input.kill same)
  | exchange service_a service_b => exact lives.exchange admits

theorem Lives.kill_all
    (lives : Lives link births town (read_and_split (.kill .Manager) :: later) state memory kids) :
    Until (Moves machine) (fun _ => True)
      (Follows link births (town.obey births (.kill .Manager))) state := by
  obtain ⟨rests, services, rfl, created, reports⟩ := lives
  refine rests.all_killed.mono (fun _ _ => trivial) ?_
  intro now reached
  obtain ⟨gone, lines, heard, same⟩ := reached
  rw [services] at same
  rw [Town.obey, if_pos rfl]
  refine ⟨?_, by rw [same]; exact created, gone.done, fun _ => ⟨_, gone⟩, fun stays => absurd rfl stays⟩
  rw [reports_after heard rfl (by rw [same, World.say, List.append_assoc]), reports]
  rfl

/-- Every run through the commands ends as the town does. -/
theorem Lives.session (inputs : List Input)
    (lives : Lives link births town (inputs.map read_and_split) state memory kids)
    (admits : Family.AdmitsAll (town.services.map Prod.fst) inputs) (open' : town.closed = false) :
    Until (Moves machine) (fun _ => True) (Follows link births (town.session births inputs)) state := by
  induction inputs generalizing town state memory kids with
  | nil =>
      refine .reached ⟨lives.reports, lives.created, lives.rests.done, fun closed => ?_, fun _ => ?_⟩
      · rw [Town.session, open'] at closed
        cases closed
      · exact ⟨memory, kids, lives.rests.waits, lives.rests.manages, lives.services, lives.rests.clear,
          lives.rests.clears⟩
  | cons input inputs ih =>
      obtain ⟨admitted, others⟩ := admits
      rw [Town.session]
      by_cases all : input = .kill .Manager
      · subst all
        rw [if_pos (by rw [Town.obey, if_pos rfl]; rfl)]
        exact lives.kill_all
      · have goes := obey_closed births town input open' all
        rw [if_neg (by rw [goes]; exact Bool.false_ne_true)]
        refine (lives.obeys admitted all).trans ?_
        intro now reached
        obtain ⟨memory', kids', lives'⟩ := reached
        exact ih lives' (others _ (obey_names births town input all)) goes

theorem Lives.started {inputs : List Input}
    (rests : Rests link .alone (inputs.map read_and_split) state
      (.start .Manager (world.births world.created)) .nil) (same : state.1 = world.started) :
    Lives link world.births (.first world) (inputs.map read_and_split) state
      (.start .Manager (world.births world.created)) .nil := by
  refine ⟨rests, rfl, by rw [same]; rfl, by rw [same]; rfl, ?_⟩
  rw [same]
  exact reports_after Heard.nil rfl (by rw [List.append_nil]; rfl)

/-- Whatever the order in which the processes take their steps, a session that the Manager is
started with ends, in the tree of services with the secrets, and with the reports, that the
commands have one after another. -/
theorem session_follows (world : World) (link : Link) (inputs : List Input)
    (free : ∀ path, Free world path) (admits : Family.alone.AdmitsAll inputs) :
    Until (Moves machine) (fun _ => True)
      (Follows link world.births ((Town.first world).session world.births inputs))
      (world, starting link inputs) := by
  refine ((started_until world link inputs free).mono (fun _ _ => trivial) fun _ => id).trans ?_
  intro now reached
  obtain ⟨rests, same⟩ := reached
  exact (Lives.started rests same).session inputs admits rfl

/-- Each new process draws another secret. -/
def World.drawn : World :=
  { World.blank with births := fun number => { Birth.blank with secret := .ofNat (number + 7) } }

/-- A service is started, trades its secret with the Manager's and is killed. -/
def traded : List Input := [.spawn .Manager .A, .exchange .Manager .A, .kill .A, .kill .B]

theorem admits_traded : Family.alone.AdmitsAll traded := by
  refine ⟨⟨by decide, by decide, ⟨by decide, ⟨by decide, trivial, trivial⟩, trivial⟩⟩, fun next same => ?_⟩
  cases same
  exact ⟨⟨by decide, by decide, by decide, by decide⟩,
    fun _ _ => ⟨trivial, fun _ _ => ⟨trivial, fun _ _ => trivial⟩⟩⟩

theorem session_follows_traded :
    ∃ state, Relation.ReflTransGen (Moves machine) (.drawn, starting ⟨0, 1⟩ traded) state ∧
      state.1.reports =
        [.born .Manager 0 7, .born .A 0 8, .spawned .Manager .A, .acquire_secret .Manager .A 8,
          .acquire_secret .A .Manager 7, .exchanged .Manager .A, .killed .A 0, .not_exist .B] := by
  obtain ⟨state, follows, run⟩ :=
    (session_follows .drawn ⟨0, 1⟩ traded (fun _ => .inl rfl) admits_traded).reaches
  exact ⟨state, run, follows.reports.trans (by decide)⟩

/-! ## The secrets -/

def secrets (services : Branches Label) : List UInt64 := services.labels.map Prod.snd

/-- Two keys that are there change places. -/
theorem swap_keys {Key : Type*} [DecidableEq Key] {keys : List Key} {one two : Key}
    (distinct : keys.Nodup) (there : one ∈ keys) (there' : two ∈ keys) :
    (keys.map (Equiv.swap one two)).Perm keys := by
  have stays : ∀ key ∈ keys, Equiv.swap one two key ∈ keys := by
    intro key inside
    rw [Equiv.swap_apply_def]
    split
    · exact there'
    · split
      · exact there
      · exact inside
  rw [List.perm_ext_iff_of_nodup (distinct.map (Equiv.swap one two).injective) distinct]
  intro key
  rw [List.mem_map]
  constructor
  · intro found
    obtain ⟨other, inside, rfl⟩ := found
    exact stays other inside
  · intro inside
    exact ⟨Equiv.swap one two key, stays key inside, Equiv.swap_apply_self one two key⟩

theorem swapSecrets_perm {services : Branches Label} {service_a service_b : Name}
    (unique : Unique services.labels) (there : service_a ∈ services.labels.map Prod.fst)
    (there' : service_b ∈ services.labels.map Prod.fst) :
    (secrets (swapSecrets service_a service_b services)).Perm (secrets services) := by
  have held : secrets services = (services.labels.map Prod.fst).map fun name => secretOf name services := by
    rw [secrets, List.map_map]
    refine List.map_congr_left fun label inside => ?_
    exact (secretOf_eq unique inside).symm
  have traded : secrets (swapSecrets service_a service_b services) =
      ((services.labels.map Prod.fst).map (Equiv.swap service_a service_b)).map
        fun name => secretOf name services := by
    rw [secrets, swapSecrets, Branches.labels_map, List.map_map, List.map_map, List.map_map]
    refine List.map_congr_left fun label inside => ?_
    simp only [Function.comp_apply, Equiv.swap_apply_def]
    split
    · rfl
    · split
      · rfl
      · exact (secretOf_eq unique inside).symm
  rw [held, traded]
  exact (swap_keys unique there there').map _

/-- The secrets that the births after `first` ones have brought. -/
def minted (births : Nat → Birth) (first count : Nat) : List UInt64 :=
  (List.range' first count).map fun number => (births number).secret

theorem minted_succ (births : Nat → Birth) (first count : Nat) :
    minted births first (count + 1) = minted births first count ++ [(births (first + count)).secret] := by
  simp [minted, List.range'_concat]

/-- The secrets of the services that a command ends. -/
def Town.ended (town : Town) : Input → List UInt64
  | .kill target => (town.services.branch (Named target)).map Prod.snd
  | .spawn _ _ | .exchange _ _ => []

/-- The secrets that go with killed services in a session. -/
def Town.lost (births : Nat → Birth) (town : Town) : List Input → List UInt64
  | [] => []
  | input :: inputs =>
      town.ended input ++
        if (town.obey births input).closed then [] else (town.obey births input).lost births inputs

/-- Each secret that was born is with one service or lost. -/
def Kept (births : Nat → Birth) (first : Nat) (town : Town) (lost : List UInt64) : Prop :=
  ∃ count, town.created = first + count ∧
    (secrets town.services ++ lost).Perm (minted births first count)

theorem Kept.obey {first : Nat} {lost : List UInt64} {input : Input} (kept : Kept births first town lost)
    (distinct : (town.services.map Prod.fst).labels.Nodup)
    (admits : Family.Admits (town.services.map Prod.fst) input) (goes : input ≠ .kill .Manager) :
    Kept births first (town.obey births input) (lost ++ town.ended input) := by
  rw [Branches.labels_map] at distinct
  obtain ⟨count, created, perm⟩ := kept
  cases input with
  | spawn parent_service new_child_service =>
      rw [Town.obey, Town.ended, List.append_nil]
      by_cases found : town.services.labels.any (Named parent_service)
      · rw [if_pos found]
        refine ⟨count + 1, congrArg (· + 1) created, ?_⟩
        rw [minted_succ, ← created]
        have grown : (secrets (town.services.attach (Named parent_service)
            (new_child_service, (births town.created).secret))).Perm
              ((births town.created).secret :: secrets town.services) :=
          (Branches.labels_attach found).map Prod.snd
        refine (grown.append_right lost).trans ?_
        exact (perm.cons _).trans (List.perm_append_singleton _ _).symm
      · rw [if_neg found]
        exact ⟨count, created, perm⟩
  | kill target =>
      have other : target ≠ .Manager := fun same => goes (congrArg Input.kill same)
      have parts := (@Branches.perm_prune _ (Named target) town.services).map Prod.snd
      rw [List.map_append] at parts
      have kept : (secrets (town.services.prune (Named target)) ++ (lost ++ town.ended (.kill target))).Perm
          (minted births first count) := by
        refine List.Perm.trans ?_ perm
        refine (List.perm_append_comm.append_left _).trans ?_
        rw [← List.append_assoc]
        exact (List.perm_append_comm.trans parts).append_right lost
      rw [Town.obey, if_neg other]
      by_cases found : town.services.labels.any (Named target)
      · rw [if_pos found]
        exact ⟨count, created, kept⟩
      · rw [if_neg found]
        rw [Branches.prune_absent found] at kept
        exact ⟨count, created, kept⟩
  | exchange service_a service_b =>
      obtain ⟨_, there, there', _⟩ := admits
      rw [Branches.labels_map] at there there'
      rw [Town.ended, List.append_nil]
      exact ⟨count, created, ((swapSecrets_perm distinct there there').append_right lost).trans perm⟩

theorem Family.after_unique {family next : Family} {input : Input} (distinct : family.labels.Nodup)
    (admits : Family.Admits family input) (same : family.after input = some next) :
    next.labels.Nodup := by
  cases input with
  | spawn parent_service new_child_service =>
      obtain ⟨_, fresh, _⟩ := admits
      cases same
      exact Branches.nodup_attach distinct fresh
  | kill target =>
      rw [Family.after] at same
      split at same
      · cases same
      · cases same
        exact Branches.labels_prune.nodup distinct
  | exchange service_a service_b =>
      cases same
      exact distinct

/-- Over a whole session nothing is lost but what was killed. -/
theorem Kept.session {first : Nat} {lost : List UInt64} (inputs : List Input)
    (kept : Kept births first town lost) (distinct : (town.services.map Prod.fst).labels.Nodup)
    (admits : Family.AdmitsAll (town.services.map Prod.fst) inputs) (open' : town.closed = false)
    (goes : .kill .Manager ∉ inputs) :
    (town.session births inputs).closed = false ∧
      Kept births first (town.session births inputs) (lost ++ town.lost births inputs) := by
  induction inputs generalizing town lost with
  | nil => exact ⟨open', by rwa [Town.lost, List.append_nil]⟩
  | cons input inputs ih =>
      have other : input ≠ .kill .Manager := fun same => goes (same ▸ List.mem_cons_self)
      have open'' := obey_closed births town input open' other
      have stays : ¬ (town.obey births input).closed := by
        rw [open'']
        exact Bool.false_ne_true
      obtain ⟨admitted, others⟩ := admits
      have admits' := others _ (obey_names births town input other)
      have distinct' : ((town.obey births input).services.map Prod.fst).labels.Nodup :=
        Family.after_unique distinct admitted (obey_names births town input other)
      rw [Town.session, Town.lost, if_neg stays, if_neg stays, ← List.append_assoc]
      exact ih (kept.obey distinct admitted other) distinct' admits' open''
        fun later => goes (List.mem_cons_of_mem _ later)

theorem lost_calm {inputs : List Input} (births : Nat → Birth) (town : Town)
    (calm : ∀ target, .kill target ∉ inputs) : town.lost births inputs = [] := by
  induction inputs generalizing town with
  | nil => rfl
  | cons input inputs ih =>
      have behind := ih (town.obey births input) fun target later => calm target (List.mem_cons_of_mem _ later)
      have none : town.ended input = [] := by
        cases input with
        | spawn | exchange => rfl
        | kill target => exact absurd List.mem_cons_self (calm target)
      rw [Town.lost, none, behind, ite_self]
      rfl

/-- An exchange never makes or loses a secret, and a spawn never disturbs one: where a session
comes to rest the live services and the trees that the `kill` commands ended have, together,
the secrets that were born. -/
theorem secrets_conserved (world : World) (link : Link) (inputs : List Input)
    (free : ∀ path, Free world path) (admits : Family.alone.AdmitsAll inputs)
    (goes : .kill .Manager ∉ inputs) :
    Until (Moves machine) (fun _ => True)
      (fun now => ∃ memory kids count, now.2 = waiting link memory kids [] ∧
        now.1.created = world.created + count ∧
        (secrets (whole memory kids) ++ (Town.first world).lost world.births inputs).Perm
          (minted world.births world.created count) ∧
        ((∀ target, .kill target ∉ inputs) →
          (secrets (whole memory kids)).Perm (minted world.births world.created count)))
      (world, starting link inputs) := by
  have born : Kept world.births world.created (.first world) [] := ⟨1, rfl, .refl _⟩
  obtain ⟨stays, count, created, perm⟩ :=
    born.session inputs (List.nodup_singleton _) admits rfl goes
  refine ((started_until world link inputs free).mono (fun _ _ => trivial) fun _ => id).trans ?_
  intro now reached
  obtain ⟨rests, same⟩ := reached
  refine ((Lives.started rests same).session inputs admits rfl).mono (fun _ => id) fun last follows => ?_
  obtain ⟨memory, kids, waits, _, services, _⟩ :=
    follows.stays (by rw [stays]; exact Bool.false_ne_true)
  rw [← services] at perm
  refine ⟨memory, kids, count, waits, follows.created.trans created, perm, fun calm => ?_⟩
  rw [List.nil_append, lost_calm world.births _ calm, List.append_nil] at perm
  exact perm

/-- The secret that `A` has traded for its own is lost with it. -/
theorem secrets_conserved_traded :
    ∃ state memory kids, Relation.ReflTransGen (Moves machine) (.drawn, starting ⟨0, 1⟩ traded) state ∧
      state.2 = waiting ⟨0, 1⟩ memory kids [] ∧
      (secrets (whole memory kids) ++ [7]).Perm (minted World.drawn.births 0 state.1.created) := by
  obtain ⟨state, ⟨memory, kids, count, waits, created, perm, _⟩, run⟩ :=
    (secrets_conserved .drawn ⟨0, 1⟩ traded (fun _ => .inl rfl) admits_traded (by decide)).reaches
  have lost : (Town.first .drawn).lost World.drawn.births traded = [7] := by decide
  rw [lost] at perm
  refine ⟨state, memory, kids, run, waits, ?_⟩
  rw [created, show World.drawn.created = 0 from rfl, Nat.zero_add]
  exact perm

/-! ## The end of the input -/

/-- `receive = {0}`, which `read` at the end of file leaves as it is, makes a service exit. -/
theorem serve_eof (memory : Memory) : serve memory .zero = .exit := if_pos ⟨rfl, rfl⟩

/-- When the input of a session ends, no service stays behind: each one exits once its parent
is gone, in any order, and nothing more is printed. -/
theorem input_ends (world : World) (link : Link) (inputs : List Input)
    (free : ∀ path, Free world path) (admits : Family.alone.AdmitsAll inputs) :
    Until (Moves machine) (fun _ => True)
      (fun now => Until (Ebbs machine .zero) (fun later => later.1 = now.1)
        (fun last => last.1 = now.1 ∧ last.2.Gone) now)
      (world, starting link inputs) := by
  refine ((started_until world link inputs free).mono (fun _ _ => trivial) fun _ => id).trans ?_
  intro now reached
  obtain ⟨rests, same⟩ := reached
  refine ((Lives.started rests same).session inputs admits rfl).mono (fun _ => id) fun last follows => ?_
  obtain ⟨after, forest⟩ := last
  by_cases closed : (Town.session world.births (.first world) inputs).closed
  · obtain ⟨later, below, dead, rfl⟩ := follows.gone closed
    exact .reached ⟨rfl, rfl, dead.gone, trivial⟩
  · obtain ⟨memory, kids, rfl, _⟩ := follows.stays closed
    have ebbing : Ebbing (waiting link memory kids [] : Forest Command Op Val Name Memory)
        (2 + 2 * kids.size + 0) := .cons (.idle memory) kids.ebbing .nil
    exact ebbing.until serve_eof

theorem input_ends_traded :
    ∃ state last, Relation.ReflTransGen (Moves machine) (.drawn, starting ⟨0, 1⟩ traded) state ∧
      Relation.ReflTransGen (Ebbs machine .zero) state last ∧ last.2.Gone := by
  obtain ⟨state, ends, run⟩ :=
    (input_ends .drawn ⟨0, 1⟩ traded (fun _ => .inl rfl) admits_traded).reaches
  obtain ⟨last, ⟨_, gone⟩, run'⟩ := ends.reaches
  exact ⟨state, last, run, run', gone⟩

end SysProg.Services
