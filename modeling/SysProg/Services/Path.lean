import SysProg.Process.Answers
import SysProg.Services.Exchange

namespace SysProg.Services

/-! # The path that a search leaves

`finds` sets the registers of one index in the services above its target and in no others,
and every service that is asked on the way answers once. -/

open Process Data Transition

variable {command : Command} {memory : Memory} {kids grove : Grove Memory} {index : Fin 2} {target : Name}
  {link : Link}

/-- The services with what is below each, in preorder. -/
def services : Grove Memory → List (Memory × Grove Memory)
  | .nil => []
  | .cons _ memory kids rest => (memory, kids) :: (services kids ++ services rest)

def children : Grove Memory → List (Link × Memory × Grove Memory)
  | .nil => []
  | .cons link memory kids rest => (link, memory, kids) :: children rest

/-- The names of all services of these trees. -/
def names (grove : Grove Memory) : List Name := (tree grove).labels.map Prod.fst

def Memory.Unset (index : Fin 2) (memory : Memory) : Prop :=
  memory.pipe_read index = -1 ∧ memory.pipe_write index = -1

theorem Memory.Clear.unset (clear : memory.Clear) (index : Fin 2) : memory.Unset index :=
  ⟨clear.1 index, clear.2 index⟩

theorem Clear.unset (clear : Clear grove) (index : Fin 2) :
    ∀ service ∈ services grove, service.1.Unset index := by
  induction grove with
  | nil =>
      intro service inside
      cases inside
  | cons link memory kids rest kids_ih rest_ih =>
      obtain ⟨here, inner, outer⟩ := clear
      exact List.forall_mem_cons.mpr
        ⟨here.unset index, List.forall_mem_append.mpr ⟨kids_ih inner, rest_ih outer⟩⟩

/-- `pipe_read[index] = pipe_write[index] = -1`. -/
def Memory.unregister (index : Fin 2) (memory : Memory) : Memory :=
  memory.register index ⟨.empty, -1, -1⟩

def unregister (index : Fin 2) : Grove Memory → Grove Memory
  | .nil => .nil
  | .cons link memory kids rest =>
      .cons link (memory.unregister index) (unregister index kids) (unregister index rest)

/-- A service has its registers set if and only if the target is below it, and then they
name the child on the way. -/
structure Laid (index : Fin 2) (target : Name) (memory : Memory) (kids : Grove Memory) : Prop where
  isSet : memory.pipe_read index ≠ -1 ↔ target ∈ names kids
  unset : target ∉ names kids → memory.Unset index
  way : target ∈ names kids → ∃ link child below, (link, child, below) ∈ children kids ∧
    target ∈ child.service_name :: names below ∧
    memory.pipe_read index = link.read_fd ∧ memory.pipe_write index = link.write_fd

/-! ## The registers -/

theorem Memory.Unset.unregister (unset : memory.Unset index) : memory.unregister index = memory := by
  obtain ⟨service_name, secret, child, pipe_read, pipe_write, receive_child, send_parent, birth⟩ := memory
  simp only [Memory.unregister, Memory.register, Memory.mk.injEq, true_and, and_true]
  constructor
  · funext other
    split
    · rename_i same
      rw [same]
      exact unset.1.symm
    · rfl
  · funext other
    split
    · rename_i same
      rw [same]
      exact unset.2.symm
    · rfl

theorem Memory.unregister_lead (unset : memory.Unset index) (way : Option Link) :
    (memory.lead index way).unregister index = memory := by
  cases way with
  | none => exact unset.unregister
  | some link =>
      have twice : ((memory.register index ⟨.empty, link⟩).unregister index) = memory.unregister index := by
        simp only [Memory.unregister, Memory.register, Memory.mk.injEq, true_and, and_true]
        constructor <;> funext other <;> split <;> rfl
      exact twice.trans unset.unregister

theorem unregister_route (unset : ∀ service ∈ services grove, service.1.Unset index) :
    unregister index (route index target grove) = grove := by
  induction grove with
  | nil => rfl
  | cons link memory kids rest kids_ih rest_ih =>
      simp only [services, List.mem_cons, List.mem_append] at unset
      rw [route, unregister, Memory.unregister_lead (unset _ (.inl rfl)),
        kids_ih fun service inside => unset service (.inr (.inl inside)),
        rest_ih fun service inside => unset service (.inr (.inr inside))]

/-! ## The way -/

theorem names_route : names (route index target grove) = names grove := by
  rw [names, names, tree_route]

theorem mem_names : target ∈ names grove ↔ (tree grove).labels.any (Named target) := any_named.symm

theorem toward_child (found : toward target grove = some link) :
    ∃ child below, (link, child, below) ∈ children (route index target grove) ∧
      target ∈ child.service_name :: names below := by
  induction grove with
  | nil => cases found
  | cons link' memory kids rest _ ih =>
      rw [toward] at found
      split at found
      · rename_i here
        cases found
        refine ⟨_, _, List.mem_cons_self, ?_⟩
        rw [Memory.lead_name, names_route]
        exact any_named.mp here
      · obtain ⟨child, below, inside, there⟩ := ih found
        exact ⟨child, below, List.mem_cons_of_mem _ inside, there⟩

theorem Governs.laid (governs : Governs memory.child kids) (unset : memory.Unset index) (target : Name) :
    Laid index target (memory.lead index (toward target kids)) (Services.route index target kids) := by
  by_cases there : target ∈ names kids
  · have found : (toward target kids).isSome := toward_isSome.trans (mem_names.mp there)
    obtain ⟨link, way⟩ := Option.isSome_iff_exists.mp found
    obtain ⟨service, listed, same⟩ := toward_mem way
    have readable := governs.readable service (governs.listed ▸ listed)
    rw [same] at readable
    have read : (memory.lead index (some link)).pipe_read index = link.read_fd := if_pos rfl
    have write : (memory.lead index (some link)).pipe_write index = link.write_fd := if_pos rfl
    rw [way]
    refine ⟨?_, ?_, ?_⟩
    · rw [read, names_route]
      exact ⟨fun _ => there, fun _ => by omega⟩
    · intro absent
      rw [names_route] at absent
      exact absurd there absent
    · intro _
      obtain ⟨child, below, inside, onward⟩ := @toward_child kids index target link way
      exact ⟨link, child, below, inside, onward, read, write⟩
  · rw [toward_absent fun found => there (mem_names.mpr found)]
    rw [← @names_route kids index target] at there
    exact ⟨⟨fun isSet => absurd unset.1 isSet, fun found => absurd found there⟩, fun _ => unset,
      fun found => absurd found there⟩

/-- After the search every service below the Manager has the way, or has no registers set. -/
theorem Sound.laid (sound : Sound grove) (unset : ∀ service ∈ services grove, service.1.Unset index)
    (target : Name) : ∀ service ∈ services (Services.route index target grove), Laid index target service.1 service.2 := by
  induction grove with
  | nil =>
      intro service inside
      cases inside
  | cons link memory kids rest kids_ih rest_ih =>
      obtain ⟨_, governs, inner, outer⟩ := sound
      simp only [services, List.mem_cons, List.mem_append] at unset
      intro service inside
      rcases List.mem_cons.mp inside with here | elsewhere
      · rw [here]
        exact governs.laid (unset _ (.inl rfl)) target
      · rcases List.mem_append.mp elsewhere with below | beside
        · exact kids_ih inner (fun other member => unset other (.inr (.inl member))) service below
        · exact rest_ih outer (fun other member => unset other (.inr (.inr member))) service beside

/-! ## The answers -/

def Searches (command : Command) : Prop := command.type = .exchange ∧ command.print = false

def Silent (command : Command) : Prop := command.print = false

def Memory.Serves (memory : Memory) : Prop := memory.service_name ≠ .Manager

/-- How often a service replies that has an answer. -/
def Memory.replies (memory : Memory) : Nat := if memory.is_manager then 0 else 1

theorem reply_answers (memory : Memory) (silent : Silent command) :
    (reply memory command).Answers Searches Silent (fun _ => True) memory.replies := by
  rw [reply, Memory.replies]
  split
  · exact ⟨rfl, trivial⟩
  · exact ⟨silent, 0, rfl, rfl, trivial⟩

theorem findsChildren_answers (entries : List Service) {send_child send_parent : Command}
    (silent : Silent send_child) (silent' : Silent send_parent) :
    (findsChildren entries send_child send_parent).Answers Searches Silent (fun got => Silent got.2) 0 := by
  induction entries generalizing send_child send_parent with
  | nil => exact ⟨rfl, silent'⟩
  | cons service rest ih =>
      refine ⟨⟨rfl, silent⟩, ?_⟩
      intro got told
      have heard : Silent (got.getD send_child) := by
        cases got with
        | none => exact silent
        | some answer => exact told answer rfl
      show (if (got.getD send_child).type = .find_success then _ else _ : Run _).Answers _ _ _ _
      split
      · exact ⟨rfl, silent'⟩
      · exact ih heard heard

theorem reply_pure_answers {home : Memory → Prop} (memory : Memory) (silent : Silent command) {after : Memory}
    (here : home after) :
    ((reply memory command).bind fun _ => .pure after).Answers Searches Silent home memory.replies := by
  have ended : (Prog.pure after : Run Memory).Answers Searches Silent home 0 := ⟨rfl, here⟩
  exact (reply_answers memory silent).bind fun _ _ => ended

theorem found_answers (memory : Memory) (index : Fin 2) (service : Option Service) (silent : Silent command) :
    (found memory index service command).Answers Searches Silent
      (fun after => after.service_name = memory.service_name) memory.replies := by
  cases service with
  | none => exact reply_pure_answers memory (show Silent (command.typed .find_failed) from silent) rfl
  | some service => exact reply_pure_answers memory silent rfl

/-- A call of `finds` ends with one answer, unless it is the Manager's. -/
theorem finds_answers (memory : Memory) (index : Fin 2) (silent : Silent command) :
    (finds memory command index).Answers Searches Silent
      (fun after => after.service_name = memory.service_name) memory.replies := by
  let request := { command with target := index }
  have asked : Silent request := silent
  rw [finds]
  split
  · exact reply_pure_answers memory (show Silent (request.typed .find_success) from asked) rfl
  · have searched := findsChildren_answers memory.child asked asked
    rw [← Nat.zero_add memory.replies]
    exact searched.bind fun got silent => found_answers memory index got.1 silent

theorem machine_answers : machine.Answers Searches Silent Memory.Serves := by
  intro memory command other asked
  obtain ⟨type, silent⟩ := asked
  have stranger := Memory.not_manager other
  have quiet : ¬ announces memory command := by
    rw [announces, type]
    simp [silent, stranger]
  have once : memory.replies = 1 := if_neg stranger
  have answers := finds_answers memory command.target silent
  rw [once] at answers
  show (serve memory command).Answers _ _ _ _
  rw [serve_exchange type, announce, if_neg quiet, Prog.pure_bind, exchange, if_neg stranger,
    if_neg (by simp [silent])]
  exact answers.mono fun after same => show after.service_name ≠ .Manager from same ▸ other

theorem Sound.serves (sound : Sound grove) : grove.Each Memory.Serves := by
  induction grove with
  | nil => trivial
  | cons link memory kids rest kids_ih rest_ih =>
      obtain ⟨other, _, inner, outer⟩ := sound
      exact ⟨other, kids_ih inner, rest_ih outer⟩

theorem finds_lays_path (index : Fin 2) (manages : Manages memory kids)
    (unique : Unique (whole memory kids).labels) (silent : command.print = false)
    (unset : ∀ service ∈ (memory, kids) :: services kids, service.1.Unset index) :
    ∃ memory' kids',
      (∀ (world : World) (link : Link) (later : List Command) (next : Memory → Run Memory),
        Until (Logs machine) (fun state => state.1.2.Working link later)
          (fun state => state.1 = (world, working link later (next memory') kids'.forest) ∧
            Answered state.2)
          ((world, working link later ((finds memory command index).bind next) kids.forest), [])) ∧
      (∀ service ∈ (memory', kids') :: services kids',
        Laid index (command.content index) service.1 service.2) ∧
      (command.content index ∉ memory.service_name :: names kids → memory' = memory ∧ kids' = kids) ∧
      memory'.unregister index = memory ∧ unregister index kids' = kids := by
  rw [whole, Branches.labels_single] at unique
  let target := command.content index
  have here : memory.Unset index := unset _ List.mem_cons_self
  have below : ∀ service ∈ services kids, service.1.Unset index :=
    fun service inside => unset service (List.mem_cons_of_mem _ inside)
  refine ⟨memory.lead index (toward target kids), route index target kids, ?_, ?_, ?_, ?_, ?_⟩
  · intro world link later next
    have answers := finds_answers memory index silent
    rw [show memory.replies = 0 from if_pos (Memory.manager manages.name)] at answers
    exact (manager_finds silent index manages unique).until_answered (.nil world) machine_answers
      (answers.mono fun _ _ => trivial) manages.sound.serves memory next
  · intro service inside
    rcases List.mem_cons.mp inside with root | inner
    · rw [root]
      exact manages.governs.laid here target
    · exact manages.sound.laid below target service inner
  · intro absent
    have missing : ¬ (tree kids).labels.any (Named target) :=
      fun found => absent (List.mem_cons_of_mem _ (mem_names.mpr found))
    rw [toward_absent missing, route_absent missing]
    exact ⟨rfl, rfl⟩
  · exact Memory.unregister_lead here _
  · exact unregister_route below

/-- The search for A in a small tree. -/
def Command.seekA : Command := { Command.zero with content0 := .A }

theorem finds_lays_path_small : ∃ memory' kids',
    Laid 0 .A memory' kids' ∧ memory'.unregister 0 = .root ∧ unregister 0 kids' = leaf := by
  obtain ⟨clear, clears⟩ := clear_small
  have unset : ∀ service ∈ (Memory.root, leaf) :: services leaf, service.1.Unset 0 :=
    List.forall_mem_cons.mpr ⟨clear.unset 0, clears.unset 0⟩
  obtain ⟨memory', kids', _, laid, _, frame, frame'⟩ :=
    @finds_lays_path .seekA .root leaf 0 .small unique_small rfl unset
  exact ⟨memory', kids', laid _ List.mem_cons_self, frame, frame'⟩

example : Forest.event .here (working ⟨0, 0⟩ [] (finds .root .seekA 0) leaf.forest) =
    some (.request (.under .here)) := by decide

end SysProg.Services
