import SysProg.Process.Part

namespace SysProg.Process

/-! Runs that come to a standstill.

A process is stuck when it stands before a call that blocks, or waits for a child that is
stuck. -/

open Transition

variable {Msg Op Val Seed Loc World Lane α : Type} [DecidableEq Lane] [PartialOrder Lane]
  {machine : Machine Msg Op Val Seed Loc World} {lane : Lane} {link : Link} {later : List Msg}
  {world world' : World} {outcome : World → Prop} {forest still : Forest Msg Op Val Seed Loc}
  {state : World × Forest Msg Op Val Seed Loc}
  {before rest grove grove' kids : Grove Loc} {calls : List (Op × Val)} {value : α}

/-! ## Processes among idle ones -/

theorem moves_append (idle : ∀ world place, still.step machine world place = none) :
    Moves machine (world, forest.append still) state ↔
      ∃ after, state.2 = after.append still ∧ Moves machine (world, forest) (state.1, after) := by
  induction forest generalizing state with
  | nil =>
      constructor
      · intro moved
        obtain ⟨place, stepped⟩ := moved
        rw [Forest.append, idle] at stepped
        cases stepped
      · intro moved
        obtain ⟨after, same, place, stepped⟩ := moved
        cases place <;> cases stepped
  | cons cell kids others _ ih =>
      obtain ⟨world', forest'⟩ := state
      constructor
      · intro moved
        obtain ⟨place, stepped⟩ := moved
        cases place with
        | here =>
            obtain ⟨⟨_, cell', kids'⟩, turned, same⟩ := Option.map_eq_some_iff.mp stepped
            cases same
            exact ⟨.cons cell' kids' others, rfl, .here, by simp [Forest.step, turned]⟩
        | under place =>
            obtain ⟨⟨_, kids'⟩, moved, same⟩ := Option.map_eq_some_iff.mp stepped
            cases same
            exact ⟨.cons cell kids' others, rfl, .under place, by simp [Forest.step, moved]⟩
        | beside place =>
            obtain ⟨⟨_, others'⟩, moved, same⟩ := Option.map_eq_some_iff.mp stepped
            cases same
            obtain ⟨after, rfl, place, moved⟩ := ih.mp ⟨place, moved⟩
            exact ⟨.cons cell kids after, rfl, .beside place, by simp [Forest.step, moved]⟩
      · intro moved
        obtain ⟨after, rfl, place, stepped⟩ := moved
        cases place with
        | here =>
            obtain ⟨⟨_, cell', kids'⟩, turned, same⟩ := Option.map_eq_some_iff.mp stepped
            cases same
            exact ⟨.here, by simp [Forest.append, Forest.step, turned]⟩
        | under place =>
            obtain ⟨⟨_, kids'⟩, moved, same⟩ := Option.map_eq_some_iff.mp stepped
            cases same
            exact ⟨.under place, by simp [Forest.append, Forest.step, moved]⟩
        | beside place =>
            obtain ⟨⟨_, others'⟩, moved, same⟩ := Option.map_eq_some_iff.mp stepped
            cases same
            have inner : Moves machine (world, others.append still) (world', others'.append still) :=
              ih.mpr ⟨others', rfl, place, moved⟩
            obtain ⟨place, moved⟩ := inner
            exact ⟨.beside place, by simp [Forest.append, Forest.step, moved]⟩

theorem moves_behind :
    Moves machine (world, before.forest.append forest) state ↔
      ∃ after, state.2 = before.forest.append after ∧ Moves machine (world, forest) (state.1, after) := by
  induction before generalizing state with
  | nil =>
      constructor
      · exact fun taken => ⟨state.2, rfl, taken⟩
      · intro goes
        obtain ⟨after, same, taken⟩ := goes
        rw [show state = (state.1, after) from Prod.ext rfl same]
        exact taken
  | cons link loc kids others _ ih =>
      obtain ⟨world', forest'⟩ := state
      constructor
      · intro moved
        obtain ⟨place, stepped⟩ := moved
        cases place with
        | here => cases stepped
        | under place => simp [Grove.forest, Forest.append, Forest.step, kids.no_step] at stepped
        | beside place =>
            obtain ⟨⟨_, others'⟩, moved, same⟩ := Option.map_eq_some_iff.mp stepped
            cases same
            obtain ⟨after, rfl, taken⟩ := ih.mp ⟨place, moved⟩
            exact ⟨after, rfl, taken⟩
      · intro goes
        obtain ⟨after, rfl, taken⟩ := goes
        have inner : Moves machine (world, others.forest.append forest)
            (world', others.forest.append after) := ih.mpr ⟨after, rfl, taken⟩
        obtain ⟨place, moved⟩ := inner
        exact ⟨.beside place, by simp [Grove.forest, Forest.append, Forest.step, moved]⟩

/-- A forest with idle processes and their children on both sides. -/
def Forest.among (before rest : Grove Loc) (forest : Forest Msg Op Val Seed Loc) :
    Forest Msg Op Val Seed Loc :=
  before.forest.append (forest.append rest.forest)

theorem moves_among :
    Moves machine (world, forest.among before rest) state ↔
      ∃ after, state.2 = after.among before rest ∧ Moves machine (world, forest) (state.1, after) := by
  rw [Forest.among, moves_behind]
  constructor
  · intro goes
    obtain ⟨after, same, taken⟩ := goes
    obtain ⟨inner, rfl, taken⟩ := (moves_append fun _ _ => rest.no_step).mp taken
    exact ⟨inner, same, taken⟩
  · intro goes
    obtain ⟨after, same, taken⟩ := goes
    exact ⟨_, same, (moves_append fun _ _ => rest.no_step).mpr ⟨after, rfl, taken⟩⟩

/-! ## Stuck processes -/

def Stuck (machine : Machine Msg Op Val Seed Loc World) (state : World × Forest Msg Op Val Seed Loc) : Prop :=
  ∀ next, ¬ Moves machine state next

/-- A process that has not said anything to its parent. -/
def Forest.Mute (link : Link) (forest : Forest Msg Op Val Seed Loc) : Prop :=
  ∃ down control kids, forest = .cons ⟨link, down, [], control⟩ kids .nil

theorem Forest.Working.mute (works : forest.Working link later) : forest.Mute link := by
  obtain ⟨prog, kids, rfl⟩ := works
  exact ⟨later, .busy prog, kids, rfl⟩

/-- The end of a run in which a process has got stuck. -/
structure Halted (machine : Machine Msg Op Val Seed Loc World) (outcome : World → Prop)
    (state : World × Forest Msg Op Val Seed Loc) : Prop where
  stuck : Stuck machine state
  met : outcome state.1

/-- Every run of the program gets stuck before it has ended or answered. -/
def Jams (machine : Machine Msg Op Val Seed Loc World) (prog : Prog Msg Op Val Seed Loc)
    (grove : Grove Loc) (world : World) (outcome : World → Prop) : Prop :=
  ∀ link later, Until (Moves machine) (fun state => state.2.Working link later)
    (fun state => state.2.Working link later ∧ Halted machine outcome state)
    (world, working link later prog grove.forest)

theorem Jams.mono {prog : Prog Msg Op Val Seed Loc} {outcome' : World → Prop}
    (jams : Jams machine prog grove world outcome) (results : ∀ last, outcome last → outcome' last) :
    Jams machine prog grove world outcome' := by
  intro link later
  exact (jams link later).mono (fun _ => id) fun state ended => ⟨ended.1, ended.2.stuck, results _ ended.2.met⟩

theorem Jams.blocked {op : Op} {next : Val → Prog Msg Op Val Seed Loc}
    (blocks : machine.exec op world = none) (here : outcome world) :
    Jams machine (.call op next) grove world outcome := by
  intro link later
  refine .reached ⟨⟨_, _, rfl⟩, ?_, here⟩
  intro state moved
  obtain ⟨place, stepped⟩ := moved
  cases place with
  | beside place => cases place <;> cases stepped
  | under place => simp [working, Forest.step, grove.no_step] at stepped
  | here => simp [working, Forest.step, Control.resume, Cell.turn, Prog.advance, blocks] at stepped

theorem Jams.behind {prog : Prog Msg Op Val Seed α} {next : α → Prog Msg Op Val Seed Loc}
    (part : Yields machine lane prog grove.crew grove'.crew calls value)
    (made : Calls machine calls world world') (loc : Loc) (jams : Jams machine (next value) grove' world' outcome) :
    Jams machine (prog.bind next) grove world outcome := by
  intro link later
  refine (part.until made loc next).trans ?_
  intro _ same
  obtain rfl := same
  exact jams link later

/-! ## Processes that wait for a stuck one -/

def Grove.links : Grove Loc → List Link
  | .nil => []
  | .cons link _ _ rest => link :: rest.links

theorem Grove.links_append (first last : Grove Loc) : (first.append last).links = first.links ++ last.links := by
  induction first with
  | nil => rfl
  | cons link loc kids rest _ ih => rw [append, links, links, ih, List.cons_append]

theorem Grove.link_mem {cell : Cell Msg Op Val Seed Loc} (inside : cell ∈ grove.forest.cells) :
    cell.link ∈ grove.links := by
  induction grove with
  | nil => cases inside
  | cons link loc kids rest _ ih =>
      cases List.mem_cons.mp inside with
      | inl same => exact same ▸ List.mem_cons_self
      | inr later => exact List.mem_cons_of_mem _ (ih later)

omit [DecidableEq Lane] [PartialOrder Lane] in
theorem Grove.links_crew (grove : Grove Loc) :
    (grove.crew : Crew Msg Loc Lane).map Prod.fst = grove.links := by
  induction grove with
  | nil => rfl
  | cons link loc kids rest _ ih => rw [crew, List.map_cons, ih, links]

theorem Grove.read_mem {other : Link} (inside : other ∈ grove.links) :
    other.read_fd ∈ (grove.forest : Forest Msg Op Val Seed Loc).descriptors := by
  induction grove with
  | nil => cases inside
  | cons link loc kids rest _ ih =>
      cases List.mem_cons.mp inside with
      | inl same => exact same ▸ List.mem_cons_self
      | inr later => exact List.mem_cons_of_mem _ (List.mem_cons_of_mem _ (ih later))

omit [DecidableEq Lane] [PartialOrder Lane] in
/-- The descriptors of one child are not those of the children before it. -/
theorem Crew.Distinct.earlier {loc : Loc}
    (distinct : ((before.append (.cons link loc kids rest)).crew : Crew Msg Loc Lane).Distinct) :
    ∀ other ∈ before.links, other.read_fd ≠ link.read_fd ∧ other.write_fd ≠ link.write_fd := by
  intro other inside
  rw [Grove.crew_append] at distinct
  have listed : other ∈ (before.crew : Crew Msg Loc Lane).map Prod.fst := by
    rwa [Grove.links_crew]
  obtain ⟨post, member, rfl⟩ := List.mem_map.mp listed
  exact ⟨distinct.reader post member, distinct.writer post member⟩

/-- A program on its way to a `read` from one child, behind some calls on descriptors of no
child. -/
inductive Comes (links : List Link) (fd : Int) : Nat → Prog Msg Op Val Seed Loc → Prop
  | waits (next : Option Msg → Prog Msg Op Val Seed Loc) : Comes links fd 0 (.read fd next)
  | write {other : Int} {msg : Msg} {next : Prog Msg Op Val Seed Loc} {passes : Nat}
      (unknown : ∀ link ∈ links, link.write_fd ≠ other) (comes : Comes links fd passes next) :
      Comes links fd (passes + 1) (.write other msg next)
  | read {other : Int} {next : Option Msg → Prog Msg Op Val Seed Loc} {passes : Nat}
      (unknown : ∀ link ∈ links, link.read_fd ≠ other) (comes : Comes links fd passes (next none)) :
      Comes links fd (passes + 1) (.read other next)

section Waits

variable {prog : Prog Msg Op Val Seed Loc} {parent : Link}

theorem Forest.Mute.link_mem (mute : forest.Mute link) {cell : Cell Msg Op Val Seed Loc}
    (inside : cell ∈ (forest.among before rest).cells) :
    cell.link ∈ before.links ++ link :: rest.links := by
  obtain ⟨down, control, kids, rfl⟩ := mute
  simp only [Forest.among, Forest.append, Forest.cells_append, Forest.cells, List.mem_append,
    List.mem_cons] at inside ⊢
  rcases inside with first | rfl | last
  · exact .inl (Grove.link_mem first)
  · exact .inr (.inl rfl)
  · exact .inr (.inr (Grove.link_mem last))

/-- Nothing can be read from a child that is mute. -/
theorem Forest.Mute.receive (mute : forest.Mute link)
    (first : ∀ other ∈ before.links, other.read_fd ≠ link.read_fd) :
    (forest.among before rest).receive link.read_fd = none := by
  obtain ⟨down, control, kids, rfl⟩ := mute
  have skips : ∀ cell ∈ (before.forest : Forest Msg Op Val Seed Loc).cells,
      cell.link.read_fd ≠ link.read_fd :=
    fun cell inside => first _ (Grove.link_mem inside)
  rw [among, receive_append skips]
  simp [append, Forest.receive]

theorem moves_working (busy : Control.resume prog = .busy prog) (stays : prog ≠ .exit)
    {kids : Forest Msg Op Val Seed Loc} (taken : Moves machine (world, working parent later prog kids) state) :
    (∃ kids', state.2 = working parent later prog kids' ∧ Moves machine (world, kids) (state.1, kids')) ∨
      ∃ after, prog.advance machine world kids = some after ∧
        state = (after.world, .cons ⟨parent, later, [] ++ after.said, .resume after.next⟩ after.kids .nil) := by
  obtain ⟨place, stepped⟩ := taken
  cases place with
  | beside place => cases place <;> cases stepped
  | under place =>
      obtain ⟨⟨world', kids'⟩, moved, rfl⟩ := Option.map_eq_some_iff.mp stepped
      exact .inl ⟨kids', rfl, place, moved⟩
  | here =>
      obtain ⟨⟨world', cell, kids'⟩, turned, rfl⟩ := Option.map_eq_some_iff.mp stepped
      rw [busy, Cell.turn_busy stays] at turned
      obtain ⟨after, advanced, same⟩ := Option.map_eq_some_iff.mp turned
      cases same
      exact .inr ⟨after, advanced, rfl⟩

theorem working_under {kids kids' : Forest Msg Op Val Seed Loc}
    (taken : Moves machine (world, kids) (world', kids')) :
    Moves machine (world, working parent later prog kids) (world', working parent later prog kids') := by
  obtain ⟨place, stepped⟩ := taken
  exact ⟨.under place, by simp [working, Forest.step, stepped]⟩

theorem working_goes {kids kids' : Forest Msg Op Val Seed Loc} {next : Prog Msg Op Val Seed Loc}
    (busy : Control.resume prog = .busy prog) (stays : prog ≠ .exit)
    (advanced : prog.advance machine world kids = some ⟨world', kids', next, []⟩) :
    Moves machine (world, working parent later prog kids) (world', working parent later next kids') :=
  ⟨.here, by simp [working, Forest.step, busy, Cell.turn_busy stays, advanced]⟩

/-- A call above idle processes. -/
theorem until_goes {after : World × Forest Msg Op Val Seed Loc → Prop} {kids : Forest Msg Op Val Seed Loc}
    {next : Prog Msg Op Val Seed Loc} (busy : Control.resume prog = .busy prog) (stays : prog ≠ .exit)
    (advanced : prog.advance machine world grove.forest = some ⟨world', kids, next, []⟩)
    (goal : Until (Moves machine) (fun state => state.2.Working parent later) after
      (world', working parent later next kids)) :
    Until (Moves machine) (fun state => state.2.Working parent later) after
      (world, working parent later prog grove.forest) := by
  refine .moves ⟨prog, grove.forest, by rw [working, busy]⟩ ⟨_, working_goes busy stays advanced⟩ ?_
  intro state taken
  rcases moves_working busy stays taken with ⟨kids', _, place, moved⟩ | ⟨done, advanced', same⟩
  · rw [grove.no_step] at moved
    cases moved
  · rw [advanced] at advanced'
    cases advanced'
    exact same ▸ goal

theorem until_write_unknown {after : World × Forest Msg Op Val Seed Loc → Prop} {fd : Int} {msg : Msg}
    (unknown : ∀ link ∈ grove.links, link.write_fd ≠ fd)
    (goal : Until (Moves machine) (fun state => state.2.Working parent later) after
      (world, working parent later prog grove.forest)) :
    Until (Moves machine) (fun state => state.2.Working parent later) after
      (world, working parent later (.write fd msg prog) grove.forest) := by
  have delivered : (grove.forest : Forest Msg Op Val Seed Loc).deliver fd msg = some grove.forest :=
    Forest.deliver_unknown fun cell inside => unknown _ (Grove.link_mem inside)
  exact until_goes rfl nofun (by simp only [Prog.advance, delivered]; rfl) goal

theorem until_read_unknown {after : World × Forest Msg Op Val Seed Loc → Prop} {fd : Int}
    {next : Option Msg → Prog Msg Op Val Seed Loc} (unknown : ∀ link ∈ grove.links, link.read_fd ≠ fd)
    (goal : Until (Moves machine) (fun state => state.2.Working parent later) after
      (world, working parent later (next none) grove.forest)) :
    Until (Moves machine) (fun state => state.2.Working parent later) after
      (world, working parent later (.read fd next) grove.forest) := by
  have received : (grove.forest : Forest Msg Op Val Seed Loc).receive fd = some (none, grove.forest) :=
    Forest.receive_unknown fun cell inside => unknown _ (Grove.link_mem inside)
  exact until_goes rfl nofun (by simp only [Prog.advance, received]; rfl) goal

variable {links : List Link} {fd : Int} {passes : Nat}

theorem Comes.busy (comes : Comes links fd passes prog) :
    Control.resume prog = .busy prog ∧ prog ≠ .exit := by
  cases comes with
  | waits | write | read => exact ⟨rfl, nofun⟩

/-- What a process that comes to wait does next. -/
theorem Comes.advance (comes : Comes (before.links ++ link :: rest.links) link.read_fd passes prog)
    (first : ∀ other ∈ before.links, other.read_fd ≠ link.read_fd) (mute : forest.Mute link) (world : World) :
    (passes = 0 ∧ prog.advance machine world (forest.among before rest) = none) ∨
      ∃ left next, passes = left + 1 ∧
        Comes (before.links ++ link :: rest.links) link.read_fd left next ∧
        prog.advance machine world (forest.among before rest) =
          some ⟨world, forest.among before rest, next, []⟩ := by
  cases comes with
  | waits next => exact .inl ⟨rfl, by simp [Prog.advance, mute.receive first]⟩
  | @write other msg next left unknown comes =>
      have delivered : (forest.among before rest).deliver other msg = _ :=
        Forest.deliver_unknown fun cell inside => unknown _ (mute.link_mem inside)
      exact .inr ⟨left, next, rfl, comes, by simp [Prog.advance, delivered]⟩
  | @read other next left unknown comes =>
      have received := Forest.receive_unknown fun cell inside => unknown _ (mute.link_mem inside)
      exact .inr ⟨left, next none, rfl, comes, by simp [Prog.advance, received]⟩

theorem Comes.moves (comes : Comes (before.links ++ link :: rest.links) link.read_fd passes prog)
    (first : ∀ other ∈ before.links, other.read_fd ≠ link.read_fd) (mute : forest.Mute link)
    (taken : Moves machine (world, working parent later prog (forest.among before rest)) state) :
    (∃ after, state.2 = working parent later prog (after.among before rest) ∧
      Moves machine (world, forest) (state.1, after)) ∨
    ∃ left next, passes = left + 1 ∧ Comes (before.links ++ link :: rest.links) link.read_fd left next ∧
      state = (world, working parent later next (forest.among before rest)) := by
  rcases moves_working comes.busy.1 comes.busy.2 taken with ⟨kids, same, moved⟩ | ⟨after, advanced, same⟩
  · obtain ⟨after, rfl, moved⟩ := moves_among.mp moved
    exact .inl ⟨after, same, moved⟩
  · rcases comes.advance first mute world with ⟨_, waits⟩ | ⟨left, next, count, comes', goes⟩
    · rw [waits] at advanced
      cases advanced
    · rw [goes] at advanced
      cases advanced
      exact .inr ⟨left, next, count, comes', same⟩

theorem Comes.goes (comes : Comes (before.links ++ link :: rest.links) link.read_fd (passes + 1) prog)
    (first : ∀ other ∈ before.links, other.read_fd ≠ link.read_fd) (mute : forest.Mute link) :
    ∃ next, Moves machine (world, working parent later prog (forest.among before rest)) next := by
  rcases comes.advance first mute world with ⟨none, _⟩ | ⟨left, next, _, _, goes⟩
  · cases none
  · exact ⟨_, working_goes comes.busy.1 comes.busy.2 goes⟩

/-- A process that waits is held up by a stuck child, whatever the others do. -/
theorem Comes.until (comes : Comes (before.links ++ link :: rest.links) link.read_fd passes prog)
    (first : ∀ other ∈ before.links, other.read_fd ≠ link.read_fd)
    (goal : Until (Moves machine) (fun state => state.2.Mute link)
      (fun state => state.2.Mute link ∧ Halted machine outcome state) state) :
    Until (Moves machine) (fun state => state.2.Working parent later)
      (fun state => state.2.Working parent later ∧ Halted machine outcome state)
      (state.1, working parent later prog (state.2.among before rest)) := by
  have works : ∀ {prog : Prog Msg Op Val Seed Loc} {passes : Nat} (kids : Forest Msg Op Val Seed Loc),
      Comes (before.links ++ link :: rest.links) link.read_fd passes prog →
        (working parent later prog kids).Working parent later := by
    intro prog passes kids comes
    rw [working, comes.busy.1]
    exact ⟨prog, kids, rfl⟩
  -- the child's run first, then the calls that do not concern it
  induction goal generalizing prog passes with
  | @reached state here =>
      obtain ⟨mute, stuck, met⟩ := here
      induction passes generalizing prog with
      | zero =>
          refine .reached ⟨works _ comes, ?_, met⟩
          intro next taken
          rcases comes.moves first mute taken with ⟨after, _, moved⟩ | ⟨left, _, none, _⟩
          · exact stuck _ moved
          · cases none
      | succ left ih =>
          refine .moves (works _ comes) (comes.goes first mute) fun next taken => ?_
          rcases comes.moves first mute taken with ⟨after, _, moved⟩ | ⟨_, behind, same, comes', rfl⟩
          · exact absurd moved (stuck _)
          · cases same
            exact ih comes'
  | @moves state mute some each ih =>
      have under : ∀ {next : World × Forest Msg Op Val Seed Loc} {passes : Nat}
          {prog : Prog Msg Op Val Seed Loc} {after : Forest Msg Op Val Seed Loc},
          Comes (before.links ++ link :: rest.links) link.read_fd passes prog →
          next.2 = working parent later prog (after.among before rest) →
          Moves machine state (next.1, after) →
          Until (Moves machine) (fun state => state.2.Working parent later)
            (fun state => state.2.Working parent later ∧ Halted machine outcome state) next := by
        intro state passes prog after comes same moved
        obtain ⟨world, forest⟩ := state
        obtain rfl := same
        exact ih _ moved comes
      induction passes generalizing prog with
      | zero =>
          obtain ⟨next, moved⟩ := some
          have below : Moves machine (state.1, state.2.among before rest) (next.1, next.2.among before rest) :=
            moves_among.mpr ⟨next.2, rfl, moved⟩
          refine .moves (works _ comes) ⟨_, working_under below⟩ fun next taken => ?_
          rcases comes.moves first mute taken with ⟨after, same, moved⟩ | ⟨left, _, none, _⟩
          · exact under comes same moved
          · cases none
      | succ left inner =>
          refine .moves (works _ comes) (comes.goes first mute) fun next taken => ?_
          rcases comes.moves first mute taken with ⟨after, same, moved⟩ | ⟨_, behind, same, comes', rfl⟩
          · exact under comes same moved
          · cases same
            exact inner comes'

/-- A process that asks a child, which gets stuck over it, and comes to wait for the answer. -/
theorem Jams.asks {loc : Loc} {msg : Msg} (served : Jams machine (machine.serve loc msg) kids world outcome)
    (first : ∀ other ∈ before.links, other.read_fd ≠ link.read_fd ∧ other.write_fd ≠ link.write_fd)
    (comes : Comes (before.links ++ link :: rest.links) link.read_fd passes prog) :
    Jams machine (.write link.write_fd msg prog) (before.append (.cons link loc kids rest)) world outcome := by
  intro parent later
  let asked : Forest Msg Op Val Seed Loc := .cons ⟨link, [msg], [], .idle loc⟩ kids.forest .nil
  have goal : Until (Moves machine) (fun state => state.2.Mute link)
      (fun state => state.2.Mute link ∧ Halted machine outcome state) (world, asked) := by
    refine .moves ⟨_, _, _, rfl⟩ ⟨_, .here, rfl⟩ ?_
    intro next moved
    obtain ⟨place, stepped⟩ := moved
    cases place with
    | beside place => cases place <;> cases stepped
    | under place => simp [asked, Forest.step, kids.no_step] at stepped
    | here =>
        cases stepped
        exact (served link []).mono (fun _ works => works.mute) fun _ ended => ⟨ended.1.mute, ended.2⟩
  have skips : ∀ cell ∈ (before.forest : Forest Msg Op Val Seed Loc).cells,
      cell.link.write_fd ≠ link.write_fd :=
    fun cell inside => (first _ (Grove.link_mem inside)).2
  have delivered : (before.append (.cons link loc kids rest)).forest.deliver link.write_fd msg =
      some (asked.among before rest) := by
    rw [Grove.forest_append, Forest.deliver_append skips]
    simp [Grove.forest, Forest.deliver, Control.alive, Forest.among, asked, Forest.append]
  refine until_goes rfl (by simp) (by simp only [Prog.advance, delivered]; rfl) ?_
  exact comes.until (fun other inside => (first other inside).1) goal

theorem Jams.write_unknown {fd : Int} {msg : Msg} (unknown : ∀ link ∈ grove.links, link.write_fd ≠ fd)
    (jams : Jams machine prog grove world outcome) : Jams machine (.write fd msg prog) grove world outcome :=
  fun parent later => until_write_unknown unknown (jams parent later)

theorem Jams.call {op : Op} {val : Val} {next : Val → Prog Msg Op Val Seed Loc}
    (done : machine.exec op world = some (val, world')) (jams : Jams machine (next val) grove world' outcome) :
    Jams machine (.call op next) grove world outcome := by
  intro parent later
  exact until_goes rfl (by simp) (by simp only [Prog.advance, done]; rfl) (jams parent later)

/-- A process that waits for a new child that does not answer. -/
theorem Jams.forks {own : List Int} {seed : Seed} {next : Link → Option Msg → Prog Msg Op Val Seed Loc}
    {loc : Loc} {made : Grove Loc}
    (boots : Ends machine lane (machine.boot seed) [] calls none (some (loc, made)))
    (calls_made : Calls machine calls world world') (met : outcome world') :
    Jams machine (.fork own seed fun link => .read link.read_fd (next link)) grove world outcome := by
  intro parent later
  let link := Link.fresh (own ++ (grove.forest : Forest Msg Op Val Seed Loc).descriptors)
  have goal : Until (Moves machine) (fun state => state.2.Mute link)
      (fun state => state.2.Mute link ∧ Halted machine outcome state)
      (world, working link [] (machine.boot seed) (.nil : Grove Loc).forest) := by
    have alone : Ends machine lane (machine.boot seed) (Grove.nil : Grove Loc).crew calls none (some (loc, made)) :=
      boots
    refine (alone.until calls_made).mono (fun _ works => works.mute) ?_
    intro state reached
    obtain ⟨last, forest⟩ := state
    obtain ⟨ended, rfl⟩ := reached
    obtain rfl := ended.waits
    refine ⟨⟨[], .idle loc, made.forest, rfl⟩, ?_, met⟩
    intro next moved
    obtain ⟨place, stepped⟩ := moved
    cases place with
    | here => cases stepped
    | beside place => cases place <;> cases stepped
    | under place => simp [waiting, Forest.step, made.no_step] at stepped
  have waits : Comes (grove.links ++ link :: Grove.links (.nil : Grove Loc)) link.read_fd 0
      (.read link.read_fd (next link)) := .waits _
  have fresh : ∀ other ∈ grove.links, other.read_fd ≠ link.read_fd := by
    intro other inside same
    exact Link.fresh_read _ (List.mem_append_right own (same ▸ Grove.read_mem inside))
  exact until_goes rfl (by simp) rfl (waits.until fresh goal)

end Waits

end SysProg.Process
