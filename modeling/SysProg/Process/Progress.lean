import SysProg.Process.Step

namespace SysProg.Process

/-! Which steps are possible.

As long as something is left to do, a process can take a step that does not touch the
world, or the calls that are due stand in front of processes. -/

variable {Msg Op Val Seed Loc World Lane : Type} [DecidableEq Lane] [PartialOrder Lane]
  {machine : Machine Msg Op Val Seed Loc World}

/-- The call is the next of its lane, and the lanes below are done. -/
structure Due (trace : Trace Lane Op Val) (lane : Lane) (op : Op) (val : Val)
    (rest : List (Op × Val)) : Prop where
  next : trace lane = (op, val) :: rest
  ready : ∀ lower, lower < lane → trace lower = []

/-- Some process can take a step whatever the world is, and leaves it as it is. -/
def Silent (machine : Machine Msg Op Val Seed Loc World) (forest : Forest Msg Op Val Seed Loc) :
    Prop :=
  ∃ place forest', ∀ world, forest.step machine world place = some (world, forest')

def Offers (machine : Machine Msg Op Val Seed Loc World) (forest : Forest Msg Op Val Seed Loc)
    (op : Op) : Prop :=
  ∃ place, ∀ world got world', machine.exec op world = some (got, world') →
    ∃ forest', forest.step machine world place = some (world', forest')

/-- Nothing but the world can hold these processes up: every call that is due is offered,
every child at work has answered or has calls to make, every child that leaves has left. -/
structure Waiting (machine : Machine Msg Op Val Seed Loc World) (forest : Forest Msg Op Val Seed Loc)
    (crew : Crew Msg Loc Lane) (trace : Trace Lane Op Val) : Prop where
  offers : ∀ lane op val rest, Due trace lane op val rest → Offers machine forest op
  answers : ∀ before link lanes answer settled rest,
    crew = before ++ (link, .running lanes answer settled) :: rest →
    (∀ post ∈ before, post.1.read_fd ≠ link.read_fd) →
    (forest.receive link.read_fd).isSome ∨ ∃ lane ∈ lanes, trace lane ≠ []
  leaves : ∀ post ∈ crew, post.2 = .leaving → forest.reap.isSome

variable {crew inner : Crew Msg Loc Lane} {trace below first mine theirs : Trace Lane Op Val}
  {steps count depth : Nat} {prog : Prog Msg Op Val Seed Loc} {kids rest : Forest Msg Op Val Seed Loc}
  {answer : Option Msg} {final : Option (Loc × Grove Loc)} {cell : Cell Msg Op Val Seed Loc}
  {lane : Lane} {op : Op} {val : Val} {calls : List (Op × Val)}

theorem Silent.under (silent : Silent machine kids) : Silent machine (.cons cell kids rest) := by
  obtain ⟨place, kids', moved⟩ := silent
  exact ⟨.under place, .cons cell kids' rest, fun world => by simp [Forest.step, moved]⟩

theorem Silent.beside (silent : Silent machine rest) : Silent machine (.cons cell kids rest) := by
  obtain ⟨place, rest', moved⟩ := silent
  exact ⟨.beside place, .cons cell kids rest', fun world => by simp [Forest.step, moved]⟩

theorem Offers.under (offers : Offers machine kids op) : Offers machine (.cons cell kids rest) op := by
  obtain ⟨place, moved⟩ := offers
  refine ⟨.under place, fun world got world' done => ?_⟩
  obtain ⟨kids', stepped⟩ := moved world got world' done
  exact ⟨.cons cell kids' rest, by simp [Forest.step, stepped]⟩

theorem Offers.beside (offers : Offers machine rest op) :
    Offers machine (.cons cell kids rest) op := by
  obtain ⟨place, moved⟩ := offers
  refine ⟨.beside place, fun world got world' done => ?_⟩
  obtain ⟨rest', stepped⟩ := moved world got world' done
  exact ⟨.cons cell kids rest', by simp [Forest.step, stepped]⟩

omit [DecidableEq Lane] in
theorem Due.of_append (due : Due (mine ++ theirs) lane op val calls) :
    (∃ calls', Due mine lane op val calls') ∨ (mine lane = [] ∧ Due theirs lane op val calls) := by
  have lower : ∀ lower, lower < lane → mine lower = [] ∧ theirs lower = [] := by
    intro lower less
    simpa using due.ready lower less
  have next := due.next
  rw [Trace.append_apply] at next
  cases early : mine lane with
  | nil =>
      rw [early, List.nil_append] at next
      exact .inr ⟨rfl, next, fun lower' less => (lower lower' less).2⟩
  | cons head others =>
      rw [early, List.cons_append, List.cons.injEq] at next
      exact .inl ⟨others, early.trans (by rw [next.1]), fun lower' less => (lower lower' less).1⟩

/-- A process in the middle of its program can go on by itself, or it stands before a call
or waits for a child that has calls to make. -/
inductive Stands (machine : Machine Msg Op Val Seed Loc World) (prog : Prog Msg Op Val Seed Loc)
    (kids : Forest Msg Op Val Seed Loc) (total : Trace Lane Op Val) : Prop
  | goes (after : Forest Msg Op Val Seed Loc) (next : Prog Msg Op Val Seed Loc) (said : List Msg)
      (moved : ∀ world, prog.advance machine world kids = some ⟨world, after, next, said⟩)
  | waits (busy : ∃ lane, total lane ≠ [])
      (offers : ∀ lane op val rest, Due total lane op val rest →
        Offers machine kids op ∨ ∃ next, prog = .call op next)

theorem Runs.stands (runs : Runs machine prog inner first count answer final)
    (family : Realises machine kids inner below depth) (waiting : Waiting machine kids inner below)
    (works : Control.resume prog = .busy prog) (goes_on : prog ≠ .exit) :
    Stands machine prog kids (below ++ first) := by
  cases runs with
  | pure loc grove => cases works
  | exit gone => exact absurd rfl goes_on
  | reply msg loc grove => exact .goes kids _ [msg] fun _ => rfl
  | leave msg gone => exact .goes kids _ [msg] fun _ => rfl
  | @write _ _ next _ _ _ _ _ _ _ _ _ _ _ _ _ only served within apart continues =>
      obtain ⟨kids', delivered, _⟩ := family.deliver only served within apart
      exact .goes kids' next [] fun world => by simp [Prog.advance, delivered]
  | @read link next before lanes reply settled others more _ _ _ only ordered continues =>
      rcases waiting.answers before link lanes reply settled others rfl only with
        answered | ⟨busy, member, some⟩
      · obtain ⟨got, received⟩ := Option.isSome_iff_exists.mp answered
        exact .goes got.2 (next got.1) [] fun world => by simp [Prog.advance, received]
      · refine .waits ⟨busy, by simp [some]⟩ fun lane op val calls due => ?_
        rcases due.of_append with ⟨calls', mine⟩ | ⟨none, theirs⟩
        · exact .inl (waiting.offers lane op val calls' mine)
        · exfalso
          have behind : busy ≤ lane := ordered lane (by simp [theirs.next]) busy member
          rcases behind.lt_or_eq with less | same
          · have done := due.ready busy less
            simp [some] at done
          · exact some (same ▸ none)
  | fork served within apart continues => exact .goes _ _ [] fun _ => rfl
  | @wait _ next _ _ _ _ _ _ only continues =>
      have left := waiting.leaves _ (List.mem_append_right _ List.mem_cons_self) rfl
      obtain ⟨kids', reaped⟩ := Option.isSome_iff_exists.mp left
      exact .goes kids' next [] fun world => by simp [Prog.advance, reaped]
  | @close _ next _ _ _ _ _ _ only continues =>
      obtain ⟨kids', closed, _⟩ := family.close only
      exact .goes kids' next [] fun world => by simp [Prog.advance, closed]
  | @call own op val next _ more _ _ _ free ordered continues =>
      refine .waits ⟨own, by simp ⟩ fun lane op' val' calls due => ?_
      rcases due.of_append with ⟨calls', mine⟩ | ⟨none, theirs⟩
      · exact .inl (waiting.offers lane op' val' calls' mine)
      · by_cases here : lane = own
        · subst here
          have head := theirs.next
          simp only [Trace.append_apply, Trace.only_self, List.cons_append, List.cons.injEq,
            Prod.mk.injEq] at head
          exact .inr ⟨next, by rw [head.1.1]⟩
        · exfalso
          have later : more lane ≠ [] := by
            intro nothing
            have head := theirs.next
            simp [here, nothing] at head
          have done := due.ready own (lt_of_le_of_ne (ordered lane later) (Ne.symm here))
          simp  at done

omit [DecidableEq Lane] in
theorem Due.not_nil : ¬ Due (.nil : Trace Lane Op Val) lane op val calls := fun due => nomatch due.next

omit [DecidableEq Lane] in
theorem Waiting.cons {post : Link × Status Msg Loc Lane}
    (others : Waiting machine rest crew theirs) (named : cell.link = post.1)
    (offers : ∀ lane op val calls, Due mine lane op val calls →
      Offers machine (.cons cell kids rest) op)
    (answers : ∀ lanes answer settled, post.2 = .running lanes answer settled →
      cell.up ≠ [] ∨ ∃ lane ∈ lanes, mine lane ≠ [])
    (leaves : post.2 = .leaving → cell.control = .zombie) :
    Waiting machine (.cons cell kids rest) (post :: crew) (mine ++ theirs) where
  offers := by
    intro lane op val calls due
    rcases due.of_append with ⟨calls', first⟩ | ⟨_, second⟩
    · exact offers lane op val calls' first
    · exact (others.offers lane op val calls second).beside
  answers := by
    intro before link lanes answer settled behind same only
    cases before with
    | nil =>
        obtain ⟨rfl, rfl⟩ := List.cons.inj same
        rcases answers lanes answer settled rfl with said | ⟨lane, inside, some⟩
        · obtain ⟨msg, up, said⟩ := List.exists_cons_of_ne_nil said
          exact .inl (by simp [Forest.receive, named, said])
        · exact .inr ⟨lane, inside, by simp [some]⟩
    | cons first before =>
        obtain ⟨rfl, rfl⟩ := List.cons.inj same
        have skip : cell.link.read_fd ≠ link.read_fd := named ▸ only post List.mem_cons_self
        rcases others.answers before link lanes answer settled behind rfl
          fun other member => only other (List.mem_cons_of_mem _ member) with
          received | ⟨lane, inside, some⟩
        · exact .inl (by simpa [Forest.receive, skip] using received)
        · exact .inr ⟨lane, inside, by simp [some]⟩
  leaves := by
    intro other member left
    by_cases gone : cell.control = .zombie
    · simp [Forest.reap, gone]
    · have later : other ∈ crew := by
        cases List.mem_cons.mp member with
        | inl same => exact absurd (leaves (same ▸ left)) gone
        | inr later => exact later
      have reaped := others.leaves other later left
      have passes : (Forest.cons cell kids rest).reap = rest.reap.map (.cons cell kids) := by
        simp only [Forest.reap]
      simpa [passes] using reaped

omit [DecidableEq Lane] in
theorem Waiting.skip {post : Link × Status Msg Loc Lane} (others : Waiting machine rest crew theirs)
    (named : cell.link = post.1)
    (answers : ∀ lanes answer settled, post.2 = .running lanes answer settled → cell.up ≠ [])
    (leaves : post.2 = .leaving → cell.control = .zombie) :
    Waiting machine (.cons cell kids rest) (post :: crew) theirs := by
  have all : Waiting machine (.cons cell kids rest) (post :: crew) (.nil ++ theirs) := by
    refine others.cons named (fun _ _ _ _ due => due.not_nil.elim) ?_ leaves
    exact fun lanes answer settled same => .inl (answers lanes answer settled same)
  rwa [Trace.nil_append] at all

theorem Realises.progress {forest : Forest Msg Op Val Seed Loc}
    (real : Realises machine forest crew trace steps) :
    Silent machine forest ∨ Waiting machine forest crew trace := by
  induction real with
  | nil =>
      refine .inr ⟨fun _ _ _ _ due => due.not_nil.elim, ?_, List.forall_mem_nil _⟩
      intro before link lanes answer settled rest same
      simp at same
  | quiet link loc kids others ih =>
      refine ih.imp Silent.beside fun waiting => ?_
      exact waiting.skip rfl (by simp) (by simp)
  | @asked link loc kids msg _ _ _ _ _ rest _ _ _ served within apart others ih =>
      exact .inl ⟨.here, .cons ⟨link, [], [], .resume (machine.serve loc msg)⟩ kids.forest rest,
        fun _ => rfl⟩
  | @working link prog kids inner below under first count lanes answer after rest crew trace steps
      family runs within apart others family_ih ih =>
      rcases family_ih with silent | below_waits
      · exact .inl silent.under
      rcases ih with silent | others_wait
      · exact .inl silent.beside
      cases runs.stands family below_waits runs.resume runs.goes_on with
      | goes kids' next said moved =>
          refine .inl ⟨.here, .cons ⟨link, [], said, .resume next⟩ kids' rest, fun world => ?_⟩
          simp [Forest.step, Cell.turn_busy runs.goes_on, moved]
      | waits busy offers =>
          refine .inr (others_wait.cons rfl ?_ ?_ (by simp))
          · intro lane op val calls due
            rcases offers lane op val calls due with family | ⟨next, same⟩
            · exact family.under
            · subst same
              refine ⟨.here, fun world got world' done => ?_⟩
              refine ⟨.cons ⟨link, [], [], .resume (next got)⟩ kids rest, ?_⟩
              simp [Forest.step, Cell.turn_busy runs.goes_on, Prog.advance, done]
          · intro _ _ _ equal
            cases equal
            obtain ⟨lane, some⟩ := busy
            exact .inr ⟨lane, within lane some, some⟩
  | answered link settled apart others ih =>
      refine ih.elim (fun silent => .inl silent.beside) fun waiting => ?_
      exact .inr (waiting.skip rfl (fun _ _ _ _ => by simp) (by simp))
  | @leaving link control kids _ rest _ _ _ settled others ih =>
      refine ih.elim (fun silent => .inl silent.beside) fun waiting => ?_
      cases settled with
      | leaves dead => exact .inl ⟨.here, .cons ⟨link, [], [], .zombie⟩ kids rest, fun _ => rfl⟩
      | left dead =>
          exact .inr (waiting.skip rfl (by simp) fun _ => rfl)
  | gone link dead others ih =>
      refine ih.imp Silent.beside fun waiting => ?_
      exact waiting.skip rfl (by simp) (by simp)

end SysProg.Process
