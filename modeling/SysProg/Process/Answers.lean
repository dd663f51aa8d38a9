import SysProg.Process.Part

namespace SysProg.Process

/-! Requests and answers.

A run keeps a history of the messages that processes send to their children and to their
parents.  If a process answers every message exactly once, then so it is in the history
when all processes are idle again, whatever they have told each other. -/

open Transition

variable {Msg Op Val Seed Loc World Lane α β : Type} {machine : Machine Msg Op Val Seed Loc World}
  {asks tells : Msg → Prop} {home : Loc → Prop} {next : α → Prog Msg Op Val Seed Loc}

/-- A message to the process at a place or one from it. -/
inductive Event where
  | request (place : Place)
  | answer (place : Place)
deriving DecidableEq, Repr

def Event.under : Event → Event
  | .request place => .request (.under place)
  | .answer place => .answer (.under place)

def Event.beside : Event → Event
  | .request place => .request (.beside place)
  | .answer place => .answer (.beside place)

/-- The child that a descriptor writes to. -/
def Forest.addressee (fd : Int) : Forest Msg Op Val Seed Loc → Option Place
  | .nil => none
  | .cons cell _ rest =>
      if cell.link.write_fd = fd then some .here else (rest.addressee fd).map .beside

/-- The message that the next call of a process passes. -/
def Prog.event (kids : Forest Msg Op Val Seed Loc) : Prog Msg Op Val Seed α → Option Event
  | .write fd _ _ => ((kids.addressee fd).map .request).map .under
  | .reply _ _ => some (.answer .here)
  | _ => none

def Control.event (kids : Forest Msg Op Val Seed Loc) : Control Msg Op Val Seed Loc → Option Event
  | .busy prog => prog.event kids
  | .idle _ | .zombie | .reaped => none

/-- The message that a step of the process at a place passes. -/
def Forest.event : Place → Forest Msg Op Val Seed Loc → Option Event
  | _, .nil => none
  | .here, .cons cell kids _ => cell.control.event kids
  | .under place, .cons _ kids _ => (kids.event place).map .under
  | .beside place, .cons _ _ rest => (rest.event place).map .beside

/-- A step, with the message that it passes at the end of the history. -/
def Logs (machine : Machine Msg Op Val Seed Loc World)
    (before after : (World × Forest Msg Op Val Seed Loc) × List Event) : Prop :=
  ∃ place, before.1.2.step machine before.1.1 place = some after.1 ∧
    after.2 = before.2 ++ (before.1.2.event place).toList

/-- No answer comes before its request, and in the end none is missing. -/
structure Answered (history : List Event) : Prop where
  inOrder : ∀ before, before <+: history → ∀ place,
    before.count (.answer place) ≤ before.count (.request place)
  all : ∀ place, history.count (.request place) = history.count (.answer place)

/-! ## How often something has happened -/

section Tally

variable {tally : Event → Nat} {event : Option Event} {f : Event → Event}

def bump (event : Option Event) (tally : Event → Nat) (other : Event) : Nat :=
  tally other + if event = some other then 1 else 0

def occurrences (history : List Event) (event : Event) : Nat := history.count event

theorem occurrences_append (history : List Event) (event : Option Event) :
    occurrences (history ++ event.toList) = bump event (occurrences history) := by
  funext other
  cases event with
  | none => simp [occurrences, bump]
  | some event => simp [occurrences, bump, List.count_singleton]

theorem Event.under_injective : Function.Injective Event.under := by
  intro left right same
  cases left <;> cases right <;> simp_all [under]

theorem Event.beside_injective : Function.Injective Event.beside := by
  intro left right same
  cases left <;> cases right <;> simp_all [beside]

@[simp] theorem Event.under_ne_request (event : Event) : event.under ≠ .request .here := by
  cases event <;> simp [under]

@[simp] theorem Event.under_ne_answer (event : Event) : event.under ≠ .answer .here := by
  cases event <;> simp [under]

@[simp] theorem Event.beside_ne_request (event : Event) : event.beside ≠ .request .here := by
  cases event <;> simp [beside]

@[simp] theorem Event.beside_ne_answer (event : Event) : event.beside ≠ .answer .here := by
  cases event <;> simp [beside]

@[simp] theorem Event.under_ne_beside (event other : Event) : event.under ≠ other.beside := by
  cases event <;> cases other <;> simp [under, beside]

@[simp] theorem Event.beside_ne_under (event other : Event) : event.beside ≠ other.under :=
  (under_ne_beside other event).symm

theorem bump_map (injective : f.Injective) : bump (event.map f) tally ∘ f = bump event (tally ∘ f) := by
  funext other
  cases event with
  | none => rfl
  | some event => simp [bump, injective.eq_iff]

theorem bump_other (other : ∀ mine, event ≠ some (f mine)) : bump event tally ∘ f = tally ∘ f := by
  funext mine
  simp [bump, other mine]

theorem bump_same {mine : Event} (other : event ≠ some mine) : bump event tally mine = tally mine := by
  simp [bump, other]

end Tally

/-! ## Processes that answer once -/

/-- A program that replies exactly `left` times before its end. -/
def Prog.Answers (asks tells : Msg → Prop) (home : α → Prop) : Prog Msg Op Val Seed α → Nat → Prop
  | .pure value, left => left = 0 ∧ home value
  | .write _ msg next, left => asks msg ∧ next.Answers asks tells home left
  | .read _ next, left => ∀ got : Option Msg, (∀ msg ∈ got, tells msg) → (next got).Answers asks tells home left
  | .reply msg next, left => tells msg ∧ ∃ less, left = less + 1 ∧ next.Answers asks tells home less
  | .call _ next, left => ∀ val, (next val).Answers asks tells home left
  | .fork _ _ _, _ | .wait _, _ | .close _ _, _ | .exit, _ => False

def Machine.Answers (machine : Machine Msg Op Val Seed Loc World) (asks tells : Msg → Prop)
    (home : Loc → Prop) : Prop :=
  ∀ loc msg, home loc → asks msg → (machine.serve loc msg).Answers asks tells home 1

def Control.Answers (asks tells : Msg → Prop) (home : Loc → Prop) :
    Control Msg Op Val Seed Loc → Nat → Prop
  | .idle loc, left => left = 0 ∧ home loc
  | .busy prog, left => prog.Answers asks tells home left
  | .zombie, _ | .reaped, _ => False

/-- A process that has been asked so often owes the answers to what it has not read and to
what it is at work on. -/
structure Cell.Accounts (asks tells : Msg → Prop) (home : Loc → Prop) (asked answered : Nat)
    (cell : Cell Msg Op Val Seed Loc) : Prop where
  down : ∀ msg ∈ cell.down, asks msg
  up : ∀ msg ∈ cell.up, tells msg
  owes : ∃ left, cell.control.Answers asks tells home left ∧ asked = answered + cell.down.length + left

def Forest.Accounts (asks tells : Msg → Prop) (home : Loc → Prop) :
    Forest Msg Op Val Seed Loc → (Event → Nat) → Prop
  | .nil, tally => ∀ place, tally (.request place) = tally (.answer place)
  | .cons cell kids rest, tally =>
      cell.Accounts asks tells home (tally (.request .here)) (tally (.answer .here)) ∧
        kids.Accounts asks tells home (tally ∘ .under) ∧ rest.Accounts asks tells home (tally ∘ .beside)

def Grove.Each (home : Loc → Prop) : Grove Loc → Prop
  | .nil => True
  | .cons _ loc kids rest => home loc ∧ kids.Each home ∧ rest.Each home

theorem Prog.Answers.bind {prog : Prog Msg Op Val Seed α} {next : α → Prog Msg Op Val Seed β}
    {home : α → Prop} {home' : β → Prop} {left right : Nat} (answers : prog.Answers asks tells home left)
    (behind : ∀ value, home value → (next value).Answers asks tells home' right) :
    (prog.bind next).Answers asks tells home' (left + right) := by
  induction prog generalizing left with
  | pure value =>
      obtain ⟨rfl, here⟩ := answers
      rw [Nat.zero_add]
      exact behind value here
  | write fd msg rest ih => exact ⟨answers.1, ih answers.2⟩
  | read fd rest ih => exact fun got told => ih got (answers got told)
  | reply msg rest ih =>
      obtain ⟨told, less, rfl, answers⟩ := answers
      exact ⟨told, less + right, by omega, ih answers⟩
  | call op rest ih => exact fun val => ih val (answers val)
  | fork | wait | close | exit => exact answers.elim

theorem Prog.bind_pure (prog : Prog Msg Op Val Seed α) : prog.bind .pure = prog := by
  induction prog with
  | pure value => rfl
  | write fd msg next ih => rw [bind, ih]
  | read fd next ih => simp only [bind, ih]
  | reply msg next ih => rw [bind, ih]
  | fork own seed next ih => simp only [bind, ih]
  | wait next ih => rw [bind, ih]
  | close link next ih => rw [bind, ih]
  | call op next ih => simp only [bind, ih]
  | exit => rfl

theorem Prog.Answers.mono {prog : Prog Msg Op Val Seed α} {home home' : α → Prop} {left : Nat}
    (answers : prog.Answers asks tells home left) (weaker : ∀ value, home value → home' value) :
    prog.Answers asks tells home' left := by
  have ended : ∀ value, home value → (Prog.pure value : Prog Msg Op Val Seed α).Answers asks tells home' 0 :=
    fun value here => ⟨rfl, weaker value here⟩
  rw [← prog.bind_pure]
  exact answers.bind ended

theorem Prog.Answers.resume {prog : Prog Msg Op Val Seed Loc} {left : Nat}
    (answers : prog.Answers asks tells home left) : (Control.resume prog).Answers asks tells home left := by
  cases prog with
  | pure value => exact answers
  | write | read | reply | fork | wait | close | call | exit => exact answers

section Kids

variable {kids kids' : Forest Msg Op Val Seed Loc} {tally : Event → Nat}

theorem Forest.Accounts.answered (accounts : kids.Accounts asks tells home tally) (place : Place) :
    tally (.answer place) ≤ tally (.request place) := by
  induction kids generalizing tally place with
  | nil => exact (accounts place).ge
  | cons cell inner rest inner_ih rest_ih =>
      obtain ⟨⟨_, _, left, _, sum⟩, below, beside⟩ := accounts
      cases place with
      | here => omega
      | under place => exact inner_ih below place
      | beside place => exact rest_ih beside place

theorem Forest.Accounts.deliver {fd : Int} {msg : Msg} (accounts : kids.Accounts asks tells home tally)
    (right : asks msg) (done : kids.deliver fd msg = some kids') :
    kids'.Accounts asks tells home (bump ((kids.addressee fd).map .request) tally) := by
  induction kids generalizing kids' tally with
  | nil =>
      cases done
      exact accounts
  | cons cell inner rest _ ih =>
      obtain ⟨⟨down, up, left, control, sum⟩, below, beside⟩ := accounts
      rw [Forest.deliver] at done
      rw [Forest.addressee]
      by_cases mine : cell.link.write_fd = fd
      · rw [if_pos mine] at done
        rw [if_pos mine, Option.map_some]
        split at done <;> cases done
        refine ⟨⟨?_, up, left, control, ?_⟩, ?_, ?_⟩
        · intro other inside
          rcases List.mem_append.mp inside with old | new
          · exact down other old
          · rwa [List.mem_singleton.mp new]
        · simp only [bump, List.length_append, List.length_singleton]
          simp
          omega
        · rwa [bump_other fun mine same => Event.under_ne_request mine (Option.some.inj same).symm]
        · rwa [bump_other fun mine same => Event.beside_ne_request mine (Option.some.inj same).symm]
      · rw [if_neg mine] at done ⊢
        obtain ⟨rest', moved, rfl⟩ := Option.map_eq_some_iff.mp done
        have event : ((rest.addressee fd).map Place.beside).map Event.request =
            ((rest.addressee fd).map Event.request).map Event.beside := by
          simp only [Option.map_map]
          rfl
        rw [event]
        refine ⟨?_, ?_, ?_⟩
        · rw [bump_same (by simp), bump_same (by simp)]
          exact ⟨down, up, left, control, sum⟩
        · rwa [bump_other (by simp)]
        · rw [bump_map Event.beside_injective]
          exact ih beside moved

theorem Forest.Accounts.receive {fd : Int} {got : Option Msg × Forest Msg Op Val Seed Loc}
    (accounts : kids.Accounts asks tells home tally) (done : kids.receive fd = some got) :
    (∀ msg ∈ got.1, tells msg) ∧ got.2.Accounts asks tells home tally := by
  induction kids generalizing got tally with
  | nil =>
      cases done
      exact ⟨nofun, accounts⟩
  | cons cell inner rest _ ih =>
      obtain ⟨⟨down, up, owes⟩, below, beside⟩ := accounts
      rw [Forest.receive] at done
      split at done
      · cases messages : cell.up with
        | nil =>
            rw [messages] at done
            cases done
        | cons msg later =>
            rw [messages] at done up
            cases done
            refine ⟨?_, ⟨down, fun other inside => up other (List.mem_cons_of_mem msg inside), owes⟩, below, beside⟩
            intro other same
            cases same
            exact up msg List.mem_cons_self
      · obtain ⟨other, moved, rfl⟩ := Option.map_eq_some_iff.mp done
        obtain ⟨told, beside'⟩ := ih beside moved
        exact ⟨told, ⟨down, up, owes⟩, below, beside'⟩

variable {world : World} {after : Advance Msg Op Val Seed Loc World}

/-- The next call of a program that is in the middle. -/
theorem Prog.Answers.advance {rest : Prog Msg Op Val Seed α} {home' : α → Prop} {left : Nat}
    (answers : rest.Answers asks tells home' left) (accounts : kids.Accounts asks tells home (tally ∘ .under))
    (unfinished : ∀ value, rest ≠ .pure value)
    (taken : (rest.bind next).advance machine world kids = some after) :
    ∃ (more : Prog Msg Op Val Seed α) (less : Nat), more.Answers asks tells home' less ∧ left = less + after.said.length ∧
      (∀ msg ∈ after.said, tells msg) ∧
      after.kids.Accounts asks tells home (bump ((rest.bind next).event kids) tally ∘ .under) ∧
      after.next = more.bind next ∧ ∀ other : α → Prog Msg Op Val Seed Loc,
        (rest.bind other).advance machine world kids =
          some ⟨after.world, after.kids, more.bind other, after.said⟩ := by
  cases rest with
  | pure value => exact absurd rfl (unfinished value)
  | fork | wait | close | exit => exact answers.elim
  | write fd msg more =>
      obtain ⟨kids', delivered, rfl⟩ := Option.map_eq_some_iff.mp taken
      refine ⟨more, left, answers.2, rfl, List.forall_mem_nil _, ?_, rfl, ?_⟩
      · rw [Prog.bind, event, bump_map Event.under_injective]
        exact accounts.deliver answers.1 delivered
      · intro other
        simp [Prog.bind, Prog.advance, delivered]
  | read fd more =>
      obtain ⟨got, received, rfl⟩ := Option.map_eq_some_iff.mp taken
      obtain ⟨told, accounts'⟩ := accounts.receive received
      refine ⟨more got.1, left, answers got.1 told, rfl, List.forall_mem_nil _, accounts', rfl, ?_⟩
      intro other
      simp [Prog.bind, Prog.advance, received]
  | reply msg more =>
      cases taken
      obtain ⟨told, less, rfl, answers⟩ := answers
      refine ⟨more, less, answers, rfl, ?_, ?_, rfl, fun other => rfl⟩
      · intro other inside
        rwa [List.mem_singleton.mp inside]
      · rwa [Prog.bind, event, bump_other fun mine same => Event.under_ne_answer mine (Option.some.inj same).symm]
  | call op more =>
      obtain ⟨done, executed, rfl⟩ := Option.map_eq_some_iff.mp taken
      refine ⟨more done.1, left, answers done.1, rfl, List.forall_mem_nil _, accounts, rfl, ?_⟩
      intro other
      simp [Prog.bind, Prog.advance, executed]

variable {prog : Prog Msg Op Val Seed Loc}

theorem Prog.event_beside : bump (prog.event kids) tally ∘ Event.beside = tally ∘ Event.beside := by
  apply bump_other
  intro mine same
  cases prog with
  | write fd msg next => simp [event] at same
  | reply msg next => exact Event.beside_ne_answer mine (Option.some.inj same).symm
  | pure | read | fork | wait | close | call | exit => cases same

theorem Prog.event_request : bump (prog.event kids) tally (.request .here) = tally (.request .here) := by
  apply bump_same
  cases prog <;> simp [event]

theorem Prog.event_answer (taken : prog.advance machine world kids = some after) :
    bump (prog.event kids) tally (.answer .here) = tally (.answer .here) + after.said.length := by
  cases prog with
  | pure | exit => cases taken
  | reply msg next =>
      cases taken
      simp [event, bump]
  | fork own seed next =>
      cases taken
      rfl
  | write fd msg next =>
      obtain ⟨kids', delivered, rfl⟩ := Option.map_eq_some_iff.mp taken
      rw [bump_same (by simp [event])]
      rfl
  | read fd next =>
      obtain ⟨got, received, rfl⟩ := Option.map_eq_some_iff.mp taken
      rfl
  | wait next =>
      obtain ⟨kids', reaped, rfl⟩ := Option.map_eq_some_iff.mp taken
      rfl
  | close link next =>
      obtain ⟨kids', closed, rfl⟩ := Option.map_eq_some_iff.mp taken
      rfl
  | call op next =>
      obtain ⟨done, executed, rfl⟩ := Option.map_eq_some_iff.mp taken
      rfl

end Kids

section Step

variable {world world' : World} {forest forest' : Forest Msg Op Val Seed Loc} {place : Place}
  {tally : Event → Nat}

/-- The books of all processes stay right. -/
theorem Forest.Accounts.step (served : machine.Answers asks tells home)
    (accounts : forest.Accounts asks tells home tally)
    (stepped : forest.step machine world place = some (world', forest')) :
    forest'.Accounts asks tells home (bump (forest.event place) tally) := by
  induction forest generalizing place forest' tally with
  | nil => cases place <;> cases stepped
  | cons cell kids rest kids_ih rest_ih =>
      obtain ⟨mine, below, beside⟩ := accounts
      cases place with
      | under place =>
          obtain ⟨⟨world'', kids'⟩, moved, same⟩ := Option.map_eq_some_iff.mp stepped
          cases same
          rw [Forest.event]
          refine ⟨?_, ?_, ?_⟩
          · rwa [bump_same (by simp), bump_same (by simp)]
          · rw [bump_map Event.under_injective]
            exact kids_ih below moved
          · rwa [bump_other (by simp)]
      | beside place =>
          obtain ⟨⟨world'', rest'⟩, moved, same⟩ := Option.map_eq_some_iff.mp stepped
          cases same
          rw [Forest.event]
          refine ⟨?_, ?_, ?_⟩
          · rwa [bump_same (by simp), bump_same (by simp)]
          · rwa [bump_other (by simp)]
          · rw [bump_map Event.beside_injective]
            exact rest_ih beside moved
      | here =>
          obtain ⟨⟨world'', cell', kids'⟩, turned, same⟩ := Option.map_eq_some_iff.mp stepped
          cases same
          obtain ⟨link, down, up, control⟩ := cell
          obtain ⟨asked, told, left, answers, sum⟩ := mine
          cases control with
          | zombie | reaped => cases turned
          | idle loc =>
              cases down with
              | nil => cases turned
              | cons msg down =>
                  cases turned
                  obtain ⟨rfl, here⟩ := answers
                  have serves := served loc msg here (asked msg List.mem_cons_self)
                  refine ⟨⟨?_, told, 1, serves.resume, ?_⟩, below, beside⟩
                  · exact fun other inside => asked other (List.mem_cons_of_mem msg inside)
                  · show tally (.request .here) = tally (.answer .here) + down.length + 1
                    exact sum
          | busy prog =>
              have leaving : prog ≠ .exit := by
                intro exit
                rw [exit] at answers
                exact answers
              have unfinished : ∀ loc, prog ≠ .pure loc := by
                intro loc pure
                rw [pure] at turned
                cases turned
              rw [Cell.turn_busy leaving] at turned
              obtain ⟨after, advanced, same⟩ := Option.map_eq_some_iff.mp turned
              cases same
              have taken := advanced
              rw [← prog.bind_pure] at taken
              obtain ⟨more, less, answers', sum', said, below', next, _⟩ :=
                Prog.Answers.advance answers below unfinished taken
              rw [prog.bind_pure] at below'
              rw [more.bind_pure] at next
              show Forest.Accounts _ _ _ _ (bump (prog.event kids) tally)
              refine ⟨⟨asked, ?_, less, ?_, ?_⟩, below', ?_⟩
              · intro msg inside
                exact (List.mem_append.mp inside).elim (told msg) (said msg)
              · rw [next]
                exact answers'.resume
              · rw [Prog.event_request, Prog.event_answer advanced]
                simp only at sum ⊢
                omega
              · rwa [Prog.event_beside]

end Step

/-! ## A part of a program of the first process -/

section Run

variable {link : Link} {later : List Msg} {world world' : World} {lane : Lane} {calls : List (Op × Val)}
  {value : α} {kids kids' : Forest Msg Op Val Seed Loc} {grove grove' : Grove Loc}
  {tally : Event → Nat} {history : List Event} {rest : Prog Msg Op Val Seed α}

theorem Grove.accounts (each : grove.Each home) (even : ∀ place, tally (.request place) = tally (.answer place)) :
    (grove.forest : Forest Msg Op Val Seed Loc).Accounts asks tells home tally := by
  induction grove generalizing tally with
  | nil => exact even
  | cons link loc kids rest kids_ih rest_ih =>
      obtain ⟨here, below, beside⟩ := each
      refine ⟨⟨nofun, nofun, 0, ⟨rfl, here⟩, even .here⟩, ?_, ?_⟩
      · exact kids_ih below fun place => even (.under place)
      · exact rest_ih beside fun place => even (.beside place)

/-- Idle processes owe nothing. -/
theorem Grove.even (accounts : (grove.forest : Forest Msg Op Val Seed Loc).Accounts asks tells home tally)
    (place : Place) : tally (.request place) = tally (.answer place) := by
  induction grove generalizing tally place with
  | nil => exact accounts place
  | cons link loc kids rest kids_ih rest_ih =>
      obtain ⟨⟨_, _, left, ⟨none, _⟩, sum⟩, below, beside⟩ := accounts
      cases place with
      | here =>
          rw [none] at sum
          exact sum
      | under place => exact kids_ih below place
      | beside place => exact rest_ih beside place

/-- The books when the first process, which nobody asks, has these children. -/
structure Audit (asks tells : Msg → Prop) (home : Loc → Prop) (kids : Forest Msg Op Val Seed Loc)
    (history : List Event) : Prop where
  inOrder : ∀ before, before <+: history → ∀ place,
    before.count (.answer place) ≤ before.count (.request place)
  here : history.count (.request .here) = history.count (.answer .here)
  below : kids.Accounts asks tells home (occurrences history ∘ .under)
  beside : ∀ place, history.count (.request (.beside place)) = history.count (.answer (.beside place))

namespace Audit

theorem start (each : grove.Each home) :
    Audit asks tells home (grove.forest : Forest Msg Op Val Seed Loc) [] where
  inOrder before start place := by rw [List.prefix_nil.mp start]; rfl
  here := rfl
  below := Grove.accounts each fun _ => rfl
  beside _ := rfl

theorem settled (audit : Audit asks tells home (grove.forest : Forest Msg Op Val Seed Loc) history) :
    Answered history := by
  refine ⟨audit.inOrder, ?_⟩
  intro place
  cases place with
  | here => exact audit.here
  | under place => exact Grove.even audit.below place
  | beside place => exact audit.beside place

theorem extend (audit : Audit asks tells home kids history) {event : Option Event}
    (here : bump event (occurrences history) (.request .here) =
      bump event (occurrences history) (.answer .here))
    (below : kids'.Accounts asks tells home (bump event (occurrences history) ∘ .under))
    (beside : bump event (occurrences history) ∘ .beside = occurrences history ∘ .beside) :
    Audit asks tells home kids' (history ++ event.toList) := by
  rw [← occurrences_append] at here below beside
  have away : ∀ place, (history ++ event.toList).count (.request (.beside place)) =
      (history ++ event.toList).count (.answer (.beside place)) := by
    intro place
    have asked := congrFun beside (.request place)
    have answered := congrFun beside (.answer place)
    exact asked.trans ((audit.beside place).trans answered.symm)
  refine ⟨?_, here, below, away⟩
  intro before start place
  by_cases earlier : before <+: history
  · exact audit.inOrder before earlier place
  · have whole : before = history ++ event.toList := by
      cases event with
      | none => exact absurd (by simpa using start) earlier
      | some event => exact (List.prefix_concat_iff.mp start).resolve_right earlier
    rw [whole]
    cases place with
    | here => exact here.ge
    | under place => exact below.answered place
    | beside place => exact (away place).ge

end Audit

/-- Two states that differ in what the first process does behind the part, and the history
of the second. -/
inductive Audited (asks tells : Msg → Prop) (home : Loc → Prop) (link : Link) (later : List Msg)
    (next other : α → Prog Msg Op Val Seed Loc) :
    World × Forest Msg Op Val Seed Loc → (World × Forest Msg Op Val Seed Loc) × List Event → Prop
  | part (world : World) (kids : Forest Msg Op Val Seed Loc) (rest : Prog Msg Op Val Seed α)
      (history : List Event) (answers : rest.Answers asks tells (fun _ => True) 0)
      (audit : Audit asks tells home kids history) :
      Audited asks tells home link later next other
        (world, .cons ⟨link, later, [], .resume (rest.bind next)⟩ kids .nil)
        ((world, .cons ⟨link, later, [], .resume (rest.bind other)⟩ kids .nil), history)

theorem Audited.moves {other : α → Prog Msg Op Val Seed Loc}
    {state : (World × Forest Msg Op Val Seed Loc) × List Event} (served : machine.Answers asks tells home)
    (answers : rest.Answers asks tells (fun _ => True) 0) (audit : Audit asks tells home kids history)
    (unfinished : ∀ value, rest ≠ .pure value)
    (taken : Logs machine ((world, .cons ⟨link, later, [], .resume (rest.bind other)⟩ kids .nil), history) state) :
    ∃ state', Moves machine (world, .cons ⟨link, later, [], .resume (rest.bind next)⟩ kids .nil) state' ∧
      Audited asks tells home link later next other state' state := by
  obtain ⟨after, history'⟩ := state
  obtain ⟨place, stepped, logged⟩ := taken
  simp only at stepped logged
  subst logged
  cases place with
  | beside place => cases place <;> cases stepped
  | under place =>
      obtain ⟨⟨world', kids'⟩, moved, rfl⟩ := Option.map_eq_some_iff.mp stepped
      refine ⟨_, ⟨.under place, by simp [Forest.step, moved]⟩, .part world' kids' rest _ answers ?_⟩
      refine audit.extend ?_ ?_ ?_
      · rw [Forest.event, bump_same (by simp), bump_same (by simp)]
        exact audit.here
      · rw [Forest.event, bump_map Event.under_injective]
        exact audit.below.step served moved
      · rw [Forest.event, bump_other (by simp)]
  | here =>
      obtain ⟨⟨world', cell, kids'⟩, turned, rfl⟩ := Option.map_eq_some_iff.mp stepped
      have goes_on : ∀ next : α → Prog Msg Op Val Seed Loc, rest.bind next ≠ .exit := by
        intro next leaves
        cases rest with
        | pure value => exact unfinished value rfl
        | exit => exact answers
        | write | read | reply | fork | wait | close | call => cases leaves
      rw [Control.resume_bind unfinished, Cell.turn_busy (goes_on other)] at turned
      obtain ⟨after, advanced, same⟩ := Option.map_eq_some_iff.mp turned
      cases same
      obtain ⟨more, less, answers', none, _, below, behind, elsewhere⟩ :=
        answers.advance audit.below unfinished advanced
      have silent : after.said = [] := List.length_eq_zero_iff.mp (by omega)
      obtain rfl : less = 0 := by omega
      have event : Forest.event .here
          (.cons ⟨link, later, [], .resume (rest.bind other)⟩ kids .nil) = (rest.bind other).event kids := by
        rw [Forest.event, Control.resume_bind unfinished]
        rfl
      rw [behind, silent, event]
      refine ⟨_, ⟨.here, ?_⟩, .part after.world after.kids more _ answers' (audit.extend ?_ below Prog.event_beside)⟩
      · rw [Control.resume_bind unfinished]
        simp [Forest.step, Cell.turn_busy (goes_on next), elsewhere next, silent]
      · rw [Prog.event_request, Prog.event_answer advanced, silent]
        exact audit.here

/-- A part of a program of the first process, with all requests in it answered. -/
theorem Yields.until_answered {prog : Prog Msg Op Val Seed α} [DecidableEq Lane] [PartialOrder Lane]
    (part : Yields machine lane prog grove.crew grove'.crew calls value)
    (made : Calls machine calls world world') (served : machine.Answers asks tells home)
    (answers : prog.Answers asks tells (fun _ => True) 0) (each : grove.Each home) (loc : Loc)
    (next : α → Prog Msg Op Val Seed Loc) :
    Until (Logs machine) (fun state => state.1.2.Working link later)
      (fun state => state.1 = (world', working link later (next value) grove'.forest) ∧ Answered state.2)
      ((world, working link later (prog.bind next) grove.forest), []) := by
  classical
  let stop : α → Prog Msg Op Val Seed Loc := Prog.stop value loc
  refine (part.until_stop made loc).transfer ?_ ?_
    (.part world grove.forest prog [] answers (.start each) : Audited asks tells home link later stop next _ _)
  · intro state other audited ended
    obtain ⟨world, kids, rest, history, answers, audit⟩ := audited
    obtain ⟨ended, rfl⟩ := ended
    obtain ⟨_, rfl, rfl⟩ := ended.of_stop
    exact ⟨rfl, audit.settled⟩
  · intro state other audited works some onward
    obtain ⟨world, kids, rest, history, answers, audit⟩ := audited
    obtain ⟨_, unfinished, stays⟩ := Until.inside_stop works onward
    refine ⟨⟨rest.bind next, kids, by rw [Control.resume_bind unfinished]⟩, ?_, ?_⟩
    · obtain ⟨state, taken⟩ := some
      obtain ⟨state', ⟨place, stepped⟩, _⟩ := Alike.moves next unfinished stays taken
      exact ⟨(state', _), place, stepped, rfl⟩
    · intro state' taken
      exact Audited.moves served answers audit unfinished taken

end Run

end SysProg.Process
