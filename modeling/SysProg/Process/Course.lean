import Mathlib.Data.Set.Basic
import Mathlib.Order.Basic
import SysProg.Process.Tree

namespace SysProg.Process

/-! What a program will do when each of its requests finds an idle child.

The judgement `Runs` follows one program to its end.  It says what the program
replies, what becomes of the process and its children, how many steps they all
take together, and which calls they make: those of one lane happen in the order
given, a lane below another comes first, and those of lanes that the order does
not compare happen in any order. -/

variable {Msg Op Val Seed Loc World Lane : Type}

/-- The calls still to be made in each lane, with the values they return. -/
def Trace (Lane Op Val : Type) := Lane → List (Op × Val)

namespace Trace

def nil : Trace Lane Op Val := fun _ => []

def append (first second : Trace Lane Op Val) : Trace Lane Op Val :=
  fun lane => first lane ++ second lane

instance : Append (Trace Lane Op Val) := ⟨append⟩

def only [DecidableEq Lane] (lane : Lane) (calls : List (Op × Val)) : Trace Lane Op Val :=
  fun other => if other = lane then calls else []

def put [DecidableEq Lane] (trace : Trace Lane Op Val) (lane : Lane) (calls : List (Op × Val)) :
    Trace Lane Op Val :=
  fun other => if other = lane then calls else trace other

def Within (trace : Trace Lane Op Val) (lanes : Set Lane) : Prop :=
  ∀ lane, trace lane ≠ [] → lane ∈ lanes

@[simp] theorem nil_apply (lane : Lane) : (nil : Trace Lane Op Val) lane = [] := rfl

@[simp] theorem append_apply (first second : Trace Lane Op Val) (lane : Lane) :
    (first ++ second) lane = first lane ++ second lane := rfl

@[simp] theorem put_self [DecidableEq Lane] (trace : Trace Lane Op Val) (lane : Lane)
    (calls : List (Op × Val)) : trace.put lane calls lane = calls :=
  if_pos rfl

@[simp] theorem put_other [DecidableEq Lane] {lane other : Lane} (different : other ≠ lane)
    (trace : Trace Lane Op Val) (calls : List (Op × Val)) :
    trace.put lane calls other = trace other :=
  if_neg different

@[simp] theorem nil_append (trace : Trace Lane Op Val) : nil ++ trace = trace := rfl

@[simp] theorem append_nil (trace : Trace Lane Op Val) : trace ++ nil = trace := by
  funext lane
  simp

theorem append_assoc (first second third : Trace Lane Op Val) :
    first ++ second ++ third = first ++ (second ++ third) := by
  funext lane
  simp

theorem Within.nil (lanes : Set Lane) : (nil : Trace Lane Op Val).Within lanes := by
  intro lane some
  exact absurd rfl some

theorem Within.empty {trace : Trace Lane Op Val} {lanes : Set Lane} (within : trace.Within lanes)
    {lane : Lane} (outside : lane ∉ lanes) : trace lane = [] := by
  by_contra some
  exact outside (within lane some)

@[simp] theorem only_self [DecidableEq Lane] (lane : Lane) (calls : List (Op × Val)) :
    only lane calls lane = calls := if_pos rfl

@[simp] theorem only_other [DecidableEq Lane] {lane other : Lane} (different : other ≠ lane)
    (calls : List (Op × Val)) : only lane calls other = [] := if_neg different

@[simp] theorem only_nil [DecidableEq Lane] (lane : Lane) :
    only lane ([] : List (Op × Val)) = nil := by
  funext other
  simp [only]

theorem only_append [DecidableEq Lane] (lane : Lane) (first second : List (Op × Val)) :
    only lane (first ++ second) = only lane first ++ only lane second := by
  funext other
  by_cases same : other = lane
  · subst same
    simp
  · simp [same]

@[simp] theorem only_put [DecidableEq Lane] (lane : Lane) (calls rest : List (Op × Val)) :
    (only lane calls).put lane rest = only lane rest := by
  funext other
  by_cases same : other = lane
  · subst same
    simp
  · simp [same]

theorem only_within [DecidableEq Lane] (lane : Lane) (calls : List (Op × Val)) :
    (only lane calls).Within {lane} := by
  intro other some
  by_contra different
  exact some (only_other different calls)

theorem put_append_right [DecidableEq Lane] (first second : Trace Lane Op Val) (lane : Lane)
    (rest : List (Op × Val)) :
    (first ++ second).put lane (rest ++ second lane) = first.put lane rest ++ second := by
  funext other
  by_cases same : other = lane
  · subst same
    simp
  · simp [same]

theorem put_append_left [DecidableEq Lane] {first second : Trace Lane Op Val} {lane : Lane}
    {rest : List (Op × Val)} (mine : first lane = []) :
    (first ++ second).put lane rest = first ++ second.put lane rest := by
  funext other
  by_cases same : other = lane
  · subst same
    simp [mine]
  · simp [same]

end Trace

/-- The children of a process when all of them are idle and no message is on
its way. -/
inductive Grove (Loc : Type) where
  | nil
  | cons (link : Link) (loc : Loc) (kids rest : Grove Loc)

/-- How a process stands to its parent: idle; at work on a message of the
parent's, with the calls this may still lead to, the reply and what becomes of
it; past its reply and about to exit; waited for. -/
inductive Status (Msg Loc Lane : Type) where
  | quiet (loc : Loc) (kids : Grove Loc)
  | running (lanes : Set Lane) (answer : Msg) (after : Option (Loc × Grove Loc))
  | leaving
  | gone

def Status.settled : Option (Loc × Grove Loc) → Status Msg Loc Lane
  | some (loc, kids) => .quiet loc kids
  | none => .leaving

def Status.lanes : Status Msg Loc Lane → Set Lane
  | .running lanes _ _ => lanes
  | _ => ∅

def Status.Still : Status Msg Loc Lane → Prop
  | .quiet _ _ | .gone => True
  | _ => False

@[simp] theorem Status.lanes_settled (after : Option (Loc × Grove Loc)) :
    (Status.settled after : Status Msg Loc Lane).lanes = ∅ := by
  cases after <;> rfl

/-- The children of a process as it sees them. -/
abbrev Crew (Msg Loc Lane : Type) := List (Link × Status Msg Loc Lane)

variable [PartialOrder Lane]

/-- The order compares no lane of the one set with one of the other. -/
def Apart (left right : Set Lane) : Prop := ∀ a ∈ left, ∀ b ∈ right, ¬ a ≤ b ∧ ¬ b ≤ a

theorem Apart.symm {left right : Set Lane} (apart : Apart left right) : Apart right left :=
  fun a inside b there => (apart b there a inside).symm

theorem Apart.empty (lanes : Set Lane) : Apart lanes ∅ := fun _ _ _ inside => inside.elim

theorem Apart.of_empty (lanes : Set Lane) : Apart ∅ lanes := fun _ inside => inside.elim

theorem Apart.outside {left right : Set Lane} (apart : Apart left right) {lane : Lane}
    (inside : lane ∈ left) : lane ∉ right :=
  fun there => (apart lane inside lane there).1 le_rfl

namespace Crew

/-- The lanes of these children are apart from `lanes`. -/
def Apart (lanes : Set Lane) (crew : Crew Msg Loc Lane) : Prop :=
  ∀ post ∈ crew, Process.Apart lanes post.2.lanes

def Gone (crew : Crew Msg Loc Lane) : Prop := ∀ post ∈ crew, post.2 = .gone

def descriptors : Crew Msg Loc Lane → List Int
  | [] => []
  | post :: rest => post.1.read_fd :: post.1.write_fd :: descriptors rest

end Crew

namespace Grove

def forest : Grove Loc → Forest Msg Op Val Seed Loc
  | .nil => .nil
  | .cons link loc kids rest => .cons ⟨link, [], [], .idle loc⟩ kids.forest rest.forest

def crew : Grove Loc → Crew Msg Loc Lane
  | .nil => []
  | .cons link loc kids rest => (link, .quiet loc kids) :: rest.crew

def append : Grove Loc → Grove Loc → Grove Loc
  | .nil, last => last
  | .cons link loc kids rest, last => .cons link loc kids (rest.append last)

theorem append_assoc (first second third : Grove Loc) :
    (first.append second).append third = first.append (second.append third) := by
  induction first with
  | nil => rfl
  | cons link loc kids rest _ ih => simp only [append, ih]

theorem forest_append (first last : Grove Loc) :
    ((first.append last).forest : Forest Msg Op Val Seed Loc) = first.forest.append last.forest := by
  induction first with
  | nil => rfl
  | cons link loc kids rest _ ih => simp only [append, forest, Forest.append, ih]

omit [PartialOrder Lane] in
@[simp] theorem crew_append (first last : Grove Loc) :
    ((first.append last).crew : Crew Msg Loc Lane) = first.crew ++ last.crew := by
  induction first with
  | nil => rfl
  | cons link loc kids rest _ ih => simp only [append, crew, ih, List.cons_append]

end Grove

variable [DecidableEq Lane]

/-- `Runs machine prog crew trace steps answer after`: with children `crew`, the
program makes the calls `trace`, in `steps` steps of the process and of the
children it asks, replies `answer` and leaves `after`. -/
inductive Runs (machine : Machine Msg Op Val Seed Loc World) :
    Prog Msg Op Val Seed Loc → Crew Msg Loc Lane → Trace Lane Op Val → Nat → Option Msg →
      Option (Loc × Grove Loc) → Prop
  | pure (loc : Loc) (grove : Grove Loc) :
      Runs machine (.pure loc) grove.crew .nil 0 none (some (loc, grove))
  | exit {crew} (gone : Crew.Gone crew) : Runs machine .exit crew .nil 1 none none
  | reply (msg : Msg) (loc : Loc) (grove : Grove Loc) :
      Runs machine (.reply msg (.pure loc)) grove.crew .nil 1 (some msg) (some (loc, grove))
  | leave (msg : Msg) {crew} (gone : Crew.Gone crew) :
      Runs machine (.reply msg .exit) crew .nil 2 (some msg) none
  | write {link msg next before loc kids rest lanes first steps answer after second count reply final}
      (only : ∀ post ∈ before, post.1.write_fd ≠ link.write_fd)
      (served : Runs machine (machine.serve loc msg) kids.crew first steps (some answer) after)
      (within : first.Within lanes) (apart : Crew.Apart lanes (before ++ rest))
      (continues : Runs machine next (before ++ (link, .running lanes answer after) :: rest) second
        count reply final) :
      Runs machine (.write link.write_fd msg next) (before ++ (link, .quiet loc kids) :: rest)
        (first ++ second) (steps + count + 2) reply final
  | read {link next before lanes answer after rest trace count reply final}
      (only : ∀ post ∈ before, post.1.read_fd ≠ link.read_fd)
      (ordered : ∀ later, trace later ≠ [] → ∀ lane ∈ lanes, lane ≤ later)
      (continues : Runs machine (next (some answer)) (before ++ (link, .settled after) :: rest)
        trace count reply final) :
      Runs machine (.read link.read_fd next) (before ++ (link, .running lanes answer after) :: rest)
        trace (count + 1) reply final
  | fork {own seed next crew lanes first steps answer after second count reply final}
      (served : Runs machine (machine.boot seed) [] first steps (some answer) after)
      (within : first.Within lanes) (apart : Crew.Apart lanes crew)
      (continues : Runs machine (next (Link.fresh (own ++ crew.descriptors)))
        (crew ++ [(Link.fresh (own ++ crew.descriptors), .running lanes answer after)]) second
        count reply final) :
      Runs machine (.fork own seed next) crew (first ++ second) (steps + count + 1) reply final
  | wait {link next before rest trace count reply final}
      (only : ∀ post ∈ before ++ rest, post.2.Still)
      (continues : Runs machine next (before ++ (link, .gone) :: rest) trace count reply final) :
      Runs machine (.wait next) (before ++ (link, .leaving) :: rest) trace (count + 1) reply final
  | close {link next before rest trace count reply final}
      (only : ∀ post ∈ before, post.1 ≠ link)
      (continues : Runs machine next (before ++ rest) trace count reply final) :
      Runs machine (.close link next) (before ++ (link, .gone) :: rest) trace (count + 1) reply final
  | call {lane op val next crew trace count reply final}
      (free : Crew.Apart {lane} crew)
      (ordered : ∀ later, trace later ≠ [] → lane ≤ later)
      (continues : Runs machine (next val) crew trace count reply final) :
      Runs machine (.call op next) crew (Trace.only lane [(op, val)] ++ trace) (count + 1) reply final

end SysProg.Process
