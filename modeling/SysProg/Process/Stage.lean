import SysProg.Process.Course

namespace SysProg.Process

/-! The states in which a forest can be while its processes run their programs.

`Realises` relates a forest to what the parent knows of it: an idle child is
idle, a child at work has the request, or is in the middle of its program with
children of its own, or has answered. -/

variable {Msg Op Val Seed Loc World Lane : Type}

def Forest.Dead : Forest Msg Op Val Seed Loc → Prop
  | .nil => True
  | .cons cell kids rest => cell.control = .reaped ∧ kids.Dead ∧ rest.Dead

theorem Forest.Dead.extinct {forest : Forest Msg Op Val Seed Loc} (dead : forest.Dead) :
    forest.extinct := by
  induction forest with
  | nil => rfl
  | cons cell kids rest kids_ih rest_ih =>
      obtain ⟨reaped, below, beside⟩ := dead
      rw [Forest.extinct, reaped]
      simp [kids_ih below, rest_ih beside]

/-- A process that has answered, with the steps that remain to it. -/
inductive Settled : Control Msg Op Val Seed Loc → Forest Msg Op Val Seed Loc →
    Option (Loc × Grove Loc) → Nat → Prop
  | stays (loc : Loc) (grove : Grove Loc) : Settled (.idle loc) grove.forest (some (loc, grove)) 0
  | leaves {kids} (dead : kids.Dead) : Settled (.busy .exit) kids none 1
  | left {kids} (dead : kids.Dead) : Settled .zombie kids none 0

variable [PartialOrder Lane]

theorem Crew.apart_append {lanes : Set Lane} {first second : Crew Msg Loc Lane} :
    Crew.Apart lanes (first ++ second) ↔ Crew.Apart lanes first ∧ Crew.Apart lanes second := by
  constructor
  · intro apart
    exact ⟨fun post inside => apart post (List.mem_append_left _ inside),
      fun post inside => apart post (List.mem_append_right _ inside)⟩
  · intro facts post inside
    obtain ⟨left, right⟩ := facts
    cases List.mem_append.mp inside with
    | inl first => exact left post first
    | inr second => exact right post second

theorem Crew.apart_cons {lanes : Set Lane} {post : Link × Status Msg Loc Lane}
    {crew : Crew Msg Loc Lane} :
    Crew.Apart lanes (post :: crew) ↔
      Process.Apart lanes post.2.lanes ∧ Crew.Apart lanes crew := by
  simp [Crew.Apart]

theorem Crew.Apart.of_empty (crew : Crew Msg Loc Lane) : Crew.Apart ∅ crew :=
  fun _ _ => Process.Apart.of_empty _

variable [DecidableEq Lane] {machine : Machine Msg Op Val Seed Loc World}

inductive Realises (machine : Machine Msg Op Val Seed Loc World) :
    Forest Msg Op Val Seed Loc → Crew Msg Loc Lane → Trace Lane Op Val → Nat → Prop
  | nil : Realises machine .nil [] .nil 0
  | quiet (link : Link) (loc : Loc) (kids : Grove Loc) {forest crew trace steps}
      (others : Realises machine forest crew trace steps) :
      Realises machine (.cons ⟨link, [], [], .idle loc⟩ kids.forest forest)
        ((link, .quiet loc kids) :: crew) trace steps
  | asked (link : Link) (loc : Loc) (kids : Grove Loc) (msg : Msg)
      {lanes first count answer after forest crew trace steps}
      (served : Runs machine (machine.serve loc msg) kids.crew first count (some answer) after)
      (within : first.Within lanes) (apart : Crew.Apart lanes crew)
      (others : Realises machine forest crew trace steps) :
      Realises machine (.cons ⟨link, [msg], [], .idle loc⟩ kids.forest forest)
        ((link, .running lanes answer after) :: crew) (first ++ trace) (count + 1 + steps)
  | working (link : Link) {prog kids inner below under first count lanes answer after forest crew
        trace steps}
      (family : Realises machine kids inner below under)
      (runs : Runs machine prog inner first count (some answer) after)
      (within : (below ++ first).Within lanes) (apart : Crew.Apart lanes crew)
      (others : Realises machine forest crew trace steps) :
      Realises machine (.cons ⟨link, [], [], .busy prog⟩ kids forest)
        ((link, .running lanes answer after) :: crew) (below ++ first ++ trace)
        (under + count + steps)
  | answered (link : Link) {control kids lanes answer after remain forest crew trace steps}
      (settled : Settled control kids after remain) (apart : Crew.Apart lanes crew)
      (others : Realises machine forest crew trace steps) :
      Realises machine (.cons ⟨link, [], [answer], control⟩ kids forest)
        ((link, .running lanes answer after) :: crew) trace (remain + steps)
  | leaving (link : Link) {control kids remain forest crew trace steps}
      (settled : Settled control kids none remain)
      (others : Realises machine forest crew trace steps) :
      Realises machine (.cons ⟨link, [], [], control⟩ kids forest)
        ((link, .leaving) :: crew) trace (remain + steps)
  | gone (link : Link) {kids forest crew trace steps} (dead : kids.Dead)
      (others : Realises machine forest crew trace steps) :
      Realises machine (.cons ⟨link, [], [], .reaped⟩ kids forest)
        ((link, .gone) :: crew) trace steps

theorem Runs.resume {prog : Prog Msg Op Val Seed Loc} {crew : Crew Msg Loc Lane} {trace steps answer
    after} (runs : Runs machine prog crew trace steps (some answer) after) :
    Control.resume prog = .busy prog := by
  cases runs <;> rfl

namespace Realises

theorem grove (grove : Grove Loc) :
    Realises machine grove.forest (grove.crew : Crew Msg Loc Lane) .nil 0 := by
  induction grove with
  | nil => exact .nil
  | cons link loc kids rest _ ih => exact .quiet link loc kids ih

theorem of_grove {grove : Grove Loc} {forest : Forest Msg Op Val Seed Loc}
    {trace : Trace Lane Op Val} {steps : Nat}
    (real : Realises machine forest (grove.crew : Crew Msg Loc Lane) trace steps) :
    forest = grove.forest ∧ trace = .nil ∧ steps = 0 := by
  induction grove generalizing forest with
  | nil =>
      cases real
      exact ⟨rfl, rfl, rfl⟩
  | cons link loc kids rest _ ih =>
      cases real with
      | quiet _ _ _ others =>
          obtain ⟨rfl, rfl, rfl⟩ := ih others
          exact ⟨rfl, rfl, rfl⟩

theorem of_gone {crew : Crew Msg Loc Lane} {forest : Forest Msg Op Val Seed Loc}
    {trace : Trace Lane Op Val} {steps : Nat} (real : Realises machine forest crew trace steps)
    (gone : Crew.Gone crew) : forest.Dead ∧ trace = .nil ∧ steps = 0 := by
  induction real with
  | nil => exact ⟨trivial, rfl, rfl⟩
  | gone link dead others ih =>
      obtain ⟨restDead, empty, done⟩ := ih fun post inside => gone post (List.mem_cons_of_mem _ inside)
      exact ⟨⟨rfl, dead, restDead⟩, empty, done⟩
  | quiet | asked | working | answered | leaving => cases gone _ List.mem_cons_self

theorem empty {crew : Crew Msg Loc Lane} {forest : Forest Msg Op Val Seed Loc}
    {trace : Trace Lane Op Val} {steps : Nat} (real : Realises machine forest crew trace steps)
    {lane : Lane} (free : ∀ post ∈ crew, lane ∉ post.2.lanes) : trace lane = [] := by
  induction real with
  | nil => rfl
  | quiet _ _ _ _ ih | answered _ _ _ _ ih | leaving _ _ _ ih | gone _ _ _ ih =>
      exact ih fun post inside => free post (List.mem_cons_of_mem _ inside)
  | asked _ _ _ _ _ within _ _ ih | working _ _ _ within _ _ _ ih =>
      have mine := within.empty (free _ List.mem_cons_self)
      have theirs := ih fun post inside => free post (List.mem_cons_of_mem _ inside)
      rw [Trace.append_apply, mine, theirs]
      rfl

theorem descriptors {crew : Crew Msg Loc Lane} {forest : Forest Msg Op Val Seed Loc}
    {trace : Trace Lane Op Val} {steps : Nat} (real : Realises machine forest crew trace steps) :
    forest.descriptors = crew.descriptors := by
  induction real with
  | nil => rfl
  | quiet _ _ _ _ ih | answered _ _ _ _ ih | leaving _ _ _ ih | gone _ _ _ ih =>
      simp only [Forest.descriptors, Crew.descriptors, ih]
  | asked _ _ _ _ _ _ _ _ ih | working _ _ _ _ _ _ _ ih =>
      simp only [Forest.descriptors, Crew.descriptors, ih]

end Realises

end SysProg.Process
