import SysProg.Process.Stage

namespace SysProg.Process.Realises

/-! What a call on the pipes does to the children it reaches. -/

variable {Msg Op Val Seed Loc World Lane : Type} [PartialOrder Lane] {before rest crew : Crew Msg Loc Lane}
  {link : Link} {lanes : Set Lane}

/-- The lanes of a child that starts to work are not those of the others. -/
theorem apart_before {answer : Msg} {settled : Option (Loc × Grove Loc)}
    {status : Status Msg Loc Lane} (apart : Crew.Apart lanes (before ++ rest))
    (aparts : ∀ post ∈ before, Crew.Apart post.2.lanes ((link, status) :: rest)) :
    ∀ post ∈ before, Crew.Apart post.2.lanes ((link, .running lanes answer settled) :: rest) := by
  intro post inside
  refine Crew.apart_cons.mpr ⟨?_, (Crew.apart_cons.mp (aparts post inside)).2⟩
  exact (apart post (List.mem_append_left _ inside)).symm

/-- The calls of a child that starts to work may be listed before those of the
others. -/
theorem swap {first mine : Trace Lane Op Val} (within : first.Within lanes)
    (free : ∀ lane, (∀ post ∈ before, lane ∉ post.2.lanes) → mine lane = [])
    (apart : Crew.Apart lanes before) : first ++ mine = mine ++ first := by
  funext lane
  by_cases inside : lane ∈ lanes
  · have outside : mine lane = [] :=
      free lane fun post member => (apart post member).outside inside
    simp [outside]
  · simp [within.empty inside]

variable [DecidableEq Lane] {machine : Machine Msg Op Val Seed Loc World}
  {trace : Trace Lane Op Val} {steps : Nat} {forest after : Forest Msg Op Val Seed Loc}

/-- The first child, and that it does not matter to it who the others are. -/
theorem uncons {post : Link × Status Msg Loc Lane}
    (real : Realises machine forest (post :: crew) trace steps) :
    ∃ cell kids others mine count theirs remain,
      forest = .cons cell kids others ∧ cell.link = post.1 ∧
      (post.2.Still → cell.control ≠ .zombie) ∧
      Realises machine others crew theirs remain ∧
      trace = mine ++ theirs ∧ steps = count + remain ∧
      mine.Within post.2.lanes ∧ Crew.Apart post.2.lanes crew ∧
      ∀ {others' : Forest Msg Op Val Seed Loc} {crew' : Crew Msg Loc Lane}
        {theirs' : Trace Lane Op Val} {remain' : Nat},
        Realises machine others' crew' theirs' remain' → Crew.Apart post.2.lanes crew' →
          Realises machine (.cons cell kids others') (post :: crew') (mine ++ theirs')
            (count + remain') := by
  cases real with
  | quiet link loc kids others =>
      refine ⟨_, _, _, .nil, 0, _, _, rfl, rfl, fun _ => nofun, others, rfl, (Nat.zero_add _).symm,
        .nil _, .of_empty _, ?_⟩
      intro _ _ _ _ others' _
      rw [Nat.zero_add]
      exact .quiet link loc kids others'
  | asked link loc kids msg served within apart others =>
      exact ⟨_, _, _, _, _, _, _, rfl, rfl, nofun, others, rfl, rfl, within, apart,
        fun others' apart' => .asked link loc kids msg served within apart' others'⟩
  | working link family runs within apart others =>
      exact ⟨_, _, _, _, _, _, _, rfl, rfl, nofun, others, rfl, rfl, within, apart,
        fun others' apart' => .working link family runs within apart' others'⟩
  | answered link settled apart others =>
      exact ⟨_, _, _, .nil, _, _, _, rfl, rfl, nofun, others, rfl, rfl, .nil _, apart,
        fun others' apart' => .answered link settled apart' others'⟩
  | leaving link settled others =>
      exact ⟨_, _, _, .nil, _, _, _, rfl, rfl, nofun, others, rfl, rfl, .nil _,
        .of_empty _, fun others' _ => .leaving link settled others'⟩
  | gone link dead others =>
      refine ⟨_, _, _, .nil, 0, _, _, rfl, rfl, fun _ => nofun, others, rfl, (Nat.zero_add _).symm,
        .nil _, .of_empty _, ?_⟩
      intro _ _ _ _ others' _
      rw [Nat.zero_add]
      exact .gone link dead others'

/-- The children before a point, and that it does not matter to them who comes
after it. -/
theorem split (real : Realises machine forest (before ++ crew) trace steps) :
    ∃ (first last : Forest Msg Op Val Seed Loc) (mine : Trace Lane Op Val) (count : Nat)
        (theirs : Trace Lane Op Val) (remain : Nat),
      forest = first.append last ∧
      (∀ cell ∈ first.cells, ∃ post ∈ before, cell.link = post.1 ∧
        (post.2.Still → cell.control ≠ .zombie)) ∧
      Realises machine last crew theirs remain ∧
      trace = mine ++ theirs ∧ steps = count + remain ∧
      (∀ lane, (∀ post ∈ before, lane ∉ post.2.lanes) → mine lane = []) ∧
      (∀ post ∈ before, Crew.Apart post.2.lanes crew) ∧
      ∀ {last' : Forest Msg Op Val Seed Loc} {crew' : Crew Msg Loc Lane}
        {theirs' : Trace Lane Op Val} {remain' : Nat},
        Realises machine last' crew' theirs' remain' →
          (∀ post ∈ before, Crew.Apart post.2.lanes crew') →
          Realises machine (first.append last') (before ++ crew') (mine ++ theirs')
            (count + remain') := by
  induction before generalizing forest trace steps with
  | nil =>
      refine ⟨.nil, forest, .nil, 0, trace, steps, rfl, nofun, real, rfl, (Nat.zero_add _).symm,
        fun _ _ => rfl, nofun, ?_⟩
      intro _ _ _ _ real' _
      rw [Nat.zero_add]
      exact real'
  | cons post before ih =>
      obtain ⟨cell, kids, others, mine, count, _, _, rfl, named, awake, others', rfl, rfl, within,
        apart, frame⟩ := uncons real
      obtain ⟨first, last, more, count', theirs, remain, rfl, cells, last', rfl, rfl, free, aparts,
        rebuild⟩ := ih others'
      refine ⟨.cons cell kids first, last, mine ++ more, count + count', theirs, remain, rfl, ?_,
        last', (Trace.append_assoc _ _ _).symm, by omega, ?_, ?_, ?_⟩
      · intro other inside
        cases List.mem_cons.mp inside with
        | inl same => exact ⟨post, List.mem_cons_self, same ▸ named, same ▸ awake⟩
        | inr later =>
            obtain ⟨found, member, facts⟩ := cells other later
            exact ⟨found, List.mem_cons_of_mem _ member, facts⟩
      · intro lane unused
        have here := within.empty (unused post List.mem_cons_self)
        have there := free lane fun other inside => unused other (List.mem_cons_of_mem _ inside)
        rw [Trace.append_apply, here, there]
        rfl
      · intro other inside
        cases List.mem_cons.mp inside with
        | inl same => exact same ▸ (Crew.apart_append.mp apart).2
        | inr later => exact aparts other later
      · intro _ _ _ _ real' apart'
        rw [Trace.append_assoc, Nat.add_assoc]
        have behind := rebuild real' fun other inside => apart' other (List.mem_cons_of_mem _ inside)
        refine frame behind (Crew.apart_append.mpr ⟨(Crew.apart_append.mp apart).1, ?_⟩)
        exact apart' post List.mem_cons_self

theorem deliver {loc : Loc} {kids : Grove Loc} {msg answer : Msg}
    {settled : Option (Loc × Grove Loc)} {first : Trace Lane Op Val} {count : Nat}
    (real : Realises machine forest (before ++ (link, .quiet loc kids) :: rest) trace steps)
    (only : ∀ post ∈ before, post.1.write_fd ≠ link.write_fd)
    (served : Runs machine (machine.serve loc msg) kids.crew first count (some answer) settled)
    (within : first.Within lanes) (apart : Crew.Apart lanes (before ++ rest)) :
    ∃ next, forest.deliver link.write_fd msg = some next ∧
      Realises machine next (before ++ (link, .running lanes answer settled) :: rest)
        (first ++ trace) (count + 1 + steps) := by
  obtain ⟨head, last, mine, done, theirs, remain, rfl, cells, last', rfl, rfl, free, aparts,
    rebuild⟩ := split real
  have skips : ∀ cell ∈ head.cells, cell.link.write_fd ≠ link.write_fd := by
    intro cell inside
    obtain ⟨post, member, same, _⟩ := cells cell inside
    exact same ▸ only post member
  rw [Forest.deliver_append skips]
  cases last' with
  | quiet _ _ _ others =>
      have started := Realises.asked link loc kids msg served within
        (Crew.apart_append.mp apart).2 others
      have placed := rebuild started (apart_before apart aparts)
      have order : first ++ (mine ++ theirs) = mine ++ (first ++ theirs) := by
        rw [← Trace.append_assoc, ← Trace.append_assoc]
        rw [swap within free (Crew.apart_append.mp apart).1]
      have sum : count + 1 + (done + remain) = done + (count + 1 + remain) := by omega
      rw [order, sum]
      exact ⟨_, by simp [Forest.deliver, Control.alive], placed⟩

theorem receive {answer : Msg} {settled : Option (Loc × Grove Loc)} {got : Option Msg}
    (real : Realises machine forest (before ++ (link, .running lanes answer settled) :: rest) trace
      steps)
    (only : ∀ post ∈ before, post.1.read_fd ≠ link.read_fd)
    (taken : forest.receive link.read_fd = some (got, after)) :
    got = some answer ∧
      Realises machine after (before ++ (link, .settled settled) :: rest) trace steps := by
  obtain ⟨head, last, mine, done, theirs, remain, rfl, cells, last', rfl, rfl, free, aparts,
    rebuild⟩ := split real
  have skips : ∀ cell ∈ head.cells, cell.link.read_fd ≠ link.read_fd := by
    intro cell inside
    obtain ⟨post, member, same, _⟩ := cells cell inside
    exact same ▸ only post member
  rw [Forest.receive_append skips] at taken
  have tail : ∀ post ∈ before,
      Crew.Apart post.2.lanes ((link, (Status.settled settled : Status Msg Loc Lane)) :: rest) := by
    intro post inside
    refine Crew.apart_cons.mpr ⟨?_, (Crew.apart_cons.mp (aparts post inside)).2⟩
    rw [Status.lanes_settled]
    exact .empty _
  cases last' with
  | asked _ _ _ _ _ _ _ _ => simp [Forest.receive] at taken
  | working _ _ _ _ _ _ => simp [Forest.receive] at taken
  | answered _ parted apart others =>
      simp only [Forest.receive, if_true, Option.map_some, Option.some.injEq, Prod.mk.injEq] at taken
      obtain ⟨rfl, rfl⟩ := taken
      refine ⟨rfl, rebuild ?_ tail⟩
      cases parted with
      | stays loc grove =>
          rw [Nat.zero_add]
          exact .quiet link loc grove others
      | leaves dead => exact .leaving link (.leaves dead) others
      | left dead => exact .leaving link (.left dead) others

theorem no_zombie (real : Realises machine forest crew trace steps)
    (still : ∀ post ∈ crew, post.2.Still) : forest.reap = none := by
  induction real with
  | nil => rfl
  | quiet _ _ _ _ ih | gone _ _ _ ih =>
      simp [Forest.reap, ih fun post inside => still post (List.mem_cons_of_mem _ inside)]
  | asked | working | answered | leaving => exact (still _ List.mem_cons_self).elim

theorem reap (real : Realises machine forest (before ++ (link, .leaving) :: rest) trace steps)
    (only : ∀ post ∈ before ++ rest, post.2.Still) (taken : forest.reap = some after) :
    Realises machine after (before ++ (link, .gone) :: rest) trace steps := by
  obtain ⟨head, last, mine, done, theirs, remain, rfl, cells, last', rfl, rfl, free, aparts,
    rebuild⟩ := split real
  have skips : ∀ cell ∈ head.cells, cell.control ≠ .zombie := by
    intro cell inside
    obtain ⟨post, member, _, awake⟩ := cells cell inside
    exact awake (only post (List.mem_append_left _ member))
  rw [Forest.reap_append skips] at taken
  have tail : ∀ post ∈ before,
      Crew.Apart post.2.lanes ((link, (Status.gone : Status Msg Loc Lane)) :: rest) := by
    intro post inside
    exact Crew.apart_cons.mpr ⟨.empty _, (Crew.apart_cons.mp (aparts post inside)).2⟩
  cases last' with
  | leaving _ parted others =>
      cases parted with
      | leaves dead =>
          have none := others.no_zombie fun post inside => only post (List.mem_append_right _ inside)
          simp [Forest.reap, none] at taken
      | left dead =>
          simp only [Forest.reap, Option.map_some, Option.some.injEq] at taken
          subst taken
          refine rebuild ?_ tail
          rw [Nat.zero_add]
          exact .gone link dead others

theorem close (real : Realises machine forest (before ++ (link, .gone) :: rest) trace steps)
    (only : ∀ post ∈ before, post.1 ≠ link) :
    ∃ next, forest.close link = some next ∧ Realises machine next (before ++ rest) trace steps := by
  obtain ⟨head, last, mine, done, theirs, remain, rfl, cells, last', rfl, rfl, free, aparts,
    rebuild⟩ := split real
  have skips : ∀ cell ∈ head.cells, cell.link ≠ link := by
    intro cell inside
    obtain ⟨post, member, same, _⟩ := cells cell inside
    exact same ▸ only post member
  rw [Forest.close_append skips]
  cases last' with
  | gone _ dead others =>
      refine ⟨_, by simp [Forest.close, dead.extinct], rebuild others ?_⟩
      exact fun post inside => (Crew.apart_cons.mp (aparts post inside)).2

theorem spawn (link : Link) {prog : Prog Msg Op Val Seed Loc} {answer : Msg}
    {settled : Option (Loc × Grove Loc)} {first : Trace Lane Op Val} {count : Nat}
    (real : Realises machine forest crew trace steps)
    (served : Runs machine prog [] first count (some answer) settled)
    (within : first.Within lanes) (apart : Crew.Apart lanes crew) :
    Realises machine (forest.append (.cons ⟨link, [], [], .resume prog⟩ .nil .nil))
      (crew ++ [(link, .running lanes answer settled)]) (first ++ trace) (count + steps) := by
  have whole : Realises machine forest (crew ++ []) trace steps := by
    rw [List.append_nil]
    exact real
  obtain ⟨head, last, mine, done, theirs, remain, rfl, cells, last', rfl, rfl, free, aparts,
    rebuild⟩ := split whole
  cases last'
  rw [Forest.append_nil, served.resume]
  have born : Realises machine (.cons ⟨link, [], [], .busy prog⟩ .nil .nil)
      [(link, .running lanes answer settled)] (.nil ++ first ++ .nil) (0 + count + 0) :=
    .working link .nil served (by simpa using within) nofun .nil
  have placed := rebuild born fun post inside =>
    Crew.apart_cons.mpr ⟨(apart post inside).symm, nofun⟩
  have order : first ++ (mine ++ .nil) = mine ++ (Trace.nil ++ first ++ .nil) := by
    simp only [Trace.append_nil, Trace.nil_append]
    exact swap within free apart
  have sum : count + (done + 0) = done + (0 + count + 0) := by omega
  rw [order, sum]
  exact placed

end SysProg.Process.Realises
