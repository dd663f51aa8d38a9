import SysProg.Process.Effect

namespace SysProg.Process

/-! What one step of any process preserves. -/

variable {Msg Op Val Seed Loc World Lane : Type} [DecidableEq Lane] [PartialOrder Lane]
  {machine : Machine Msg Op Val Seed Loc World} {world world' : World}

/-- Either nothing happens to the world, or a lane's next call is made when the lanes
below it are done; what follows is known if the call returns what the trace says. -/
inductive Advances (machine : Machine Msg Op Val Seed Loc World) (trace : Trace Lane Op Val)
    (world world' : World) (onward : Trace Lane Op Val → Prop) : Prop
  | silent (same : world' = world) (after : onward trace)
  | call {lane : Lane} {op : Op} {val got : Val} {rest : List (Op × Val)}
      (next : trace lane = (op, val) :: rest)
      (ready : ∀ lower, lower < lane → trace lower = [])
      (done : machine.exec op world = some (got, world'))
      (after : got = val → onward (trace.put lane rest))

variable {first second : Trace Lane Op Val} {lanes : Set Lane}
  {onward onward' : Trace Lane Op Val → Prop}

namespace Advances

theorem append_right (advances : Advances machine first world world' onward)
    (clear : ∀ lane, first lane ≠ [] → ∀ lower, lower < lane → second lower = [])
    (carry : ∀ trace, onward trace → onward' (trace ++ second)) :
    Advances machine (first ++ second) world world' onward' := by
  cases advances with
  | silent same after => exact .silent same (carry _ after)
  | @call lane op val got rest next ready done after =>
      have total : (first ++ second) lane = (op, val) :: (rest ++ second lane) := by simp [next]
      refine .call total ?_ done ?_
      · intro lower below
        have mine : first lane ≠ [] := by simp [next]
        simp [ready lower below, clear lane mine lower below]
      · intro same
        rw [Trace.put_append_right]
        exact carry _ (after same)

theorem append_left (advances : Advances machine second world world' onward)
    (clear : ∀ lane, second lane ≠ [] → ∀ lower, lower ≤ lane → first lower = [])
    (carry : ∀ trace, onward trace → onward' (first ++ trace)) :
    Advances machine (first ++ second) world world' onward' := by
  cases advances with
  | silent same after => exact .silent same (carry _ after)
  | @call lane op val got rest next ready done after =>
      have some : second lane ≠ [] := by simp [next]
      have mine : first lane = [] := clear lane some lane le_rfl
      have total : (first ++ second) lane = (op, val) :: rest := by simp [mine, next]
      refine .call total ?_ done ?_
      · intro lower below
        simp [ready lower below, clear lane some lower below.le]
      · intro same
        rw [Trace.put_append_left mine]
        exact carry _ (after same)

theorem within (advances : Advances machine first world world' onward)
    (within : first.Within lanes) :
    Advances machine first world world' fun trace => trace.Within lanes ∧ onward trace := by
  cases advances with
  | silent same after => exact .silent same ⟨within, after⟩
  | @call lane op val got rest next ready done after =>
      refine .call next ready done fun same => ⟨?_, after same⟩
      intro other some
      by_cases here : other = lane
      · subst here
        exact within other (by simp [next])
      · exact within other (by simpa [here] using some)

theorem mono (advances : Advances machine first world world' onward)
    (carry : ∀ trace, onward trace → onward' trace) :
    Advances machine first world world' onward' := by
  cases advances with
  | silent same after => exact .silent same (carry _ after)
  | call next ready done after => exact .call next ready done fun same => carry _ (after same)

end Advances

variable {prog : Prog Msg Op Val Seed Loc} {crew : Crew Msg Loc Lane} {kids : Forest Msg Op Val Seed Loc}
  {trace under : Trace Lane Op Val} {count steps : Nat} {answer : Option Msg}
  {final : Option (Loc × Grove Loc)} {after : Advance Msg Op Val Seed Loc World}

/-- The program makes no call in a lane below one that a child at work still uses. -/
theorem Runs.above (runs : Runs machine prog crew trace count answer final) :
    ∀ post ∈ crew, ∀ lane ∈ post.2.lanes, ∀ later, trace later ≠ [] → ¬ later < lane := by
  induction runs with
  | pure loc grove => exact fun _ _ _ _ _ some => absurd rfl some
  | exit gone => exact fun _ _ _ _ _ some => absurd rfl some
  | reply msg loc grove => exact fun _ _ _ _ _ some => absurd rfl some
  | leave msg gone => exact fun _ _ _ _ _ some => absurd rfl some
  | @write link msg next before loc kids rest lanes first _ _ _ second _ _ _ only served within
      apart continues _ ih =>
      intro post member lane inside later some
      have other : post ∈ before ++ rest := by
        simp only [List.mem_append, List.mem_cons] at member ⊢
        rcases member with left | rfl | right
        · exact .inl left
        · exact inside.elim
        · exact .inr right
      by_cases early : first later = []
      · refine ih post ?_ lane inside later (by simpa [early] using some)
        simp only [List.mem_append, List.mem_cons] at other ⊢
        exact other.imp_right .inr
      · exact fun below => (apart post other later (within later early) lane inside).1 below.le
  | @read link next before lanes answer after rest trace _ _ _ only ordered continues ih =>
      intro post member lane inside later some
      simp only [List.mem_append, List.mem_cons] at member
      rcases member with left | rfl | right
      · exact ih post (by simp [left]) lane inside later some
      · exact (ordered later some lane inside).not_gt
      · exact ih post (by simp [right]) lane inside later some
  | @fork own seed next crew lanes first _ _ _ second _ _ _ served within apart continues _ ih =>
      intro post member lane inside later some
      by_cases early : first later = []
      · exact ih post (by simp [member]) lane inside later (by simpa [early] using some)
      · exact fun below => (apart post member later (within later early) lane inside).1 below.le
  | wait only continues ih =>
      intro post member lane inside later some
      simp only [List.mem_append, List.mem_cons] at member
      rcases member with left | rfl | right
      · exact ih post (by simp [left]) lane inside later some
      · exact inside.elim
      · exact ih post (by simp [right]) lane inside later some
  | close only continues ih =>
      intro post member lane inside later some
      simp only [List.mem_append, List.mem_cons] at member
      rcases member with left | rfl | right
      · exact ih post (by simp [left]) lane inside later some
      · exact inside.elim
      · exact ih post (by simp [right]) lane inside later some
  | @call own op val next crew trace _ _ _ free ordered continues ih =>
      intro post member lane inside later some
      by_cases here : later = own
      · subst here
        exact fun below => (free post member later rfl lane inside).1 below.le
      · exact ih post member lane inside later (by simpa [here] using some)

theorem Realises.used (real : Realises machine kids crew trace steps) {lane : Lane}
    (some : trace lane ≠ []) : ∃ post ∈ crew, lane ∈ post.2.lanes := by
  by_contra unused
  exact some (real.empty fun post member inside => unused ⟨post, member, inside⟩)

/-- The process goes on with the program after a call. -/
def Continues (machine : Machine Msg Op Val Seed Loc World) (after : Advance Msg Op Val Seed Loc World)
    (answer : Option Msg) (final : Option (Loc × Grove Loc)) (left : Nat)
    (total : Trace Lane Op Val) : Prop :=
  ∃ crew under steps trace count,
    Realises machine after.kids crew under steps ∧
    Runs machine after.next crew trace count answer final ∧
    left = steps + count ∧ total = under ++ trace

/-- One system call of a process in the middle of its program: it goes on with
the program, or it has answered. -/
theorem Runs.advance (runs : Runs machine prog crew trace count answer final)
    (family : Realises machine kids crew under steps)
    (taken : prog.advance machine world kids = some after) :
    (∃ left, after.said = [] ∧ steps + count = left + 1 ∧
      Advances machine (under ++ trace) world after.world
        (Continues machine after answer final left)) ∨
    (∃ msg left, answer = some msg ∧ after.said = [msg] ∧ after.world = world ∧ under = .nil ∧
      trace = .nil ∧ Settled (.resume after.next) after.kids final left ∧
      steps + count = left + 1) := by
  cases runs with
  | pure loc grove => cases taken
  | exit gone => cases taken
  | reply msg loc grove =>
      cases taken
      obtain ⟨rfl, rfl, rfl⟩ := family.of_grove
      exact .inr ⟨msg, 0, rfl, rfl, rfl, rfl, rfl, .stays loc grove, rfl⟩
  | leave msg gone =>
      cases taken
      obtain ⟨dead, rfl, rfl⟩ := family.of_gone gone
      exact .inr ⟨msg, 1, rfl, rfl, rfl, rfl, rfl, .leaves dead, rfl⟩
  | @write link msg next before loc inner rest lanes early more reply settled late remain _ _ only
      served within apart continues =>
      obtain ⟨kids', delivered, family'⟩ := family.deliver only served within apart
      simp only [Prog.advance, delivered, Option.map_some, Option.some.injEq] at taken
      subst taken
      have order : under ++ (early ++ late) = early ++ under ++ late := by
        obtain ⟨left, right⟩ := Crew.apart_append.mp apart
        have whole : Crew.Apart lanes (before ++ (link, .quiet loc inner) :: rest) :=
          Crew.apart_append.mpr ⟨left, Crew.apart_cons.mpr ⟨.empty _, right⟩⟩
        rw [← Trace.append_assoc, Realises.swap within (fun lane => family.empty) whole]
      refine .inl ⟨_, rfl, ?_, .silent rfl ⟨_, _, _, _, _, family', continues, rfl, order⟩⟩
      omega
  | @read link next before lanes reply settled rest _ remain _ _ only ordered continues =>
      cases received : kids.receive link.read_fd with
      | none => simp [Prog.advance, received] at taken
      | some got =>
          obtain ⟨same, family'⟩ := family.receive only received
          simp only [Prog.advance, received, Option.map_some, Option.some.injEq] at taken
          subst taken
          refine .inl ⟨_, rfl, ?_, .silent rfl ⟨_, _, _, _, _, family', same ▸ continues, rfl, rfl⟩⟩
          omega
  | @fork own seed next _ lanes early more reply settled late remain _ _ served within apart
      continues =>
      cases taken
      have born := family.spawn (.fresh (own ++ crew.descriptors)) served within apart
      rw [family.descriptors]
      have order : under ++ (early ++ late) = early ++ under ++ late := by
        rw [← Trace.append_assoc, Realises.swap within (fun lane => family.empty) apart]
      refine .inl ⟨_, rfl, ?_, .silent rfl ⟨_, _, _, _, _, born, continues, rfl, order⟩⟩
      omega
  | wait only continues =>
      cases reaped : kids.reap with
      | none => simp [Prog.advance, reaped] at taken
      | some kids' =>
          have family' := family.reap only reaped
          simp only [Prog.advance, reaped, Option.map_some, Option.some.injEq] at taken
          subst taken
          refine .inl ⟨_, rfl, ?_, .silent rfl ⟨_, _, _, _, _, family', continues, rfl, rfl⟩⟩
          omega
  | close only continues =>
      obtain ⟨kids', closed, family'⟩ := family.close only
      simp only [Prog.advance, closed, Option.map_some, Option.some.injEq] at taken
      subst taken
      refine .inl ⟨_, rfl, ?_, .silent rfl ⟨_, _, _, _, _, family', continues, rfl, rfl⟩⟩
      omega
  | @call lane op val next _ rest more _ _ free ordered continues =>
      have mine : under lane = [] := by
        by_contra some
        obtain ⟨post, member, inside⟩ := family.used some
        exact (free post member lane rfl lane inside).1 le_rfl
      have head : (under ++ (Trace.only lane [(op, val)] ++ rest)) lane = (op, val) :: rest lane := by
        simp [mine]
      cases executed : machine.exec op world with
      | none => simp [Prog.advance, executed] at taken
      | some done =>
          obtain ⟨got, world''⟩ := done
          simp only [Prog.advance, executed, Option.map_some, Option.some.injEq] at taken
          subst taken
          refine .inl ⟨steps + more, rfl, by omega, .call head ?_ executed ?_⟩
          · intro lower below
            have mine' : under lower = [] := by
              by_contra some
              obtain ⟨post, member, inside⟩ := family.used some
              exact (free post member lane rfl lower inside).2 below.le
            have theirs : rest lower = [] := by
              by_contra some
              exact (ordered lower some).not_gt below
            simp [mine', theirs, below.ne]
          · intro same
            subst same
            refine ⟨_, _, _, _, _, family, continues, rfl, ?_⟩
            funext other
            by_cases here : other = lane
            · subst here
              simp [mine]
            · simp [here]

/-! ## Every process of the tree -/

variable {place : Place} {forest forest' : Forest Msg Op Val Seed Loc}
  {control : Control Msg Op Val Seed Loc} {link : Link} {up : List Msg}

theorem Grove.no_step (grove : Grove Loc) :
    (grove.forest : Forest Msg Op Val Seed Loc).step machine world place = none := by
  induction grove generalizing place with
  | nil => cases place <;> rfl
  | cons link loc kids rest kids_ih rest_ih =>
      cases place with
      | here => rfl
      | under place => simp [Grove.forest, Forest.step, kids_ih]
      | beside place => simp [Grove.forest, Forest.step, rest_ih]

theorem Forest.Dead.no_step (dead : forest.Dead) : forest.step machine world place = none := by
  induction forest generalizing place with
  | nil => cases place <;> rfl
  | cons cell kids rest kids_ih rest_ih =>
      obtain ⟨reaped, below, beside⟩ := dead
      cases place with
      | here => simp [Forest.step, Cell.turn, reaped]
      | under place => simp [Forest.step, kids_ih below]
      | beside place => simp [Forest.step, rest_ih beside]

theorem Settled.no_step (settled : Settled control kids final steps) :
    kids.step machine world place = none := by
  cases settled with
  | stays loc grove => exact grove.no_step
  | leaves dead => exact dead.no_step
  | left dead => exact dead.no_step

/-- All that a process can do behind its answer is to exit. -/
theorem Settled.turn {result} (settled : Settled control kids final steps)
    (turned : Cell.turn machine world ⟨link, [], up, control⟩ kids = some result) :
    ∃ left, steps = left + 1 ∧ result = (world, ⟨link, [], up, .zombie⟩, kids) ∧
      Settled (.zombie : Control Msg Op Val Seed Loc) kids final left := by
  cases settled with
  | stays loc grove => cases turned
  | leaves dead =>
      cases turned
      exact ⟨0, rfl, rfl, .left dead⟩
  | left dead => cases turned

theorem Cell.turn_busy {down : List Msg} (goes_on : prog ≠ .exit) :
    Cell.turn machine world ⟨link, down, up, .busy prog⟩ kids =
      (prog.advance machine world kids).map fun after =>
        (after.world, ⟨link, down, up ++ after.said, .resume after.next⟩, after.kids) := by
  cases prog with
  | exit => exact absurd rfl goes_on
  | pure | write | read | reply | fork | wait | close | call => rfl

theorem Runs.goes_on {msg : Msg} (runs : Runs machine prog crew trace count (some msg) final) :
    prog ≠ .exit := by
  intro same
  obtain rfl := same
  cases runs

theorem Continues.working {msg : Msg} {total : Trace Lane Op Val} {left : Nat} {lanes : Set Lane}
    {others : Forest Msg Op Val Seed Loc} {rest : Crew Msg Loc Lane}
    (goes : Continues machine after (some msg) final left total) (within : total.Within lanes)
    (apart : Crew.Apart lanes rest) (real : Realises machine others rest trace steps) :
    Realises machine (.cons ⟨link, [], [], .resume after.next⟩ after.kids others)
      ((link, .running lanes msg final) :: rest) (total ++ trace) (left + steps) := by
  obtain ⟨crew', under', steps', trace', count', family, runs, rfl, rfl⟩ := goes
  rw [runs.resume]
  exact .working link family runs within apart real

/-- A step of any of the children keeps them in a state that the parent knows. -/
theorem Realises.step (real : Realises machine forest crew trace steps)
    (stepped : forest.step machine world place = some (world', forest')) :
    Advances machine trace world world' fun trace' =>
      ∃ left, steps = left + 1 ∧ Realises machine forest' crew trace' left := by
  induction real generalizing place forest' with
  | nil => cases place <;> cases stepped
  | quiet link loc kids others ih =>
      cases place with
      | here => cases stepped
      | under place => simp [Forest.step, kids.no_step] at stepped
      | beside place =>
          obtain ⟨⟨world'', rest'⟩, moved, same⟩ := Option.map_eq_some_iff.mp stepped
          cases same
          refine (ih moved).mono ?_
          intro trace' real
          obtain ⟨left, rfl, real'⟩ := real
          exact ⟨left, rfl, .quiet link loc kids real'⟩
  | @asked link loc kids msg lanes first count answer after rest crew trace steps served within apart
      others ih =>
      cases place with
      | here =>
          cases stepped
          refine .silent rfl ⟨count + steps, by omega, ?_⟩
          have started := Realises.working link (Realises.grove kids) served
            (by simpa using within) apart others
          simp only [Trace.nil_append, Nat.zero_add] at started
          rw [served.resume]
          exact started
      | under place => simp [Forest.step, kids.no_step] at stepped
      | beside place =>
          obtain ⟨⟨world'', rest'⟩, moved, same⟩ := Option.map_eq_some_iff.mp stepped
          cases same
          refine (ih moved).append_left ?_ ?_
          · intro lane some lower below
            by_contra mine
            obtain ⟨post, member, inside⟩ := others.used some
            exact (apart post member lower (within lower mine) lane inside).1 below
          · intro trace' real
            obtain ⟨left, rfl, real'⟩ := real
            exact ⟨count + 1 + left, by omega, .asked link loc kids msg served within apart real'⟩
  | @working link prog kids inner below under first count lanes answer after rest crew trace steps
      family runs within apart others family_ih ih =>
      have clear : ∀ lane, (below ++ first) lane ≠ [] → ∀ lower, lower < lane → trace lower = [] := by
        intro lane some lower less
        by_contra theirs
        obtain ⟨post, member, inside⟩ := others.used theirs
        exact (apart post member lane (within lane some) lower inside).2 less.le
      cases place with
      | here =>
          obtain ⟨⟨world'', cell, kids'⟩, turned, same⟩ := Option.map_eq_some_iff.mp stepped
          cases same
          rw [Cell.turn_busy runs.goes_on] at turned
          obtain ⟨done, taken, same⟩ := Option.map_eq_some_iff.mp turned
          cases same
          cases runs.advance family taken with
          | inl onward =>
              obtain ⟨left, silent, sum, advances⟩ := onward
              refine (advances.within within).append_right clear ?_
              intro total splits
              obtain ⟨within', goes⟩ := splits
              refine ⟨left + steps, by omega, ?_⟩
              rw [silent]
              exact goes.working within' apart others
          | inr replied =>
              obtain ⟨msg, left, same, said, quiet, rfl, rfl, settled, sum⟩ := replied
              cases same
              refine .silent quiet ⟨left + steps, by omega, ?_⟩
              rw [said]
              exact .answered link settled apart others
      | under place =>
          obtain ⟨⟨world'', kids'⟩, moved, same⟩ := Option.map_eq_some_iff.mp stepped
          cases same
          have inside : Advances machine (below ++ first) world world'' fun total =>
              ∃ left, under = left + 1 ∧ ∃ below', total = below' ++ first ∧
                Realises machine kids' inner below' left := by
            refine (family_ih moved).append_right ?_ ?_
            · intro lane some lower less
              by_contra later
              obtain ⟨post, member, used⟩ := family.used some
              exact runs.above post member lane used lower later less
            · intro below' real
              obtain ⟨left, same, real'⟩ := real
              exact ⟨left, same, below', rfl, real'⟩
          refine (inside.within within).append_right clear ?_
          intro total real
          obtain ⟨within', left, rfl, below', rfl, real'⟩ := real
          exact ⟨left + count + steps, by omega, .working link real' runs within' apart others⟩
      | beside place =>
          obtain ⟨⟨world'', rest'⟩, moved, same⟩ := Option.map_eq_some_iff.mp stepped
          cases same
          refine (ih moved).append_left ?_ ?_
          · intro lane some lower less
            by_contra mine
            obtain ⟨post, member, inside⟩ := others.used some
            exact (apart post member lower (within lower mine) lane inside).1 less
          · intro trace' real
            obtain ⟨left, rfl, real'⟩ := real
            exact ⟨under + count + left, by omega, .working link family runs within apart real'⟩
  | @answered link control kids lanes answer after remain rest crew trace steps settled apart others ih =>
      cases place with
      | here =>
          obtain ⟨result, turned, same⟩ := Option.map_eq_some_iff.mp stepped
          obtain ⟨left, rfl, rfl, settled'⟩ := settled.turn turned
          cases same
          exact .silent rfl ⟨left + steps, by omega, .answered link settled' apart others⟩
      | under place => simp [Forest.step, settled.no_step] at stepped
      | beside place =>
          obtain ⟨⟨world'', rest'⟩, moved, same⟩ := Option.map_eq_some_iff.mp stepped
          cases same
          refine (ih moved).mono ?_
          intro trace' real
          obtain ⟨left, rfl, real'⟩ := real
          exact ⟨remain + left, by omega, .answered link settled apart real'⟩
  | @leaving link control kids remain rest crew trace steps settled others ih =>
      cases place with
      | here =>
          obtain ⟨result, turned, same⟩ := Option.map_eq_some_iff.mp stepped
          obtain ⟨left, rfl, rfl, settled'⟩ := settled.turn turned
          cases same
          exact .silent rfl ⟨left + steps, by omega, .leaving link settled' others⟩
      | under place => simp [Forest.step, settled.no_step] at stepped
      | beside place =>
          obtain ⟨⟨world'', rest'⟩, moved, same⟩ := Option.map_eq_some_iff.mp stepped
          cases same
          refine (ih moved).mono ?_
          intro trace' real
          obtain ⟨left, rfl, real'⟩ := real
          exact ⟨remain + left, by omega, .leaving link settled real'⟩
  | gone link dead others ih =>
      cases place with
      | here => cases stepped
      | under place => simp [Forest.step, dead.no_step] at stepped
      | beside place =>
          obtain ⟨⟨world'', rest'⟩, moved, same⟩ := Option.map_eq_some_iff.mp stepped
          cases same
          refine (ih moved).mono ?_
          intro trace' real
          obtain ⟨left, rfl, real'⟩ := real
          exact ⟨left, rfl, .gone link dead real'⟩

end SysProg.Process
