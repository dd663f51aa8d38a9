import SysProg.Threads.Masks
import SysProg.Threads.Progress

namespace SysProg.Threads

open Relation SysProg.Transition

/-! # What becomes of a signal

A yield takes at most one signal, SIGTSTP before SIGALRM, and one of those that were pending
when it began.  The ledger accounts for every signal, and the alarm that drives the
threads never dies. -/

variable {specs : List Spec} {timeslice : Nat} {first machine before after last : Machine}
  {signal : Signal} {state : State}

/-- The steps left of a yield, of the kernel or of the process. -/
def Point.rank : Point → Nat
  | .setting .alrm => 9
  | .opened .alrm => 8
  | .setting .tstp => 7
  | .opened .tstp => 6
  | .setting .base => 5
  | .opened .base => 4
  | .handling _ => 3
  | .rearming => 2
  | .leaving => 1
  | _ => 0

namespace Machine

/-- What taking `signal` in the yield that began at `first` leaves pending. -/
def Takes (first machine : Machine) : Signal → Prop
  | .SIGTSTP => first.signals.pending.erase .SIGTSTP ⊆ machine.signals.pending
  | .SIGALRM => .SIGTSTP ∉ first.signals.pending

/-- How far the yield that began at `first` has come. -/
def Within (first machine : Machine) : Prop :=
  match machine.point with
  | .setting .alrm =>
      machine.program = first.program ∧ first.signals.pending ⊆ machine.signals.pending
  | .opened .alrm | .setting .tstp =>
      machine.program = first.program ∧ first.signals.pending ⊆ machine.signals.pending ∧
        .SIGTSTP ∉ first.signals.pending
  | .opened .tstp | .setting .base | .opened .base =>
      machine.program = first.program ∧ first.signals.pending = ∅
  | .handling signal => machine.program = first.program ∧ Takes first machine signal
  | .rearming =>
      machine.program = first.program.print (.caught .SIGALRM) ∧ Takes first machine .SIGALRM
  | .leaving => ∃ signal,
      machine.program = first.program.print (.caught signal) ∧ Takes first machine signal
  | _ => False

theorem Takes.mono (takes : Takes first before signal)
    (more : before.signals.pending ⊆ after.signals.pending) : Takes first after signal := by
  cases signal with
  | SIGTSTP => exact takes.trans more
  | SIGALRM => exact takes

theorem tick_pending (machine : Machine) :
    machine.signals.pending ⊆ machine.tick.signals.pending := by
  unfold tick
  split
  · exact fun _ member => member
  · exact Finset.subset_insert _ _
  · exact fun _ member => member

theorem Within.keeps (within : Within first before) (keeps : Keeps before after)
    (more : before.signals.pending ⊆ after.signals.pending) : Within first after := by
  unfold Within at *
  rw [keeps.point, keeps.program]
  cases point : before.point with
  | setting window =>
      simp only [point] at within
      cases window with
      | alrm => exact ⟨within.1, within.2.trans more⟩
      | tstp => exact ⟨within.1, within.2.1.trans more, within.2.2⟩
      | base => exact within
  | opened window =>
      simp only [point] at within
      cases window with
      | alrm => exact ⟨within.1, within.2.1.trans more, within.2.2⟩
      | tstp | base => exact within
  | handling signal =>
      simp only [point] at within
      exact ⟨within.1, within.2.mono more⟩
  | rearming =>
      simp only [point] at within
      exact ⟨within.1, within.2.mono more⟩
  | leaving =>
      simp only [point] at within
      obtain ⟨signal, printed, takes⟩ := within
      exact ⟨signal, printed, takes.mono more⟩
  | installing | creating | arming | entering | program | wild | killed =>
      simp only [point] at within

theorem Within.deliver (within : Within first machine) (standing : Standing specs machine)
    (filled : machine.sched_buf = true) (delivered : machine.deliver signal = some after) :
    Within first after := by
  obtain ⟨through, delivers⟩ := deliver_cases delivered
  obtain ⟨window, point, mask, _⟩ := standing.window filled through
  have open' : signal ∉ window.mask := mask ▸ through.2
  cases delivers with
  | default left installing fresh taken =>
      rw [installing] at point
      simp at point
  | handled installed alive taken =>
      subst taken
      cases window with
      | base => exact absurd (by cases signal <;> decide) open'
      | alrm =>
          -- only SIGTSTP is let through; what else was pending stays so
          have same : signal = .SIGTSTP := by
            revert open'
            cases signal <;> decide
          subst same
          have kept : machine.program = first.program ∧
              first.signals.pending ⊆ machine.signals.pending := by
            cases point with
            | inl point =>
                simp only [Within, point] at within
                exact within
            | inr point =>
                simp only [Within, point] at within
                exact ⟨within.1, within.2.1⟩
          exact ⟨kept.1, Finset.erase_subset_erase _ kept.2⟩
      | tstp =>
          have same : signal = .SIGALRM := by
            revert open'
            cases signal <;> decide
          subst same
          cases point with
          | inl point =>
              simp only [Within, point] at within
              exact ⟨within.1, within.2.2⟩
          | inr point =>
              simp only [Within, point] at within
              exact ⟨within.1, by simp [Takes, within.2]⟩

theorem Within.proceed (within : Within first machine) (standing : Standing specs machine)
    (filled : machine.sched_buf = true)
    (proceeded : machine.proceed specs timeslice = some after) (inside : after.point ≠ .program) :
    Within first after := by
  unfold Within at within
  unfold Standing at standing
  unfold Machine.proceed at proceeded
  cases point : machine.point with
  | setting window =>
      simp only [point] at within standing proceeded
      split at proceeded
      · rename_i quiet
        obtain rfl := Option.some.inj proceeded
        rw [standing.2.1] at quiet
        cases window with
        | alrm =>
            refine ⟨within.1, within.2, ?_⟩
            intro pending
            have masked := quiet (within.2 pending)
            revert masked
            decide
        | tstp =>
            refine ⟨within.1, Finset.eq_empty_of_forall_notMem ?_⟩
            intro signal pending
            cases signal with
            | SIGTSTP => exact within.2.2 pending
            | SIGALRM =>
                have masked := quiet (within.2.1 pending)
                revert masked
                decide
        | base => exact within
      · cases proceeded
  | opened window =>
      simp only [point] at within proceeded
      cases window with
      | alrm | tstp =>
          simp only [Option.some.injEq] at proceeded
          subst proceeded
          exact within
      | base =>
          simp only [Option.some.injEq] at proceeded
          subst proceeded
          exact absurd rfl inside
  | handling signal =>
      simp only [point] at within
      simp only [point, Option.some.injEq] at proceeded
      subst proceeded
      cases signal with
      | SIGTSTP => exact ⟨.SIGTSTP, by rw [within.1], within.2⟩
      | SIGALRM => exact ⟨by rw [within.1], within.2⟩
  | rearming =>
      simp only [point] at within
      simp only [point, Option.some.injEq] at proceeded
      subst proceeded
      exact ⟨.SIGALRM, within⟩
  | leaving =>
      simp only [point, filled, if_true, Option.some.injEq] at proceeded
      subst proceeded
      exact absurd rfl inside
  | installing | creating | arming | entering | program | wild | killed =>
      simp only [point] at within

theorem Within.step {event : Event} (within : Within first before)
    (standing : Standing specs before) (filled : before.sched_buf = true)
    (stepped : before.step specs timeslice event = some after) (inside : after.point ≠ .program) :
    Within first after := by
  cases event with
  | raise signal =>
      obtain rfl := Option.some.inj stepped
      exact within.keeps (raise_keeps before signal) (Finset.subset_insert _ _)
  | tick =>
      obtain rfl := Option.some.inj stepped
      exact within.keeps (tick_keeps before) (tick_pending before)
  | deliver signal => exact within.deliver standing filled stepped
  | proceed => exact within.proceed standing filled stepped inside

/-- How a yield may end: with no signal taken, or with one. -/
structure Ends (first last : Machine) (taken : Option Signal) : Prop where
  program : last.program = next taken first.program
  tstp : .SIGTSTP ∈ first.signals.pending → taken = some .SIGTSTP
  alrm : .SIGALRM ∈ first.signals.pending →
    taken = some .SIGALRM ∨ taken = some .SIGTSTP ∧ .SIGALRM ∈ last.signals.pending

theorem Within.ends {event : Event} (within : Within first before) (yields : first.Yielding)
    (filled : before.sched_buf = true)
    (stepped : before.step specs timeslice event = some last) (back : last.point = .program) :
    ∃ taken, Ends first last taken := by
  obtain ⟨environment, yields⟩ := yields
  have elsewhere : before.point ≠ .program := by
    intro point
    simp only [Within, point] at within
  cases event with
  | raise signal =>
      obtain rfl := Option.some.inj stepped
      exact absurd back elsewhere
  | tick =>
      obtain rfl := Option.some.inj stepped
      exact absurd ((tick_keeps before).point ▸ back) elsewhere
  | deliver signal =>
      obtain ⟨_, delivers⟩ := deliver_cases stepped
      cases delivers with
      | default left point fresh taken =>
          subst taken
          cases signal <;> simp [defaultAction, point] at back
      | handled installed alive taken =>
          subst taken
          simp [enterHandler] at back
  | proceed =>
      simp only [Machine.step, Machine.proceed] at stepped
      unfold Within at within
      cases point : before.point with
      | opened window =>
          cases window with
          | alrm | tstp =>
              simp only [point, Option.some.injEq] at stepped
              subst stepped
              simp [sigprocmask] at back
          | base =>
              simp only [point] at within
              simp only [point, Option.some.injEq] at stepped
              subst stepped
              exact ⟨none, congrArg (next none) within.1, by simp [within.2], by simp [within.2]⟩
      | leaving =>
          simp only [point] at within
          simp only [point, filled, if_true, Option.some.injEq] at stepped
          subst stepped
          obtain ⟨signal, printed, takes⟩ := within
          refine ⟨some signal, ?_, ?_, ?_⟩
          · rw [next_caught yields, printed]
          · intro pending
            cases signal with
            | SIGTSTP => rfl
            | SIGALRM => exact absurd pending takes
          · intro pending
            cases signal with
            | SIGTSTP => exact .inr ⟨rfl, takes (by simpa using pending)⟩
            | SIGALRM => exact .inl rfl
      | setting window =>
          simp only [point] at stepped
          split at stepped
          · obtain rfl := Option.some.inj stepped
            simp at back
          · cases stepped
      | handling signal =>
          simp only [point, Option.some.injEq] at stepped
          subst stepped
          cases signal <;> simp at back
      | rearming =>
          simp only [point, Option.some.injEq] at stepped
          subst stepped
          simp at back
      | installing | creating | arming | entering | program | wild | killed =>
          simp only [point] at within

theorem Standing.enabled (standing : Standing specs machine) (filled : machine.sched_buf = true) :
    (∃ after, machine.proceed specs timeslice = some after) ∨
      ∃ signal after, machine.deliver signal = some after := by
  unfold Standing at standing
  unfold Machine.proceed
  cases point : machine.point with
  | installing left => cases left <;> exact .inl ⟨_, rfl⟩
  | setting window =>
      by_cases quiet : machine.signals.pending ⊆ machine.signals.mask
      · exact .inl ⟨_, if_pos quiet⟩
      · obtain ⟨signal, through⟩ := Finset.not_subset.mp quiet
        refine .inr ⟨signal, machine.enterHandler signal, ?_⟩
        simp only [Machine.deliver, Signals.Deliverable, point, if_pos through]
  | opened window => cases window <;> exact .inl ⟨_, rfl⟩
  | program =>
      simp only
      split <;> exact .inl ⟨_, rfl⟩
  | leaving => exact .inl ⟨_, if_pos filled⟩
  | creating | arming | entering | handling | rearming => exact .inl ⟨_, rfl⟩
  | wild | killed =>
      simp only [point] at standing
      simp [filled] at standing

theorem Standing.rank_deliver (standing : Standing specs machine)
    (filled : machine.sched_buf = true) (delivered : machine.deliver signal = some after) :
    after.point.rank < machine.point.rank := by
  obtain ⟨through, delivers⟩ := deliver_cases delivered
  obtain ⟨window, point, _⟩ := standing.window filled through
  cases delivers with
  | default left installing fresh taken =>
      rw [installing] at point
      simp at point
  | handled installed alive taken =>
      have handling : after.point.rank = 3 := by
        rw [taken]
        rfl
      rw [handling]
      cases point with
      | inl point =>
          rw [point]
          cases window <;> decide
      | inr point =>
          rw [point]
          cases window <;> decide

theorem Standing.rank_proceed (standing : Standing specs machine)
    (filled : machine.sched_buf = true) (inside : machine.point ≠ .program)
    (proceeded : machine.proceed specs timeslice = some after) :
    after.point.rank < machine.point.rank := by
  unfold Standing at standing
  unfold Machine.proceed at proceeded
  cases point : machine.point with
  | setting window =>
      simp only [point] at proceeded
      split at proceeded
      · obtain rfl := Option.some.inj proceeded
        change (Point.opened window).rank < (Point.setting window).rank
        cases window <;> decide
      · cases proceeded
  | opened window =>
      simp only [point] at proceeded
      cases window with
      | alrm =>
          obtain rfl := Option.some.inj proceeded
          change (Point.setting .tstp).rank < _
          decide
      | tstp =>
          obtain rfl := Option.some.inj proceeded
          change (Point.setting .base).rank < _
          decide
      | base =>
          obtain rfl := Option.some.inj proceeded
          change Point.program.rank < _
          decide
  | handling signal =>
      simp only [point, Option.some.injEq] at proceeded
      subst proceeded
      cases signal with
      | SIGTSTP =>
          change Point.leaving.rank < _
          decide
      | SIGALRM =>
          change Point.rearming.rank < _
          decide
  | rearming =>
      simp only [point, Option.some.injEq] at proceeded
      subst proceeded
      exact Nat.one_lt_two
  | leaving =>
      simp only [point, filled, if_true, Option.some.injEq] at proceeded
      subst proceeded
      exact Nat.one_pos
  | program => exact absurd point inside
  | installing | creating | arming | entering | wild | killed =>
      simp only [point] at standing
      simp [filled] at standing

theorem filled_step {event : Event} (filled : before.sched_buf = true)
    (stepped : before.step specs timeslice event = some after) : after.sched_buf = true := by
  cases event with
  | raise signal => exact Option.some.inj stepped ▸ filled
  | tick => exact Option.some.inj stepped ▸ (tick_keeps before).sched_buf.trans filled
  | deliver signal =>
      obtain ⟨_, delivers⟩ := deliver_cases stepped
      cases delivers with
      | default left point fresh taken =>
          subst taken
          cases signal <;> exact filled
      | handled installed alive taken => exact taken ▸ filled
  | proceed =>
      simp only [Machine.step, Machine.proceed, filled, if_true] at stepped
      -- every branch keeps `sched_buf` or fills it
      split at stepped
      case h_6 | h_7 => split at stepped <;> cases stepped <;> first | exact filled | rfl
      all_goals cases stepped
      all_goals first
        | exact filled
        | rfl

theorem filled_run (run : ReflTransGen (Step specs timeslice) before after)
    (filled : before.sched_buf = true) : after.sched_buf = true := by
  refine @invariant_of_run _ _ _ _ (fun machine => machine.sched_buf = true) ?_ run filled
  intro first second stepped filled
  obtain ⟨event, stepped⟩ := stepped
  exact filled_step filled stepped

end Machine

/-- The steps of a yield that has begun: none is back in the threads or the scheduler. -/
def Machine.Inside (specs : List Spec) (timeslice : Nat) : Machine → Machine → Prop :=
  Restrict (Machine.Step specs timeslice) fun _ after => after.point ≠ .program

/-- `thread_yield` takes SIGTSTP if it was pending when the yield began.  If SIGALRM was pending
the yield takes it, unless it takes SIGTSTP, which may have come since, and then SIGALRM stays
pending.  It goes on as the program does with the signal taken, if any. -/
theorem yield_takes {entered inside : Machine} (reached : Machine.Reached specs timeslice first)
    (point : first.point = .program) (yields : first.Yielding)
    (begins : first.proceed specs timeslice = some entered)
    (run : ReflTransGen (Machine.Inside specs timeslice) entered inside)
    (ends : Machine.Step specs timeslice inside last) (back : last.point = .program) :
    ∃ taken, Machine.Ends first last taken := by
  have filled : first.sched_buf = true := by
    have standing := reached.standing
    simp only [Machine.Standing, point] at standing
    exact standing.1
  obtain ⟨environment, control⟩ := yields
  have entered' : entered = first.sigprocmask .alrm := by
    simp only [Machine.proceed, point, control] at begins
    exact (Option.some.inj begins).symm
  have reached' : Machine.Reached specs timeslice entered := reached.tail ⟨.proceed, begins⟩
  have filled' : entered.sched_buf = true := by rw [entered']; exact filled
  have within : Machine.Within first inside := by
    have starts : Machine.Within first entered := by
      rw [entered']
      exact ⟨rfl, fun _ member => member⟩
    refine invariant_of_reached ?_ run starts
    intro before after reached'' stepped within
    obtain ⟨⟨event, stepped⟩, inside⟩ := stepped
    have run' := Restrict.run _ reached''
    exact within.step (Machine.Reached.standing (reached'.trans run'))
      (Machine.filled_run run' filled') stepped inside
  obtain ⟨event, stepped⟩ := ends
  exact within.ends ⟨environment, control⟩
    (Machine.filled_run (Restrict.run _ run) filled') stepped back

theorem yield_takes_both : ∃ first last, Machine.Reached oneLoop 2 first ∧
    first.signals.pending = {.SIGTSTP, .SIGALRM} ∧ Machine.Ends first last (some .SIGTSTP) := by
  have reached : Machine.Reached oneLoop 2 _ := @Machine.Reached.steps _ _ _ _ toYield .refl rfl
  obtain ⟨taken, ends⟩ := yield_takes reached rfl ⟨_, rfl⟩ rfl
    ((ReflTransGen.single ⟨⟨.deliver .SIGTSTP, rfl⟩, Point.noConfusion⟩).tail
      ⟨⟨.proceed, rfl⟩, Point.noConfusion⟩) ⟨.proceed, rfl⟩ rfl
  obtain rfl := ends.tstp (by decide)
  exact ⟨_, _, reached, by decide, ends⟩

/-- A yield cannot be held up for ever: some step of the kernel or the process is always
possible, each such step brings its end nearer, and no signal raised or second passed meanwhile
puts it off. -/
theorem yield_ends (reached : Machine.Reached specs timeslice machine)
    (filled : machine.sched_buf = true) (inside : machine.point ≠ .program) :
    (∃ event after, (event = .proceed ∨ ∃ signal, event = .deliver signal) ∧
      machine.step specs timeslice event = some after) ∧
    (∀ event after, machine.step specs timeslice event = some after →
      (event = .proceed ∨ ∃ signal, event = .deliver signal) →
        after.point.rank < machine.point.rank) ∧
    ∀ event after, machine.step specs timeslice event = some after →
      (event = .tick ∨ ∃ signal, event = .raise signal) → after.point.rank = machine.point.rank := by
  have standing := reached.standing
  refine ⟨?_, ?_, ?_⟩
  · cases standing.enabled filled with
    | inl proceeds =>
        obtain ⟨after, proceeded⟩ := proceeds
        exact ⟨.proceed, after, .inl rfl, proceeded⟩
    | inr delivers =>
        obtain ⟨signal, after, delivered⟩ := delivers
        exact ⟨.deliver signal, after, .inr ⟨signal, rfl⟩, delivered⟩
  · intro event after stepped moves
    cases event with
    | raise signal => simp at moves
    | tick => simp at moves
    | deliver signal => exact standing.rank_deliver filled stepped
    | proceed => exact standing.rank_proceed filled inside stepped
  · intro event after stepped stays
    cases event with
    | raise signal =>
        obtain rfl := Option.some.inj stepped
        rfl
    | tick =>
        obtain rfl := Option.some.inj stepped
        rw [(Machine.tick_keeps machine).point]
    | deliver signal => simp at stays
    | proceed => simp at stays

theorem yield_ends_open : ∃ machine after, Machine.Reached oneLoop 2 machine ∧
    machine.deliver .SIGTSTP = some after ∧ after.point.rank < machine.point.rank := by
  have reached : Machine.Reached oneLoop 2 _ :=
    @Machine.Reached.steps _ _ _ _ (toYield ++ [.proceed]) .refl rfl
  exact ⟨_, _, reached, rfl, (yield_ends reached rfl Point.noConfusion).2.1 (.deliver .SIGTSTP) _ rfl
    (.inr ⟨_, rfl⟩)⟩

namespace Machine

/-- What happened to the signals so far; `early` are those taken in `init_signal`. -/
structure Past where
  ledger : Ledger Signal
  early : Signal → Nat

def note (event : Event) (machine : Machine) (past : Past) : Past :=
  match event with
  | .raise signal => { past with ledger := past.ledger.raise signal machine.signals }
  | .tick =>
      if machine.alarm = some 1 then
        { past with ledger := past.ledger.raise .SIGALRM machine.signals }
      else past
  | .deliver signal =>
      match machine.point with
      | .installing _ => ⟨past.ledger.take signal, Ledger.count signal past.early⟩
      | _ => { past with ledger := past.ledger.take signal }
  | .proceed => past

end Machine

/-- The lines `caught` printed for `signal`. -/
def caughts (signal : Signal) (state : State) : Nat := state.out.count (.caught signal)

theorem Invariant.caughts_next {ready waiting : List Ptr} (few : specs.length ≤ THREAD_MAX)
    (invariant : Invariant specs state ready waiting) (signal : Signal) :
    caughts signal (Threads.next none state) = caughts signal state := by
  have placed := invariant.placed
  unfold caughts
  cases control : state.control with
  | running environment =>
      rw [control] at placed
      obtain ⟨ptr, tcb, current, rfl⟩ := placed
      obtain ⟨new, lines, leaves, turn, acts⟩ := resume_turn current.2
      have own : lines.count (.caught signal) = 0 := by
        rw [List.count_eq_zero]
        intro member
        have id := turn.lines_id _ member
        cases id
      simp only [Threads.next, control, invariant.arranged.running current.1 current.2, acts.out,
        List.count_append, own, Nat.add_zero]
  | scheduling val =>
      obtain ⟨outcome, _, _, computed, _, _, kept, _⟩ := invariant.schedules few control
      simp only [Threads.next, control, computed, ← kept.out]
      cases outcome <;> rfl
  | yielding environment => simp only [Threads.next, control]
  | finished | crashed => simp only [Threads.next, control]

theorem caughts_print (signal other : Signal) (state : State) :
    caughts signal (state.print (.caught other)) =
      caughts signal state + if other = signal then 1 else 0 := by
  simp only [caughts, State.print, List.count_append, List.count_singleton]
  cases signal <;> cases other <;> rfl

theorem caughts_start (few : specs.length ≤ THREAD_MAX) (signal : Signal) :
    caughts signal (start specs) = 0 := by
  rw [caughts, (start_built few).out, List.count_eq_zero]
  simp

namespace Machine

theorem proceed_pending (proceeded : machine.proceed specs timeslice = some after) :
    after.signals.pending = machine.signals.pending := by
  unfold Machine.proceed at proceeded
  split at proceeded
  case h_6 | h_7 | h_13 => split at proceeded <;> cases proceeded <;> rfl
  all_goals cases proceeded
  all_goals rfl

theorem deliver_pending (delivered : machine.deliver signal = some after) :
    signal ∈ machine.signals.pending ∧
      after.signals.pending = machine.signals.pending.erase signal := by
  obtain ⟨through, delivers⟩ := deliver_cases delivered
  refine ⟨through.1, ?_⟩
  cases delivers with
  | default left point fresh taken =>
      subst taken
      cases signal <;> rfl
  | handled installed alive taken =>
      subst taken
      rfl

/-- Every signal taken in the threads has been printed, or is just being handled. -/
def Seen (machine : Machine) (past : Past) : Prop :=
  match machine.point with
  | .installing _ | .creating | .arming | .entering =>
      ∀ signal, past.ledger.taken signal = past.early signal
  | .program | .setting _ | .opened _ =>
      ∀ signal, past.ledger.taken signal = past.early signal + caughts signal machine.program
  | .handling other => machine.sched_buf = true → ∀ signal, past.ledger.taken signal =
      past.early signal + caughts signal machine.program + if other = signal then 1 else 0
  | .rearming | .leaving => machine.sched_buf = true → ∀ signal,
      past.ledger.taken signal = past.early signal + caughts signal machine.program
  | .wild | .killed => True

structure Accounts (traced : Traced Machine Past) : Prop where
  balanced : traced.past.ledger.Balanced traced.state.signals
  seen : Seen traced.state traced.past

theorem Seen.keeps {past past' : Past} (seen : Seen before past) (keeps : Keeps before after)
    (taken : past'.ledger.taken = past.ledger.taken) (early : past'.early = past.early) :
    Seen after past' := by
  unfold Seen at *
  simpa only [keeps.point, keeps.program, keeps.sched_buf, taken, early] using seen

theorem Seen.deliver {past : Past} (seen : Seen machine past) (standing : Standing specs machine)
    (delivered : machine.deliver signal = some after) :
    Seen after (note (.deliver signal) machine past) := by
  obtain ⟨through, delivers⟩ := deliver_cases delivered
  cases delivers with
  | default left point fresh taken =>
      subst taken
      unfold Seen at seen
      simp only [point] at seen
      cases signal with
      | SIGALRM => trivial
      | SIGTSTP =>
          simp only [Seen, defaultAction, note, point, Ledger.take, Ledger.count]
          intro other
          rw [seen other]
  | handled installed alive taken =>
      subst taken
      intro filled other
      obtain ⟨window, point, _⟩ := standing.window filled through
      have before : past.ledger.taken other = past.early other + caughts other machine.program := by
        cases point with
        | inl point =>
            simp only [Seen, point] at seen
            exact seen other
        | inr point =>
            simp only [Seen, point] at seen
            exact seen other
      have noted : note (.deliver signal) machine past =
          { past with ledger := past.ledger.take signal } := by
        cases point with
        | inl point => simp only [note, point]
        | inr point => simp only [note, point]
      rw [noted]
      simp only [Ledger.take, Ledger.count, enterHandler, before]
      cases signal <;> cases other <;> simp

theorem Seen.proceed {past : Past} (few : specs.length ≤ THREAD_MAX)
    (distinct : (specs.map Spec.id).Nodup) (reached : Reached specs timeslice machine)
    (seen : Seen machine past) (proceeded : machine.proceed specs timeslice = some after) :
    Seen after past := by
  have standing := reached.standing
  have same : machine.view specs = machine.program → ∀ signal,
      caughts signal (next none machine.program) = caughts signal machine.program := by
    intro shown signal
    have reachable := reached.reachable
    rw [shown] at reachable
    obtain ⟨ready, waiting, invariant⟩ := reachable_invariant few distinct reachable
    exact invariant.caughts_next few signal
  unfold Standing at standing
  unfold Seen at seen
  unfold Machine.proceed at proceeded
  cases point : machine.point with
  | installing left =>
      simp only [point] at seen
      cases left <;> simp only [point, Option.some.injEq] at proceeded <;> subst proceeded <;>
        exact seen
  | creating | arming =>
      simp only [point] at seen
      simp only [point, Option.some.injEq] at proceeded
      subst proceeded
      exact seen
  | entering =>
      simp only [point] at seen standing
      simp only [point, Option.some.injEq] at proceeded
      subst proceeded
      intro signal
      rw [standing.2.2, caughts_start few, seen signal]
      rfl
  | program =>
      simp only [point] at seen standing proceeded
      split at proceeded
      · obtain rfl := Option.some.inj proceeded
        exact seen
      · obtain rfl := Option.some.inj proceeded
        intro signal
        rw [same (view_own standing.1 (by simp [point]))]
        exact seen signal
  | setting window =>
      simp only [point] at seen proceeded
      split at proceeded
      · obtain rfl := Option.some.inj proceeded
        exact seen
      · cases proceeded
  | opened window =>
      simp only [point] at seen standing proceeded
      cases window with
      | alrm | tstp =>
          simp only [Option.some.injEq] at proceeded
          subst proceeded
          exact seen
      | base =>
          simp only [Option.some.injEq] at proceeded
          subst proceeded
          intro signal
          rw [same (view_own standing.1 (by simp [point]))]
          exact seen signal
  | handling other =>
      simp only [point] at seen
      simp only [point, Option.some.injEq] at proceeded
      subst proceeded
      cases other with
      | SIGTSTP =>
          intro filled signal
          rw [seen filled signal, caughts_print, Nat.add_assoc]
      | SIGALRM =>
          intro filled signal
          rw [seen filled signal, caughts_print, Nat.add_assoc]
  | rearming =>
      simp only [point] at seen
      simp only [point, Option.some.injEq] at proceeded
      subst proceeded
      exact seen
  | leaving =>
      simp only [point] at seen proceeded
      split at proceeded
      · rename_i filled
        obtain rfl := Option.some.inj proceeded
        exact seen filled
      · obtain rfl := Option.some.inj proceeded
        trivial
  | wild | killed => simp [point] at proceeded

theorem Accounts.step {past : Past} {event : Event} (few : specs.length ≤ THREAD_MAX)
    (distinct : (specs.map Spec.id).Nodup) (reached : Reached specs timeslice before)
    (accounts : Accounts ⟨before, past⟩)
    (stepped : before.step specs timeslice event = some after) :
    Accounts ⟨after, note event before past⟩ := by
  cases event with
  | raise signal =>
      obtain rfl := Option.some.inj stepped
      exact ⟨accounts.balanced.raise signal,
        accounts.seen.keeps (raise_keeps before signal) rfl rfl⟩
  | tick =>
      obtain rfl := Option.some.inj stepped
      by_cases fires : before.alarm = some 1
      · have rings : before.tick = { before.raise .SIGALRM with alarm := none } := by
          simp only [tick, fires]
        have noted : note .tick before past =
            { past with ledger := past.ledger.raise .SIGALRM before.signals } := if_pos fires
        rw [rings, noted]
        exact ⟨accounts.balanced.raise .SIGALRM, accounts.seen.keeps ⟨rfl, rfl, rfl, rfl⟩ rfl rfl⟩
      · have noted : note .tick before past = past := if_neg fires
        have quiet : before.tick.signals = before.signals := by
          unfold tick
          split
          · rfl
          · rename_i rings
            exact absurd rings fires
          · rfl
        rw [noted]
        exact ⟨accounts.balanced.of_pending (congrArg Signals.pending quiet),
          accounts.seen.keeps (tick_keeps before) rfl rfl⟩
  | deliver signal =>
      obtain ⟨waits, erased⟩ := deliver_pending stepped
      refine ⟨?_, accounts.seen.deliver reached.standing stepped⟩
      have taken : (note (.deliver signal) before past).ledger = past.ledger.take signal := by
        simp only [note]
        split <;> rfl
      rw [taken]
      exact accounts.balanced.take_of_pending waits erased
  | proceed => exact ⟨accounts.balanced.of_pending (proceed_pending stepped),
      accounts.seen.proceed few distinct reached stepped⟩

/-- A run from `boot` with a ledger of its signals. -/
def Recorded (specs : List Spec) (timeslice : Nat) (traced : Traced Machine Past) : Prop :=
  ReflTransGen (Traced.Step (step specs timeslice) note) ⟨boot, Ledger.empty, fun _ => 0⟩ traced

theorem Recorded.reached {traced : Traced Machine Past} (run : Recorded specs timeslice traced) :
    Reached specs timeslice traced.state := by
  refine ReflTransGen.lift Traced.state ?_ _ _ run
  intro before after stepped
  obtain ⟨event, stepped, _⟩ := stepped
  exact ⟨event, stepped⟩

theorem Recorded.accounts {traced : Traced Machine Past} (few : specs.length ≤ THREAD_MAX)
    (distinct : (specs.map Spec.id).Nodup) (run : Recorded specs timeslice traced) :
    Accounts traced := by
  refine invariant_of_reached ?_ run ⟨Ledger.balanced_empty rfl, fun _ => rfl⟩
  intro before after earlier stepped accounts
  obtain ⟨event, stepped, noted⟩ := stepped
  obtain ⟨state, past⟩ := after
  cases noted
  exact accounts.step few distinct (Recorded.reached earlier) stepped

/-- The signals that are neither printed nor merged yet: pending, or in the handler before
its `printf`. -/
def waiting (machine : Machine) (signal : Signal) : Nat :=
  (if signal ∈ machine.signals.pending then 1 else 0) +
    if machine.point = .handling signal then 1 else 0

end Machine

/-- Once the threads are started every signal that was raised, by another process or by the
alarm, is accounted for: it was taken before they started, merged with a pending one, printed
by `sighandler`, or it still waits. -/
theorem signals_accounted {traced : Traced Machine Machine.Past}
    (few : specs.length ≤ THREAD_MAX) (distinct : (specs.map Spec.id).Nodup)
    (run : Machine.Recorded specs timeslice traced) (filled : traced.state.sched_buf = true)
    (signal : Signal) :
    traced.past.ledger.raised signal = traced.past.early signal +
      traced.past.ledger.merged signal + caughts signal (traced.state.view specs) +
        traced.state.waiting signal := by
  have accounts := run.accounts few distinct
  have standing := run.reached.standing
  have balanced := accounts.balanced signal
  have seen := accounts.seen
  have shown : caughts signal (traced.state.view specs) = caughts signal traced.state.program := by
    unfold Machine.view
    rw [if_pos filled]
    split <;> rfl
  rw [shown, balanced, Machine.waiting]
  unfold Machine.Seen at seen
  unfold Machine.Standing at standing
  cases point : traced.state.point with
  | installing | creating | arming | entering | wild | killed =>
      simp only [point] at standing
      simp [filled] at standing
  | program | setting | opened =>
      simp only [point] at seen
      rw [seen signal]
      simp
      omega
  | rearming | leaving =>
      simp only [point] at seen
      rw [seen filled signal]
      simp
      omega
  | handling other =>
      simp only [point] at seen
      rw [seen filled signal]
      simp
      omega

theorem signals_accounted_merged : ∃ traced : Traced Machine Machine.Past,
    traced.past.ledger.raised .SIGTSTP = 2 ∧ traced.past.ledger.merged .SIGTSTP = 1 ∧
      traced.past.ledger.raised .SIGTSTP = traced.past.early .SIGTSTP +
        traced.past.ledger.merged .SIGTSTP + caughts .SIGTSTP (traced.state.view oneLoop) +
          traced.state.waiting .SIGTSTP := by
  have run : Machine.Recorded oneLoop 2 _ := Restrict.run _
    (@Traced.run_steps _ _ _ (Machine.step oneLoop 2) Machine.note _ _ (fun _ _ => true)
      (toYield ++ [.raise .SIGTSTP]) rfl)
  exact ⟨_, by decide, by decide, signals_accounted (by decide) (by decide) run rfl .SIGTSTP⟩

namespace Machine

/-- The next SIGALRM is on its way: the timer runs, the signal is pending, or its handler is
about to set the timer again. -/
def Armed (timeslice : Nat) (machine : Machine) : Prop :=
  (machine.point = .handling .SIGALRM ∨ machine.point = .rearming) ∨
    .SIGALRM ∈ machine.signals.pending ∨
      ∃ seconds, machine.alarm = some (seconds + 1) ∧ seconds + 1 ≤ timeslice

/-- A timer that runs still runs a second later, or it has just rung. -/
theorem tick_rings {seconds : Nat} (running : machine.alarm = some (seconds + 1)) :
    .SIGALRM ∈ machine.tick.signals.pending ∨
      ∃ fewer, machine.tick.alarm = some (fewer + 1) ∧ fewer + 1 = seconds := by
  unfold tick
  cases seconds with
  | zero =>
      refine .inl ?_
      simp only [running]
      exact Finset.mem_insert_self _ _
  | succ fewer =>
      refine .inr ⟨fewer, ?_, rfl⟩
      simp only [running]
      rfl

theorem armed_of_timer (positive : 0 < timeslice) (set : after.alarm = alarmOf timeslice) :
    Armed timeslice after := by
  obtain ⟨seconds, rfl⟩ := Nat.exists_eq_succ_of_ne_zero (Nat.ne_of_gt positive)
  exact .inr (.inr ⟨seconds, set, Nat.le_refl _⟩)

theorem Armed.tick (armed : Armed timeslice machine) : Armed timeslice machine.tick := by
  obtain handler | pending | timer := armed
  · exact .inl (by rwa [(tick_keeps machine).point])
  · exact .inr (.inl (tick_pending machine pending))
  · obtain ⟨seconds, running, bound⟩ := timer
    cases tick_rings running with
    | inl rings => exact .inr (.inl rings)
    | inr runs =>
        obtain ⟨fewer, running', rfl⟩ := runs
        exact .inr (.inr ⟨fewer, running', Nat.le_of_succ_le bound⟩)

theorem Armed.deliver (armed : Armed timeslice machine) (standing : Standing specs machine)
    (filled : machine.sched_buf = true) (delivered : machine.deliver signal = some after) :
    Armed timeslice after := by
  obtain ⟨waits, erased⟩ := deliver_pending delivered
  obtain ⟨through, delivers⟩ := deliver_cases delivered
  obtain ⟨window, point, _⟩ := standing.window filled through
  cases delivers with
  | default left installing fresh taken =>
      rw [installing] at point
      simp at point
  | handled installed alive taken =>
      cases signal with
      | SIGALRM => exact .inl (.inl (by rw [taken]; rfl))
      | SIGTSTP =>
          obtain handler | pending | timer := armed
          · cases point with
            | inl point => simp [point] at handler
            | inr point => simp [point] at handler
          · refine .inr (.inl ?_)
            rw [erased]
            exact Finset.mem_erase_of_ne_of_mem (by decide) pending
          · exact .inr (.inr (by rw [taken]; exact timer))

/-- Only `alarm` and the ticks change the timer. -/
theorem proceed_alarm (proceeded : machine.proceed specs timeslice = some after) :
    after.alarm = machine.alarm ∨ after.alarm = alarmOf timeslice := by
  unfold Machine.proceed at proceeded
  split at proceeded
  case h_6 | h_7 | h_13 => split at proceeded <;> cases proceeded <;> exact .inl rfl
  all_goals cases proceeded
  all_goals first
    | exact .inl rfl
    | exact .inr rfl

theorem Armed.proceed (positive : 0 < timeslice) (armed : Armed timeslice machine)
    (proceeded : machine.proceed specs timeslice = some after) : Armed timeslice after := by
  cases proceed_alarm proceeded with
  | inr set => exact armed_of_timer positive set
  | inl same =>
      obtain handler | pending | timer := armed
      · cases handler with
        | inl point =>
            simp only [Machine.proceed, point, if_true, Option.some.injEq] at proceeded
            exact .inl (.inr (by rw [← proceeded]))
        | inr point =>
            simp only [Machine.proceed, point, Option.some.injEq] at proceeded
            exact armed_of_timer positive (by rw [← proceeded])
      · exact .inr (.inl (by rwa [proceed_pending proceeded]))
      · exact .inr (.inr (by rwa [same]))

/-- Behind `alarm(timeslice)` in `start_threading`. -/
def Started (machine : Machine) : Prop := machine.sched_buf = true ∨ machine.point = .entering

theorem started_of_proceed (proceeded : machine.proceed specs timeslice = some after)
    (started : after.Started) : machine.Started ∨ machine.point = .arming := by
  unfold Machine.proceed at proceeded
  cases point : machine.point with
  | arming => exact .inr rfl
  | entering => exact .inl (.inr point)
  | installing left =>
      cases left <;> simp only [point, Option.some.injEq] at proceeded <;> subst proceeded <;>
        simpa [Started, point] using started
  | program | setting | leaving =>
      simp only [point] at proceeded
      split at proceeded <;> cases proceeded <;> simpa [Started, sigprocmask, point] using started
  | opened window =>
      cases window <;> simp only [point, Option.some.injEq] at proceeded <;> subst proceeded <;>
        simpa [Started, sigprocmask, point] using started
  | handling signal =>
      simp only [point, Option.some.injEq] at proceeded
      subst proceeded
      cases signal <;> simpa [Started, point] using started
  | creating | rearming =>
      simp only [point, Option.some.injEq] at proceeded
      subst proceeded
      simpa [Started, point] using started
  | wild | killed => simp [point] at proceeded

theorem filled_of_deliver (delivered : machine.deliver signal = some after)
    (started : after.Started) : machine.sched_buf = true := by
  obtain ⟨_, delivers⟩ := deliver_cases delivered
  cases delivers with
  | default left point fresh taken =>
      subst taken
      cases signal <;> simpa [Started, defaultAction, point] using started
  | handled installed alive taken =>
      subst taken
      simpa [Started, enterHandler] using started

/-- The timer is set before the first thread runs. -/
theorem Reached.armed (positive : 0 < timeslice) (reached : Reached specs timeslice machine) :
    machine.Started → Armed timeslice machine := by
  refine @invariant_of_reached _ _ _ _
    (fun machine => machine.Started → Armed timeslice machine) ?_ reached (by simp [Started, boot])
  intro before after earlier stepped starts running
  have standing := Reached.standing earlier
  obtain ⟨event, stepped⟩ := stepped
  cases event with
  | raise signal =>
      obtain rfl := Option.some.inj stepped
      obtain handler | pending | timer := starts running
      · exact .inl handler
      · exact .inr (.inl (Finset.mem_insert_of_mem pending))
      · exact .inr (.inr timer)
  | tick =>
      obtain rfl := Option.some.inj stepped
      have keeps := tick_keeps before
      rw [Started, keeps.sched_buf, keeps.point] at running
      exact (starts running).tick
  | deliver signal =>
      have filled := filled_of_deliver stepped running
      exact (starts (.inl filled)).deliver standing filled stepped
  | proceed =>
      cases started_of_proceed stepped running with
      | inl started => exact (starts started).proceed positive stepped
      | inr point =>
          have stepped : before.proceed specs timeslice = some after := stepped
          simp only [Machine.proceed, point, Option.some.injEq] at stepped
          exact armed_of_timer positive (by rw [← stepped])

/-- The seconds that have passed and the SIGALRM that have been taken. -/
structure Clock where
  ticks : Nat
  alarms : Nat

def clock (event : Event) (_ : Machine) (past : Clock) : Clock :=
  match event with
  | .tick => { past with ticks := past.ticks + 1 }
  | .deliver .SIGALRM => { past with alarms := past.alarms + 1 }
  | _ => past

/-- Until SIGALRM is taken the timer has run down by the seconds that have passed. -/
structure Running (timeslice : Nat) (traced : Traced Machine Clock) : Prop where
  filled : traced.state.sched_buf = true
  outside : traced.state.point ≠ .handling .SIGALRM ∧ traced.state.point ≠ .rearming
  left : .SIGALRM ∈ traced.state.signals.pending ∨
    ∃ seconds, traced.state.alarm = some (seconds + 1) ∧
      seconds + 1 + traced.past.ticks ≤ timeslice

/-- Outside the handler of SIGALRM the process leaves the timer alone. -/
theorem Standing.proceed_timer (standing : Standing specs machine)
    (filled : machine.sched_buf = true)
    (outside : machine.point ≠ .handling .SIGALRM ∧ machine.point ≠ .rearming)
    (proceeded : machine.proceed specs timeslice = some after) :
    after.alarm = machine.alarm ∧
      after.point ≠ .handling .SIGALRM ∧ after.point ≠ .rearming := by
  unfold Standing at standing
  unfold Machine.proceed at proceeded
  cases point : machine.point with
  | installing | creating | arming | entering | wild | killed =>
      simp only [point] at standing
      simp [filled] at standing
  | program =>
      simp only [point] at proceeded
      split at proceeded <;> cases proceeded <;> simp [sigprocmask]
  | setting | leaving =>
      simp only [point] at proceeded
      split at proceeded <;> cases proceeded <;> simp
  | opened window =>
      cases window <;> simp only [point, Option.some.injEq] at proceeded <;> subst proceeded <;>
        simp [sigprocmask]
  | handling signal =>
      simp only [point, Option.some.injEq] at proceeded
      subst proceeded
      cases signal with
      | SIGTSTP => simp
      | SIGALRM => exact absurd point outside.1
  | rearming => exact absurd point outside.2

theorem Running.step {past : Clock} {event : Event} (running : Running timeslice ⟨before, past⟩)
    (standing : Standing specs before) (stepped : before.step specs timeslice event = some after)
    (other : event ≠ .deliver .SIGALRM) :
    Running timeslice ⟨after, clock event before past⟩ := by
  have filled' := filled_step running.filled stepped
  obtain ⟨filled, outside, left⟩ := running
  cases event with
  | raise signal =>
      obtain rfl := Option.some.inj stepped
      refine ⟨filled', outside, ?_⟩
      cases left with
      | inl pending => exact .inl (Finset.mem_insert_of_mem pending)
      | inr timer => exact .inr timer
  | tick =>
      obtain rfl := Option.some.inj stepped
      refine ⟨filled', by rwa [(tick_keeps before).point], ?_⟩
      cases left with
      | inl pending => exact .inl (tick_pending before pending)
      | inr timer =>
          obtain ⟨seconds, runs, bound⟩ := timer
          refine (tick_rings runs).imp id ?_
          intro later
          obtain ⟨fewer, runs', rfl⟩ := later
          refine ⟨fewer, runs', ?_⟩
          simp only [clock] at *
          omega
  | deliver signal =>
      obtain rfl : signal = .SIGTSTP := by
        cases signal with
        | SIGTSTP => rfl
        | SIGALRM => exact absurd rfl other
      obtain ⟨_, erased⟩ := deliver_pending stepped
      obtain ⟨through, delivers⟩ := deliver_cases stepped
      cases delivers with
      | default tail point fresh taken =>
          obtain ⟨window, here, _⟩ := standing.window filled through
          rw [point] at here
          simp at here
      | handled installed alive taken =>
          refine ⟨filled', by simp [taken, enterHandler], ?_⟩
          cases left with
          | inl pending =>
              refine .inl ?_
              rw [erased]
              exact Finset.mem_erase_of_ne_of_mem (by decide) pending
          | inr timer => exact .inr (by rw [taken]; exact timer)
  | proceed =>
      have kept := standing.proceed_timer filled outside stepped
      refine ⟨filled', kept.2, ?_⟩
      cases left with
      | inl pending => exact .inl (by rwa [proceed_pending stepped])
      | inr timer => exact .inr (by rw [kept.1]; exact timer)

theorem Reached.running (positive : 0 < timeslice) (reached : Reached specs timeslice machine)
    (point : machine.point = .program) : Running timeslice ⟨machine, 0, 0⟩ := by
  have filled : machine.sched_buf = true := by
    have standing := reached.standing
    simp only [Standing, point] at standing
    exact standing.1
  refine ⟨filled, by simp [point], ?_⟩
  obtain handler | waits := reached.armed positive (.inl filled)
  · simp [point] at handler
  · exact waits

end Machine

/-- The alarm never dies: in any `timeslice` seconds from where a thread or the scheduler
runs, however the steps fall, a SIGALRM is taken, or at the end one is pending. -/
theorem quantum_ends {traced : Traced Machine Machine.Clock} (positive : 0 < timeslice)
    (reached : Machine.Reached specs timeslice first) (point : first.point = .program)
    (run : ReflTransGen (Traced.Step (Machine.step specs timeslice) Machine.clock) ⟨first, 0, 0⟩
      traced) (long : timeslice ≤ traced.past.ticks) :
    0 < traced.past.alarms ∨ .SIGALRM ∈ traced.state.signals.pending := by
  suffices shown : 0 < traced.past.alarms ∨ Machine.Running timeslice traced by
    refine shown.imp id fun running => running.left.resolve_right ?_
    intro timer
    obtain ⟨seconds, _, bound⟩ := timer
    omega
  refine @invariant_of_reached _ _ _ _
    (fun traced => 0 < traced.past.alarms ∨ Machine.Running timeslice traced) ?_ run
    (.inr (reached.running positive point))
  intro before after earlier stepped shown
  obtain ⟨event, stepped, noted⟩ := stepped
  obtain ⟨state, past⟩ := after
  cases noted
  have earlier' : Machine.Reached specs timeslice before.state := by
    refine reached.trans (ReflTransGen.lift Traced.state ?_ _ _ earlier)
    intro first second taken
    obtain ⟨event, taken, _⟩ := taken
    exact ⟨event, taken⟩
  by_cases rings : event = .deliver .SIGALRM
  · subst rings
    exact .inl (Nat.succ_pos _)
  · obtain taken | running := shown
    · refine .inl (Nat.lt_of_lt_of_le taken ?_)
      cases event with
      | raise | tick | proceed => exact Nat.le_refl _
      | deliver signal =>
          cases signal with
          | SIGTSTP => exact Nat.le_refl _
          | SIGALRM => exact Nat.le_succ _
    · exact .inr (running.step earlier'.standing stepped rings)

theorem quantum_ends_two : ∃ machine : Machine, Machine.Reached oneLoop 2 machine ∧
    .SIGALRM ∈ machine.tick.tick.signals.pending := by
  have reached : Machine.Reached oneLoop 2 _ :=
    @Machine.Reached.steps _ _ _ _ (.replicate 6 .proceed) .refl rfl
  have ended := quantum_ends (by decide) reached rfl (Restrict.run _
    (@Traced.run_steps _ _ _ (Machine.step oneLoop 2) Machine.clock ⟨_, 0, 0⟩ _ (fun _ _ => true)
      [.tick, .tick] rfl)) (by decide)
  exact ⟨_, reached, ended.resolve_left (by decide)⟩

end SysProg.Threads
