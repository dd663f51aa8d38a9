import SysProg.Transition.Simulation
import SysProg.Threads.Signals

namespace SysProg.Threads

open Relation SysProg.Transition

/-! # The masks, and what the threads see of the signals

`Standing` says which mask is set at each point.  It makes the process a refinement of the
threads with a signal at each yield: a handler is entered in the two windows of
`thread_yield` only, and it cannot be interrupted. -/

variable {specs : List Spec} {timeslice : Nat} {machine before after : Machine}
  {signal : Signal} {state : State}

/-- A window closes for the signal whose handler it has entered. -/
theorem Window.enters {window : Window} (open' : signal ∉ window.mask) :
    insert signal window.mask = base_mask := by
  revert open'
  cases window <;> cases signal <;> decide

namespace Machine

/-- What no one but the process itself changes. -/
structure Keeps (before after : Machine) : Prop where
  program : after.program = before.program
  point : after.point = before.point
  mask : after.signals.mask = before.signals.mask
  sched_buf : after.sched_buf = before.sched_buf

theorem raise_keeps (machine : Machine) (signal : Signal) : Keeps machine (machine.raise signal) :=
  ⟨rfl, rfl, rfl, rfl⟩

theorem tick_keeps (machine : Machine) : Keeps machine machine.tick := by
  unfold tick
  split <;> exact ⟨rfl, rfl, rfl, rfl⟩

theorem Keeps.view (keeps : Keeps before after) : after.view specs = before.view specs := by
  simp only [Machine.view, keeps.program, keeps.point, keeps.sched_buf]

/-- How a signal that is let through is taken. -/
inductive Delivers (signal : Signal) (before after : Machine) : Prop
  | default (left : List Signal) (point : before.point = .installing left)
      (fresh : signal ∈ left) (taken : after = before.defaultAction signal)
  | handled (installed : ∀ left, before.point = .installing left → signal ∉ left)
      (alive : before.point ≠ .wild ∧ before.point ≠ .killed)
      (taken : after = before.enterHandler signal)

theorem deliver_cases (delivered : machine.deliver signal = some after) :
    machine.signals.Deliverable signal ∧ Delivers signal machine after := by
  unfold deliver at delivered
  split at delivered
  · rename_i through
    refine ⟨through, ?_⟩
    cases point : machine.point with
    | installing left =>
        simp only [point] at delivered
        split at delivered
        · rename_i fresh
          exact .default left point fresh (Option.some.inj delivered).symm
        · rename_i installed
          refine .handled ?_ (by simp [point]) (Option.some.inj delivered).symm
          intro other same
          rw [point] at same
          exact Point.installing.inj same ▸ installed
    | wild | killed => simp [point] at delivered
    | creating | arming | entering | program | rearming | leaving =>
        simp only [point] at delivered
        exact .handled (by simp [point]) (by simp [point]) (Option.some.inj delivered).symm
    | setting window | opened window =>
        simp only [point] at delivered
        exact .handled (by simp [point]) (by simp [point]) (Option.some.inj delivered).symm
    | handling other =>
        simp only [point] at delivered
        exact .handled (by simp [point]) (by simp [point]) (Option.some.inj delivered).symm
  · cases delivered

/-- At a `thread_yield` that has saved where to go on. -/
def Yielding (machine : Machine) : Prop :=
  ∃ environment, machine.program.control = .yielding environment

/-- The mask, the `sched_buf` and the place of the threads at each point. -/
def Standing (specs : List Spec) (machine : Machine) : Prop :=
  match machine.point with
  | .installing _ => machine.sched_buf = false ∧ machine.program = globals
  | .creating => machine.sched_buf = false ∧ machine.signals.mask = base_mask
  | .arming | .entering =>
      machine.sched_buf = false ∧ machine.signals.mask = base_mask ∧
        machine.program = start specs
  | .program => machine.sched_buf = true ∧ machine.signals.mask = base_mask
  | .setting window | .opened window =>
      machine.sched_buf = true ∧ machine.signals.mask = window.mask ∧ machine.Yielding
  | .handling _ | .rearming | .leaving =>
      machine.sched_buf = true → machine.signals.mask = base_mask ∧ machine.Yielding
  | .wild | .killed => machine.sched_buf = false

theorem boot_standing : Standing specs boot := ⟨rfl, rfl⟩

theorem Keeps.standing (keeps : Keeps before after) (standing : Standing specs before) :
    Standing specs after := by
  unfold Standing at *
  simpa only [Yielding, keeps.program, keeps.point, keeps.mask, keeps.sched_buf] using standing

theorem not_through (signals : Signals Signal) (blocked : signals.mask = base_mask)
    (signal : Signal) : ¬signals.Deliverable signal := by
  intro through
  apply through.2
  rw [blocked]
  cases signal <;> decide

/-- Once `sched_buf` is filled, a handler is entered in a window only. -/
theorem Standing.window (standing : Standing specs machine) (filled : machine.sched_buf = true)
    (through : machine.signals.Deliverable signal) :
    ∃ window, (machine.point = .setting window ∨ machine.point = .opened window) ∧
      machine.signals.mask = window.mask ∧ machine.Yielding := by
  unfold Standing at standing
  cases point : machine.point with
  | installing left | creating | arming | entering =>
      simp [point, filled] at standing
  | wild | killed => simp [point, filled] at standing
  | program =>
      simp only [point] at standing
      exact absurd through (not_through _ standing.2 _)
  | rearming | leaving =>
      simp only [point] at standing
      exact absurd through (not_through _ (standing filled).1 _)
  | handling other =>
      simp only [point] at standing
      exact absurd through (not_through _ (standing filled).1 _)
  | setting window =>
      simp only [point] at standing
      exact ⟨window, .inl rfl, standing.2⟩
  | opened window =>
      simp only [point] at standing
      exact ⟨window, .inr rfl, standing.2⟩

theorem Standing.enterHandler (standing : Standing specs machine)
    (through : machine.signals.Deliverable signal) :
    Standing specs (machine.enterHandler signal) := by
  intro filled
  obtain ⟨window, _, mask, yielding⟩ := standing.window filled through
  refine ⟨?_, yielding⟩
  change insert signal machine.signals.mask = base_mask
  rw [mask]
  exact Window.enters (mask ▸ through.2)

theorem Standing.deliver (standing : Standing specs machine)
    (delivered : machine.deliver signal = some after) : Standing specs after := by
  obtain ⟨through, delivers⟩ := deliver_cases delivered
  cases delivers with
  | default left point fresh taken =>
      unfold Standing at standing
      simp only [point] at standing
      subst taken
      cases signal with
      | SIGTSTP =>
          change Standing specs { machine with signals := machine.signals.drop .SIGTSTP }
          simpa only [Standing, point] using standing
      | SIGALRM => exact standing.1
  | handled installed alive taken =>
      subst taken
      exact standing.enterHandler through

theorem Standing.proceed (standing : Standing specs machine)
    (proceeded : machine.proceed specs timeslice = some after) : Standing specs after := by
  unfold Standing at standing
  unfold Machine.proceed at proceeded
  cases point : machine.point with
  | installing left =>
      simp only [point] at standing
      cases left with
      | nil =>
          simp only [point, Option.some.injEq] at proceeded
          subst proceeded
          exact ⟨standing.1, rfl⟩
      | cons first left =>
          simp only [point, Option.some.injEq] at proceeded
          subst proceeded
          exact standing
  | creating =>
      simp only [point] at standing
      simp only [point, Option.some.injEq] at proceeded
      subst proceeded
      exact ⟨standing.1, standing.2, rfl⟩
  | arming =>
      simp only [point] at standing
      simp only [point, Option.some.injEq] at proceeded
      subst proceeded
      exact standing
  | entering =>
      simp only [point] at standing
      simp only [point, Option.some.injEq] at proceeded
      subst proceeded
      exact ⟨rfl, standing.2.1⟩
  | program =>
      simp only [point] at standing
      simp only [point] at proceeded
      split at proceeded
      · rename_i environment yields
        obtain rfl := Option.some.inj proceeded
        exact ⟨standing.1, rfl, environment, yields⟩
      · obtain rfl := Option.some.inj proceeded
        simp only [Standing]
        exact standing
  | setting window =>
      simp only [point] at standing
      simp only [point] at proceeded
      split at proceeded
      · obtain rfl := Option.some.inj proceeded
        exact standing
      · cases proceeded
  | opened window =>
      simp only [point] at standing
      cases window with
      | alrm | tstp =>
          simp only [point, Option.some.injEq] at proceeded
          subst proceeded
          exact ⟨standing.1, rfl, standing.2.2⟩
      | base =>
          simp only [point, Option.some.injEq] at proceeded
          subst proceeded
          exact ⟨standing.1, standing.2.1⟩
  | handling signal =>
      simp only [point] at standing
      simp only [point, Option.some.injEq] at proceeded
      subst proceeded
      cases signal <;> exact standing
  | rearming =>
      simp only [point] at standing
      simp only [point, Option.some.injEq] at proceeded
      subst proceeded
      exact standing
  | leaving =>
      simp only [point] at standing
      simp only [point] at proceeded
      split at proceeded
      · rename_i filled
        obtain rfl := Option.some.inj proceeded
        exact ⟨filled, (standing filled).1⟩
      · rename_i empty
        obtain rfl := Option.some.inj proceeded
        exact Bool.eq_false_of_not_eq_true empty
  | wild | killed => simp [point] at proceeded

theorem Standing.step {event : Event} (standing : Standing specs before)
    (stepped : before.step specs timeslice event = some after) : Standing specs after := by
  cases event with
  | raise signal =>
      obtain rfl := Option.some.inj stepped
      exact (raise_keeps before signal).standing standing
  | tick =>
      obtain rfl := Option.some.inj stepped
      exact (tick_keeps before).standing standing
  | deliver signal => exact standing.deliver stepped
  | proceed => exact standing.proceed stepped

theorem Reached.standing (reached : Reached specs timeslice machine) : Standing specs machine := by
  refine invariant_of_run ?_ reached boot_standing
  intro before after stepped standing
  obtain ⟨event, stepped⟩ := stepped
  exact standing.step stepped

end Machine

/-- A signal matters at a yield only. -/
theorem next_elsewhere (signal : Option Signal)
    (elsewhere : ∀ environment, state.control ≠ .yielding environment) :
    next signal state = next none state := by
  unfold next
  cases control : state.control with
  | yielding environment => exact absurd control (elsewhere environment)
  | running | scheduling | finished | crashed => rfl

theorem next_caught {environment : Environment} (yields : state.control = .yielding environment)
    (signal : Signal) :
    next (some signal) state = { state.print (.caught signal) with control := .scheduling 1 } := by
  simp only [next, yields]

namespace Machine

theorem view_empty (empty : machine.sched_buf = false) : machine.view specs = start specs := by
  rw [view, if_neg (by simp [empty])]

theorem view_empties (empty : before.sched_buf = false) (empty' : after.sched_buf = false) :
    after.view specs = before.view specs := by
  rw [view_empty empty, view_empty empty']

theorem view_own (filled : machine.sched_buf = true)
    (own : machine.point ≠ .rearming ∧ machine.point ≠ .leaving) :
    machine.view specs = machine.program := by
  rw [view, if_pos filled]
  split
  · rename_i point
    exact absurd point own.1
  · rename_i point
    exact absurd point own.2
  · rfl

theorem view_jumping (filled : machine.sched_buf = true)
    (jumping : machine.point = .rearming ∨ machine.point = .leaving) :
    machine.view specs = { machine.program with control := .scheduling 1 } := by
  rw [view, if_pos filled]
  cases jumping with
  | inl point => rw [point]
  | inr point => rw [point]

/-- Taking a signal shows only when the handler prints. -/
theorem Standing.view_deliver (standing : Standing specs machine)
    (delivered : machine.deliver signal = some after) :
    after.view specs = machine.view specs := by
  obtain ⟨through, delivers⟩ := deliver_cases delivered
  cases delivers with
  | default left point fresh taken =>
      have empty : machine.sched_buf = false := by
        simp only [Standing, point] at standing
        exact standing.1
      refine view_empties empty ?_
      rw [taken]
      cases signal <;> exact empty
  | handled installed alive taken =>
      subst taken
      cases filled : machine.sched_buf with
      | false => exact view_empties filled filled
      | true =>
          obtain ⟨window, point, _⟩ := standing.window filled through
          rw [view_own filled, view_own (by exact filled)]
          · rfl
          · exact ⟨Point.noConfusion, Point.noConfusion⟩
          · cases point with
            | inl point => simp [point]
            | inr point => simp [point]

theorem Standing.view_proceed (standing : Standing specs machine)
    (proceeded : machine.proceed specs timeslice = some after) :
    after.view specs = machine.view specs ∨
      Threads.Step (machine.view specs) (after.view specs) := by
  unfold Standing at standing
  unfold Machine.proceed at proceeded
  cases point : machine.point with
  | installing left =>
      simp only [point] at standing
      refine .inl ?_
      cases left with
      | nil =>
          simp only [point, Option.some.injEq] at proceeded
          subst proceeded
          exact view_empties standing.1 standing.1
      | cons first left =>
          simp only [point, Option.some.injEq] at proceeded
          subst proceeded
          exact view_empties standing.1 standing.1
  | creating | arming =>
      simp only [point] at standing
      simp only [point, Option.some.injEq] at proceeded
      subst proceeded
      exact .inl (view_empties standing.1 standing.1)
  | entering =>
      simp only [point] at standing
      simp only [point, Option.some.injEq] at proceeded
      subst proceeded
      refine .inl ?_
      rw [view_empty standing.1, view_own rfl (by simp)]
      exact standing.2.2
  | program =>
      simp only [point] at standing
      simp only [point] at proceeded
      rw [view_own standing.1 (by simp [point])]
      split at proceeded
      · obtain rfl := Option.some.inj proceeded
        refine .inl ?_
        rw [view_own (by exact standing.1) (by simp [sigprocmask])]
        rfl
      · obtain rfl := Option.some.inj proceeded
        refine .inr ⟨none, ?_⟩
        rw [view_own (by exact standing.1) (by simp)]
  | setting window =>
      simp only [point] at standing
      simp only [point] at proceeded
      split at proceeded
      · obtain rfl := Option.some.inj proceeded
        refine .inl ?_
        rw [view_own (by exact standing.1) (by simp), view_own standing.1 (by simp [point])]
      · cases proceeded
  | opened window =>
      simp only [point] at standing
      rw [view_own standing.1 (by simp [point])]
      cases window with
      | alrm | tstp =>
          simp only [point, Option.some.injEq] at proceeded
          subst proceeded
          refine .inl ?_
          rw [view_own (by exact standing.1) (by simp [sigprocmask])]
          rfl
      | base =>
          simp only [point, Option.some.injEq] at proceeded
          subst proceeded
          refine .inr ⟨none, ?_⟩
          rw [view_own (by exact standing.1) (by simp)]
  | handling signal =>
      simp only [point] at standing
      simp only [point, Option.some.injEq] at proceeded
      subst proceeded
      cases filled : machine.sched_buf with
      | false => exact .inl (view_empties filled rfl)
      | true =>
          -- the line that `next` prints together with the jump
          obtain ⟨_, environment, yields⟩ := standing filled
          refine .inr ⟨some signal, ?_⟩
          rw [view_own filled (by simp [point]), next_caught yields,
            view_jumping rfl (by cases signal <;> simp)]
  | rearming =>
      simp only [point] at standing
      simp only [point, Option.some.injEq] at proceeded
      subst proceeded
      refine .inl ?_
      cases filled : machine.sched_buf with
      | false => exact view_empties filled rfl
      | true => rw [view_jumping filled (.inl point), view_jumping rfl (.inr rfl)]
  | leaving =>
      simp only [point] at proceeded
      refine .inl ?_
      split at proceeded
      · rename_i filled
        obtain rfl := Option.some.inj proceeded
        rw [view_jumping filled (.inr point), view_own (by exact filled) (by simp)]
      · rename_i empty
        obtain rfl := Option.some.inj proceeded
        have empty := Bool.eq_false_of_not_eq_true empty
        exact view_empties empty empty
  | wild | killed => simp [point] at proceeded

/-- The process, seen through `view`, is the program with a signal at some yields. -/
theorem simulation (specs : List Spec) (timeslice : Nat) :
    Simulation (Step specs timeslice) Threads.Step (view specs) (Standing specs) where
  kept before after stepped standing := by
    obtain ⟨event, stepped⟩ := stepped
    exact standing.step stepped
  follows before after stepped standing := by
    obtain ⟨event, stepped⟩ := stepped
    cases event with
    | raise signal =>
        obtain rfl := Option.some.inj stepped
        exact .inl (raise_keeps before signal).view
    | tick =>
        obtain rfl := Option.some.inj stepped
        exact .inl (tick_keeps before).view
    | deliver signal => exact .inl (standing.view_deliver stepped)
    | proceed => exact standing.view_proceed stepped

theorem Reached.reachable (reached : Reached specs timeslice machine) :
    Reachable specs (machine.view specs) := by
  have run := (simulation specs timeslice).run reached boot_standing
  rwa [view_empty rfl] at run

/-- The events of `events` one after another. -/
def steps (specs : List Spec) (timeslice : Nat) : List Event → Machine → Option Machine
  | [], machine => some machine
  | event :: rest, machine =>
      match machine.step specs timeslice event with
      | some next => steps specs timeslice rest next
      | none => none

theorem Reached.steps {events : List Event} (reached : Reached specs timeslice before)
    (taken : before.steps specs timeslice events = some after) : Reached specs timeslice after := by
  induction events generalizing before with
  | nil => exact Option.some.inj taken ▸ reached
  | cons event rest ih =>
      simp only [Machine.steps] at taken
      split at taken
      · rename_i next stepped
        exact ih (reached.tail ⟨event, stepped⟩) taken
      · cases taken

/-- The process with nothing pending, about to take the next step of the program. -/
structure Calm (state : State) (machine : Machine) : Prop where
  point : machine.point = .program
  program : machine.program = state
  mask : machine.signals.mask = base_mask
  pending : machine.signals.pending = ∅
  sched_buf : machine.sched_buf = true

theorem boot_calm : ∃ machine, boot.steps specs timeslice (.replicate 6 .proceed) = some machine ∧
    Calm (start specs) machine :=
  ⟨_, rfl, rfl, rfl, rfl, rfl, rfl⟩

theorem Calm.eq (calm : Calm state machine) :
    machine = ⟨state, .program, ⟨base_mask, ∅⟩, machine.alarm, true⟩ := by
  obtain ⟨point, program, mask, pending, sched_buf⟩ := calm
  obtain ⟨_, _, ⟨_, _⟩, _, _⟩ := machine
  cases point
  cases program
  cases mask
  cases pending
  cases sched_buf
  rfl

/-- Away from a yield one step of the process is one step of the program. -/
theorem Calm.goes (calm : Calm state machine)
    (elsewhere : ∀ environment, state.control ≠ .yielding environment) :
    ∃ after, machine.steps specs timeslice [.proceed] = some after ∧
      Calm (next none state) after := by
  have point := calm.point
  have idle : ∀ environment, machine.program.control ≠ .yielding environment := by
    rw [calm.program]
    exact elsewhere
  refine ⟨{ machine with program := next none machine.program }, ?_, calm.point, ?_, calm.mask,
    calm.pending, calm.sched_buf⟩
  · have proceeds : machine.proceed specs timeslice =
        some { machine with program := next none machine.program } := by
      simp only [Machine.proceed, point]
    simp only [Machine.steps, Machine.step, proceeds]
  · exact congrArg (next none) calm.program

/-- The steps of a yield: nothing is pending, or a signal comes just before it. -/
def yieldEvents : Option Signal → List Event
  | none => .replicate 7 .proceed
  | some .SIGTSTP => [.raise .SIGTSTP, .proceed, .deliver .SIGTSTP, .proceed, .proceed]
  | some .SIGALRM => [.raise .SIGALRM, .proceed, .proceed, .proceed, .deliver .SIGALRM, .proceed,
      .proceed, .proceed]

theorem Calm.yields {environment : Environment} (calm : Calm state machine)
    (yields : state.control = .yielding environment) (taken : Option Signal) :
    ∃ after, machine.steps specs timeslice (yieldEvents taken) = some after ∧
      Calm (next taken state) after := by
  rw [calm.eq]
  obtain ⟨tcbs, ready_queue, waiting_queue, rq_size, rq_current, wq_size, balance, lock_owner, out,
    control, exited, acquisitions⟩ := state
  cases yields
  cases taken with
  | none => exact ⟨_, rfl, rfl, rfl, rfl, rfl, rfl⟩
  | some signal =>
      cases signal with
      | SIGTSTP => exact ⟨_, rfl, rfl, rfl, rfl, rfl, rfl⟩
      | SIGALRM => exact ⟨_, rfl, rfl, rfl, @Window.enters .SIGALRM .tstp (by decide), rfl, rfl⟩

theorem Calm.follows (calm : Calm state machine) (taken : Option Signal) :
    ∃ events after, machine.steps specs timeslice events = some after ∧
      Calm (next taken state) after := by
  by_cases yielding : ∃ environment, state.control = .yielding environment
  · obtain ⟨environment, yields⟩ := yielding
    exact ⟨_, calm.yields yields taken⟩
  · have elsewhere : ∀ environment, state.control ≠ .yielding environment := by
      intro environment yields
      exact yielding ⟨environment, yields⟩
    rw [next_elsewhere taken elsewhere]
    exact ⟨_, calm.goes elsewhere⟩

end Machine

/-- The threads with a signal at some yields are just what the process shows of itself: the
masks, the handler and the alarm add no behaviour and take none away. -/
theorem process_refines (specs : List Spec) (timeslice : Nat) :
    (∀ machine, Machine.Reached specs timeslice machine →
      Reachable specs (machine.view specs)) ∧
    ∀ state, Reachable specs state → ∃ machine, Machine.Reached specs timeslice machine ∧
      machine.point = .program ∧ machine.view specs = state := by
  refine ⟨fun _ reached => reached.reachable, ?_⟩
  intro state reachable
  suffices shown : ∃ machine, Machine.Reached specs timeslice machine ∧ machine.Calm state by
    obtain ⟨machine, reached, calm⟩ := shown
    refine ⟨machine, reached, calm.point, ?_⟩
    rw [Machine.view_own calm.sched_buf (by simp [calm.point]), calm.program]
  induction reachable with
  | refl =>
      obtain ⟨machine, booted, calm⟩ := @Machine.boot_calm specs timeslice
      exact ⟨machine, Machine.Reached.steps .refl booted, calm⟩
  | tail _ taken ih =>
      obtain ⟨signal, rfl⟩ := taken
      obtain ⟨machine, reached, calm⟩ := ih
      obtain ⟨events, after, went, calm'⟩ := calm.follows signal
      exact ⟨after, reached.steps went, calm'⟩

/-- Both signals are blocked wherever the threads or the scheduler run.  Once `sched_buf` is
filled a handler is entered inside `thread_yield` only, SIGTSTP while `alrm_mask` is set and
SIGALRM while `tstp_mask` is, and then no other handler can interrupt it. -/
theorem scheduler_masked (reached : Machine.Reached specs timeslice machine) :
    (machine.point = .program → machine.signals.mask = base_mask) ∧
    (machine.sched_buf = true → ∀ signal after, machine.deliver signal = some after →
      (∃ window, (machine.point = .setting window ∨ machine.point = .opened window) ∧
        window.mask = base_mask.erase signal) ∧
      machine.Yielding ∧ after.signals.mask = base_mask ∧
      ∀ other, after.deliver other = none) := by
  have standing := reached.standing
  refine ⟨?_, ?_⟩
  · intro point
    simp only [Machine.Standing, point] at standing
    exact standing.2
  · intro filled signal after delivered
    obtain ⟨through, delivers⟩ := Machine.deliver_cases delivered
    obtain ⟨window, point, mask, yielding⟩ := standing.window filled through
    have open' : signal ∉ window.mask := mask ▸ through.2
    cases delivers with
    | default left installing fresh taken =>
        rw [installing] at point
        simp at point
    | handled installed alive taken =>
        subst taken
        have closed : (machine.enterHandler signal).signals.mask = base_mask := by
          change insert signal machine.signals.mask = base_mask
          rw [mask]
          exact Window.enters open'
        refine ⟨⟨window, point, ?_⟩, yielding, closed, ?_⟩
        · rw [← Window.enters open', Finset.erase_insert open']
        · intro other
          rw [Machine.deliver, if_neg (Machine.not_through _ closed other)]

def oneLoop : List Spec := init_threads 3 0 0 0 0

/-- One loop comes to its first yield, where both signals are pending. -/
def toYield : List Event := .replicate 8 .proceed ++ [.raise .SIGALRM, .raise .SIGTSTP]

theorem scheduler_masked_window : ∃ machine after,
    Machine.Reached oneLoop 2 machine ∧ machine.deliver .SIGTSTP = some after ∧
      after.signals.mask = base_mask ∧ ∀ other, after.deliver other = none := by
  have reached : Machine.Reached oneLoop 2 _ :=
    @Machine.Reached.steps _ _ _ _ (toYield ++ [.proceed]) .refl rfl
  obtain ⟨_, _, closed, alone⟩ := (scheduler_masked reached).2 rfl .SIGTSTP _ rfl
  exact ⟨_, _, reached, rfl, closed, alone⟩

/-- In a handler that can only end in a jump through the empty `sched_buf`. -/
def Machine.Doomed (machine : Machine) : Prop :=
  machine.sched_buf = false ∧
    ((∃ signal, machine.point = .handling signal) ∨ machine.point = .rearming ∨
      machine.point = .leaving ∨ machine.point = .wild)

theorem Machine.Doomed.step {event : Event} (doomed : before.Doomed)
    (stepped : before.step specs timeslice event = some after) : after.Doomed := by
  obtain ⟨empty, point⟩ := doomed
  cases event with
  | raise signal =>
      obtain rfl := Option.some.inj stepped
      exact ⟨empty, point⟩
  | tick =>
      obtain rfl := Option.some.inj stepped
      have keeps := tick_keeps before
      exact ⟨keeps.sched_buf.trans empty, by rwa [keeps.point]⟩
  | deliver signal =>
      obtain ⟨_, delivers⟩ := deliver_cases stepped
      cases delivers with
      | default left installing fresh taken => simp [installing] at point
      | handled installed alive taken =>
          subst taken
          exact ⟨empty, .inl ⟨signal, rfl⟩⟩
  | proceed =>
      simp only [Machine.step, Machine.proceed] at stepped
      obtain ⟨signal, here⟩ | here | here | here := point
      · simp only [here, Option.some.injEq] at stepped
        subst stepped
        refine ⟨empty, .inr ?_⟩
        cases signal with
        | SIGTSTP => exact .inr (.inl rfl)
        | SIGALRM => exact .inl rfl
      · simp only [here, Option.some.injEq] at stepped
        subst stepped
        exact ⟨empty, .inr (.inr (.inl rfl))⟩
      · simp only [here, empty, Bool.false_eq_true, if_false, Option.some.injEq] at stepped
        subst stepped
        exact ⟨rfl, .inr (.inr (.inr rfl))⟩
      · simp [here] at stepped

/-- A handler entered before `init_signal` has blocked both signals. -/
def Machine.Early (before after : Machine) : Prop :=
  ∃ left signal, before.point = .installing left ∧ signal ∉ left ∧
    before.deliver signal = some after

theorem Machine.Early.doomed (early : before.Early after)
    (reached : Reached specs timeslice before) : after.Doomed := by
  obtain ⟨left, signal, point, installed, delivered⟩ := early
  have standing := reached.standing
  simp only [Standing, point] at standing
  obtain ⟨_, delivers⟩ := deliver_cases delivered
  cases delivers with
  | default other here fresh taken =>
      rw [point] at here
      exact absurd (Point.installing.inj here ▸ fresh) installed
  | handled _ _ taken =>
      subst taken
      exact ⟨standing.1, .inl ⟨signal, rfl⟩⟩

/-- With `sched_buf` empty the first handler is entered in `init_signal`. -/
theorem Machine.Standing.installing (standing : Standing specs machine)
    (empty : machine.sched_buf = false) (fine : ¬machine.Doomed)
    (alive : machine.point ≠ .wild ∧ machine.point ≠ .killed)
    (through : machine.signals.Deliverable signal) : ∃ left, machine.point = .installing left := by
  unfold Standing at standing
  cases point : machine.point with
  | installing left => exact ⟨left, rfl⟩
  | creating =>
      simp only [point] at standing
      exact absurd through (not_through _ standing.2 _)
  | arming | entering =>
      simp only [point] at standing
      exact absurd through (not_through _ standing.2.1 _)
  | program | setting | opened =>
      simp only [point] at standing
      simp [empty] at standing
  | handling | rearming | leaving => exact absurd ⟨empty, by simp [point]⟩ fine
  | wild => exact absurd point alive.1
  | killed => exact absurd point alive.2

end SysProg.Threads
