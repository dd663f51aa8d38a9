import SysProg.Pool.Moves
import SysProg.Pool.Shutdown

namespace SysProg.Pool

open Relation SysProg.Transition

/-! Nobody sleeps on `available` while there is work, unless the thread that
linked the work is about to broadcast. -/

variable {n : Nat} {Func Arg : Type} {state before after : State n Func Arg}

def AddPc.broadcasting : AddPc Func Arg → Bool
  | .broadcast => true
  | _ => false

def WorkerPc.broadcasting : WorkerPc Func Arg → Bool
  | .run _ add => add.broadcasting
  | _ => false

namespace State

/-- The thread has linked a cell and has not broadcast yet. -/
def broadcasting (state : State n Func Arg) : Thread n → Bool
  | .worker i => (state.workers i).broadcasting
  | .adder k => (state.adders k).broadcasting

theorem holds_of_broadcasting {thread : Thread n} (about : state.broadcasting thread = true) :
    state.holds thread = true := by
  cases thread with
  | worker i =>
      simp only [broadcasting] at about
      simp only [holds]
      cases pc : state.workers i with
      | run job add => cases add <;> simp_all [WorkerPc.broadcasting, AddPc.broadcasting,
          WorkerPc.holds, AddPc.holds]
      | _ => simp [pc, WorkerPc.broadcasting] at about
  | adder k =>
      simp only [broadcasting] at about
      simp only [holds]
      cases pc : state.adders k <;> simp_all [AddPc.broadcasting, AddPc.holds]

end State

/-- A step inside `tpool_add` moves the head of the queue only by linking a cell,
and the broadcast that follows wakes everybody. -/
theorem AddStep.wakes {me : Thread n} {pc pc' : AddPc Func Arg}
    (step : AddStep me state pc after pc') :
    (after.queue_head = state.queue_head ∨ pc'.broadcasting = true) ∧
      (pc.broadcasting = true → after.workers = state.broadcast.workers) := by
  cases step with
  | acquire => exact ⟨.inl rfl, nofun⟩
  | link => exact ⟨.inr rfl, nofun⟩
  | broadcast => exact ⟨.inl rfl, fun _ => rfl⟩
  | unlock => exact ⟨.inl rfl, nofun⟩

theorem WorkerStep.wakes {i : Fin n} {pc pc' : WorkerPc Func Arg}
    (step : WorkerStep i state pc after pc') :
    (after.queue_head = state.queue_head ∨ pc'.broadcasting = true ∨ pc = .dequeue) ∧
      (pc.broadcasting = true → after.workers = state.broadcast.workers) := by
  cases step with
  | inAdd _ _ _ _ inner =>
      obtain ⟨head, woken⟩ := inner.wakes
      refine ⟨?_, woken⟩
      rcases head with same | about
      · exact .inl same
      · exact .inr (.inl about)
  | dequeue => exact ⟨.inr (.inr rfl), nofun⟩
  | _ => exact ⟨.inl rfl, nofun⟩

theorem broadcasting_kept {thread : Thread n} (adders : after.adders = before.adders)
    (workers : after.workers = before.workers ∨ after.workers = before.broadcast.workers)
    (about : before.broadcasting thread = true) : after.broadcasting thread = true := by
  cases thread with
  | adder k => simpa [State.broadcasting, adders] using about
  | worker j =>
      simp only [State.broadcasting] at about ⊢
      rcases workers with same | woken
      · rwa [same]
      · have awake : before.workers j ≠ .asleep := by
          intro asleep
          simp [asleep, WorkerPc.broadcasting] at about
        rwa [woken, State.broadcast_awake awake]

/-- What one step may do to the head of the queue and to a thread that is about
to broadcast. -/
theorem Step.wakes (step : Step before after) :
    (after.queue_head = before.queue_head ∨ (∃ thread, after.broadcasting thread = true) ∨
      ∃ i, before.workers i = .dequeue ∧ before.queue_head ≠ none) ∧
    ∀ thread, before.broadcasting thread = true →
      after.broadcasting thread = true ∨ ∀ i, after.workers i ≠ .asleep := by
  cases step with
  | worker i _ middle pc pc' here inner =>
      obtain ⟨head, woken⟩ := inner.wakes
      obtain ⟨_, adders, _, workers⟩ := inner.frame
      constructor
      · rcases head with same | about | dequeues
        · exact .inl same
        · exact .inr (.inl ⟨.worker i, by simpa [State.broadcasting] using about⟩)
        · subst dequeues
          cases inner with
          | dequeue job task found stored => exact .inr (.inr ⟨i, here, by simp [found]⟩)
          | leave empty _ => exact .inl rfl
          | fallThrough empty _ => exact .inl rfl
      · intro thread about
        by_cases same : thread = .worker i
        · subst same
          right
          intro j
          have everybody := woken (by simpa [State.broadcasting, here] using about)
          by_cases mine : j = i
          · subst mine
            rw [State.setWorker_self]
            simp only [State.broadcasting, here] at about
            cases inner <;> simp_all [WorkerPc.broadcasting]
          · rw [State.setWorker_other mine, everybody]
            exact before.broadcast_not_asleep j
        · left
          have middleAbout := broadcasting_kept adders workers about
          cases thread with
          | adder k => exact middleAbout
          | worker j =>
              have other : j ≠ i := fun equal => same (by rw [equal])
              simpa [State.broadcasting, State.setWorker_other other] using middleAbout
  | startAdd k _ func arg idle =>
      refine ⟨.inl rfl, fun thread about => .inl ?_⟩
      cases thread with
      | worker j => exact about
      | adder l =>
          by_cases same : l = k
          · subst same
            simp [State.broadcasting, idle, AddPc.broadcasting] at about
          · simpa [State.broadcasting, State.setAdder_other same] using about
  | adder k _ middle pc pc' here inner =>
      obtain ⟨head, woken⟩ := inner.wakes
      obtain ⟨_, adders, _, _, _, _, workers⟩ := inner.frame
      constructor
      · rcases head with same | about
        · exact .inl same
        · exact .inr (.inl ⟨.adder k, by simpa [State.broadcasting] using about⟩)
      · intro thread about
        by_cases same : thread = .adder k
        · subst same
          right
          intro j
          have everybody := woken (by simpa [State.broadcasting, here] using about)
          rw [State.setAdder, everybody]
          exact before.broadcast_not_asleep j
        · left
          have middleAbout := broadcasting_kept adders workers about
          cases thread with
          | worker j => exact middleAbout
          | adder l =>
              have other : l ≠ k := fun equal => same (by rw [equal])
              simpa [State.broadcasting, State.setAdder_other other] using middleAbout
  | wait _ _ inner =>
      obtain ⟨_, adders, head, _, workers⟩ := inner.frame
      exact ⟨.inl head, fun thread about => .inl (broadcasting_kept adders workers about)⟩

/-- A worker that has committed itself to sleep has seen an empty queue, and one
that sleeps while there is work is about to be woken. -/
structure Notified (state : State n Func Arg) : Prop where
  committed : ∀ i, state.workers i = .wait → state.queue_head = none
  asleep : ∀ i, state.workers i = .asleep →
    state.queue_head = none ∨ ∃ thread, state.broadcasting thread = true

theorem Notified.initially : Notified (tpool_init n Func Arg) :=
  ⟨fun _ _ => rfl, fun _ _ => .inl rfl⟩

/-- The head of the queue changes under nobody who owns the mutex. -/
theorem Step.head_of_wait (exclusive : Exclusive before) (step : Step before after) {i : Fin n}
    (waits : before.workers i = .wait) (empty : before.queue_head = none) :
    after.queue_head = none := by
  have inside : before.holds (.worker i) = true := by simp [State.holds, waits, WorkerPc.holds]
  cases step with
  | worker j _ middle pc pc' here inner =>
      rcases inner.queue_head with same | held
      · exact same.trans empty
      · have mine : j = i := by
          have holder : before.holds (.worker j) = true := by rwa [State.holds, here]
          exact Thread.worker.inj (exclusive.owned.exclusive _ _ holder inside)
        subst mine
        rw [waits] at here
        subst here
        cases inner with
        | sleep => exact empty
  | startAdd => exact empty
  | adder k _ middle pc pc' here inner =>
      rcases inner.queue_head with same | held
      · exact same.trans empty
      · have holder : before.holds (.adder k) = true := by rwa [State.holds, here]
        cases exclusive.owned.exclusive _ _ holder inside
  | wait _ _ inner => exact inner.frame.2.2.1.trans empty

theorem Step.head_of_test (step : Step before after) {i : Fin n}
    (entered : after.workers i = .wait) (tests : before.workers i = .test) :
    after.queue_head = none := by
  cases step with
  | worker j _ middle pc pc' here inner =>
      by_cases same : i = j
      · subst same
        rw [State.setWorker_self] at entered
        subst entered
        cases inner with
        | testSleep empty _ => exact empty
      · rw [State.setWorker_other same, workers_eq_iff (by simp) (by simp) inner.frame.2.2.2,
          tests] at entered
        cases entered
  | startAdd =>
      rw [State.setAdder, tests] at entered
      cases entered
  | adder k _ middle pc pc' here inner =>
      rw [State.setAdder, workers_eq_iff (by simp) (by simp) inner.frame.2.2.2.2.2.2, tests]
        at entered
      cases entered
  | wait _ _ inner =>
      rw [workers_eq_iff (by simp) (by simp) inner.frame.2.2.2.2, tests] at entered
      cases entered

theorem Notified.step (exclusive : Exclusive before) (notified : Notified before)
    (step : Step before after) : Notified after := by
  constructor
  · intro i waits
    rcases step.wait_of_running waits with before_ | ⟨tests, _⟩
    · exact step.head_of_wait exclusive before_ (notified.committed i before_)
    · exact step.head_of_test waits tests
  · intro i asleep
    rcases step.asleep_of_wait asleep with slept | waited
    · obtain ⟨head, woken⟩ := step.wakes
      rcases notified.asleep i slept with empty | ⟨thread, about⟩
      · rcases head with same | about | ⟨j, dequeues, work⟩
        · exact .inl (same.trans empty)
        · exact .inr about
        · exact absurd empty work
      · rcases woken thread about with still | awake
        · exact .inr ⟨thread, still⟩
        · exact absurd asleep (awake i)
    · exact .inl (step.head_of_wait exclusive waited (notified.committed i waited))

theorem Notified.of_reachable (reachable : Reachable state) : Notified state :=
  invariant_of_reached
    (fun _ _ reached taken notified => notified.step (Exclusive.of_reachable reached) taken)
    reachable Notified.initially

/-- While the mutex is free, a worker that sleeps without a pending wake-up means
that the queue is empty. -/
theorem no_wakeup_lost (n : Nat) (Func Arg : Type) (state : State n Func Arg)
    (reachable : Reachable state) (free : state.mlock = none) (i : Fin n)
    (asleep : state.workers i = .asleep) : state.queue_head = none := by
  rcases (Notified.of_reachable reachable).asleep i asleep with empty | ⟨thread, about⟩
  · exact empty
  · have owner := (Exclusive.of_reachable reachable).owned thread (State.holds_of_broadcasting about)
    rw [free] at owner
    cases owner

/-- Workers `i` and `j` sleep, a task is added and wakes them, `i` takes it, and `j` finds nothing
and sleeps again. -/
def tooLate (i j : Fin n) : List (Move n Nat Nat) :=
  Move.works i 3 ++ Move.works j 3 ++ Move.adds 0 7 3 5 ++ Move.works i 5 ++ Move.works j 3

theorem no_wakeup_lost_two :
    ∃ state : State 2 Nat Nat, state.taken = [(0, 0)] ∧ state.workers 0 = .run 5 .idle ∧
      state.workers 1 = .asleep ∧ state.queue_head = none := by
  have completes : ((tooLate 0 1).foldlM State.perform (tpool_init 2 Nat Nat)).map
      (fun state => (state.taken, state.workers 0, state.workers 1, state.mlock)) =
        some ([(0, 0)], .run 5 .idle, .asleep, none) := rfl
  obtain ⟨state, performed, facts⟩ := Option.map_eq_some_iff.mp completes
  simp only [Prod.mk.injEq] at facts
  obtain ⟨taken, runs, asleep, free⟩ := facts
  have reachable := reachable_iff_perform.mpr ⟨tooLate 0 1, performed⟩
  exact ⟨state, taken, runs, asleep, no_wakeup_lost 2 Nat Nat state reachable free 1 asleep⟩

end SysProg.Pool
