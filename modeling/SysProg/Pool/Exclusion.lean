import SysProg.Transition.Mutex
import SysProg.Transition.Steps
import SysProg.Pool.Step

namespace SysProg.Pool

open Relation SysProg.Transition

variable {n : Nat} {Func Arg : Type} {state before after : State n Func Arg}

namespace State

/-- Which threads stand inside a section guarded by `mlock`. -/
def holds (state : State n Func Arg) : Thread n → Bool
  | .worker i => (state.workers i).holds
  | .adder k => (state.adders k).holds

@[simp] theorem setWorker_self (i : Fin n) (pc : WorkerPc Func Arg) :
    (state.setWorker i pc).workers i = pc := by simp [setWorker]

theorem setWorker_other {i j : Fin n} (different : j ≠ i) (pc : WorkerPc Func Arg) :
    (state.setWorker i pc).workers j = state.workers j := by
  simp [setWorker, Function.update_of_ne different]

@[simp] theorem setAdder_self (k : Nat) (pc : AddPc Func Arg) :
    (state.setAdder k pc).adders k = pc := by simp [setAdder]

theorem setAdder_other {k l : Nat} (different : l ≠ k) (pc : AddPc Func Arg) :
    (state.setAdder k pc).adders l = state.adders l := by
  simp [setAdder, Function.update_of_ne different]

theorem broadcast_workers (i : Fin n) :
    state.broadcast.workers i = state.workers i ∨
      (state.workers i = .asleep ∧ state.broadcast.workers i = .woken) := by
  cases pc : state.workers i <;> simp [broadcast, pc]

theorem broadcast_awake {i : Fin n} (awake : state.workers i ≠ .asleep) :
    state.broadcast.workers i = state.workers i := by
  rcases state.broadcast_workers i with same | ⟨asleep, _⟩
  · exact same
  · exact absurd asleep awake

theorem broadcast_not_asleep (i : Fin n) : state.broadcast.workers i ≠ .asleep := by
  rcases state.broadcast_workers i with same | ⟨_, woken⟩
  · intro asleep
    rw [same] at asleep
    simp [broadcast, asleep] at same
  · simp [woken]

theorem linkJob_frame {job : Addr} (linked : state.linkJob job = some after) :
    after.finish = state.finish ∧ after.mlock = state.mlock ∧ after.workers = state.workers ∧
      after.adders = state.adders ∧ after.waiter = state.waiter ∧ after.queue_head ≠ none ∧
      after.added = state.added ∧ after.ticket = state.ticket ∧ after.taken = state.taken ∧
      after.called = state.called ∧ after.completed = state.completed := by
  unfold linkJob at linked
  split at linked
  · cases linked
    simp
  · rename_i head found
    split at linked
    · cases linked
    · split at linked
      · split at linked
        · cases linked
        · obtain ⟨heap, _, rfl⟩ := Option.map_eq_some_iff.mp linked
          simp [found]
      · obtain ⟨heap, _, rfl⟩ := Option.map_eq_some_iff.mp linked
        simp [found]

end State

/-- What a step inside `tpool_add` leaves alone, and what it may do to the
workers: wake the sleepers. -/
theorem AddStep.frame {me : Thread n} {pc pc' : AddPc Func Arg}
    (step : AddStep me state pc after pc') :
    after.finish = state.finish ∧ after.adders = state.adders ∧ after.waiter = state.waiter ∧
      after.taken = state.taken ∧ after.called = state.called ∧
      after.completed = state.completed ∧
      (after.workers = state.workers ∨ after.workers = state.broadcast.workers) := by
  cases step with
  | acquire => simp
  | link _ job func arg fresh linked =>
      obtain ⟨finish, _, workers, adders, waiter, _, _, _, taken, called, completed⟩ :=
        State.linkJob_frame linked
      exact ⟨finish, adders, waiter, taken, called, completed, .inl workers⟩
  | broadcast => simp [State.broadcast]
  | unlock => simp

theorem AddStep.mutex {me : Thread n} {pc pc' : AddPc Func Arg}
    (step : AddStep me state pc after pc') :
    MutexLaw me state.mlock after.mlock pc.holds pc'.holds := by
  cases step with
  | acquire func arg free => exact .inr (.inl ⟨free, rfl⟩)
  | link _ job func arg fresh linked => exact .inl ⟨(State.linkJob_frame linked).2.1, rfl⟩
  | broadcast => exact .inl ⟨rfl, rfl⟩
  | unlock => exact .inr (.inr ⟨rfl, rfl, rfl⟩)

/-- A worker past the loop condition has a task to take or a reason to leave. -/
def Decided (state : State n Func Arg) : Prop :=
  ∀ i, state.workers i = .dequeue → ¬ (state.queue_head = none ∧ state.finish = false)

theorem WorkerStep.mutex {i : Fin n} {pc pc' : WorkerPc Func Arg}
    (decided : pc = .dequeue → ¬ (state.queue_head = none ∧ state.finish = false))
    (step : WorkerStep i state pc after pc') :
    MutexLaw (.worker i) state.mlock after.mlock pc.holds pc'.holds := by
  cases step with
  | acquire free => exact .inr (.inl ⟨free, rfl⟩)
  | reacquire free => exact .inr (.inl ⟨free, rfl⟩)
  | sleep => exact .inr (.inr ⟨rfl, rfl, rfl⟩)
  | unlockJob => exact .inr (.inr ⟨rfl, rfl, rfl⟩)
  | unlockExit => exact .inr (.inr ⟨rfl, rfl, rfl⟩)
  | inAdd _ _ _ _ inner => exact inner.mutex
  | fallThrough empty running => exact absurd ⟨empty, running⟩ (decided rfl)
  | _ => exact .inl ⟨rfl, rfl⟩

/-- What a step of `work` leaves alone, and what it may do to the other workers. -/
theorem WorkerStep.frame {i : Fin n} {pc pc' : WorkerPc Func Arg}
    (step : WorkerStep i state pc after pc') :
    after.finish = state.finish ∧ after.adders = state.adders ∧ after.waiter = state.waiter ∧
      (after.workers = state.workers ∨ after.workers = state.broadcast.workers) := by
  cases step with
  | inAdd _ _ _ _ inner =>
      obtain ⟨finish, adders, waiter, _, _, _, workers⟩ := inner.frame
      exact ⟨finish, adders, waiter, workers⟩
  | broadcastJob => simp [State.broadcast]
  | broadcastExit => simp [State.broadcast]
  | _ => exact ⟨rfl, rfl, rfl, .inl rfl⟩

/-- Only the owner of the mutex moves the head of the queue. -/
theorem AddStep.queue_head {me : Thread n} {pc pc' : AddPc Func Arg}
    (step : AddStep me state pc after pc') :
    after.queue_head = state.queue_head ∨ pc.holds = true := by
  cases step <;> simp [AddPc.holds, State.broadcast]

theorem WorkerStep.queue_head {i : Fin n} {pc pc' : WorkerPc Func Arg}
    (step : WorkerStep i state pc after pc') :
    after.queue_head = state.queue_head ∨ pc.holds = true := by
  cases step with
  | inAdd _ _ _ _ inner => exact inner.queue_head
  | dequeue => exact .inr rfl
  | _ => exact .inl rfl

theorem WaitStep.frame (step : WaitStep state after) :
    after.mlock = state.mlock ∧ after.adders = state.adders ∧ after.queue_head = state.queue_head ∧
      (state.finish = true → after.finish = true) ∧
      (after.workers = state.workers ∨ after.workers = state.broadcast.workers) := by
  cases step <;> simp [State.broadcast]

theorem holds_of_workers {i : Fin n}
    (woken : after.workers = state.workers ∨ after.workers = state.broadcast.workers) :
    (after.workers i).holds = (state.workers i).holds := by
  rcases woken with same | woken
  · rw [same]
  · rw [woken]
    rcases state.broadcast_workers i with same | ⟨asleep, awake⟩
    · rw [same]
    · rw [asleep, awake]
      rfl

/-- Mutual exclusion of the sections guarded by `mlock`, with the fact that
keeps the loop of `work` from falling through while it owns the mutex. -/
structure Exclusive (state : State n Func Arg) : Prop where
  owned : Owned state.mlock state.holds
  decided : Decided state

theorem Exclusive.initially : Exclusive (tpool_init n Func Arg) where
  owned := by
    intro thread inside
    cases thread <;> simp [State.holds, tpool_init, WorkerPc.holds, AddPc.holds] at inside
  decided := by
    intro i pc
    simp [tpool_init] at pc

theorem setWorker_holds_other {i : Fin n} {pc : WorkerPc Func Arg} {thread : Thread n}
    (adders : after.adders = state.adders)
    (workers : after.workers = state.workers ∨ after.workers = state.broadcast.workers)
    (different : thread ≠ .worker i) :
    (after.setWorker i pc).holds thread = state.holds thread := by
  cases thread with
  | worker j =>
      have other : j ≠ i := fun same => different (by rw [same])
      simp only [State.holds, State.setWorker_other other]
      exact holds_of_workers workers
  | adder k => simp only [State.holds, State.setWorker, adders]

theorem setAdder_holds_other {k : Nat} {pc : AddPc Func Arg} {thread : Thread n}
    (adders : after.adders = state.adders)
    (workers : after.workers = state.workers ∨ after.workers = state.broadcast.workers)
    (different : thread ≠ .adder k) :
    (after.setAdder k pc).holds thread = state.holds thread := by
  cases thread with
  | worker j =>
      simp only [State.holds, State.setAdder]
      exact holds_of_workers workers
  | adder l =>
      have other : l ≠ k := fun same => different (by rw [same])
      simp only [State.holds, State.setAdder_other other, adders]

/-- A program point that does not sleep is met in both states or in neither. -/
theorem workers_eq_iff {i : Fin n} {pc : WorkerPc Func Arg} (notAsleep : pc ≠ .asleep)
    (notWoken : pc ≠ .woken)
    (woken : after.workers = state.workers ∨ after.workers = state.broadcast.workers) :
    after.workers i = pc ↔ state.workers i = pc := by
  rcases woken with same | woken
  · rw [same]
  · rw [woken]
    rcases state.broadcast_workers i with same | ⟨asleep, awake⟩
    · rw [same]
    · rw [asleep, awake]
      exact ⟨fun equal => absurd equal.symm notWoken, fun equal => absurd equal.symm notAsleep⟩

theorem Decided.keep {i : Fin n} (me : Thread n) (exclusive : Exclusive state)
    (different : me ≠ .worker i) (pc : state.workers i = .dequeue)
    (finish : state.finish = true → after.finish = true)
    (head : after.queue_head = state.queue_head ∨ state.holds me = true) :
    ¬ (after.queue_head = none ∧ after.finish = false) := by
  intro stops
  obtain ⟨empty, running⟩ := stops
  have inside : state.holds (.worker i) = true := by simp [State.holds, pc, WorkerPc.holds]
  rcases head with same | held
  · refine exclusive.decided i pc ⟨same ▸ empty, ?_⟩
    by_contra set
    rw [finish (by simpa using set)] at running
    cases running
  · exact different (exclusive.owned.exclusive _ _ held inside)

theorem Exclusive.step (exclusive : Exclusive before) (step : Step before after) :
    Exclusive after := by
  cases step with
  | worker i _ middle pc pc' here inner =>
      obtain ⟨finish, adders, waiter, workers⟩ := inner.frame
      have law := inner.mutex (fun at_ => exclusive.decided i (here.trans at_))
      constructor
      · apply exclusive.owned.step (.worker i)
        · simpa [State.holds, here, State.setWorker] using law
        · exact fun thread different => setWorker_holds_other adders workers different
      · intro j atDequeue
        by_cases same : j = i
        · subst same
          rw [State.setWorker_self] at atDequeue
          subst atDequeue
          cases inner with
          | testPass passed => exact passed
        · rw [State.setWorker_other same, workers_eq_iff (by simp) (by simp) workers] at atDequeue
          refine Decided.keep (.worker i) exclusive ?_ atDequeue ?_ ?_
          · exact fun equal => same (Thread.worker.inj equal).symm
          · exact fun set => finish.trans set
          · simpa [State.holds, here, State.setWorker] using inner.queue_head
  | startAdd k _ func arg idle =>
      constructor
      · apply exclusive.owned.step (.adder k)
        · exact .inl ⟨rfl, by simp [State.holds, idle, AddPc.holds]⟩
        · exact fun thread different => setAdder_holds_other rfl (.inl rfl) different
      · exact exclusive.decided
  | adder k _ middle pc pc' here inner =>
      obtain ⟨finish, adders, waiter, _, _, _, workers⟩ := inner.frame
      constructor
      · apply exclusive.owned.step (.adder k)
        · simpa [State.holds, here, State.setAdder] using inner.mutex
        · exact fun thread different => setAdder_holds_other adders workers different
      · intro j atDequeue
        rw [State.setAdder, workers_eq_iff (by simp) (by simp) workers] at atDequeue
        refine Decided.keep (.adder k) exclusive (by simp) atDequeue ?_ ?_
        · exact fun set => finish.trans set
        · simpa [State.holds, here, State.setAdder] using inner.queue_head
  | wait _ _ inner =>
      obtain ⟨mlock, adders, head, finish, workers⟩ := inner.frame
      constructor
      · intro thread inside
        rw [mlock]
        apply exclusive.owned
        cases thread with
        | worker j => simpa [State.holds, holds_of_workers workers] using inside
        | adder k => simpa [State.holds, adders] using inside
      · intro j atDequeue
        rw [workers_eq_iff (by simp) (by simp) workers] at atDequeue
        intro stops
        obtain ⟨empty, running⟩ := stops
        refine exclusive.decided j atDequeue ⟨head ▸ empty, ?_⟩
        by_contra set
        rw [finish (by simpa using set)] at running
        cases running

theorem Exclusive.of_reachable (reachable : Reachable state) : Exclusive state :=
  invariant_of_run (fun _ _ taken exclusive => exclusive.step taken) reachable
    Exclusive.initially

end SysProg.Pool
