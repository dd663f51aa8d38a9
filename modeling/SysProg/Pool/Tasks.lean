import SysProg.Data.Ledger
import SysProg.Pool.Queue

namespace SysProg.Pool

open SysProg.Data

variable {n : Nat} {Func Arg : Type} {state before after : State n Func Arg}
  {queue : List Addr}

/-- Two states that agree on the queue, the cells, the history and the task in
the hands of each worker. -/
structure SameTasks (before after : State n Func Arg) : Prop where
  heap : after.heap = before.heap
  queue_head : after.queue_head = before.queue_head
  queue_tail : after.queue_tail = before.queue_tail
  added : after.added = before.added
  ticket : after.ticket = before.ticket
  taken : after.taken = before.taken
  called : after.called = before.called
  completed : after.completed = before.completed
  stage : ∀ i, (after.workers i).stage? = (before.workers i).stage?

/-- What one step of the system does to the tasks. -/
inductive TaskStep (before after : State n Func Arg) : Prop where
  | quiet : SameTasks before after → TaskStep before after
  | link (job : Addr) (func : Func) (arg : Arg) (linked : State n Func Arg) :
      before.heap job = none → (before.allocate job func arg).linkJob job = some linked →
      SameTasks linked after → TaskStep before after
  | dequeue (i : Fin n) (job : Addr) (task : Task Func Arg) :
      before.workers i = .dequeue → before.queue_head = some job →
      before.heap job = some task →
      after = (before.dequeueJob i job task).setWorker i (.unlockJob job) →
      TaskStep before after
  | call (i : Fin n) (job : Addr) (task : Task Func Arg) :
      before.workers i = .call job → before.heap job = some task →
      after = (before.recordCall i job task).setWorker i (.run job .idle) →
      TaskStep before after
  | return (i : Fin n) (job : Addr) :
      before.workers i = .run job .idle →
      after = (before.recordReturn job).setWorker i (.free job) →
      TaskStep before after
  | free (i : Fin n) (job : Addr) :
      before.workers i = .free job →
      after = (before.freeJob job).setWorker i .broadcastJob →
      TaskStep before after

theorem broadcast_stage (i : Fin n) :
    (state.broadcast.workers i).stage? = (state.workers i).stage? := by
  rcases state.broadcast_workers i with same | ⟨asleep, woken⟩
  · rw [same]
  · rw [asleep, woken]
    rfl

theorem setWorker_stage {i : Fin n} {pc : WorkerPc Func Arg}
    (same : pc.stage? = (state.workers i).stage?) (j : Fin n) :
    ((state.setWorker i pc).workers j).stage? = (state.workers j).stage? := by
  by_cases equal : j = i
  · subst equal
    simpa using same
  · rw [State.setWorker_other equal]

theorem SameTasks.setWorker {i : Fin n} {pc : WorkerPc Func Arg} (same : SameTasks before after)
    (stage : pc.stage? = (before.workers i).stage?) : SameTasks before (after.setWorker i pc) where
  heap := same.heap
  queue_head := same.queue_head
  queue_tail := same.queue_tail
  added := same.added
  ticket := same.ticket
  taken := same.taken
  called := same.called
  completed := same.completed
  stage j := (setWorker_stage (stage.trans (same.stage i).symm) j).trans (same.stage j)

theorem SameTasks.setAdder {k : Nat} {pc : AddPc Func Arg} (same : SameTasks before after) :
    SameTasks before (after.setAdder k pc) :=
  { same with }

theorem SameTasks.of_broadcast : SameTasks before before.broadcast where
  heap := rfl
  queue_head := rfl
  queue_tail := rfl
  added := rfl
  ticket := rfl
  taken := rfl
  called := rfl
  completed := rfl
  stage := broadcast_stage

theorem SameTasks.of_sync (mlock : Option (Thread n)) (finish : Bool) (waiter : WaitPc) :
    SameTasks before { before with mlock, finish, waiter } := by
  constructor <;> intros <;> rfl

/-- A step inside `tpool_add` links a cell or does nothing to the tasks. -/
theorem AddStep.tasks {me : Thread n} {pc pc' : AddPc Func Arg}
    (step : AddStep me before pc after pc') :
    SameTasks before after ∨
      ∃ job func arg, before.heap job = none ∧
        (before.allocate job func arg).linkJob job = some after := by
  cases step with
  | acquire => exact .inl (.of_sync _ _ _)
  | link _ job func arg fresh linked => exact .inr ⟨job, func, arg, fresh, linked⟩
  | broadcast => exact .inl .of_broadcast
  | unlock => exact .inl (.of_sync _ _ _)

theorem SameTasks.refl : SameTasks before before := by
  constructor <;> intros <;> rfl

theorem linkJob_workers {job : Addr} {func : Func} {arg : Arg} {linked : State n Func Arg}
    (link : (before.allocate job func arg).linkJob job = some linked) :
    linked.workers = before.workers :=
  (State.linkJob_frame link).2.2.1

theorem Step.tasks (step : Step before after) : TaskStep before after := by
  cases step with
  | worker i _ middle pc pc' here inner =>
      cases inner with
      | dequeue job task head stored => exact .dequeue i job task here head stored rfl
      | call job task stored => exact .call i job task here stored rfl
      | «return» job => exact .return i job here rfl
      | free job => exact .free i job here rfl
      | inAdd _ job pc pc' inner =>
          rcases inner.tasks with same | ⟨new, func, arg, fresh, linked⟩
          · exact .quiet (same.setWorker (by rw [here]; rfl))
          · refine .link new func arg middle fresh linked (SameTasks.refl.setWorker ?_)
            rw [linkJob_workers linked, here]
            rfl
      | broadcastJob => exact .quiet (SameTasks.of_broadcast.setWorker (by rw [here]; rfl))
      | broadcastExit => exact .quiet (SameTasks.of_broadcast.setWorker (by rw [here]; rfl))
      | _ => exact .quiet ((SameTasks.of_sync _ _ _).setWorker (by rw [here]; rfl))
  | startAdd k _ func arg idle => exact .quiet SameTasks.refl.setAdder
  | adder k _ middle pc pc' here inner =>
      rcases inner.tasks with same | ⟨new, func, arg, fresh, linked⟩
      · exact .quiet same.setAdder
      · exact .link new func arg middle fresh linked SameTasks.refl.setAdder
  | wait _ _ inner =>
      cases inner with
      | broadcast =>
          have woken : SameTasks before before.broadcast := .of_broadcast
          exact .quiet { woken with }
      | _ => exact .quiet (.of_sync _ _ _)

end SysProg.Pool
