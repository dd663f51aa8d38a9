import Mathlib.Logic.Relation
import SysProg.Pool.State

namespace SysProg.Pool

open Relation

variable {n : Nat} {Func Arg : Type}

/-- One step of a call of `tpool_add` made by the thread `me`. -/
inductive AddStep (me : Thread n) :
    State n Func Arg → AddPc Func Arg → State n Func Arg → AddPc Func Arg → Prop where
  | acquire (state : State n Func Arg) (func : Func) (arg : Arg) :
      state.mlock = none →
      AddStep me state (.lock func arg) { state with mlock := some me } (.link func arg)
  | link (state after : State n Func Arg) (job : Addr) (func : Func) (arg : Arg) :
      state.heap job = none → (state.allocate job func arg).linkJob job = some after →
      AddStep me state (.link func arg) after .broadcast
  | broadcast (state : State n Func Arg) :
      AddStep me state .broadcast state.broadcast .unlock
  | unlock (state : State n Func Arg) :
      AddStep me state .unlock { state with mlock := none } .idle

/-- One step of worker `i` in `work`, apart from the calls of `tpool_add` its
task makes. -/
inductive WorkerStep (i : Fin n) :
    State n Func Arg → WorkerPc Func Arg → State n Func Arg → WorkerPc Func Arg → Prop where
  | acquire (state : State n Func Arg) :
      state.mlock = none →
      WorkerStep i state .lock { state with mlock := some (.worker i) } .test
  | testSleep (state : State n Func Arg) :
      state.queue_head = none → state.finish = false →
      WorkerStep i state .test state .wait
  | testPass (state : State n Func Arg) :
      ¬ (state.queue_head = none ∧ state.finish = false) →
      WorkerStep i state .test state .dequeue
  | sleep (state : State n Func Arg) :
      WorkerStep i state .wait { state with mlock := none } .asleep
  | spurious (state : State n Func Arg) :
      WorkerStep i state .asleep state .woken
  | reacquire (state : State n Func Arg) :
      state.mlock = none →
      WorkerStep i state .woken { state with mlock := some (.worker i) } .test
  | dequeue (state : State n Func Arg) (job : Addr) (task : Task Func Arg) :
      state.queue_head = some job → state.heap job = some task →
      WorkerStep i state .dequeue (state.dequeueJob i job task) (.unlockJob job)
  | unlockJob (state : State n Func Arg) (job : Addr) :
      WorkerStep i state (.unlockJob job) { state with mlock := none } (.call job)
  | call (state : State n Func Arg) (job : Addr) (task : Task Func Arg) :
      state.heap job = some task →
      WorkerStep i state (.call job) (state.recordCall i job task) (.run job .idle)
  | add (state : State n Func Arg) (job : Addr) (func : Func) (arg : Arg) :
      WorkerStep i state (.run job .idle) state (.run job (.lock func arg))
  | inAdd (state after : State n Func Arg) (job : Addr) (pc pc' : AddPc Func Arg) :
      AddStep (.worker i) state pc after pc' →
      WorkerStep i state (.run job pc) after (.run job pc')
  | return (state : State n Func Arg) (job : Addr) :
      WorkerStep i state (.run job .idle) (state.recordReturn job) (.free job)
  | free (state : State n Func Arg) (job : Addr) :
      WorkerStep i state (.free job) (state.freeJob job) .broadcastJob
  | broadcastJob (state : State n Func Arg) :
      WorkerStep i state .broadcastJob state.broadcast .lock
  | leave (state : State n Func Arg) :
      state.queue_head = none → state.finish = true →
      WorkerStep i state .dequeue state .unlockExit
  -- neither `if` of the loop body applies: back to the top with the mutex held
  | fallThrough (state : State n Func Arg) :
      state.queue_head = none → state.finish = false →
      WorkerStep i state .dequeue state .lock
  | unlockExit (state : State n Func Arg) :
      WorkerStep i state .unlockExit { state with mlock := none } .broadcastExit
  | broadcastExit (state : State n Func Arg) :
      WorkerStep i state .broadcastExit state.broadcast .exited

inductive WaitStep : State n Func Arg → State n Func Arg → Prop where
  | call (state : State n Func Arg) :
      state.waiter = .notCalled → WaitStep state { state with waiter := .setFinish }
  | setFinish (state : State n Func Arg) :
      state.waiter = .setFinish →
      WaitStep state { state with finish := true, waiter := .broadcast }
  | broadcast (state : State n Func Arg) :
      state.waiter = .broadcast → WaitStep state { state.broadcast with waiter := .join 0 }
  | join (state : State n Func Arg) (i : Fin n) :
      state.waiter = .join i → state.workers i = .exited →
      WaitStep state { state with waiter := .join (i + 1) }
  | returned (state : State n Func Arg) :
      state.waiter = .join n → WaitStep state { state with waiter := .returned }

/-- One atomic step of the whole system.  The thread that steps reads and writes
the shared part first and then moves its own program point. -/
inductive Step : State n Func Arg → State n Func Arg → Prop where
  | worker (i : Fin n) (state after : State n Func Arg) (pc pc' : WorkerPc Func Arg) :
      state.workers i = pc → WorkerStep i state pc after pc' →
      Step state (after.setWorker i pc')
  | startAdd (k : Nat) (state : State n Func Arg) (func : Func) (arg : Arg) :
      state.adders k = .idle → Step state (state.setAdder k (.lock func arg))
  | adder (k : Nat) (state after : State n Func Arg) (pc pc' : AddPc Func Arg) :
      state.adders k = pc → AddStep (.adder k) state pc after pc' →
      Step state (after.setAdder k pc')
  | wait (state after : State n Func Arg) : WaitStep state after → Step state after

def Reachable (state : State n Func Arg) : Prop :=
  ReflTransGen Step (tpool_init n Func Arg) state

/-- The calling discipline of the client programs: a thread outside the pool
starts no `tpool_add` once `tpool_wait` has been called, and `tpool_wait` is
called when no such thread is inside `tpool_add`. -/
def ByClient (before after : State n Func Arg) : Prop :=
  (∀ k, before.adders k = .idle → after.adders k ≠ .idle → before.waiter = .notCalled) ∧
  (before.waiter = .notCalled → after.waiter ≠ .notCalled → ∀ k, before.adders k = .idle)

end SysProg.Pool
