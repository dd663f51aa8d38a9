import SysProg.Threads.State

namespace SysProg.Threads

/-- How `scheduler` ends: it returns, or it jumps to `RUNNING->environment`. -/
inductive Outcome where
  | returned (state : State)
  | dispatch (environment : Environment) (state : State)

/-- `for(i...) queue[i] = queue[i+1]` for `count` rounds from `i` on. -/
def shift (queue : Queue) (i : Nat) : Nat → Except Fault Queue
  | 0 => .ok queue
  | count + 1 => do
      let next ← load queue (i + 1)
      let queue ← store queue i next
      shift queue (i + 1) count

/-- The first waiting thread gets the free lock and goes to the tail of the ready
queue. -/
def handOff (state : State) : Except Fault State := do
  let first ← load state.waiting_queue 0
  let ready_queue ← store state.ready_queue state.rq_size first
  let last ← load ready_queue state.rq_size
  let tcb ← deref state last
  let wq_size := state.wq_size - 1
  let waiting_queue ← shift state.waiting_queue 0 wq_size
  return { state with
    ready_queue, waiting_queue, wq_size
    rq_size := state.rq_size + 1
    lock_owner := tcb.id
    acquisitions := state.acquisitions ++ [tcb.id] }

/-- `RUNNING = ready_queue[rq_size-1]; rq_size--;` -/
def fillWithLast (state : State) : Except Fault State :=
  match state.rq_size with
  | 0 => .error .index
  | size + 1 => do
      let last ← load state.ready_queue size
      let ready_queue ← store state.ready_queue state.rq_current last
      return { state with ready_queue, rq_size := size }

/-- The running thread failed to get the lock. -/
def moveToWaiting (state : State) : Except Fault State := do
  let running ← load state.ready_queue state.rq_current
  let waiting_queue ← store state.waiting_queue state.wq_size running
  fillWithLast { state with waiting_queue, wq_size := state.wq_size + 1 }

def freeRunning (state : State) : Except Fault State := do
  let (running, _) ← RUNNING state
  fillWithLast { state with tcbs := Function.update state.tcbs running none }

def giveLock (state : State) : Except Fault State :=
  if state.lock_owner = -1 ∧ state.wq_size ≠ 0 then handOff state else .ok state

def takeOut (val : Nat) (state : State) : Except Fault State :=
  if val = 2 then moveToWaiting state
  else if val = 3 then freeRunning state
  else .ok state

/-- `longjmp(RUNNING->environment, 1)`. -/
def dispatch (state : State) : Except Fault Outcome := do
  let (_, tcb) ← RUNNING state
  return .dispatch tcb.environment state

/-- Steps 5 and 6, after the queues have been rearranged. -/
def pickNext (val : Nat) (state : State) : Except Fault Outcome :=
  if state.rq_size = 0 ∧ state.wq_size = 0 then .ok (.returned state)
  else if val = 1 then
    dispatch { state with
      rq_current := if state.rq_current + 1 = state.rq_size then 0 else state.rq_current + 1 }
  else if val = 2 ∨ val = 3 then
    dispatch { state with
      rq_current := if state.rq_current = state.rq_size then 0 else state.rq_current }
  else .ok (.returned state)

/-- `scheduler` from its `setjmp(sched_buf)` on, for the value `val` that returned. -/
def scheduler (val : Nat) (state : State) : Except Fault Outcome :=
  if state.rq_size = 0 ∧ state.wq_size = 0 then .ok (.returned state)
  else if val = 0 then dispatch { state with rq_current := 0 }
  else do
    let handed ← giveLock state
    let left ← takeOut val handed
    pickNext val left

end SysProg.Threads
