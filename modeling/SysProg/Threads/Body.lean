import Mathlib.Logic.Relation
import SysProg.Threads.Scheduler

namespace SysProg.Threads

/-- `thread_yield()` up to its `setjmp`: the running thread can be resumed here. -/
def thread_yield (environment : Environment) (ptr : Ptr) (tcb : Tcb) (state : State) : State :=
  { state.setTcb ptr { tcb with environment } with control := .yielding environment }

def thread_exit (ptr : Ptr) (state : State) : State :=
  { state with control := .scheduling 3, exited := state.exited ++ [ptr] }

def fibonacciRound (i : Int) (ptr : Ptr) (tcb : Tcb) (state : State) : State :=
  let tcb :=
    if i ≤ 2 then { tcb with i, x := 1, y := 1 }
    else { tcb with i, x := tcb.y, y := int32 (tcb.x + tcb.y) }
  let state := (state.setTcb ptr tcb).print (.value tcb.id tcb.y)
  if tcb.i = tcb.arg then thread_exit ptr state
  else thread_yield .fibonacciYield ptr tcb state

def factorialRound (i : Int) (ptr : Ptr) (tcb : Tcb) (state : State) : State :=
  let tcb :=
    if i ≤ 1 then { tcb with i, y := 1 }
    else { tcb with i, y := int32 (tcb.y * i) }
  let state := (state.setTcb ptr tcb).print (.value tcb.id tcb.y)
  if tcb.i = tcb.arg then thread_exit ptr state
  else thread_yield .factorialYield ptr tcb state

/-- Step 1 of `bank_operation`: `lock()`, which jumps to the scheduler when the
lock is taken. -/
def bankLock (ptr : Ptr) (tcb : Tcb) (state : State) : State :=
  if state.lock_owner = -1 ∨ state.lock_owner = tcb.id then
    let locked := { state with
      lock_owner := tcb.id
      acquisitions :=
        if state.lock_owner = tcb.id then state.acquisitions
        else state.acquisitions ++ [tcb.id] }
    thread_yield .acquired ptr tcb (locked.print (.acquired tcb.id))
  else { state with control := .scheduling 2 }

def bankUpdate (ptr : Ptr) (tcb : Tcb) (state : State) : State :=
  let state :=
    if tcb.arg > 0 ∨ (tcb.arg ≤ 0 ∧ state.balance ≥ int32 (-tcb.arg)) then
      let balance := int32 (state.balance + tcb.arg)
      { state with balance }.print (.transaction tcb.id (int32 (balance - tcb.arg)) balance)
    else state.print (.transaction tcb.id state.balance state.balance)
  thread_yield .updated ptr tcb state

def bankRelease (ptr : Ptr) (tcb : Tcb) (state : State) : State :=
  let state := if state.lock_owner = tcb.id then { state with lock_owner := -1 } else state
  thread_exit ptr (state.print (.released tcb.id))

/-- The running thread goes on behind the `setjmp` of `environment` until its
next `thread_yield` or its next jump to the scheduler. -/
def resume (environment : Environment) (ptr : Ptr) (tcb : Tcb) (state : State) : State :=
  match environment with
  | .setup .fibonacci => fibonacciRound 1 ptr tcb state
  | .fibonacciYield => fibonacciRound (int32 (tcb.i + 1)) ptr tcb state
  | .setup .factorial => factorialRound 1 ptr tcb state
  | .factorialYield => factorialRound (int32 (tcb.i + 1)) ptr tcb state
  | .setup .bank_operation => bankLock ptr tcb state
  | .acquired => bankUpdate ptr tcb state
  | .updated => bankRelease ptr tcb state

/-- One step of the program.  `signal` is the signal, if any, that is pending when
a `thread_yield` opens its masks; it matters nowhere else. -/
def next (signal : Option Signal) (state : State) : State :=
  match state.control with
  | .running environment =>
      match RUNNING state with
      | .ok (ptr, tcb) => resume environment ptr tcb state
      | .error fault => { state with control := .crashed fault }
  | .yielding environment =>
      match signal with
      | none => { state with control := .running environment }
      | some signal => { state.print (.caught signal) with control := .scheduling 1 }
  | .scheduling val =>
      match scheduler val state with
      | .ok (.returned after) => { after with control := .finished }
      | .ok (.dispatch environment after) => { after with control := .running environment }
      | .error fault => { state with control := .crashed fault }
  | .finished | .crashed _ => state

/-- What a thread is created with; `i`, `x` and `y` are what `malloc` left there. -/
structure Spec where
  func : Func
  id : Int
  arg : Int
  i : Int
  x : Int
  y : Int

def Spec.tcb (spec : Spec) : Tcb where
  id := spec.id
  environment := .setup spec.func
  arg := spec.arg
  i := spec.i
  x := spec.x
  y := spec.y

/-- `thread_create`: `func` runs up to the `return` inside `thread_setup`. -/
def thread_create (ptr : Ptr) (spec : Spec) (state : State) : Except Fault State := do
  let ready_queue ← store state.ready_queue state.rq_size ptr
  return { (state.print (.setup spec.id spec.func)).setTcb ptr spec.tcb with
    ready_queue, rq_size := state.rq_size + 1 }

def createAll (ptr : Ptr) : List Spec → State → Except Fault State
  | [], state => .ok state
  | spec :: rest, state => do
      let state ← thread_create ptr spec state
      createAll (ptr + 1) rest state

/-- The globals before the first thread is created, after `init_bank`. -/
def globals : State where
  tcbs := fun _ => none
  ready_queue := Vector.replicate THREAD_MAX 0
  waiting_queue := Vector.replicate THREAD_MAX 0
  rq_size := 0
  rq_current := 0
  wq_size := 0
  balance := 500
  lock_owner := -1
  out := []
  control := .scheduling 0
  exited := []
  acquisitions := []

/-- `start_threading()` after the threads of `specs` have been created. -/
def start (specs : List Spec) : State :=
  match createAll 1 specs globals with
  | .ok state => state
  | .error fault => { globals with control := .crashed fault }

def init_threads (fib_arg fact_arg bank1_arg bank2_arg : Int) (junk : Int) : List Spec :=
  (if fib_arg > 0 then [⟨.fibonacci, 0, fib_arg, junk, junk, junk⟩] else []) ++
  (if fact_arg > 0 then [⟨.factorial, 1, fact_arg, junk, junk, junk⟩] else []) ++
  (if bank1_arg ≠ 0 then [⟨.bank_operation, 2, bank1_arg, junk, junk, junk⟩] else []) ++
  (if bank2_arg ≠ 0 then [⟨.bank_operation, 3, bank2_arg, junk, junk, junk⟩] else [])

def Step (before after : State) : Prop := ∃ signal, next signal before = after

def Reachable (specs : List Spec) (state : State) : Prop :=
  Relation.ReflTransGen Step (start specs) state

/-- The program under the schedule `signals`. -/
def run (specs : List Spec) (signals : Nat → Option Signal) : Nat → State
  | 0 => start specs
  | k + 1 => next (signals k) (run specs signals k)

theorem run_reachable (specs : List Spec) (signals : Nat → Option Signal) (k : Nat) :
    Reachable specs (run specs signals k) := by
  induction k with
  | zero => exact .refl
  | succ k ih => exact ih.tail ⟨signals k, rfl⟩

end SysProg.Threads
