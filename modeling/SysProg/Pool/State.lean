import Mathlib.Logic.Function.Basic

namespace SysProg.Pool

/-! # The thread pool of my_pool.c

One state holds the pool object, the heap cells of its tasks and the program
point of every thread that touches it: the `n` workers, the threads outside the
pool that call `tpool_add`, and the thread that calls `tpool_wait`.  The record
of calls at the end is history: no step reads it. -/

abbrev Addr := Nat

/-- A `task` cell of my_pool.h. -/
structure Task (Func Arg : Type) where
  func : Func
  arg : Arg
  next : Option Addr

/-- The threads that may own `mlock`. -/
inductive Thread (n : Nat) where
  | worker (i : Fin n)
  | adder (k : Nat)
deriving DecidableEq

/-- Program points of one call of `tpool_add`, and `idle` outside a call. -/
inductive AddPc (Func Arg : Type) where
  | idle
  | lock (func : Func) (arg : Arg)
  | link (func : Func) (arg : Arg)
  | broadcast
  | unlock

/-- Program points of `work`.  `wait` is the call of `pthread_cond_wait` before it
releases the mutex, `asleep` its sleep and `woken` the return path that has to
take the mutex again.  A worker in `run` is inside its task, which may itself be
inside `tpool_add`. -/
inductive WorkerPc (Func Arg : Type) where
  | lock
  | test
  | wait
  | asleep
  | woken
  | dequeue
  | unlockJob (job : Addr)
  | call (job : Addr)
  | run (job : Addr) (add : AddPc Func Arg)
  | free (job : Addr)
  | broadcastJob
  | unlockExit
  | broadcastExit
  | exited

/-- Program points of `tpool_wait`. -/
inductive WaitPc where
  | notCalled
  | setFinish
  | broadcast
  | join (i : Nat)
  | returned
deriving DecidableEq

/-- One finished call of `tpool_add`, in the order of the critical sections. -/
structure Added (Func Arg : Type) where
  func : Func
  arg : Arg

/-- One call `job->func(job->arg)`: who made it, for which addition, with what. -/
structure Called (n : Nat) (Func Arg : Type) where
  worker : Fin n
  ticket : Nat
  func : Func
  arg : Arg

structure State (n : Nat) (Func Arg : Type) where
  heap : Addr → Option (Task Func Arg)
  queue_head : Option Addr
  queue_tail : Option Addr
  finish : Bool
  mlock : Option (Thread n)
  workers : Fin n → WorkerPc Func Arg
  adders : Nat → AddPc Func Arg
  waiter : WaitPc
  -- history: additions by ticket, the ticket of a cell, and what became of it
  added : List (Added Func Arg)
  ticket : Addr → Nat
  taken : List (Fin n × Nat)
  called : List (Called n Func Arg)
  completed : List Nat

variable {n : Nat} {Func Arg : Type}

/-- `tpool_init`: every worker is about to enter its loop. -/
def tpool_init (n : Nat) (Func Arg : Type) : State n Func Arg where
  heap := fun _ => none
  queue_head := none
  queue_tail := none
  finish := false
  mlock := none
  workers := fun _ => .lock
  adders := fun _ => .idle
  waiter := .notCalled
  added := []
  ticket := fun _ => 0
  taken := []
  called := []
  completed := []

namespace State

def setWorker (state : State n Func Arg) (i : Fin n) (pc : WorkerPc Func Arg) :
    State n Func Arg :=
  { state with workers := Function.update state.workers i pc }

def setAdder (state : State n Func Arg) (k : Nat) (pc : AddPc Func Arg) :
    State n Func Arg :=
  { state with adders := Function.update state.adders k pc }

def broadcast (state : State n Func Arg) : State n Func Arg :=
  { state with
    workers := fun i =>
      match state.workers i with
      | .asleep => .woken
      | other => other }

/-- Overwrites the `next` field of an allocated cell; a store through a pointer to
no cell is undefined and has no result. -/
def storeNext (heap : Addr → Option (Task Func Arg)) (address : Addr) (next : Option Addr) :
    Option (Addr → Option (Task Func Arg)) :=
  (heap address).map fun task => Function.update heap address (some { task with next })

/-- `job = malloc(sizeof(task))` at the address `job`, with its fields filled in. -/
def allocate (state : State n Func Arg) (job : Addr) (func : Func) (arg : Arg) :
    State n Func Arg :=
  { state with
    heap := Function.update state.heap job (some ⟨func, arg, none⟩)
    added := state.added ++ [⟨func, arg⟩]
    ticket := Function.update state.ticket job state.added.length }

/-- The three-way branch of `tpool_add` that links the new cell `job`. -/
def linkJob (state : State n Func Arg) (job : Addr) : Option (State n Func Arg) :=
  match state.queue_head with
  | none => some { state with queue_head := some job, queue_tail := some job }
  | some head =>
      match state.heap head with
      | none => none
      | some first =>
          if first.next.isSome then
            match state.queue_tail with
            | none => none
            | some tail =>
                (storeNext state.heap tail (some job)).map fun heap =>
                  { state with heap, queue_tail := some job }
          else
            (storeNext state.heap head (some job)).map fun heap =>
              { state with heap, queue_tail := some job }

/-- `job = queue_head; queue_head = queue_head->next` of worker `i`. -/
def dequeueJob (state : State n Func Arg) (i : Fin n) (job : Addr) (task : Task Func Arg) :
    State n Func Arg :=
  { state with
    queue_head := task.next
    taken := state.taken ++ [(i, state.ticket job)] }

def recordCall (state : State n Func Arg) (i : Fin n) (job : Addr) (task : Task Func Arg) :
    State n Func Arg :=
  { state with called := state.called ++ [⟨i, state.ticket job, task.func, task.arg⟩] }

def recordReturn (state : State n Func Arg) (job : Addr) : State n Func Arg :=
  { state with completed := state.completed ++ [state.ticket job] }

def freeJob (state : State n Func Arg) (job : Addr) : State n Func Arg :=
  { state with heap := Function.update state.heap job none }

end State

def AddPc.holds : AddPc Func Arg → Bool
  | .link _ _ | .broadcast | .unlock => true
  | _ => false

def WorkerPc.holds : WorkerPc Func Arg → Bool
  | .test | .wait | .dequeue | .unlockJob _ | .unlockExit => true
  | .run _ add => add.holds
  | _ => false

/-- The worker has decided to exit. -/
def WorkerPc.leaving : WorkerPc Func Arg → Bool
  | .unlockExit | .broadcastExit | .exited => true
  | _ => false

/-- How far a worker has come with the cell it took out of the queue. -/
inductive Stage where
  | taken
  | running
  | ended
deriving DecidableEq

def WorkerPc.stage? : WorkerPc Func Arg → Option (Addr × Stage)
  | .unlockJob job | .call job => some (job, .taken)
  | .run job _ => some (job, .running)
  | .free job => some (job, .ended)
  | _ => none

end SysProg.Pool
