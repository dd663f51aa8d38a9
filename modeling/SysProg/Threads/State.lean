import Mathlib.Logic.Function.Basic

namespace SysProg.Threads

/-! # The user-level threads of HW3

The state holds the globals of main.c and scheduler.c, the heap of thread control
blocks and what has been printed.  `control` says where the one kernel thread
stands; `exited` and `acquisitions` are history that no step reads. -/

def THREAD_MAX : Nat := 16

/-- The address of a `struct tcb`; no block is ever allocated at 0. -/
abbrev Ptr := Nat

/-- An `int` result of the exact value `value`. -/
def int32 (value : Int) : Int := value.bmod 4294967296

inductive Func where
  | fibonacci
  | factorial
  | bank_operation
deriving DecidableEq, Repr

/-- The `setjmp` calls that fill a `jmp_buf` of a thread: the one in
`thread_setup`, the `thread_yield` of the two loops and the two of
`bank_operation`. -/
inductive Environment where
  | setup (func : Func)
  | fibonacciYield
  | factorialYield
  | acquired
  | updated
deriving DecidableEq, Repr

def Environment.func : Environment → Func
  | .setup func => func
  | .fibonacciYield => .fibonacci
  | .factorialYield => .factorial
  | .acquired | .updated => .bank_operation

structure Tcb where
  id : Int
  environment : Environment
  arg : Int
  i : Int
  x : Int
  y : Int
deriving Repr

inductive Signal where
  | SIGTSTP
  | SIGALRM
deriving DecidableEq, Repr

inductive Line where
  | setup (id : Int) (func : Func)
  | value (id : Int) (y : Int)
  | acquired (id : Int)
  | transaction (id : Int) (before after : Int)
  | released (id : Int)
  | caught (signal : Signal)
deriving DecidableEq, Repr

/-- An access the C program must not make. -/
inductive Fault where
  | index
  | pointer
deriving DecidableEq, Repr

/-- Where control stands: in the running thread behind the `setjmp` of
`environment`, at a `thread_yield` that has saved it, at the entry of
`scheduler` with the value `val` of `setjmp(sched_buf)`, back in
`start_threading`, or past an access out of bounds. -/
inductive Control where
  | running (environment : Environment)
  | yielding (environment : Environment)
  | scheduling (val : Nat)
  | finished
  | crashed (fault : Fault)
deriving DecidableEq, Repr

/-- A `struct tcb *` array of THREAD_MAX entries. -/
abbrev Queue := Vector Ptr THREAD_MAX

structure State where
  tcbs : Ptr → Option Tcb
  ready_queue : Queue
  waiting_queue : Queue
  rq_size : Nat
  rq_current : Nat
  wq_size : Nat
  balance : Int
  lock_owner : Int
  out : List Line
  control : Control
  exited : List Ptr
  acquisitions : List Int

namespace State

def print (state : State) (line : Line) : State :=
  { state with out := state.out ++ [line] }

def setTcb (state : State) (ptr : Ptr) (tcb : Tcb) : State :=
  { state with tcbs := Function.update state.tcbs ptr (some tcb) }

/-- `ready_queue[0..rq_size)`. -/
def ready (state : State) : List Ptr :=
  state.ready_queue.toList.take state.rq_size

/-- `waiting_queue[0..wq_size)`. -/
def waiting (state : State) : List Ptr :=
  state.waiting_queue.toList.take state.wq_size

end State

def load (queue : Queue) (i : Nat) : Except Fault Ptr :=
  match queue[i]? with
  | some ptr => .ok ptr
  | none => .error .index

def store (queue : Queue) (i : Nat) (ptr : Ptr) : Except Fault Queue :=
  if bound : i < THREAD_MAX then .ok (queue.set i ptr bound) else .error .index

def deref (state : State) (ptr : Ptr) : Except Fault Tcb :=
  match state.tcbs ptr with
  | some tcb => .ok tcb
  | none => .error .pointer

/-- The macro `RUNNING` and the block it points to. -/
def RUNNING (state : State) : Except Fault (Ptr × Tcb) := do
  let ptr ← load state.ready_queue state.rq_current
  let tcb ← deref state ptr
  return (ptr, tcb)

end SysProg.Threads
