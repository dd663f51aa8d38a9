import SysProg.Transition.Signals
import SysProg.Transition.Trace
import SysProg.Threads.Body

namespace SysProg.Threads

open SysProg.Transition

/-! # The process that runs the threads

`next` takes a signal at a yield as given.  Here the process is modelled down to its
system calls: `init_signal`, the three masks of `thread_yield`, the entry of `sighandler`
whenever the kernel delivers a signal, `alarm` and the `longjmp` to `sched_buf`.  A handler
installed with `signal` stays installed and runs with its own signal blocked; `longjmp`
restores no mask. -/

def base_mask : Finset Signal := {.SIGTSTP, .SIGALRM}

def tstp_mask : Finset Signal := {.SIGTSTP}

def alrm_mask : Finset Signal := {.SIGALRM}

/-- The masks that `thread_yield` sets one after another. -/
inductive Window where
  | alrm
  | tstp
  | base
deriving DecidableEq, Repr

def Window.mask : Window → Finset Signal
  | .alrm => alrm_mask
  | .tstp => tstp_mask
  | .base => base_mask

/-- Where the process stands: in `init_signal` with `left` still to install, before
`init_threads`, before `alarm(timeslice)`, before `setjmp(sched_buf)`, in the threads or the
scheduler as `control` says, inside or behind the `sigprocmask` of a window, or in
`sighandler` before its `printf`, its `alarm` or its `longjmp`.  `wild` is a jump through a
`sched_buf` that was never filled, `killed` the default action of SIGALRM. -/
inductive Point where
  | installing (left : List Signal)
  | creating
  | arming
  | entering
  | program
  | setting (window : Window)
  | opened (window : Window)
  | handling (signal : Signal)
  | rearming
  | leaving
  | wild
  | killed
deriving DecidableEq, Repr

/-- `alarm` holds the seconds left of the timer that is set, if any. -/
structure Machine where
  program : State
  point : Point
  signals : Signals Signal
  alarm : Option Nat
  sched_buf : Bool

namespace Machine

/-- The timer of `alarm(seconds)`; zero cancels it. -/
def alarmOf : Nat → Option Nat
  | 0 => none
  | seconds + 1 => some (seconds + 1)

def sigprocmask (window : Window) (machine : Machine) : Machine :=
  { machine with point := .setting window, signals := machine.signals.setMask window.mask }

def raise (signal : Signal) (machine : Machine) : Machine :=
  { machine with signals := machine.signals.raise signal }

/-- A second passes. -/
def tick (machine : Machine) : Machine :=
  match machine.alarm with
  | none => machine
  | some 1 => { machine.raise .SIGALRM with alarm := none }
  | some seconds => { machine with alarm := some (seconds - 1) }

/-- The default action, before `sighandler` is installed: SIGALRM kills the process;
SIGTSTP stops it, and once continued it goes on where it stood. -/
def defaultAction (signal : Signal) (machine : Machine) : Machine :=
  let machine := { machine with signals := machine.signals.drop signal }
  match signal with
  | .SIGALRM => { machine with point := .killed }
  | .SIGTSTP => machine

def enterHandler (signal : Signal) (machine : Machine) : Machine :=
  { machine with point := .handling signal, signals := machine.signals.enter signal }

def deliver (signal : Signal) (machine : Machine) : Option Machine :=
  if machine.signals.Deliverable signal then
    match machine.point with
    | .wild | .killed => none
    | .installing left =>
        if signal ∈ left then some (machine.defaultAction signal)
        else some (machine.enterHandler signal)
    | _ => some (machine.enterHandler signal)
  else none

/-- The next step of the process itself.  `sigprocmask` does not return while a signal it
has let through is pending. -/
def proceed (specs : List Spec) (timeslice : Nat) (machine : Machine) : Option Machine :=
  match machine.point with
  | .installing (_ :: left) => some { machine with point := .installing left }
  | .installing [] => some { machine with
      point := .creating
      signals := machine.signals.setMask base_mask }
  | .creating => some { machine with point := .arming, program := start specs }
  | .arming => some { machine with point := .entering, alarm := alarmOf timeslice }
  | .entering => some { machine with point := .program, sched_buf := true }
  | .program =>
      match machine.program.control with
      | .yielding _ => some (machine.sigprocmask .alrm)
      | _ => some { machine with program := next none machine.program }
  | .setting window =>
      if machine.signals.pending ⊆ machine.signals.mask then
        some { machine with point := .opened window }
      else none
  | .opened .alrm => some (machine.sigprocmask .tstp)
  | .opened .tstp => some (machine.sigprocmask .base)
  | .opened .base => some { machine with
      point := .program
      program := next none machine.program }
  | .handling signal => some { machine with
      program := machine.program.print (.caught signal)
      point := if signal = .SIGALRM then .rearming else .leaving }
  | .rearming => some { machine with point := .leaving, alarm := alarmOf timeslice }
  | .leaving =>
      if machine.sched_buf then some { machine with
        point := .program
        program := { machine.program with control := .scheduling 1 } }
      else some { machine with point := .wild }
  | .wild | .killed => none

end Machine

/-- What may happen next. -/
inductive Event where
  | raise (signal : Signal)
  | tick
  | deliver (signal : Signal)
  | proceed
deriving DecidableEq, Repr

namespace Machine

def step (specs : List Spec) (timeslice : Nat) (event : Event) (machine : Machine) :
    Option Machine :=
  match event with
  | .raise signal => some (machine.raise signal)
  | .tick => some machine.tick
  | .deliver signal => machine.deliver signal
  | .proceed => machine.proceed specs timeslice

/-- The process at the entry of `init_signal`. -/
def boot : Machine where
  program := globals
  point := .installing [.SIGTSTP, .SIGALRM]
  signals := ⟨∅, ∅⟩
  alarm := none
  sched_buf := false

def Step (specs : List Spec) (timeslice : Nat) (before after : Machine) : Prop :=
  ∃ event, before.step specs timeslice event = some after

def Reached (specs : List Spec) (timeslice : Nat) (machine : Machine) : Prop :=
  Relation.ReflTransGen (Step specs timeslice) boot machine

/-- The state of the threads that the process stands for: behind its `printf` the handler
has as good as jumped to the scheduler. -/
def view (specs : List Spec) (machine : Machine) : State :=
  if machine.sched_buf then
    match machine.point with
    | .rearming | .leaving => { machine.program with control := .scheduling 1 }
    | _ => machine.program
  else start specs

end Machine

end SysProg.Threads
