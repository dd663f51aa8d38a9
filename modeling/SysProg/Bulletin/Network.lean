import SysProg.Transition.Steps
import SysProg.Bulletin.Server
import SysProg.Bulletin.Client

namespace SysProg.Bulletin

open Relation SysProg.Transition

/-- `n` servers on one board file and their clients, which run client.c and type
words that fit; each read returns one whole message.  `holding` is history: the
slot that is reserved for a client and whose `!finish` has not been handled. -/
structure State (n : Nat) (Client : Type) where
  servers : Fin n → Server Client
  disk : Disk n
  clients : Client → ClientState
  holding : Client → Option Slot

/-- Who takes the next step: a client, a server whose `poll` has found a message
of a client, or a server inside a handler. -/
inductive Action (n : Nat) (Client : Type) where
  | client (client : Client) (move : ClientMove)
  | serve (me : Fin n) (client : Client)
  | advance (me : Fin n) (junk : Message)

variable {n : Nat} {Client : Type} [DecidableEq Client]

namespace State

def setServer (state : State n Client) (me : Fin n) (server : Server Client) : State n Client :=
  { state with servers := Function.update state.servers me server }

def setClient (state : State n Client) (client : Client) (now : ClientState) :
    State n Client :=
  { state with clients := Function.update state.clients client now }

def setHolding (state : State n Client) (client : Client) (slot : Option Slot) : State n Client :=
  { state with holding := Function.update state.holding client slot }

/-- The effect of a system call made for `client`. -/
def apply (client : Client) (effect : Effect) (state : State n Client) : State n Client :=
  match effect with
  | .silent => state
  | .reply io =>
      state.setClient client
        { state.clients client with replies := (state.clients client).replies ++ [io] }
  | .reserve slot => state.setHolding client (some slot)
  | .free _ => state.setHolding client none

end State

/-- One step of the whole system; `home` says which server a client connects to. -/
def step (home : Client → Fin n) (action : Action n Client) (state : State n Client) :
    Option (State n Client) :=
  match action with
  | .client client move =>
      match (state.clients client).move move with
      | some now => some (state.setClient client now)
      | none => none
  | .serve me client =>
      if home client = me ∧ (state.servers me).control = .polling then
        match (state.clients client).requests with
        | [] => none
        | receive :: rest =>
            some ((state.setServer me ((state.servers me).dispatch client receive)).setClient
              client { state.clients client with requests := rest })
      else none
  | .advance me junk =>
      match (state.servers me).advance me junk state.disk with
      | none => none
      | some turn =>
          let after := { state.setServer me turn.server with disk := turn.disk }
          match (state.servers me).control.serving with
          | none => some after
          | some client => some (after.apply client turn.effect)

/-- All servers and clients before their start, on a board of any content. -/
def boot (n : Nat) (Client : Type) (board : Slot → Record) : State n Client where
  servers := fun _ => Server.boot
  disk := ⟨board, fun _ => none⟩
  clients := fun _ => ClientState.start
  holding := fun _ => none

def Step (home : Client → Fin n) (before after : State n Client) : Prop :=
  ∃ action, step home action before = some after

def Reachable (home : Client → Fin n) (board : Slot → Record) (state : State n Client) : Prop :=
  ReflTransGen (Step home) (boot n Client board) state

/-- The run that takes `actions` in order, as long as its steps meet `allowed`. -/
def run (allowed : State n Client → State n Client → Bool) (home : Client → Fin n) :
    List (Action n Client) → State n Client → Option (State n Client)
  | [], state => some state
  | action :: rest, state =>
      match step home action state with
      | some after => if allowed state after then run allowed home rest after else none
      | none => none

theorem run_steps {allowed : State n Client → State n Client → Bool} {home : Client → Fin n}
    {actions : List (Action n Client)} {first last : State n Client}
    (ran : run allowed home actions first = some last) :
    ReflTransGen (Restrict (Step home) fun before after => allowed before after = true) first
      last := by
  induction actions generalizing first with
  | nil =>
      cases ran
      exact .refl
  | cons action rest ih =>
      simp only [run] at ran
      split at ran
      · rename_i after stepped
        split at ran
        · rename_i meets
          exact (ReflTransGen.single ⟨⟨action, stepped⟩, meets⟩).trans (ih ran)
        · cases ran
      · cases ran

end SysProg.Bulletin
