import SysProg.Transition.Trace
import SysProg.Bulletin.Calls

namespace SysProg.Bulletin

open SysProg.Transition

/-! # Servers with arbitrary clients

A client may send any message at any time, whatever it has received.  Requests that
are still unread when the server handles an `!exit` are lost with the connection. -/

structure Hub (n : Nat) (Client : Type) where
  servers : Fin n → Server Client
  disk : Disk n
  requests : Client → List Io
  closed : Client → Bool

inductive Event (n : Nat) (Client : Type) where
  | send (client : Client) (io : Io)
  | serve (me : Fin n) (client : Client)
  | advance (me : Fin n) (junk : Message)

/-- History: the client for which a slot is reserved and whose `!finish` has not been
handled, and the slots of which a client has been sent an `!available` and sent no
`!finish` since. -/
structure Grants (n : Nat) (Client : Type) where
  reserved : Fin n → Slot → Option Client
  available : Client → Slot → Bool

variable {n : Nat} {Client : Type} [DecidableEq Client]

namespace Grants

def none : Grants n Client := ⟨fun _ _ => Option.none, fun _ _ => false⟩

def reserve (grants : Grants n Client) (me : Fin n) (slot : Slot) (client : Option Client) :
    Grants n Client :=
  { grants with
    reserved := Function.update grants.reserved me
      (Function.update (grants.reserved me) slot client) }

def offer (grants : Grants n Client) (client : Client) (slot : Slot) (offered : Bool) :
    Grants n Client :=
  { grants with
    available := Function.update grants.available client
      (Function.update (grants.available client) slot offered) }

/-- What a message with a slot in it changes. -/
def mention (grants : Grants n Client) (client : Client) (io : Io) (type : IoType)
    (offered : Bool) : Grants n Client :=
  match slotOf io.buf.pos with
  | some slot => if io.type = type then grants.offer client slot offered else grants
  | Option.none => grants

def apply (grants : Grants n Client) (me : Fin n) (client : Client) (effect : Effect) :
    Grants n Client :=
  match effect with
  | .silent => grants
  | .reply io => grants.mention client io .available true
  | .reserve slot => grants.reserve me slot (some client)
  | .free slot => grants.reserve me slot Option.none

end Grants

namespace Hub

def step (home : Client → Fin n) (event : Event n Client) (hub : Hub n Client) :
    Option (Hub n Client) :=
  match event with
  | .send client io =>
      some { hub with
        requests := Function.update hub.requests client (hub.requests client ++ [io]) }
  | .serve me client =>
      if home client = me ∧ (hub.servers me).control = .polling ∧ hub.closed client = false then
        match hub.requests client with
        | [] => none
        | receive :: rest =>
            some { hub with
              servers := Function.update hub.servers me
                ((hub.servers me).dispatch client receive)
              requests := Function.update hub.requests client rest
              closed :=
                if receive.type = .exit then Function.update hub.closed client true
                else hub.closed }
      else none
  | .advance me junk =>
      match (hub.servers me).advance me junk hub.disk with
      | none => none
      | some turn =>
          some { hub with
            servers := Function.update hub.servers me turn.server, disk := turn.disk }

def note (event : Event n Client) (hub : Hub n Client) (grants : Grants n Client) :
    Grants n Client :=
  match event with
  | .send client io => grants.mention client io .finish false
  | .serve _ _ => grants
  | .advance me junk =>
      match (hub.servers me).advance me junk hub.disk, (hub.servers me).control.serving with
      | some turn, some client => grants.apply me client turn.effect
      | _, _ => grants

def boot (n : Nat) (Client : Type) (board : Slot → Record) : Hub n Client where
  servers := fun _ => Server.boot
  disk := ⟨board, fun _ => none⟩
  requests := fun _ => []
  closed := fun _ => false

def Step (home : Client → Fin n) :
    Traced (Hub n Client) (Grants n Client) → Traced (Hub n Client) (Grants n Client) → Prop :=
  Traced.Step (step home) note

def start (n : Nat) (Client : Type) (board : Slot → Record) :
    Traced (Hub n Client) (Grants n Client) := ⟨boot n Client board, .none⟩

end Hub

end SysProg.Bulletin
