import SysProg.Bulletin.State

namespace SysProg.Bulletin

inductive ServerLine where
  | warning (num_locked : Nat)
  | log (rd : Record)
deriving DecidableEq, Repr

/-- Where a server stands between two of its system calls.

`opening` and `restoring` read the whole board and write it back before the loop.
Behind `poll` a handler works for one client: `probing` and `probed` are the loop
of `find_available`, `reserving` and `granting` the rest of the `!post` branch;
`loading` to `showing` are the `!pull` branch; `finishing` and `unlocking` the
`!finish` branch.  `crashed` is past an index out of bounds, that of a `!finish` whose `pos` no slot
has: server.c has written the record where `pos` says and goes on behind the store to `locked`, the
model stops. -/
inductive ServerControl (Client : Type) where
  | opening
  | restoring
  | polling
  | probing (client : Client) (index : Slot) (i : Nat)
  | probed (client : Client) (index : Slot)
  | reserving (client : Client) (tmp : Slot)
  | granting (client : Client) (tmp : Slot)
  | loading (client : Client)
  | scanning (client : Client) (i : Nat) (num_locked : Nat)
  | seen (client : Client) (i : Slot) (num_locked : Nat)
  | showing (client : Client) (i : Slot) (num_locked : Nat)
  | finishing (client : Client) (msg : Message)
  | unlocking (client : Client) (msg : Message)
  | crashed
deriving DecidableEq, Repr

structure Server (Client : Type) where
  locked : Slot → Bool
  last : Slot
  bulletinbuf : Slot → Record
  control : ServerControl Client
  out : List ServerLine

/-- What a system call of a server does outside it: the message it writes to the
connection it serves, and whether it changes a reservation. -/
inductive Effect where
  | silent
  | reply (io : Io)
  | reserve (slot : Slot)
  | free (slot : Slot)
deriving DecidableEq, Repr

structure Turn (n : Nat) (Client : Type) where
  server : Server Client
  disk : Disk n
  effect : Effect

variable {n : Nat} {Client : Type}

namespace Server

def moveTo (server : Server Client) (control : ServerControl Client) : Server Client :=
  { server with control }

def reserve (server : Server Client) (slot : Slot) (reserved : Bool) : Server Client :=
  { server with locked := Function.update server.locked slot reserved }

/-- The global variables when `main` starts. -/
def boot : Server Client where
  locked := fun _ => false
  last := ⟨RECORD_NUM - 1, by decide⟩
  bulletinbuf := fun _ => Record.zero
  control := .opening
  out := []

/-- The request loop after `read`: which branch takes the message.  The `!exit`
branch closes the connection. -/
def dispatch (client : Client) (receive : Io) (server : Server Client) : Server Client :=
  match receive.type with
  | .post => server.moveTo (.probing client (server.last + 1) 0)
  | .exit => server
  | .pull => server.moveTo (.loading client)
  | .finish => server.moveTo (.finishing client receive.buf)
  | _ => server

/-- The loop of `find_available` in round `i`, up to the lock of its probe.  When
the rounds are over the client is sent `!full`. -/
def probe (me : Fin n) (junk : Message) (client : Client) (index : Slot) (i : Nat)
    (server : Server Client) (disk : Disk n) : Turn n Client :=
  if i < RECORD_NUM then
    if server.locked index then
      { server := server.moveTo (.probing client (index + 1) (i + 1)), disk, effect := .silent }
    else if disk.lockable me index then
      { server := server.moveTo (.probed client index)
        disk := disk.write_lock me index, effect := .silent }
    else
      { server := server.moveTo (.probing client (index + 1) (i + 1)), disk, effect := .silent }
  else { server := server.moveTo .polling, disk, effect := .reply ⟨.full, junk⟩ }

/-- The loop of the `!pull` branch in round `i`, up to the lock of its probe.
When the rounds are over the client is sent `!end`. -/
def scan (me : Fin n) (junk : Message) (client : Client) (i num_locked : Nat)
    (server : Server Client) (disk : Disk n) : Turn n Client :=
  if inside : i < RECORD_NUM then
    if server.locked ⟨i, inside⟩ ∨ ¬ disk.lockable me ⟨i, inside⟩ then
      { server := server.moveTo (.scanning client (i + 1) (num_locked + 1)), disk
        effect := .silent }
    else
      { server := server.moveTo (.seen client ⟨i, inside⟩ num_locked)
        disk := disk.write_lock me ⟨i, inside⟩, effect := .silent }
  else
    { server := { server.moveTo .polling with
        out := if num_locked > 0 then server.out ++ [.warning num_locked] else server.out }
      disk, effect := .reply ⟨.end, junk⟩ }

/-- The next system call of the server `me` inside a handler or before the loop,
with the computation up to the one after it.  `junk` is what an `io` holds where
the code has not written. -/
def advance (me : Fin n) (junk : Message) (server : Server Client) (disk : Disk n) :
    Option (Turn n Client) :=
  match server.control with
  | .opening =>
      some { server := { server.moveTo .restoring with bulletinbuf := disk.board }, disk
             effect := .silent }
  | .restoring =>
      some { server := server.moveTo .polling
             disk := { disk with board := server.bulletinbuf }, effect := .silent }
  | .polling => none
  | .probing client index i => some (probe me junk client index i server disk)
  | .probed client index =>
      some { server := server.moveTo (.reserving client index)
             disk := disk.unlock me index, effect := .silent }
  -- the result of this `write_lock` is not looked at
  | .reserving client tmp =>
      some { server := (server.reserve tmp true).moveTo (.granting client tmp)
             disk := disk.write_lock me tmp, effect := .reserve tmp }
  | .granting _ tmp =>
      some { server := { server.moveTo .polling with last := tmp }, disk
             effect := .reply ⟨.available, { junk with pos := tmp }⟩ }
  | .loading client =>
      some { server := { server.moveTo (.scanning client 0 0) with bulletinbuf := disk.board }
             disk, effect := .silent }
  | .scanning client i num_locked => some (scan me junk client i num_locked server disk)
  | .seen client i num_locked =>
      some { server := server.moveTo
               (if (server.bulletinbuf i).empty then .scanning client (i + 1) num_locked
                else .showing client i num_locked)
             disk := disk.unlock me i, effect := .silent }
  | .showing client i num_locked =>
      some { server := server.moveTo (.scanning client (i + 1) num_locked), disk
             effect := .reply ⟨.record, { junk with rd := server.bulletinbuf i }⟩ }
  | .finishing client msg =>
      match slotOf msg.pos with
      | some slot =>
          some { server := server.moveTo (.unlocking client msg)
                 disk := disk.write slot msg.rd, effect := .silent }
      | none => some { server := server.moveTo .crashed, disk, effect := .silent }
  | .unlocking _ msg =>
      match slotOf msg.pos with
      | some slot =>
          some { server := { (server.reserve slot false).moveTo .polling with
                   out := server.out ++ [.log msg.rd] }
                 disk := disk.unlock me slot, effect := .free slot }
      | none => some { server := server.moveTo .crashed, disk, effect := .silent }
  | .crashed => none

end Server

/-- The client a server works for, from `read` to the end of its handler. -/
def ServerControl.serving : ServerControl Client → Option Client
  | .probing client _ _ | .probed client _ | .reserving client _ | .granting client _
  | .loading client | .scanning client _ _ | .seen client _ _ | .showing client _ _
  | .finishing client _ | .unlocking client _ => some client
  | .opening | .restoring | .polling | .crashed => none

end SysProg.Bulletin
