import SysProg.Bulletin.Framing
import SysProg.Bulletin.Network
import SysProg.Data.Records

namespace SysProg.Bulletin

open Relation SysProg.Data SysProg.Transition

/-! # The file behind the board

A server reads and writes the board as bytes, and locks ranges of bytes. -/

def sizeof_record : Nat := FROM_LEN + CONTENT_LEN

def sizeof_board : Nat := RECORD_NUM * sizeof_record

/-- The bytes of the file and which server holds the write lock on each of them. -/
structure File (n : Nat) where
  content : Bytes
  owner : Nat → Option (Fin n)

def Record.bytes (rd : Record) : Bytes := rd.From.toList ++ rd.Content.toList

/-- The record in a file or a buffer. -/
def recordAt (offset : Nat) (content : Bytes) : Record where
  From := field content offset FROM_LEN
  Content := field content (offset + FROM_LEN) CONTENT_LEN

def boardOf (content : Bytes) (slot : Slot) : Record := recordAt (slot * sizeof_record) content

variable {n : Nat} {Client : Type}

namespace File

def disk (file : File n) : Disk n where
  board := boardOf file.content
  owner := fun slot => file.owner (slot * sizeof_record)

/-- `fcntl` with `F_SETLK` on the bytes of a slot. -/
def lockable (me : Fin n) (slot : Slot) (file : File n) : Bool :=
  mayLock me (slot * sizeof_record) sizeof_record file.owner

def write_lock (me : Fin n) (slot : Slot) (file : File n) : File n :=
  if file.lockable me slot then
    { file with owner := lockRange me (slot * sizeof_record) sizeof_record file.owner }
  else file

def unlock (me : Fin n) (slot : Slot) (file : File n) : File n :=
  { file with owner := unlockRange me (slot * sizeof_record) sizeof_record file.owner }

/-- `unlock` with a `pos` that no slot has; `fcntl` refuses a negative one. -/
def unlockOutside (me : Fin n) (pos : Int) (file : File n) : File n :=
  if 0 ≤ pos then
    { file with owner := unlockRange me (pos.toNat * sizeof_record) sizeof_record file.owner }
  else file

/-- `write` at an offset. -/
def write (offset : Nat) (bytes : Bytes) (file : File n) : File n :=
  { file with content := writeAt 0 offset bytes file.content }

end File

/-- A server with `bulletinbuf` as bytes and the file offset of `bulletin_fd`. -/
structure FileServer (Client : Type) where
  locked : Slot → Bool
  last : Slot
  bulletinbuf : Bytes
  offset : Nat
  control : ServerControl Client
  out : List ServerLine

structure FileTurn (n : Nat) (Client : Type) where
  server : FileServer Client
  file : File n
  effect : Effect

namespace FileServer

/-- The server whose `bulletinbuf` holds the records. -/
def server (server : FileServer Client) : Server Client where
  locked := server.locked
  last := server.last
  bulletinbuf := boardOf server.bulletinbuf
  control := server.control
  out := server.out

def moveTo (server : FileServer Client) (control : ServerControl Client) : FileServer Client :=
  { server with control }

def reserve (server : FileServer Client) (slot : Slot) (reserved : Bool) : FileServer Client :=
  { server with locked := Function.update server.locked slot reserved }

/-- `bulletinbuf` is cleared when it is allocated. -/
def boot : FileServer Client where
  locked := fun _ => false
  last := Fin.ofNat RECORD_NUM (RECORD_NUM - 1)
  bulletinbuf := List.replicate sizeof_board 0
  offset := 0
  control := .opening
  out := []

/-- `lseek` to the record `pos`, which is refused for a negative one. -/
def lseek (pos : Int) (server : FileServer Client) : Nat :=
  if 0 ≤ pos then pos.toNat * sizeof_record else server.offset

/-- `lseek` to the start and `read` of the whole board. -/
def readBoard (file : File n) (server : FileServer Client) : FileServer Client :=
  { server with
    bulletinbuf := readInto file.content server.bulletinbuf
    offset := min file.content.length server.bulletinbuf.length }

def dispatch (client : Client) (receive : Io) (server : FileServer Client) : FileServer Client :=
  match receive.type with
  | .post => server.moveTo (.probing client (server.last + 1) 0)
  | .exit => server
  | .pull => server.moveTo (.loading client)
  | .finish => server.moveTo (.finishing client receive.buf)
  | _ => server

def probe (me : Fin n) (junk : Message) (client : Client) (index : Slot) (i : Nat)
    (server : FileServer Client) (file : File n) : FileTurn n Client :=
  if i < RECORD_NUM then
    if server.locked index then
      { server := server.moveTo (.probing client (index + 1) (i + 1)), file, effect := .silent }
    else if file.lockable me index then
      { server := server.moveTo (.probed client index)
        file := file.write_lock me index, effect := .silent }
    else
      { server := server.moveTo (.probing client (index + 1) (i + 1)), file, effect := .silent }
  else { server := server.moveTo .polling, file, effect := .reply ⟨.full, junk⟩ }

def scan (me : Fin n) (junk : Message) (client : Client) (i num_locked : Nat)
    (server : FileServer Client) (file : File n) : FileTurn n Client :=
  if inside : i < RECORD_NUM then
    if server.locked ⟨i, inside⟩ ∨ ¬ file.lockable me ⟨i, inside⟩ then
      { server := server.moveTo (.scanning client (i + 1) (num_locked + 1)), file
        effect := .silent }
    else
      { server := server.moveTo (.seen client ⟨i, inside⟩ num_locked)
        file := file.write_lock me ⟨i, inside⟩, effect := .silent }
  else
    { server := { server.moveTo .polling with
        out := if num_locked > 0 then server.out ++ [.warning num_locked] else server.out }
      file, effect := .reply ⟨.end, junk⟩ }

/-- `Server.advance` with the calls on the file as they are made.  The record of a `!finish` is
written wherever its `pos` says; `locked[msg.pos]` is out of bounds only afterwards. -/
def advance (me : Fin n) (junk : Message) (server : FileServer Client) (file : File n) :
    Option (FileTurn n Client) :=
  match server.control with
  | .opening =>
      some { server := (server.readBoard file).moveTo .restoring, file, effect := .silent }
  | .restoring =>
      some { server := { server.moveTo .polling with offset := server.bulletinbuf.length }
             file := file.write 0 server.bulletinbuf, effect := .silent }
  | .polling => none
  | .probing client index i => some (probe me junk client index i server file)
  | .probed client index =>
      some { server := server.moveTo (.reserving client index)
             file := file.unlock me index, effect := .silent }
  | .reserving client tmp =>
      some { server := (server.reserve tmp true).moveTo (.granting client tmp)
             file := file.write_lock me tmp, effect := .reserve tmp }
  | .granting _ tmp =>
      some { server := { server.moveTo .polling with last := tmp }, file
             effect := .reply ⟨.available, { junk with pos := tmp }⟩ }
  | .loading client =>
      some { server := (server.readBoard file).moveTo (.scanning client 0 0), file, effect := .silent }
  | .scanning client i num_locked => some (scan me junk client i num_locked server file)
  | .seen client i num_locked =>
      some { server := server.moveTo
               (if (boardOf server.bulletinbuf i).empty then .scanning client (i + 1) num_locked
                else .showing client i num_locked)
             file := file.unlock me i, effect := .silent }
  | .showing client i num_locked =>
      some { server := server.moveTo (.scanning client (i + 1) num_locked), file
             effect := .reply ⟨.record, { junk with rd := boardOf server.bulletinbuf i }⟩ }
  | .finishing client msg =>
      some { server := { server.moveTo (.unlocking client msg) with
               offset := server.lseek msg.pos + sizeof_record }
             file := file.write (server.lseek msg.pos) msg.rd.bytes, effect := .silent }
  | .unlocking _ msg =>
      match slotOf msg.pos with
      | some slot =>
          some { server := { (server.reserve slot false).moveTo .polling with
                   out := server.out ++ [.log msg.rd] }
                 file := file.unlock me slot, effect := .free slot }
      | none =>
          some { server := server.moveTo .crashed, file := file.unlockOutside me msg.pos
                 effect := .silent }
  | .crashed => none

end FileServer

def FileTurn.turn (turn : FileTurn n Client) : Turn n Client :=
  ⟨turn.server.server, turn.file.disk, turn.effect⟩

/-- Servers on one file and their clients. -/
structure Files (n : Nat) (Client : Type) where
  servers : Fin n → FileServer Client
  file : File n
  clients : Client → ClientState
  holding : Client → Option Slot

namespace Files

/-- What the bytes stand for. -/
def state (files : Files n Client) : State n Client where
  servers := fun me => (files.servers me).server
  disk := files.file.disk
  clients := files.clients
  holding := files.holding

variable [DecidableEq Client]

def setServer (files : Files n Client) (me : Fin n) (server : FileServer Client) : Files n Client :=
  { files with servers := Function.update files.servers me server }

def setClient (files : Files n Client) (client : Client) (now : ClientState) : Files n Client :=
  { files with clients := Function.update files.clients client now }

def setHolding (files : Files n Client) (client : Client) (slot : Option Slot) : Files n Client :=
  { files with holding := Function.update files.holding client slot }

def apply (client : Client) (effect : Effect) (files : Files n Client) : Files n Client :=
  match effect with
  | .silent => files
  | .reply io =>
      files.setClient client
        { files.clients client with replies := (files.clients client).replies ++ [io] }
  | .reserve slot => files.setHolding client (some slot)
  | .free _ => files.setHolding client none

def step (home : Client → Fin n) (action : Action n Client) (files : Files n Client) :
    Option (Files n Client) :=
  match action with
  | .client client move =>
      match (files.clients client).move move with
      | some now => some (files.setClient client now)
      | none => none
  | .serve me client =>
      if home client = me ∧ (files.servers me).control = .polling then
        match (files.clients client).requests with
        | [] => none
        | receive :: rest =>
            some ((files.setServer me ((files.servers me).dispatch client receive)).setClient
              client { files.clients client with requests := rest })
      else none
  | .advance me junk =>
      match (files.servers me).advance me junk files.file with
      | none => none
      | some turn =>
          let after := { files.setServer me turn.server with file := turn.file }
          match (files.servers me).control.serving with
          | none => some after
          | some client => some (after.apply client turn.effect)

/-- Before the start of all servers, on a file of any bytes. -/
def boot (n : Nat) (Client : Type) (content : Bytes) : Files n Client where
  servers := fun _ => .boot
  file := ⟨content, fun _ => none⟩
  clients := fun _ => .start
  holding := fun _ => none

def Step (home : Client → Fin n) (before after : Files n Client) : Prop :=
  ∃ action, step home action before = some after

def Reachable (home : Client → Fin n) (content : Bytes) (files : Files n Client) : Prop :=
  ReflTransGen (Step home) (boot n Client content) files

theorem run_steps {home : Client → Fin n} {actions : List (Action n Client)} {first last : Files n Client}
    (ran : actions.foldlM (fun files action => step home action files) first = some last) :
    ReflTransGen (Step home) first last :=
  (run_iff_moves fun _ _ => Iff.rfl).mpr ⟨actions, ran⟩

end Files

end SysProg.Bulletin
