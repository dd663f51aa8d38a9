import SysProg.Transition.Trace
import SysProg.Bulletin.Calls
import SysProg.Bulletin.Reservation

namespace SysProg.Bulletin

/-! # What a server writes to the board and reads from it -/

variable {n : Nat} {Client : Type} {me : Fin n} {junk : Message} {server : Server Client}
  {disk : Disk n} {turn : Turn n Client}

/-- The post that the next system call of a server writes. -/
def ServerControl.posting : ServerControl Client → Option (Slot × Record)
  | .finishing _ msg => (slotOf msg.pos).map fun slot => (slot, msg.rd)
  | _ => none

/-- The board with a post in it. -/
def withPost (post : Option (Slot × Record)) (board : Slot → Record) : Slot → Record :=
  match post with
  | some (slot, rd) => Function.update board slot rd
  | none => board

/-- The board after the next system call of a server. -/
def Server.writes (server : Server Client) (board : Slot → Record) : Slot → Record :=
  match server.control with
  | .restoring => server.bulletinbuf
  | control => withPost control.posting board

/-- The server's copy of the board after its next system call. -/
def Server.reads (server : Server Client) (board : Slot → Record) : Slot → Record :=
  match server.control with
  | .opening | .loading _ => board
  | _ => server.bulletinbuf

@[simp] theorem Disk.write_lock_board (slot : Slot) :
    (disk.write_lock me slot).board = disk.board := by
  unfold Disk.write_lock
  split <;> rfl

@[simp] theorem Disk.unlock_board (slot : Slot) : (disk.unlock me slot).board = disk.board := by
  unfold Disk.unlock
  split <;> rfl

/-- Every system call of a server, as far as the board is concerned. -/
theorem Server.advance_board (advanced : server.advance me junk disk = some turn) :
    turn.disk.board = server.writes disk.board ∧
      turn.server.bulletinbuf = server.reads disk.board := by
  unfold writes reads
  cases advance_called advanced with
  | wrote client msg slot control pos =>
      simp [control, ServerControl.posting, pos, withPost, Disk.write, moveTo]
  | crashed client msg control pos =>
      cases control with
      | inl control => simp [control, ServerControl.posting, pos, withPost, moveTo]
      | inr control => simp [control, ServerControl.posting, withPost, moveTo]
  | opened control | restored control => simp [control, withPost, ServerControl.posting, moveTo]
  | passed _ _ _ control | probed _ _ _ control | refused _ _ _ control | skipped _ _ _ control
  | entered _ _ _ control | ended _ _ _ control | left _ _ _ control | kept _ _ _ control
  | showed _ _ _ control | freed _ _ _ control =>
      simp [control, withPost, ServerControl.posting, moveTo, reserve]
  | found _ _ control | reserved _ _ control | granted _ _ control =>
      simp [control, withPost, ServerControl.posting, moveTo, reserve]
  | loaded _ control => simp [control, withPost, ServerControl.posting]

theorem Server.advance_restoring (advanced : server.advance me junk disk = some turn)
    (restoring : turn.server.control = .restoring) : server.control = .opening := by
  cases advance_called advanced with
  | opened control => exact control
  | _ => cases restoring

theorem Server.advance_posting (advanced : server.advance me junk disk = some turn) :
    turn.server.control.posting = none := by
  cases advance_called advanced <;> rfl

theorem Server.writes_copy {board : Slot → Record}
    (copy : server.control = .restoring → server.bulletinbuf = board) :
    server.writes board = withPost server.control.posting board := by
  unfold Server.writes
  split
  · rename_i restoring
    rw [copy restoring, restoring]
    rfl
  · rfl

variable [DecidableEq Client] {home : Client → Fin n} {state after : State n Client}

/-- A step of the system is one of a client, or a server takes a message, or a server
makes its next system call. -/
inductive Moved (state after : State n Client) : Action n Client → Prop
  | client (client : Client) (move : ClientMove) :
      after.servers = state.servers → after.disk = state.disk →
      Moved state after (.client client move)
  | dispatched (me : Fin n) (client : Client) (receive : Io) :
      (state.servers me).control = .polling →
      after.servers =
        Function.update state.servers me ((state.servers me).dispatch client receive) →
      after.disk = state.disk → Moved state after (.serve me client)
  | advanced (me : Fin n) (junk : Message) (turn : Turn n Client) :
      (state.servers me).advance me junk state.disk = some turn →
      after.servers = Function.update state.servers me turn.server →
      after.disk = turn.disk → Moved state after (.advance me junk)

theorem step_moved {action : Action n Client} (stepped : step home action state = some after) :
    Moved state after action := by
  unfold step at stepped
  cases action with
  | client client move =>
      simp only at stepped
      split at stepped
      · cases stepped
        exact .client client move rfl rfl
      · cases stepped
  | serve me client =>
      simp only at stepped
      split at stepped
      · rename_i enabled
        split at stepped
        · cases stepped
        · rename_i receive rest next
          cases stepped
          exact .dispatched me client receive enabled.2 rfl rfl
      · cases stepped
  | advance me junk =>
      simp only at stepped
      split at stepped
      · cases stepped
      · rename_i turn advanced
        split at stepped
        · cases stepped
          exact .advanced me junk turn advanced rfl rfl
        · cases stepped
          exact .advanced me junk turn advanced (State.apply_servers ..) (State.apply_disk ..)

end SysProg.Bulletin
