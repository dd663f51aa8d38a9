import SysProg.Bulletin.Server

namespace SysProg.Bulletin

/-! # The system calls of a server

`Called` lists every way `Server.advance` can go, with the condition of each
branch; what holds of all system calls is proved by cases on it. -/

variable {n : Nat} {Client : Type} {me : Fin n} {junk : Message} {server : Server Client}
  {disk : Disk n} {turn : Turn n Client}

inductive Called (me : Fin n) (junk : Message) (server : Server Client) (disk : Disk n) :
    Turn n Client → Prop
  | opened : server.control = .opening →
      Called me junk server disk
        ⟨{ server.moveTo .restoring with bulletinbuf := disk.board }, disk, .silent⟩
  | restored : server.control = .restoring →
      Called me junk server disk
        ⟨server.moveTo .polling, { disk with board := server.bulletinbuf }, .silent⟩
  | passed (client : Client) (index : Slot) (i : Nat) : server.control = .probing client index i →
      i < RECORD_NUM → server.locked index = true ∨ disk.lockable me index = false →
      Called me junk server disk
        ⟨server.moveTo (.probing client (index + 1) (i + 1)), disk, .silent⟩
  | probed (client : Client) (index : Slot) (i : Nat) : server.control = .probing client index i →
      server.locked index = false → disk.lockable me index = true →
      Called me junk server disk
        ⟨server.moveTo (.probed client index), disk.write_lock me index, .silent⟩
  | refused (client : Client) (index : Slot) (i : Nat) :
      server.control = .probing client index i → RECORD_NUM ≤ i →
      Called me junk server disk ⟨server.moveTo .polling, disk, .reply ⟨.full, junk⟩⟩
  | found (client : Client) (index : Slot) : server.control = .probed client index →
      Called me junk server disk
        ⟨server.moveTo (.reserving client index), disk.unlock me index, .silent⟩
  | reserved (client : Client) (tmp : Slot) : server.control = .reserving client tmp →
      Called me junk server disk
        ⟨(server.reserve tmp true).moveTo (.granting client tmp), disk.write_lock me tmp,
          .reserve tmp⟩
  | granted (client : Client) (tmp : Slot) : server.control = .granting client tmp →
      Called me junk server disk
        ⟨{ server.moveTo .polling with last := tmp }, disk,
          .reply ⟨.available, { junk with pos := tmp }⟩⟩
  | loaded (client : Client) : server.control = .loading client →
      Called me junk server disk
        ⟨{ server.moveTo (.scanning client 0 0) with bulletinbuf := disk.board }, disk, .silent⟩
  | skipped (client : Client) (i : Slot) (num_locked : Nat) :
      server.control = .scanning client i num_locked →
      server.locked i = true ∨ disk.lockable me i = false →
      Called me junk server disk
        ⟨server.moveTo (.scanning client (i + 1) (num_locked + 1)), disk, .silent⟩
  | entered (client : Client) (i : Slot) (num_locked : Nat) :
      server.control = .scanning client i num_locked →
      server.locked i = false → disk.lockable me i = true →
      Called me junk server disk
        ⟨server.moveTo (.seen client i num_locked), disk.write_lock me i, .silent⟩
  | ended (client : Client) (i num_locked : Nat) :
      server.control = .scanning client i num_locked → RECORD_NUM ≤ i →
      Called me junk server disk
        ⟨{ server.moveTo .polling with
            out := if num_locked > 0 then server.out ++ [.warning num_locked] else server.out },
          disk, .reply ⟨.end, junk⟩⟩
  | left (client : Client) (i : Slot) (num_locked : Nat) :
      server.control = .seen client i num_locked → (server.bulletinbuf i).empty = true →
      Called me junk server disk
        ⟨server.moveTo (.scanning client (i + 1) num_locked), disk.unlock me i, .silent⟩
  | kept (client : Client) (i : Slot) (num_locked : Nat) :
      server.control = .seen client i num_locked → (server.bulletinbuf i).empty = false →
      Called me junk server disk
        ⟨server.moveTo (.showing client i num_locked), disk.unlock me i, .silent⟩
  | showed (client : Client) (i : Slot) (num_locked : Nat) :
      server.control = .showing client i num_locked →
      Called me junk server disk
        ⟨server.moveTo (.scanning client (i + 1) num_locked), disk,
          .reply ⟨.record, { junk with rd := server.bulletinbuf i }⟩⟩
  | wrote (client : Client) (msg : Message) (slot : Slot) :
      server.control = .finishing client msg → slotOf msg.pos = some slot →
      Called me junk server disk
        ⟨server.moveTo (.unlocking client msg), disk.write slot msg.rd, .silent⟩
  | freed (client : Client) (msg : Message) (slot : Slot) :
      server.control = .unlocking client msg → slotOf msg.pos = some slot →
      Called me junk server disk
        ⟨{ (server.reserve slot false).moveTo .polling with out := server.out ++ [.log msg.rd] },
          disk.unlock me slot, .free slot⟩
  | crashed (client : Client) (msg : Message) :
      server.control = .finishing client msg ∨ server.control = .unlocking client msg →
      slotOf msg.pos = none →
      Called me junk server disk ⟨server.moveTo .crashed, disk, .silent⟩

namespace Server

theorem probe_called {client : Client} {index : Slot} {i : Nat}
    (control : server.control = .probing client index i) :
    Called me junk server disk (probe me junk client index i server disk) := by
  unfold probe
  by_cases inside : i < RECORD_NUM
  · rw [if_pos inside]
    cases locked : server.locked index with
    | true => exact .passed client index i control inside (.inl locked)
    | false =>
        cases lockable : disk.lockable me index with
        | true => exact .probed client index i control locked lockable
        | false => exact .passed client index i control inside (.inr lockable)
  · rw [if_neg inside]
    exact .refused client index i control (Nat.not_lt.mp inside)

theorem scan_called {client : Client} {i num_locked : Nat}
    (control : server.control = .scanning client i num_locked) :
    Called me junk server disk (scan me junk client i num_locked server disk) := by
  unfold scan
  by_cases inside : i < RECORD_NUM
  · rw [dif_pos inside]
    split
    · rename_i taken
      rw [Bool.not_eq_true] at taken
      exact .skipped client ⟨i, inside⟩ num_locked control taken
    · rename_i free
      rw [not_or, Bool.not_eq_true, not_not] at free
      exact .entered client ⟨i, inside⟩ num_locked control free.1 free.2
  · rw [dif_neg inside]
    exact .ended client i num_locked control (Nat.not_lt.mp inside)

theorem advance_called (advanced : server.advance me junk disk = some turn) :
    Called me junk server disk turn := by
  unfold advance at advanced
  cases control : server.control with
  | probing client index i =>
      simp only [control, Option.some.injEq] at advanced
      exact advanced ▸ probe_called control
  | scanning client i num_locked =>
      simp only [control, Option.some.injEq] at advanced
      exact advanced ▸ scan_called control
  | seen client i num_locked =>
      simp only [control, Option.some.injEq] at advanced
      cases empty : (server.bulletinbuf i).empty with
      | true =>
          rw [empty, if_pos rfl] at advanced
          exact advanced ▸ .left client i num_locked control empty
      | false =>
          rw [empty, if_neg Bool.false_ne_true] at advanced
          exact advanced ▸ .kept client i num_locked control empty
  | finishing client msg =>
      cases pos : slotOf msg.pos with
      | none =>
          simp only [control, pos, Option.some.injEq] at advanced
          exact advanced ▸ .crashed client msg (.inl control) pos
      | some slot =>
          simp only [control, pos, Option.some.injEq] at advanced
          exact advanced ▸ .wrote client msg slot control pos
  | unlocking client msg =>
      cases pos : slotOf msg.pos with
      | none =>
          simp only [control, pos, Option.some.injEq] at advanced
          exact advanced ▸ .crashed client msg (.inr control) pos
      | some slot =>
          simp only [control, pos, Option.some.injEq] at advanced
          exact advanced ▸ .freed client msg slot control pos
  | polling => simp [control] at advanced
  | crashed => simp [control] at advanced
  | opening =>
      simp only [control, Option.some.injEq] at advanced
      exact advanced ▸ .opened control
  | restoring =>
      simp only [control, Option.some.injEq] at advanced
      exact advanced ▸ .restored control
  | probed client index =>
      simp only [control, Option.some.injEq] at advanced
      exact advanced ▸ .found client index control
  | reserving client tmp =>
      simp only [control, Option.some.injEq] at advanced
      exact advanced ▸ .reserved client tmp control
  | granting client tmp =>
      simp only [control, Option.some.injEq] at advanced
      exact advanced ▸ .granted client tmp control
  | loading client =>
      simp only [control, Option.some.injEq] at advanced
      exact advanced ▸ .loaded client control
  | showing client i num_locked =>
      simp only [control, Option.some.injEq] at advanced
      exact advanced ▸ .showed client i num_locked control

end Server

end SysProg.Bulletin
