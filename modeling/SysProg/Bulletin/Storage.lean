import SysProg.Bulletin.Answered
import SysProg.Bulletin.File
import SysProg.Transition.Simulation

namespace SysProg.Bulletin

open Relation SysProg.Data SysProg.Transition

/-! # The board in the file

The servers on the file are the servers of `State`: a call on the bytes of a slot is the call
on its record. -/

variable {n : Nat} {Client : Type}

/-! ## Records in the file -/

section Records

variable {content buffer : Bytes} {offset : Nat} {slot other : Slot} {rd : Record}

theorem record_inside {slot : Slot} {i : Nat} (inside : i < sizeof_record) :
    slot * sizeof_record + i < sizeof_board := by
  have next : (slot + 1) * sizeof_record ≤ RECORD_NUM * sizeof_record :=
    Nat.mul_le_mul_right sizeof_record slot.isLt
  rw [Nat.succ_mul] at next
  exact Nat.lt_of_lt_of_le (Nat.add_lt_add_left inside _) next

theorem length_bytes (rd : Record) : rd.bytes.length = sizeof_record := by
  rw [Record.bytes, List.length_append, Vector.length_toList, Vector.length_toList]
  rfl

/-- A record is what its bytes are. -/
theorem recordAt_congr (same : ∀ i, i < sizeof_record → content.getD (offset + i) 0 = buffer.getD (offset + i) 0) :
    recordAt offset content = recordAt offset buffer := by
  have From : field content offset FROM_LEN = field buffer offset FROM_LEN := by
    unfold field
    congr 1
    funext i
    exact same i (Nat.lt_of_lt_of_le i.isLt (by decide))
  have Content : field content (offset + FROM_LEN) CONTENT_LEN =
      field buffer (offset + FROM_LEN) CONTENT_LEN := by
    unfold field
    congr 1
    funext i
    rw [Nat.add_assoc]
    exact same (FROM_LEN + i) (Nat.add_lt_add_left i.isLt FROM_LEN)
  rw [recordAt, recordAt, From, Content]

/-- Writing a record and reading it back. -/
theorem recordAt_bytes (same : ∀ i, i < sizeof_record → content.getD (offset + i) 0 = rd.bytes.getD i 0) :
    recordAt offset content = rd := by
  have From : field content offset FROM_LEN = rd.From := by
    refine Vector.ext fun i inside => ?_
    have front := same i (Nat.lt_of_lt_of_le inside (by decide))
    rw [Record.bytes, List.getD_append _ _ _ _ (by rwa [Vector.length_toList]),
      List.getD_eq_getElem rd.From.toList 0 (by rwa [Vector.length_toList]), Vector.getElem_toList] at front
    rw [field, Vector.getElem_ofFn]
    exact front
  have Content : field content (offset + FROM_LEN) CONTENT_LEN = rd.Content := by
    refine Vector.ext fun i inside => ?_
    have behind := same (FROM_LEN + i) (Nat.add_lt_add_left inside FROM_LEN)
    rw [Record.bytes, List.getD_append_right _ _ _ _ (by rw [Vector.length_toList]; omega),
      Vector.length_toList, Nat.add_sub_cancel_left, ← Nat.add_assoc,
      List.getD_eq_getElem rd.Content.toList 0 (by rwa [Vector.length_toList]), Vector.getElem_toList] at behind
    rw [field, Vector.getElem_ofFn]
    exact behind
  rw [recordAt, From, Content]

theorem boardOf_congr (same : ∀ i, i < sizeof_board → content.getD i 0 = buffer.getD i 0) :
    boardOf content = boardOf buffer := by
  funext slot
  exact recordAt_congr fun i inside => same _ (record_inside inside)

/-- A record that is written replaces the one in its slot and no other. -/
theorem boardOf_write (slot : Slot) (rd : Record) :
    boardOf (writeAt 0 (slot * sizeof_record) rd.bytes content) =
      Function.update (boardOf content) slot rd := by
  have bytes (other : Slot) {i : Nat} (inside : i < sizeof_record) :
      (writeAt 0 (slot * sizeof_record) rd.bytes content).getD (other * sizeof_record + i) 0 =
        if other = slot then rd.bytes.getD i 0 else content.getD (other * sizeof_record + i) 0 := by
    rw [getD_writeAt, length_bytes]
    by_cases same : other = slot
    · subst same
      rw [if_pos rfl, if_pos ((within_record inside).mpr rfl), Nat.add_sub_cancel_left]
    · rw [if_neg same, if_neg fun within => same (Fin.ext ((within_record inside).mp within))]
  funext other
  by_cases same : other = slot
  · subst same
    rw [Function.update_self]
    refine recordAt_bytes fun i inside => ?_
    rw [bytes other inside, if_pos rfl]
  · rw [Function.update_of_ne same]
    refine recordAt_congr fun i inside => ?_
    rw [bytes other inside, if_neg same]

theorem boardOf_blank : boardOf (List.replicate sizeof_board 0) = fun _ => Record.zero := by
  funext slot
  refine recordAt_bytes fun i inside => ?_
  have zeros : Record.zero.bytes = List.replicate sizeof_record 0 := by decide
  rw [zeros, List.getD_replicate _ (record_inside inside), List.getD_replicate _ inside]

/-- A whole board that is written. -/
theorem boardOf_restored (whole : buffer.length = sizeof_board) :
    boardOf (writeAt 0 0 buffer content) = boardOf buffer := by
  refine boardOf_congr fun i inside => ?_
  rw [getD_writeAt, if_pos ⟨Nat.zero_le i, by omega⟩, Nat.sub_zero]

/-- A whole board that is read. -/
theorem boardOf_loaded (whole : buffer.length = sizeof_board)
    (full : sizeof_board ≤ content.length ∨ buffer = List.replicate sizeof_board 0) :
    boardOf (readInto content buffer) = boardOf content := by
  refine boardOf_congr fun i inside => ?_
  rw [getD_readInto]
  by_cases short : i < content.length
  · rw [if_pos ⟨short, by omega⟩]
  · rw [if_neg fun both => short both.1, List.getD_eq_default content _ (Nat.le_of_not_lt short)]
    rcases full with full | blank
    · omega
    · rw [blank, List.getD_replicate _ inside]

end Records

namespace File

variable {me : Fin n} {slot : Slot} {file : File n}

theorem lockable_disk (whole : Whole sizeof_record file.owner) :
    file.lockable me slot = file.disk.lockable me slot := by
  rw [Bool.eq_iff_iff, lockable, whole.mayLock (by decide), Disk.lockable, decide_eq_true_eq]
  rfl

theorem write_lock_disk (whole : Whole sizeof_record file.owner) :
    (file.write_lock me slot).disk = file.disk.write_lock me slot := by
  rw [write_lock, Disk.write_lock, ← lockable_disk whole]
  split
  · simp only [disk]
    congr 1
    funext other
    have first := @lockRange_record _ me sizeof_record slot other 0 file.owner (by decide)
    rw [Nat.add_zero] at first
    rw [first]
    by_cases same : other = slot
    · subst same
      rw [if_pos rfl, Function.update_self]
    · rw [if_neg fun same' => same (Fin.ext same'), Function.update_of_ne same]
  · rfl

theorem unlock_disk : (file.unlock me slot).disk = file.disk.unlock me slot := by
  have first (other : Slot) := @unlockRange_record _ me sizeof_record slot other 0 file.owner _ (by decide)
  simp only [Nat.add_zero] at first
  rw [Disk.unlock]
  by_cases mine : file.disk.owner slot = some me
  · rw [if_pos mine]
    refine congrArg (Disk.mk _) (funext fun other => (first other).trans ?_)
    by_cases same : other = slot
    · subst same
      rw [Function.update_self]
      exact if_pos ⟨rfl, mine⟩
    · rw [Function.update_of_ne same]
      exact if_neg fun both => same (Fin.ext both.1)
  · rw [if_neg mine]
    refine congrArg (Disk.mk _) (funext fun other => (first other).trans (if_neg fun both => mine ?_))
    have same : other = slot := Fin.ext both.1
    exact same ▸ both.2

theorem write_lock_whole (whole : Whole sizeof_record file.owner) :
    Whole sizeof_record (file.write_lock me slot).owner := by
  rw [File.write_lock]
  split
  · exact whole.lockRange slot
  · exact whole

end File

/-! ## The calls on the bytes are calls on the records -/

namespace FileServer

variable {me : Fin n} {junk : Message} {server : FileServer Client} {file : File n} {client : Client}

theorem probe_turn (whole : Whole sizeof_record file.owner) (index : Slot) (i : Nat) :
    (probe me junk client index i server file).turn =
      Server.probe me junk client index i server.server file.disk := by
  have same : server.server.locked index = server.locked index := rfl
  unfold probe Server.probe
  rw [File.lockable_disk whole, same]
  by_cases inside : i < RECORD_NUM
  · rw [if_pos inside, if_pos inside]
    cases server.locked index with
    | true => rfl
    | false =>
        cases file.disk.lockable me index with
        | true =>
            rw [← File.write_lock_disk whole]
            rfl
        | false => rfl
  · rw [if_neg inside, if_neg inside]
    rfl

theorem scan_turn (whole : Whole sizeof_record file.owner) (i num_locked : Nat) :
    (scan me junk client i num_locked server file).turn =
      Server.scan me junk client i num_locked server.server file.disk := by
  unfold scan Server.scan
  by_cases inside : i < RECORD_NUM
  · have same : server.server.locked ⟨i, inside⟩ = server.locked ⟨i, inside⟩ := rfl
    rw [dif_pos inside, dif_pos inside, File.lockable_disk whole, same]
    cases server.locked ⟨i, inside⟩ with
    | true => rfl
    | false =>
        cases file.disk.lockable me ⟨i, inside⟩ with
        | true =>
            rw [← File.write_lock_disk whole]
            rfl
        | false => rfl
  · rw [dif_neg inside, dif_neg inside]
    rfl

theorem lseek_slot {pos : Int} {slot : Slot} (place : slotOf pos = some slot) :
    server.lseek pos = slot * sizeof_record := by
  rw [slotOf] at place
  split at place
  · rename_i bounds
    cases place
    exact if_pos bounds.1
  · cases place

/-- The calls of a server on the bytes are its calls on the records. -/
theorem advance_turn (whole : Whole sizeof_record file.owner) (sound : server.control.Sound)
    (size : server.bulletinbuf.length = sizeof_board)
    (blank : server.control = .opening → server.bulletinbuf = List.replicate sizeof_board 0)
    (full : server.control = .opening ∨ server.control = .restoring ∨ sizeof_board ≤ file.content.length) :
    (server.advance me junk file).map FileTurn.turn = server.server.advance me junk file.disk := by
  unfold advance Server.advance
  have same : server.server.control = server.control := rfl
  rw [same]
  cases control : server.control with
  | polling | crashed | granting | showing => rfl
  | opening =>
      have loaded := @boardOf_loaded file.content _ size (.inr (blank control))
      simp only [Option.map_some, FileTurn.turn, FileServer.server, moveTo, readBoard, loaded]
      rfl
  | restoring =>
      have restored := @boardOf_restored file.content _ size
      simp only [Option.map_some, FileTurn.turn, File.write, File.disk, restored]
      rfl
  | probing client index i => exact congrArg some (probe_turn whole index i)
  | scanning client i num_locked => exact congrArg some (scan_turn whole i num_locked)
  | probed client index | seen client index num_locked =>
      simp only [Option.map_some, FileTurn.turn, File.unlock_disk]
      rfl
  | reserving client tmp =>
      simp only [Option.map_some, FileTurn.turn, File.write_lock_disk whole]
      rfl
  | loading client =>
      have long : sizeof_board ≤ file.content.length := by
        rcases full with opening | restoring | long
        · cases control.symm.trans opening
        · cases control.symm.trans restoring
        · exact long
      have loaded := @boardOf_loaded file.content _ size (.inl long)
      simp only [Option.map_some, FileTurn.turn, FileServer.server, moveTo, readBoard, loaded]
      rfl
  | finishing client msg =>
      rw [control] at sound
      obtain ⟨slot, pos⟩ := Option.ne_none_iff_exists'.mp sound
      have written := @boardOf_write file.content slot msg.rd
      simp only [pos, Option.map_some, FileTurn.turn, File.write, File.disk, lseek_slot pos, written]
      rfl
  | unlocking client msg =>
      rw [control] at sound
      obtain ⟨slot, pos⟩ := Option.ne_none_iff_exists'.mp sound
      simp only [pos, Option.map_some, FileTurn.turn, File.unlock_disk]
      rfl

/-- A `!finish` with a `pos` behind the last slot leaves the board alone, but its record is written
behind it and makes the file longer. -/
theorem finish_outside {msg : Message} (control : server.control = .finishing client msg)
    (outside : (RECORD_NUM : Int) ≤ msg.pos) :
    ∃ turn, server.advance me junk file = some turn ∧ turn.server.control = .unlocking client msg ∧
      boardOf turn.file.content = boardOf file.content ∧ turn.file.owner = file.owner ∧
      turn.file.content.length = max file.content.length ((msg.pos.toNat + 1) * sizeof_record) ∧
      recordAt (msg.pos.toNat * sizeof_record) turn.file.content = msg.rd := by
  have place : server.lseek msg.pos = msg.pos.toNat * sizeof_record :=
    if_pos (Int.le_trans (Int.natCast_nonneg _) outside)
  have behind : sizeof_board ≤ msg.pos.toNat * sizeof_record :=
    Nat.mul_le_mul_right sizeof_record ((Int.le_toNat (Int.le_trans (Int.natCast_nonneg _) outside)).mpr outside)
  refine ⟨_, by simp only [advance, control]; rfl, rfl, boardOf_congr fun i inside => ?_, rfl, ?_, ?_⟩
  · rw [place, File.write, getD_writeAt, if_neg (by omega)]
  · rw [place, File.write, length_writeAt, length_bytes, Nat.succ_mul]
  · refine recordAt_bytes fun i inside => ?_
    rw [place, File.write, getD_writeAt, length_bytes, if_pos (by omega), Nat.add_sub_cancel_left]

theorem dispatch_server (receive : Io) :
    (server.dispatch client receive).server = server.server.dispatch client receive := by
  unfold dispatch Server.dispatch
  cases receive.type <;> rfl

/-- What the next call of a server writes to the file, and where. -/
def writes (server : FileServer Client) : Option (Nat × Bytes) :=
  match server.control with
  | .restoring => some (0, server.bulletinbuf)
  | .finishing _ msg => some (server.lseek msg.pos, msg.rd.bytes)
  | _ => none

def begun (server : FileServer Client) : Bool :=
  match server.control with
  | .opening => false
  | _ => true

def written (write : Option (Nat × Bytes)) (content : Bytes) : Bytes :=
  match write with
  | some (offset, bytes) => writeAt 0 offset bytes content
  | none => content

/-- What a call leaves of the file and of the buffer. -/
structure Keeps (server : FileServer Client) (file : File n) (turn : FileTurn n Client) : Prop where
  whole : Whole sizeof_record file.owner → Whole sizeof_record turn.file.owner
  size : turn.server.bulletinbuf.length = server.bulletinbuf.length
  begun : turn.server.begun = true
  starts : server.control = .opening → turn.server.control = .restoring
  content : turn.file.content = written server.writes file.content

theorem not_opening (begun : server.begun = true) : server.control ≠ .opening := by
  intro opening
  rw [FileServer.begun, opening] at begun
  cases begun

theorem Keeps.same {turn : FileTurn n Client} (started : server.begun = true)
    (none : server.writes = none) (buffer : turn.server.bulletinbuf.length = server.bulletinbuf.length)
    (content : turn.file.content = file.content)
    (whole : Whole sizeof_record file.owner → Whole sizeof_record turn.file.owner)
    (begun : turn.server.begun = true) : Keeps server file turn :=
  ⟨whole, buffer, begun, fun opening => absurd opening (not_opening started), none ▸ content⟩

theorem write_lock_content (slot : Slot) : (file.write_lock me slot).content = file.content := by
  rw [File.write_lock]
  split <;> rfl

theorem probe_keeps (started : server.begun = true) (none : server.writes = none)
    (index : Slot) (i : Nat) : Keeps server file (probe me junk client index i server file) := by
  unfold probe
  split
  · split
    · exact .same started none rfl rfl id rfl
    · split
      · exact .same started none rfl (write_lock_content index) File.write_lock_whole
          rfl
      · exact .same started none rfl rfl id rfl
  · exact .same started none rfl rfl id rfl

theorem scan_keeps (started : server.begun = true) (none : server.writes = none)
    (i num_locked : Nat) : Keeps server file (scan me junk client i num_locked server file) := by
  unfold scan
  split
  · split
    · exact .same started none rfl rfl id rfl
    · exact .same started none rfl (write_lock_content _) File.write_lock_whole
        rfl
  · exact .same started none rfl rfl id rfl

theorem advance_keeps {turn : FileTurn n Client} (sound : server.control.Sound)
    (advanced : server.advance me junk file = some turn) : Keeps server file turn := by
  unfold advance at advanced
  cases control : server.control with
  | polling | crashed => simp [control] at advanced
  | opening =>
      simp only [control, Option.some.injEq] at advanced
      subst advanced
      exact ⟨id, length_readInto, rfl, fun _ => rfl, by simp [writes, control, written]⟩
  | restoring =>
      simp only [control, Option.some.injEq] at advanced
      subst advanced
      refine ⟨id, rfl, rfl, fun opening => ?_, ?_⟩
      · cases control.symm.trans opening
      · simp [writes, control, written, File.write]
  | probing client index i =>
      simp only [control, Option.some.injEq] at advanced
      exact advanced ▸ probe_keeps (by simp [begun, control]) (by simp [writes, control]) index i
  | scanning client i num_locked =>
      simp only [control, Option.some.injEq] at advanced
      exact advanced ▸ scan_keeps (by simp [begun, control]) (by simp [writes, control]) i num_locked
  | probed client index =>
      simp only [control, Option.some.injEq] at advanced
      subst advanced
      exact .same (by simp [begun, control]) (by simp [writes, control]) rfl rfl
        (fun whole => whole.unlockRange index) rfl
  | reserving client tmp =>
      simp only [control, Option.some.injEq] at advanced
      subst advanced
      exact .same (by simp [begun, control]) (by simp [writes, control]) rfl
        (write_lock_content tmp) File.write_lock_whole rfl
  | granting client tmp | showing client i num_locked =>
      simp only [control, Option.some.injEq] at advanced
      subst advanced
      exact .same (by simp [begun, control]) (by simp [writes, control]) rfl rfl id
        rfl
  | loading client =>
      simp only [control, Option.some.injEq] at advanced
      subst advanced
      exact .same (by simp [begun, control]) (by simp [writes, control]) length_readInto rfl
        id rfl
  | seen client i num_locked =>
      simp only [control, Option.some.injEq] at advanced
      subst advanced
      refine .same (by simp [begun, control]) (by simp [writes, control]) rfl rfl
        (fun whole => whole.unlockRange i) ?_
      simp only [begun, moveTo]
      cases (boardOf server.bulletinbuf i).empty <;> rfl
  | finishing client msg =>
      simp only [control, Option.some.injEq] at advanced
      subst advanced
      refine ⟨id, rfl, rfl, fun opening => ?_, ?_⟩
      · cases control.symm.trans opening
      · simp [writes, control, written, File.write]
  | unlocking client msg =>
      rw [control] at sound
      obtain ⟨slot, pos⟩ := Option.ne_none_iff_exists'.mp sound
      simp only [control, pos, Option.some.injEq] at advanced
      subst advanced
      exact .same (by simp [begun, control]) (by simp [writes, control]) rfl rfl
        (fun whole => whole.unlockRange slot) rfl

/-- A server that has only slots to write to writes nothing behind the board. -/
theorem writes_inside {offset : Nat} {bytes : Bytes} (sound : server.control.Sound)
    (size : server.bulletinbuf.length = sizeof_board) (write : server.writes = some (offset, bytes)) :
    offset + bytes.length ≤ sizeof_board := by
  unfold writes at write
  split at write
  · cases write
    rw [Nat.zero_add, size]
  · rename_i client msg control
    rw [control] at sound
    obtain ⟨slot, pos⟩ := Option.ne_none_iff_exists'.mp sound
    cases write
    rw [lseek_slot pos, length_bytes, ← Nat.succ_mul]
    exact Nat.mul_le_mul_right sizeof_record slot.isLt
  · cases write

namespace Keeps

variable {turn : FileTurn n Client}

theorem behind (keeps : Keeps server file turn) (sound : server.control.Sound)
    (size : server.bulletinbuf.length = sizeof_board) :
    turn.file.content.drop sizeof_board = file.content.drop sizeof_board := by
  rw [keeps.content]
  cases write : server.writes with
  | none => rfl
  | some place => exact drop_writeAt (writes_inside sound size write)

theorem grows (keeps : Keeps server file turn) (sound : server.control.Sound)
    (size : server.bulletinbuf.length = sizeof_board) :
    file.content.length ≤ turn.file.content.length ∧
      turn.file.content.length ≤ max file.content.length sizeof_board := by
  rw [keeps.content]
  cases write : server.writes with
  | none => exact ⟨Nat.le_refl _, Nat.le_max_left ..⟩
  | some place =>
      have inside := writes_inside sound size write
      have length := @length_writeAt _ 0 place.1 place.2 file.content
      simp only [written]
      omega

/-- Behind its start a server finds a whole board in the file. -/
theorem full (keeps : Keeps server file turn) (sound : server.control.Sound)
    (size : server.bulletinbuf.length = sizeof_board)
    (full : server.control = .opening ∨ server.control = .restoring ∨ sizeof_board ≤ file.content.length) :
    turn.server.control = .opening ∨ turn.server.control = .restoring ∨
      sizeof_board ≤ turn.file.content.length := by
  have grows := keeps.grows sound size
  rcases full with opening | restoring | long
  · exact .inr (.inl (keeps.starts opening))
  · have write : server.writes = some (0, server.bulletinbuf) := by
      simp [writes, restoring]
    have length := @length_writeAt _ 0 0 server.bulletinbuf file.content
    refine .inr (.inr ?_)
    rw [keeps.content, write]
    simp only [written]
    omega
  · exact .inr (.inr (Nat.le_trans long grows.1))

end Keeps

end FileServer

/-! ## The system on the file -/

/-- What the servers rely on: the locks are on whole slots, and the file holds a whole board
for every server that is in its loop. -/
structure Files.Laid (content : Bytes) (files : Files n Client) : Prop where
  whole : Whole sizeof_record files.file.owner
  buffers : ∀ me, (files.servers me).bulletinbuf.length = sizeof_board
  blank : ∀ me, (files.servers me).control = .opening →
    (files.servers me).bulletinbuf = List.replicate sizeof_board 0
  full : ∀ me, (files.servers me).control = .opening ∨ (files.servers me).control = .restoring ∨
    sizeof_board ≤ files.file.content.length
  behind : files.file.content.drop sizeof_board = content.drop sizeof_board
  grows : content.length ≤ files.file.content.length ∧
    files.file.content.length ≤ max content.length sizeof_board

namespace Files

variable [DecidableEq Client] {home : Client → Fin n} {content : Bytes} {before after files : Files n Client}
  {action : Action n Client}

omit [DecidableEq Client] in
theorem Laid.boot (content : Bytes) : Laid content (boot n Client content) where
  whole _ _ _ := rfl
  buffers _ := List.length_replicate
  blank _ _ := rfl
  full _ := .inl rfl
  behind := rfl
  grows := ⟨Nat.le_refl _, Nat.le_max_left ..⟩

omit [DecidableEq Client] in
/-- One server takes a message, which does not touch the file. -/
theorem Laid.dispatch {me : Fin n} {client : Client} {receive : Io} (laid : Laid content before)
    (polling : (before.servers me).control = .polling)
    (servers : after.servers = Function.update before.servers me ((before.servers me).dispatch client receive))
    (file : after.file = before.file) : Laid content after := by
  have long : sizeof_board ≤ before.file.content.length := by
    rcases laid.full me with opening | restoring | long
    · cases polling.symm.trans opening
    · cases polling.symm.trans restoring
    · exact long
  have buffer : ((before.servers me).dispatch client receive).bulletinbuf = (before.servers me).bulletinbuf := by
    unfold FileServer.dispatch
    split <;> rfl
  have begun : ((before.servers me).dispatch client receive).control ≠ .opening := by
    unfold FileServer.dispatch
    split <;> simp [FileServer.moveTo, polling]
  refine ⟨file ▸ laid.whole, ?_, ?_, ?_, file ▸ laid.behind, file ▸ laid.grows⟩
  · intro other
    rw [servers]
    by_cases same : other = me
    · rw [same, Function.update_self, buffer]
      exact laid.buffers me
    · rw [Function.update_of_ne same]
      exact laid.buffers other
  · intro other opening
    rw [servers] at opening ⊢
    by_cases same : other = me
    · rw [same, Function.update_self] at opening
      exact absurd opening begun
    · rw [Function.update_of_ne same] at opening ⊢
      exact laid.blank other opening
  · intro other
    rw [file]
    exact .inr (.inr long)

omit [DecidableEq Client] in
/-- One server makes a call. -/
theorem Laid.advance {me : Fin n} {turn : FileTurn n Client} (laid : Laid content before)
    (sound : (before.servers me).control.Sound)
    (keeps : FileServer.Keeps (before.servers me) before.file turn)
    (servers : after.servers = Function.update before.servers me turn.server)
    (file : after.file = turn.file) : Laid content after := by
  have size := laid.buffers me
  have grows := keeps.grows sound size
  refine ⟨file ▸ keeps.whole laid.whole, ?_, ?_, ?_, ?_, ?_⟩
  · intro other
    rw [servers]
    by_cases same : other = me
    · rw [same, Function.update_self, keeps.size]
      exact size
    · rw [Function.update_of_ne same]
      exact laid.buffers other
  · intro other opening
    rw [servers] at opening ⊢
    by_cases same : other = me
    · rw [same, Function.update_self] at opening
      exact absurd opening (FileServer.not_opening keeps.begun)
    · rw [Function.update_of_ne same] at opening ⊢
      exact laid.blank other opening
  · intro other
    rw [servers, file]
    by_cases same : other = me
    · rw [same, Function.update_self]
      exact keeps.full sound size (laid.full me)
    · rw [Function.update_of_ne same]
      exact (laid.full other).imp id (Or.imp id fun long => Nat.le_trans long grows.1)
  · rw [file, keeps.behind sound size]
    exact laid.behind
  · have before := laid.grows
    rw [file]
    omega

theorem state_apply (client : Client) (effect : Effect) (files : Files n Client) :
    (files.apply client effect).state = files.state.apply client effect := by
  cases effect <;> rfl

theorem apply_servers (client : Client) (effect : Effect) (files : Files n Client) :
    (files.apply client effect).servers = files.servers ∧ (files.apply client effect).file = files.file := by
  cases effect <;> exact ⟨rfl, rfl⟩

omit [DecidableEq Client] in
theorem state_setServer (me : Fin n) (server : FileServer Client) (files : Files n Client) :
    (files.setServer me server).state = files.state.setServer me server.server := by
  have servers := Function.comp_update FileServer.server files.servers me server
  simp only [state, setServer, State.setServer, State.mk.injEq, and_true]
  exact servers

omit [DecidableEq Client] in
theorem state_turn (me : Fin n) (turn : FileTurn n Client) (files : Files n Client) :
    state { files.setServer me turn.server with file := turn.file } =
      { files.state.setServer me turn.turn.server with disk := turn.turn.disk } := by
  have servers := Function.comp_update FileServer.server files.servers me turn.server
  simp only [state, setServer, State.setServer, State.mk.injEq, and_true]
  exact ⟨servers, rfl⟩

theorem Laid.step (laid : Laid content before) (handling : Handling before.state)
    (stepped : Files.step home action before = some after) : Laid content after := by
  unfold Files.step at stepped
  cases action with
  | client client move =>
      simp only at stepped
      split at stepped
      · cases stepped
        exact ⟨laid.whole, laid.buffers, laid.blank, laid.full, laid.behind, laid.grows⟩
      · cases stepped
  | serve me client =>
      simp only at stepped
      split at stepped
      · rename_i enabled
        split at stepped
        · cases stepped
        · cases stepped
          exact laid.dispatch enabled.2 rfl rfl
      · cases stepped
  | advance me junk =>
      simp only at stepped
      split at stepped
      · cases stepped
      · rename_i turn advanced
        have keeps := FileServer.advance_keeps (handling me) advanced
        split at stepped
        · cases stepped
          exact laid.advance (handling me) keeps rfl rfl
        · cases stepped
          exact laid.advance (handling me) keeps (apply_servers ..).1 (apply_servers ..).2

/-- A step on the file is the same step on the records. -/
theorem follows (laid : Laid content before) (handling : Handling before.state)
    (stepped : step home action before = some after) :
    Bulletin.step home action before.state = some after.state := by
  unfold step at stepped
  cases action with
  | client client move =>
      simp only at stepped
      split at stepped
      · rename_i now moved
        cases stepped
        have moved' : (before.state.clients client).move move = some now := moved
        simp only [Bulletin.step, moved']
        rfl
      · cases stepped
  | serve me client =>
      simp only at stepped
      split at stepped
      · rename_i enabled
        split at stepped
        · cases stepped
        · rename_i receive rest next
          cases stepped
          have enabled' : home client = me ∧ (before.state.servers me).control = .polling := enabled
          have next' : (before.state.clients client).requests = receive :: rest := next
          have servers := state_setServer me ((before.servers me).dispatch client receive) before
          rw [FileServer.dispatch_server] at servers
          simp only [Bulletin.step, if_pos enabled', next']
          exact congrArg (fun state : State n Client => some (state.setClient client
            { before.clients client with requests := rest })) servers.symm
      · cases stepped
  | advance me junk =>
      simp only at stepped
      split at stepped
      · cases stepped
      · rename_i turn advanced
        have advanced' : (before.state.servers me).advance me junk before.state.disk = some turn.turn := by
          have same := @FileServer.advance_turn _ _ me junk _ _ laid.whole (handling me) (laid.buffers me) (laid.blank me)
            (laid.full me)
          rw [advanced] at same
          exact same.symm
        split at stepped
        · rename_i serving
          cases stepped
          have serving' : (before.state.servers me).control.serving = none := serving
          simp only [Bulletin.step, advanced', serving', state_turn]
        · rename_i client serving
          cases stepped
          have serving' : (before.state.servers me).control.serving = some client := serving
          simp only [Bulletin.step, advanced', serving', state_apply, state_turn]
          rfl

omit [DecidableEq Client] in
theorem boot_state (content : Bytes) :
    (boot n Client content).state = Bulletin.boot n Client (boardOf content) := by
  have blank : (FileServer.boot : FileServer Client).server = Server.boot := by
    simp only [FileServer.server, FileServer.boot, boardOf_blank]
    rfl
  simp only [state, boot, blank]
  rfl

/-- The servers on the file refine `State`.  That each `!finish` has the `pos` of a slot is known
of the records. -/
theorem simulate (home : Client → Fin n) (content : Bytes) :
    Simulation (Step home) (Bulletin.Step home) state
      (fun files : Files n Client => Laid content files ∧ Bulletin.Reachable home (boardOf content) files.state) where
  kept before after stepped known := by
    obtain ⟨action, stepped⟩ := stepped
    have handling := Handling.of_reachable known.2
    exact ⟨known.1.step handling stepped, known.2.tail ⟨action, follows known.1 handling stepped⟩⟩
  follows before after stepped known := by
    obtain ⟨action, stepped⟩ := stepped
    exact .inr ⟨action, follows known.1 (.of_reachable known.2) stepped⟩

end Files

/-- On a file of any bytes every run of the servers, with clients that type only words that fit, is
a run on the records in it, where a short file counts as filled up with zeros.  Each slot is locked
as a whole, the file never shrinks or gets longer than the board, and nothing behind the board
changes. -/
theorem file_refines [DecidableEq Client] (home : Client → Fin n) (content : Bytes)
    (files : Files n Client) (reached : Files.Reachable home content files) :
    Reachable home (boardOf content) files.state ∧
    (∀ (slot : Slot) i, i < sizeof_record →
      files.file.owner (slot * sizeof_record + i) = files.state.disk.owner slot) ∧
    files.file.content.drop sizeof_board = content.drop sizeof_board ∧
    content.length ≤ files.file.content.length ∧
    files.file.content.length ≤ max content.length sizeof_board := by
  have boots : Reachable home (boardOf content) (Files.boot n Client content).state := by
    rw [Files.boot_state]
    exact .refl
  obtain ⟨laid, run⟩ := (Files.simulate home content).invariant_run reached ⟨.boot content, boots⟩
  refine ⟨run, ?_, laid.behind, laid.grows⟩
  exact fun slot i inside => laid.whole slot i inside

/-- A server starts on an empty file, and its client makes the first post. -/
theorem file_refines_posted :
    let posted : Record := ⟨scanf Record.zero.From ⟨[97], by decide⟩, scanf Record.zero.Content ⟨[98], by decide⟩⟩
    ∃ files : Files 1 Unit, (files.servers 0).control = .polling ∧
      files.file.content = posted.bytes ++ List.replicate (sizeof_board - sizeof_record) 0 ∧
      Reachable (fun _ => 0) (boardOf []) files.state := by
  intro posted
  let actions : List (Action 1 Unit) := List.flatten [
    List.replicate 2 (.advance 0 ⟨.zero, 0⟩), [.client () (.connect ⟨.zero, 0⟩), .serve 0 ()],
    List.replicate 22 (.advance 0 ⟨.zero, 0⟩), [.client () .read, .client () (.post ⟨.zero, 0⟩), .serve 0 ()],
    List.replicate 4 (.advance 0 ⟨.zero, 0⟩), [.client () .read,
      .client () (.fill ⟨[97], by decide⟩ ⟨[98], by decide⟩), .serve 0 ()],
    List.replicate 2 (.advance 0 ⟨.zero, 0⟩)]
  have completes : Option.any (fun files => (files.servers 0).control = .polling ∧
        files.file.content = posted.bytes ++ List.replicate (sizeof_board - sizeof_record) 0)
      (actions.foldlM (fun files action => Files.step (fun _ => 0) action files) (Files.boot 1 Unit [])) =
        true := by
    decide +kernel
  obtain ⟨files, ran, facts⟩ := (Option.any_eq_true _ _).mp completes
  obtain ⟨polls, content⟩ := of_decide_eq_true facts
  exact ⟨files, polls, content, (file_refines (fun _ => 0) [] files (Files.run_steps ran)).1⟩

end SysProg.Bulletin
