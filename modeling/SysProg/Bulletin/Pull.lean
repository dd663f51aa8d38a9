import SysProg.Bulletin.Board

namespace SysProg.Bulletin

open Relation SysProg.Transition

/-! # What a pull shows

`found` is, for each server, the content of the slot that its last pull found free,
at that moment. -/

variable {n : Nat} {Client : Type}

/-- The slots of a pull that have been read and not been probed. -/
def ServerControl.due : ServerControl Client → Slot → Prop
  | .scanning _ i _, slot => i ≤ slot.val
  | .seen _ i _, slot | .showing _ i _, slot => i < slot
  | _, _ => False

instance (control : ServerControl Client) (slot : Slot) : Decidable (control.due slot) :=
  match control with
  | .scanning _ i _ => inferInstanceAs (Decidable (i ≤ slot.val))
  | .seen _ i _ | .showing _ i _ => inferInstanceAs (Decidable (i < slot))
  | .opening | .restoring | .polling | .probing _ _ _ | .probed _ _ | .reserving _ _ | .granting _ _
  | .loading _ | .finishing _ _ | .unlocking _ _ | .crashed => inferInstanceAs (Decidable False)

/-- The slot that a pull has found free and may show. -/
def ServerControl.shown : ServerControl Client → Option Slot
  | .seen _ i _ | .showing _ i _ => some i
  | _ => none

namespace Server

variable {me : Fin n} {junk : Message} {server : Server Client} {disk : Disk n}
  {turn : Turn n Client} {slot : Slot}

def enters (me : Fin n) (server : Server Client) (disk : Disk n) : Option Slot :=
  match server.control with
  | .scanning _ i _ =>
      if inside : i < RECORD_NUM then
        if server.locked ⟨i, inside⟩ ∨ ¬ disk.lockable me ⟨i, inside⟩ then none
        else some ⟨i, inside⟩
      else none
  | _ => none

theorem advance_due (advanced : server.advance me junk disk = some turn)
    (due : turn.server.control.due slot) :
    server.control.due slot ∨ ∃ client, server.control = .loading client := by
  cases advance_called advanced with
  | loaded client control => exact .inr ⟨client, control⟩
  | skipped client i num_locked control =>
      rw [control]
      exact .inl (Nat.le_of_succ_le due)
  | entered client i num_locked control =>
      rw [control]
      exact .inl (Nat.le_of_lt due)
  | left client i num_locked control =>
      rw [control]
      exact .inl (Nat.lt_of_succ_le due)
  | kept client i num_locked control =>
      rw [control]
      exact .inl due
  | showed client i num_locked control =>
      rw [control]
      exact .inl (Nat.lt_of_succ_le due)
  | _ => cases due

theorem advance_shown (advanced : server.advance me junk disk = some turn)
    (shown : turn.server.control.shown = some slot) :
    (server.control.shown = some slot ∧ server.enters me disk = none) ∨
      (server.control.due slot ∧ server.enters me disk = some slot) := by
  cases advance_called advanced with
  | entered client i num_locked control free lockable =>
      cases shown
      refine .inr ⟨by rw [control]; exact Nat.le_refl _, ?_⟩
      simp [enters, control, free, lockable]
  | kept client i num_locked control =>
      cases shown
      exact .inl ⟨by rw [control]; rfl, by simp [enters, control]⟩
  | _ => cases shown

theorem reads_pull {board : Slot → Record}
    (pulling : server.control.due slot ∨ server.control.shown = some slot) :
    server.reads board = server.bulletinbuf := by
  unfold reads
  cases control : server.control with
  | opening =>
      rw [control] at pulling
      cases pulling with
      | inl due => cases due
      | inr shown => cases shown
  | loading client =>
      rw [control] at pulling
      cases pulling with
      | inl due => cases due
      | inr shown => cases shown
  | _ => rfl

theorem advance_record {io : Io} (advanced : server.advance me junk disk = some turn)
    (reply : turn.effect = .reply io) (record : io.type = .record) :
    ∃ slot, server.control.shown = some slot ∧ io.buf.rd = server.bulletinbuf slot := by
  cases advance_called advanced with
  | showed client i num_locked control =>
      cases reply
      exact ⟨i, by rw [control]; rfl, rfl⟩
  | refused | granted | ended =>
      cases reply
      cases record
  | _ => cases reply

theorem advance_showing {client : Client} {num_locked : Nat}
    (control : server.control = .showing client slot num_locked) :
    server.advance me junk disk = some
      ⟨server.moveTo (.scanning client (slot + 1) num_locked), disk,
        .reply ⟨.record, { junk with rd := server.bulletinbuf slot }⟩⟩ := by
  simp only [advance, control]

end Server

variable {home : Client → Fin n} {before after : State n Client} {board : Slot → Record}

/-- The content of the slot that a pull has just found free. -/
def find (action : Action n Client) (state : State n Client) (found : Fin n → Record) :
    Fin n → Record :=
  match action with
  | .advance me _ =>
      match (state.servers me).enters me state.disk with
      | some slot => Function.update found me (state.disk.board slot)
      | none => found
  | _ => found

section

variable {me other : Fin n} {junk : Message} {found : Fin n → Record} {slot : Slot}

theorem find_entered (entered : (before.servers me).enters me before.disk = some slot) :
    find (.advance me junk) before found me = before.disk.board slot := by
  simp only [find, entered, Function.update_self]

theorem find_none (none : (before.servers me).enters me before.disk = none) :
    find (.advance me junk) before found = found := by
  simp only [find, none]

theorem find_other (different : other ≠ me) :
    find (.advance me junk) before found other = found other := by
  cases entered : (before.servers me).enters me before.disk with
  | none => rw [find_none entered]
  | some slot => simp only [find, entered, Function.update_of_ne different]

end

/-- No write changes a slot that a pull has read and not yet probed. -/
def Steady (before after : State n Client) : Prop :=
  ∀ me slot, (before.servers me).control.due slot →
    after.disk.board slot = before.disk.board slot

instance (before after : State n Client) : Decidable (Steady before after) :=
  inferInstanceAs (Decidable (∀ me slot, (before.servers me).control.due slot →
    after.disk.board slot = before.disk.board slot))

/-- The copy of a pull is the board where it is still to probe, and what was found where
it has. -/
structure Faithful (traced : Traced (State n Client) (Fin n → Record)) : Prop where
  due : ∀ me slot, (traced.state.servers me).control.due slot →
    (traced.state.servers me).bulletinbuf slot = traced.state.disk.board slot
  shown : ∀ me slot, (traced.state.servers me).control.shown = some slot →
    (traced.state.servers me).bulletinbuf slot = traced.past me

variable [DecidableEq Client]

theorem Faithful.step {action : Action n Client} {found : Fin n → Record}
    (faithful : Faithful ⟨before, found⟩) (steady : Steady before after)
    (stepped : step home action before = some after) :
    Faithful ⟨after, find action before found⟩ := by
  have dues : ∀ me slot, (before.servers me).control.due slot →
      (before.servers me).bulletinbuf slot = before.disk.board slot := faithful.due
  have shows : ∀ me slot, (before.servers me).control.shown = some slot →
      (before.servers me).bulletinbuf slot = found me := faithful.shown
  cases step_moved stepped with
  | client client move servers disk =>
      constructor
      · intro me slot due
        simp only [servers, disk] at due ⊢
        exact dues me slot due
      · intro me slot shown
        simp only [servers] at shown ⊢
        exact shows me slot shown
  | dispatched me client receive polling servers disk =>
      have start : ∀ slot, ¬ ((before.servers me).dispatch client receive).control.due slot ∧
          ((before.servers me).dispatch client receive).control.shown ≠ some slot := by
        intro slot
        unfold Server.dispatch
        split <;> simp [Server.moveTo, ServerControl.due, ServerControl.shown, polling]
      constructor
      · intro other slot due
        simp only [servers, disk] at due ⊢
        cases eq_or_ne other me with
        | inl equal =>
            rw [equal, Function.update_self] at due
            exact absurd due (start slot).1
        | inr different =>
            rw [Function.update_of_ne different] at due ⊢
            exact dues other slot due
      · intro other slot shown
        simp only [servers] at shown ⊢
        cases eq_or_ne other me with
        | inl equal =>
            rw [equal, Function.update_self] at shown
            exact absurd shown (start slot).2
        | inr different =>
            rw [Function.update_of_ne different] at shown ⊢
            exact shows other slot shown
  | advanced me junk turn advanced servers disk =>
      obtain ⟨written, read⟩ := Server.advance_board advanced
      constructor
      · intro other slot due
        simp only [servers] at due ⊢
        cases eq_or_ne other me with
        | inl equal =>
            subst equal
            rw [Function.update_self] at due ⊢
            cases Server.advance_due advanced due with
            | inl earlier =>
                rw [steady other slot earlier, read, Server.reads_pull (.inl earlier)]
                exact dues other slot earlier
            | inr loading =>
                obtain ⟨client, control⟩ := loading
                rw [disk, written, read]
                simp [Server.reads, Server.writes, control, withPost, ServerControl.posting]
        | inr different =>
            rw [Function.update_of_ne different] at due ⊢
            rw [dues other slot due, steady other slot due]
      · intro other slot shown
        simp only [servers] at shown ⊢
        cases eq_or_ne other me with
        | inl equal =>
            subst equal
            rw [Function.update_self] at shown ⊢
            cases Server.advance_shown advanced shown with
            | inl earlier =>
                rw [read, Server.reads_pull (.inr earlier.1), find_none earlier.2]
                exact shows other slot earlier.1
            | inr enters =>
                rw [read, Server.reads_pull (.inl enters.1), find_entered enters.2]
                exact dues other slot enters.1
        | inr different =>
            rw [Function.update_of_ne different] at shown ⊢
            rw [shows other slot shown, find_other different]

/-- In a run in which no write gets in between, every `!record` is the content its slot
had when the pull found it free. -/
theorem pull_shows_found {traced : Traced (State n Client) (Fin n → Record)}
    {found : Fin n → Record}
    (run : ReflTransGen (Restrict (Traced.Step (step home) find) fun before after =>
      Steady before.state after.state) ⟨boot n Client board, found⟩ traced)
    (me : Fin n) (junk : Message) (turn : Turn n Client) (io : Io)
    (advanced : (traced.state.servers me).advance me junk traced.state.disk = some turn)
    (reply : turn.effect = .reply io) (record : io.type = .record) :
    io.buf.rd = traced.past me := by
  have initially : Faithful (⟨boot n Client board, found⟩ : Traced (State n Client) _) :=
    ⟨fun _ _ due => due.elim, nofun⟩
  have faithful : Faithful traced := by
    refine invariant_of_run ?_ run initially
    intro before after taken faithful
    obtain ⟨⟨action, stepped, noted⟩, steady⟩ := taken
    have next := faithful.step steady stepped
    rwa [← noted] at next
  obtain ⟨slot, shown, same⟩ := Server.advance_record advanced reply record
  rw [same]
  exact faithful.shown me slot shown

def lettered : Slot → Record :=
  Function.update (fun _ => .zero) 0 ⟨scanf Record.zero.From ⟨[122], by decide⟩, .replicate _ 0⟩

/-- Server 0 pulls while server 1 holds slot 0; behind its probe of that slot server 1 writes a post
there, and then it finds slot 1 free and shows it. -/
theorem pull_shows_found_beside :
    ∃ traced : Traced (State 2 (Fin 2)) (Fin 2 → Record),
      (traced.state.servers 0).control = .showing 0 1 1 ∧
      traced.state.disk.board 0 = ⟨scanf Record.zero.From ⟨[97], by decide⟩,
        scanf Record.zero.Content ⟨[98], by decide⟩⟩ ∧
      (traced.state.servers 0).bulletinbuf 1 = traced.past 0 ∧ (traced.past 0).empty = false := by
  let board : Slot → Record := Function.update (fun _ => .zero) 1 (lettered 0)
  have completes : (Traced.run (step id) find
      (fun before after => Steady before.state after.state)
      (List.replicate 2 (Action.advance 0 ⟨.zero, 0⟩) ++
        List.replicate 2 (Action.advance 1 ⟨.zero, 0⟩) ++
        [Action.client 1 (.connect ⟨.zero, 0⟩), Action.serve 1 1] ++
        List.replicate 23 (Action.advance 1 ⟨.zero, 0⟩) ++
        List.replicate 2 (Action.client 1 .read) ++
        [Action.client 1 (.post ⟨.zero, 0⟩), Action.serve 1 1] ++
        List.replicate 4 (Action.advance 1 ⟨.zero, 0⟩) ++
        [Action.client 1 .read, Action.client 1 (.fill ⟨[97], by decide⟩ ⟨[98], by decide⟩),
          Action.client 0 (.connect ⟨.zero, 0⟩), Action.serve 0 0] ++
        List.replicate 2 (Action.advance 0 ⟨.zero, 0⟩) ++ [Action.serve 1 1] ++
        List.replicate 2 (Action.advance 1 ⟨.zero, 0⟩) ++
        List.replicate 2 (Action.advance 0 ⟨.zero, 0⟩))
      ⟨boot 2 (Fin 2) board, fun _ => .zero⟩).any (fun traced =>
        (traced.state.servers 0).control = .showing 0 1 1 ∧
        traced.state.disk.board 0 = ⟨scanf Record.zero.From ⟨[97], by decide⟩,
          scanf Record.zero.Content ⟨[98], by decide⟩⟩ ∧ (traced.past 0).empty = false) = true := by
    decide +kernel
  obtain ⟨traced, ran, facts⟩ := (Option.any_eq_true _ _).mp completes
  obtain ⟨control, written, some⟩ := of_decide_eq_true facts
  have steps : ReflTransGen (Restrict (Traced.Step (step id) find) fun before after =>
      Steady before.state after.state) ⟨boot 2 (Fin 2) board, fun _ => .zero⟩ traced :=
    ReflTransGen.mono (fun _ _ taken => ⟨taken.1, of_decide_eq_true taken.2⟩) _ _ (Traced.run_steps ran)
  exact ⟨traced, control, written,
    pull_shows_found steps 0 ⟨.zero, 0⟩ _ _ (Server.advance_showing control) rfl rfl, some⟩

/-- Server 0 reads the board for a pull, server 1 finishes a post in slot 0 and gives its
lock back, and then server 0 finds the slot free. -/
theorem pull_shows_stale :
    ∃ (traced : Traced (State 2 (Fin 2)) (Fin 2 → Record)) (turn : Turn 2 (Fin 2)) (io : Io),
      ReflTransGen (Traced.Step (step id) find)
        ⟨boot 2 (Fin 2) lettered, fun _ => .zero⟩ traced ∧
      (traced.state.servers 0).advance 0 ⟨.zero, 0⟩ traced.state.disk = some turn ∧
      turn.effect = .reply io ∧ io.type = .record ∧ io.buf.rd ≠ traced.past 0 := by
  have completes : (Traced.run (step id) find (fun _ _ => true)
      (List.replicate 2 (Action.advance 0 ⟨.zero, 0⟩) ++
        List.replicate 2 (Action.advance 1 ⟨.zero, 0⟩) ++
        [Action.client 1 (.connect ⟨.zero, 0⟩), Action.serve 1 1] ++
        List.replicate 23 (Action.advance 1 ⟨.zero, 0⟩) ++
        List.replicate 2 (Action.client 1 .read) ++
        [Action.client 1 (.post ⟨.zero, 0⟩), Action.serve 1 1] ++
        List.replicate 4 (Action.advance 1 ⟨.zero, 0⟩) ++
        [Action.client 1 .read, Action.client 1 (.fill ⟨[97], by decide⟩ ⟨[98], by decide⟩),
          Action.client 0 (.connect ⟨.zero, 0⟩), Action.serve 0 0, Action.advance 0 ⟨.zero, 0⟩,
          Action.serve 1 1] ++
        List.replicate 2 (Action.advance 1 ⟨.zero, 0⟩) ++
        List.replicate 2 (Action.advance 0 ⟨.zero, 0⟩))
      ⟨boot 2 (Fin 2) lettered, fun _ => .zero⟩).any (fun traced =>
        (traced.state.servers 0).control = .showing 0 0 0 ∧
        (traced.state.servers 0).bulletinbuf 0 ≠ traced.past 0) = true := by
    decide +kernel
  obtain ⟨traced, ran, facts⟩ := (Option.any_eq_true _ _).mp completes
  obtain ⟨control, stale⟩ := of_decide_eq_true facts
  exact ⟨traced, _, _, Restrict.run _ (Traced.run_steps ran),
    Server.advance_showing control, rfl, rfl, stale⟩

end SysProg.Bulletin
