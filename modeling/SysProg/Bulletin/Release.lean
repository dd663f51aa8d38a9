import SysProg.Bulletin.Grants

namespace SysProg.Bulletin

open Relation SysProg.Transition

/-! # Reservations of clients that leave -/

variable {n : Nat} {Client : Type} [DecidableEq Client] {home : Client → Fin n}
  {before after : Traced (Hub n Client) (Grants n Client)} {board : Slot → Record}

/-- No `!exit` is handled of a client that has a slot reserved. -/
def Leaves (home : Client → Fin n) (before after : Traced (Hub n Client) (Grants n Client)) :
    Prop :=
  ∀ client, before.state.closed client = false → after.state.closed client = true →
    ∀ slot, before.past.reserved (home client) slot ≠ some client

instance [Fintype Client] : Decidable (Leaves home before after) :=
  inferInstanceAs (Decidable (∀ _, _ → _ → ∀ _, _))

/-- Reserved slots and handlers are those of open connections. -/
structure Live (home : Client → Fin n) (traced : Traced (Hub n Client) (Grants n Client)) :
    Prop where
  owners : ∀ me slot client, traced.past.reserved me slot = some client →
    traced.state.closed client = false
  served : ∀ me client, (traced.state.servers me).control.serving = some client →
    traced.state.closed client = false

/-- A slot becomes reserved for the client of the handler only. -/
theorem Hub.note_reserved {hub : Hub n Client} {grants : Grants n Client} {event : Event n Client}
    {me : Fin n} {slot : Slot} {client : Client}
    (held : (note event hub grants).reserved me slot = some client) :
    grants.reserved me slot = some client ∨ (hub.servers me).control.serving = some client := by
  have mention : ∀ someone io type offered,
      (Grants.mention grants someone io type offered).reserved = grants.reserved := by
    intro someone io type offered
    unfold Grants.mention
    split
    · split <;> rfl
    · rfl
  unfold note at held
  cases event with
  | send someone io =>
      simp only [mention] at held
      exact .inl held
  | serve other someone => exact .inl held
  | advance other junk =>
      simp only at held
      split at held
      · rename_i turn someone _ serving
        unfold Grants.apply at held
        split at held
        · exact .inl held
        · rw [mention] at held
          exact .inl held
        · rw [Grants.reserve_reserved] at held
          split at held
          · rename_i here
            rw [here.1]
            exact .inr (serving.trans held)
          · exact .inl held
        · rw [Grants.reserve_reserved] at held
          split at held
          · cases held
          · exact .inl held
      · exact .inl held

omit [DecidableEq Client] in
theorem Server.dispatch_serving {server : Server Client} {client someone : Client} {receive : Io}
    (polling : server.control = .polling)
    (serving : (server.dispatch client receive).control.serving = some someone) :
    someone = client ∧ receive.type ≠ .exit := by
  unfold dispatch at serving
  cases type : receive.type <;> simp_all [moveTo, ServerControl.serving]

namespace Live

theorem step (live : Live home before) (sound : Sound home before)
    (stepped : Hub.Step home before after) (leaves : Leaves home before after) :
    Live home after := by
  obtain ⟨event, computed, noted⟩ := stepped
  have owners : (∀ client, before.state.closed client = false →
      after.state.closed client = true →
      ∀ me slot, after.past.reserved me slot ≠ some client) →
      ∀ me slot client, after.past.reserved me slot = some client →
        after.state.closed client = false := by
    intro gone me slot client held
    have opened : before.state.closed client = false := by
      rw [noted] at held
      cases Hub.note_reserved held with
      | inl earlier => exact live.owners me slot client earlier
      | inr serving => exact live.served me client serving
    cases closed : after.state.closed client with
    | false => rfl
    | true => exact absurd held (gone client opened closed me slot)
  unfold Hub.step at computed
  cases event with
  | send someone io =>
      simp only [Option.some.injEq] at computed
      refine ⟨owners ?_, ?_⟩
      · intro client opened closed
        rw [← computed] at closed
        rw [opened] at closed
        cases closed
      · rw [← computed]
        exact live.served
  | serve me someone =>
      simp only at computed
      split at computed
      · rename_i enabled
        obtain ⟨here, polling, opened⟩ := enabled
        split at computed
        · cases computed
        · rename_i receive rest next
          rw [Option.some.injEq] at computed
          have same : after.past.reserved = before.past.reserved := by rw [noted]; rfl
          refine ⟨owners ?_, ?_⟩
          · intro client opened closed other slot held
            rw [same] at held
            have near := sound.homed other slot client held
            exact leaves client opened closed slot (near ▸ held)
          · intro other client serving
            rw [← computed] at serving ⊢
            simp only at serving ⊢
            by_cases equal : other = me
            · subst equal
              rw [Function.update_self] at serving
              obtain ⟨rfl, stays⟩ := Server.dispatch_serving polling serving
              rw [if_neg stays]
              exact opened
            · rw [Function.update_of_ne equal] at serving
              have far : client ≠ someone := by
                intro same
                exact equal ((sound.served other client serving).symm.trans (same ▸ here))
              have still := live.served other client serving
              split
              · rwa [Function.update_of_ne far]
              · exact still
      · cases computed
  | advance me junk =>
      simp only at computed
      split at computed
      · cases computed
      · rename_i turn advanced
        rw [Option.some.injEq] at computed
        have same : after.state.closed = before.state.closed := by rw [← computed]
        refine ⟨owners ?_, ?_⟩
        · intro client opened closed
          rw [same, opened] at closed
          cases closed
        · intro other client serving
          rw [same]
          rw [← computed] at serving
          simp only at serving
          by_cases equal : other = me
          · subst equal
            rw [Function.update_self] at serving
            cases Server.advance_serving advanced with
            | inl none =>
                rw [none] at serving
                cases serving
            | inr kept => exact live.served other client (kept ▸ serving)
          · rw [Function.update_of_ne equal] at serving
            exact live.served other client serving

end Live

/-- A search that gives up has passed every slot. -/
def Passed (server : Server Client) : Prop :=
  ∀ client index i, server.control = .probing client index i →
    ∀ slot, server.locked slot = true ∨ (slot - index).val < RECORD_NUM - i

theorem lockable_alone (slot : Slot) (disk : Disk 1) : disk.lockable 0 slot = true := by
  unfold Disk.lockable
  cases owner : disk.owner slot with
  | none => rfl
  | some other => simp [Subsingleton.elim other 0]

theorem next_distance {slot index : Slot} (different : slot ≠ index) :
    (slot - (index + 1)).val + 1 = (slot - index).val := by
  revert slot index
  decide

namespace Passed

variable {server : Server Client} {junk : Message} {disk : Disk 1} {turn : Turn 1 Client}

omit [DecidableEq Client] in
theorem advance (passed : Passed server) (advanced : server.advance 0 junk disk = some turn) :
    Passed turn.server := by
  cases Server.advance_called advanced with
  | passed client index i control inside taken =>
      intro other place round same slot
      cases same
      have locked : server.locked index = true := by
        cases taken with
        | inl locked => exact locked
        | inr refused =>
            rw [lockable_alone] at refused
            cases refused
      by_cases here : slot = index
      · exact .inl (here ▸ locked)
      · cases passed client index i control slot with
        | inl locked => exact .inl locked
        | inr near =>
            have distance := next_distance here
            exact .inr (by omega)
  | _ => intro other place round same; cases same

omit [DecidableEq Client] in
theorem dispatch (polling : server.control = .polling) (client : Client) (receive : Io) :
    Passed (server.dispatch client receive) := by
  intro other index i control slot
  refine .inr ?_
  have start : i = 0 := by
    unfold Server.dispatch at control
    cases type : receive.type <;> simp_all [Server.moveTo]
  subst start
  exact (slot - index).isLt

theorem step {home : Client → Fin 1} {before after : Traced (Hub 1 Client) (Grants 1 Client)}
    (passed : Passed (before.state.servers 0)) (stepped : Hub.Step home before after) :
    Passed (after.state.servers 0) := by
  obtain ⟨event, computed, _⟩ := stepped
  unfold Hub.step at computed
  cases event with
  | send client io =>
      simp only [Option.some.injEq] at computed
      rw [← computed]
      exact passed
  | serve me client =>
      obtain rfl : me = 0 := Subsingleton.elim ..
      simp only at computed
      split at computed
      · rename_i enabled
        split at computed
        · cases computed
        · rw [Option.some.injEq] at computed
          rw [← computed]
          exact dispatch enabled.2.1 client _
      · cases computed
  | advance me junk =>
      obtain rfl : me = 0 := Subsingleton.elim ..
      simp only at computed
      split at computed
      · cases computed
      · rename_i turn advanced
        rw [Option.some.injEq] at computed
        rw [← computed]
        exact passed.advance advanced

end Passed

omit [DecidableEq Client] in
/-- A message `!full` means that no slot was left. -/
theorem Server.full_means_locked {server : Server Client} {me : Fin n} {junk : Message}
    {disk : Disk n} {turn : Turn n Client} {io : Io} (passed : Passed server)
    (advanced : server.advance me junk disk = some turn) (reply : turn.effect = .reply io)
    (full : io.type = .full) (slot : Slot) : server.locked slot = true := by
  cases advance_called advanced with
  | refused client index i control rounds =>
      cases passed client index i control slot with
      | inl locked => exact locked
      | inr near => omega
  | granted | ended | showed =>
      cases reply
      cases full
  | _ => cases reply

/-- In a run in which nobody leaves with a slot reserved, every reserved slot has an open
connection that may still finish it, and `!full` is the answer when there are ten. -/
theorem reservations_have_owners {home : Client → Fin 1}
    {traced : Traced (Hub 1 Client) (Grants 1 Client)}
    (run : ReflTransGen (Restrict (Hub.Step home) fun before after =>
      Disciplined before after ∧ Leaves home before after) (Hub.start 1 Client board) traced) :
    (∀ slot, (traced.state.servers 0).locked slot = true →
      ∃ client, traced.past.reserved 0 slot = some client ∧
        traced.state.closed client = false) ∧
    ((∀ client, traced.state.closed client = true) →
      ∀ slot, (traced.state.servers 0).locked slot = false) ∧
    (∀ junk turn io, (traced.state.servers 0).advance 0 junk traced.state.disk = some turn →
      turn.effect = .reply io → io.type = .full →
      ∀ slot, (traced.state.servers 0).locked slot = true) := by
  have sound : Sound home traced :=
    Sound.of_run (ReflTransGen.mono (fun _ _ taken => ⟨taken.1, taken.2.1⟩) _ _ run)
  have live : Live home traced := by
    refine invariant_of_reached ?_ run ⟨nofun, nofun⟩
    intro before after reached taken live
    have sound : Sound home before :=
      Sound.of_run (ReflTransGen.mono (fun _ _ taken => ⟨taken.1, taken.2.1⟩) _ _ reached)
    exact live.step sound taken.1 taken.2.2
  have passed : Passed (traced.state.servers 0) := by
    refine @invariant_of_run _ _ _ _ (fun traced => Passed (traced.state.servers 0)) ?_ run nofun
    intro before after taken passed
    exact passed.step taken.1
  have owners : ∀ slot, (traced.state.servers 0).locked slot = true →
      ∃ client, traced.past.reserved 0 slot = some client ∧
        traced.state.closed client = false := by
    intro slot locked
    rw [sound.table 0 slot, Option.isSome_iff_exists] at locked
    obtain ⟨client, held⟩ := locked
    exact ⟨client, held, live.owners 0 slot client held⟩
  refine ⟨owners, ?_, ?_⟩
  · intro gone slot
    cases locked : (traced.state.servers 0).locked slot with
    | false => rfl
    | true =>
        obtain ⟨client, _, opened⟩ := owners slot locked
        rw [gone client] at opened
        cases opened
  · intro junk turn io advanced reply full slot
    exact Server.full_means_locked passed advanced reply full slot

theorem reservations_have_owners_posted :
    ∃ traced : Traced (Hub 1 Unit) (Grants 1 Unit), traced.state.closed () = true ∧
      traced.state.disk.board 0 = letter.rd ∧ (traced.state.servers 0).locked 0 = false := by
  have completes : (Traced.run (Hub.step fun _ => 0) Hub.note
      (fun before after => decide (Disciplined before after ∧ Leaves (fun _ => 0) before after))
      (List.replicate 2 (Event.advance 0 ⟨.zero, 0⟩) ++ [Event.send () ⟨.post, ⟨.zero, 0⟩⟩, .serve 0 ()] ++
        List.replicate 4 (Event.advance 0 ⟨.zero, 0⟩) ++
        [Event.send () ⟨.finish, letter⟩, .serve 0 ()] ++ List.replicate 2 (Event.advance 0 ⟨.zero, 0⟩) ++
        [Event.send () ⟨.exit, letter⟩, .serve 0 ()])
      (Hub.start 1 Unit fun _ => .zero)).any (fun traced =>
        traced.state.closed () = true ∧ traced.state.disk.board 0 = letter.rd) = true := by
    decide +kernel
  obtain ⟨traced, ran, facts⟩ := (Option.any_eq_true _ _).mp completes
  obtain ⟨closed, posted⟩ := of_decide_eq_true facts
  have taken := Traced.run_steps ran
  simp only [decide_eq_true_eq] at taken
  exact ⟨traced, closed, posted, (reservations_have_owners taken).2.1 (fun _ => closed) 0⟩

/-- A client asks for a slot and leaves. -/
theorem reservation_without_owner :
    ∃ traced : Traced (Hub 1 Unit) (Grants 1 Unit),
      ReflTransGen (Restrict (Hub.Step fun _ => 0) Disciplined) (Hub.start 1 Unit fun _ => .zero)
        traced ∧
      (∀ client, traced.state.closed client = true) ∧
      (traced.state.servers 0).control = .polling ∧
      (traced.state.servers 0).locked 0 = true := by
  have completes : (Traced.run (Hub.step fun _ => 0) Hub.note
      (fun before after => decide (Disciplined before after))
      (List.replicate 2 (Event.advance 0 ⟨.zero, 0⟩) ++ [Event.send () ⟨.post, ⟨.zero, 0⟩⟩, .serve 0 ()] ++
        List.replicate 4 (Event.advance 0 ⟨.zero, 0⟩) ++ [Event.send () ⟨.exit, letter⟩, .serve 0 ()])
      (Hub.start 1 Unit fun _ => .zero)).any (fun traced =>
        (∀ client, traced.state.closed client = true) ∧
        (traced.state.servers 0).control = .polling ∧
        (traced.state.servers 0).locked 0 = true) = true := by
    decide +kernel
  obtain ⟨traced, ran, facts⟩ := (Option.any_eq_true _ _).mp completes
  have taken := Traced.run_steps ran
  simp only [decide_eq_true_eq] at taken
  exact ⟨traced, taken, of_decide_eq_true facts⟩

end SysProg.Bulletin
