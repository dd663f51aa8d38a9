import SysProg.Bulletin.Open
import SysProg.Bulletin.Reservation

namespace SysProg.Bulletin

open Relation SysProg.Transition

/-! # Where a grant is

Between its reservation and the end of its `!finish` every slot of a client is in one
place: in the hand of the server, among the slots the client may use, or in a
`!finish` on its way.  `tokens` counts the places. -/

variable {n : Nat} {Client : Type}

def Io.finishes (slot : Slot) (io : Io) : Bool :=
  io.type = .finish ∧ slotOf io.buf.pos = some slot

def ServerControl.tokens [DecidableEq Client] (client : Client) (slot : Slot) : ServerControl Client → Nat
  | .granting other tmp => if other = client ∧ tmp = slot then 1 else 0
  | .finishing other msg | .unlocking other msg =>
      if other = client ∧ slotOf msg.pos = some slot then 1 else 0
  | _ => 0

def Grants.tokens (grants : Grants n Client) (client : Client) (slot : Slot) : Nat :=
  if grants.available client slot = true then 1 else 0

def Grants.owed [DecidableEq Client] (grants : Grants n Client) (me : Fin n) (client : Client) (slot : Slot) : Nat :=
  if grants.reserved me slot = some client then 1 else 0

structure Sound [DecidableEq Client] (home : Client → Fin n) (traced : Traced (Hub n Client) (Grants n Client)) :
    Prop where
  tokens : ∀ client slot, (traced.state.servers (home client)).control.tokens client slot +
    (traced.state.requests client).countP (Io.finishes slot) +
    traced.past.tokens client slot = traced.past.owed (home client) client slot
  table : ∀ me slot,
    (traced.state.servers me).locked slot = (traced.past.reserved me slot).isSome
  homed : ∀ me slot client, traced.past.reserved me slot = some client → home client = me
  served : ∀ me client, (traced.state.servers me).control.serving = some client →
    home client = me
  fresh : ∀ me slot, (traced.state.servers me).control.probes = some slot →
    (traced.state.servers me).locked slot = false
  queued : ∀ client, ∀ io ∈ traced.state.requests client, io.type = .finish →
    ∃ slot, slotOf io.buf.pos = some slot
  handled : ∀ me client msg, (traced.state.servers me).control = .finishing client msg ∨
    (traced.state.servers me).control = .unlocking client msg → ∃ slot, slotOf msg.pos = some slot

/-- A client sends a `!finish` only with the slot of an `!available` it has been sent and
has not used. -/
def Disciplined (before after : Traced (Hub n Client) (Grants n Client)) : Prop :=
  ∀ client, ∀ io ∈ (after.state.requests client).drop (before.state.requests client).length,
    io.type = .finish →
    ∃ slot, slotOf io.buf.pos = some slot ∧ before.past.available client slot = true

instance [Fintype Client] (before after : Traced (Hub n Client) (Grants n Client)) :
    Decidable (Disciplined before after) :=
  inferInstanceAs (Decidable (∀ _, ∀ _ ∈ _, _ → ∃ _, _))

section Lemmas

variable {grants : Grants n Client} {me other : Fin n} {client someone : Client}
  {slot named : Slot} {offered : Bool} {io : Io} {held : Option Client}

@[simp] theorem Grants.reserve_reserved :
    (grants.reserve me slot held).reserved other named =
      if other = me ∧ named = slot then held else grants.reserved other named := by
  unfold reserve
  by_cases same : other = me
  · subst same
    by_cases equal : named = slot <;> simp [equal]
  · simp [same]

@[simp] theorem Grants.reserve_available :
    (grants.reserve me slot held).available = grants.available := rfl

@[simp] theorem Grants.reserve_tokens :
    (grants.reserve me slot held).tokens = grants.tokens := rfl

variable [DecidableEq Client]

@[simp] theorem Grants.offer_available : (grants.offer client slot offered).available someone named =
    if someone = client ∧ named = slot then offered else grants.available someone named := by
  unfold offer
  by_cases same : someone = client
  · subst same
    by_cases equal : named = slot <;> simp [equal]
  · simp [same]

@[simp] theorem Grants.offer_reserved :
    (grants.offer client slot offered).reserved = grants.reserved := rfl

@[simp] theorem Grants.offer_owed :
    (grants.offer client slot offered).owed = grants.owed := rfl

theorem Grants.mention_other {type : IoType} (different : io.type ≠ type) :
    grants.mention client io type offered = grants := by
  unfold mention
  split
  · exact if_neg different
  · rfl

theorem Grants.mention_same (pos : slotOf io.buf.pos = some slot) :
    grants.mention client io io.type offered = grants.offer client slot offered := by
  simp only [mention, pos, if_true]

end Lemmas

namespace Server

variable [DecidableEq Client] {server : Server Client} {client someone : Client} {receive : Io}
  {slot : Slot} {me : Fin n} {junk : Message} {disk : Disk n} {turn : Turn n Client}

theorem dispatch_tokens (polling : server.control = .polling) :
    (server.dispatch client receive).control.tokens someone slot =
      if client = someone ∧ receive.finishes slot = true then 1 else 0 := by
  unfold dispatch Io.finishes
  cases type : receive.type <;> simp [moveTo, ServerControl.tokens, polling]

omit [DecidableEq Client] in
theorem dispatch_finishing {msg : Message} (polling : server.control = .polling)
    (finishing : (server.dispatch client receive).control = .finishing someone msg ∨
      (server.dispatch client receive).control = .unlocking someone msg) :
    receive.type = .finish ∧ receive.buf = msg := by
  unfold dispatch at finishing
  cases type : receive.type <;> simp_all [moveTo]

omit [DecidableEq Client] in
/-- A server goes on working for the same client or is done with it. -/
theorem advance_serving (advanced : server.advance me junk disk = some turn) :
    turn.server.control.serving = none ∨
      turn.server.control.serving = server.control.serving := by
  cases advance_called advanced with
  | opened | restored | refused | granted | ended | freed | crashed => exact .inl rfl
  | wrote client msg slot control pos =>
      rw [control]
      exact .inr rfl
  | found client index control | reserved client index control =>
      rw [control]
      exact .inr rfl
  | loaded client control =>
      rw [control]
      exact .inr rfl
  | passed client index i control | probed client index i control =>
      rw [control]
      exact .inr rfl
  | skipped client i num_locked control | entered client i num_locked control =>
      rw [control]
      exact .inr rfl
  | left client i num_locked control | kept client i num_locked control =>
      rw [control]
      exact .inr rfl
  | showed client i num_locked control =>
      rw [control]
      exact .inr rfl

omit [DecidableEq Client] in
theorem advance_finishing {msg : Message} (advanced : server.advance me junk disk = some turn)
    (finishing : turn.server.control = .finishing client msg ∨
      turn.server.control = .unlocking client msg) : server.control = .finishing client msg := by
  cases advance_called advanced with
  | wrote other written slot control pos =>
      cases finishing with
      | inl same => cases same
      | inr same =>
          cases same
          exact control
  | _ => cases finishing <;> contradiction

end Server

namespace Sound

variable [DecidableEq Client] {home : Client → Fin n} {hub : Hub n Client} {grants : Grants n Client}
  {me : Fin n} {client : Client}

theorem send {io : Io} (sound : Sound home ⟨hub, grants⟩)
    (disciplined : io.type = .finish →
      ∃ slot, slotOf io.buf.pos = some slot ∧ grants.available client slot = true) :
    Sound home
      ⟨{ hub with requests := Function.update hub.requests client (hub.requests client ++ [io]) },
        grants.mention client io .finish false⟩ := by
  have reserved : (grants.mention client io .finish false).reserved = grants.reserved := by
    unfold Grants.mention
    split
    · split <;> rfl
    · rfl
  have kept : ∀ someone ∈ [io], someone.type = .finish → ∃ slot, slotOf someone.buf.pos = some slot := by
    intro someone member finish
    rw [List.mem_singleton] at member
    subst member
    obtain ⟨slot, pos, _⟩ := disciplined finish
    exact ⟨slot, pos⟩
  refine ⟨?_, ?_, ?_, sound.served, sound.fresh, ?_, sound.handled⟩
  · intro someone slot
    have before := sound.tokens someone slot
    simp only [Grants.owed, reserved] at before ⊢
    rw [← before]
    by_cases same : someone = client
    · subst same
      rw [Function.update_self, List.countP_append, List.countP_singleton]
      by_cases finish : io.type = .finish
      · obtain ⟨named, pos, available⟩ := disciplined finish
        rw [← finish, Grants.mention_same pos]
        by_cases equal : slot = named
        · subst equal
          simp [Grants.tokens, available, Io.finishes, finish, pos]
          omega
        · simp [Grants.tokens, Io.finishes, pos, equal, Ne.symm equal]
      · rw [Grants.mention_other finish]
        simp [Io.finishes, finish]
    · have untouched : (grants.mention client io .finish false).available someone =
          grants.available someone := by
        unfold Grants.mention
        split
        · split
          · funext named
            simp [same]
          · rfl
        · rfl
      simp only [Function.update_of_ne same, Grants.tokens, untouched]
  · intro me slot
    rw [reserved]
    exact sound.table me slot
  · intro me slot someone held
    rw [reserved] at held
    exact sound.homed me slot someone held
  · intro someone
    by_cases same : someone = client
    · subst same
      simp only [Function.update_self]
      intro one member finish
      rw [List.mem_append] at member
      cases member with
      | inl earlier => exact sound.queued someone one earlier finish
      | inr last => exact kept one last finish
    · simp only [Function.update_of_ne same]
      exact sound.queued someone

theorem serve {receive : Io} {rest : List Io} {closed : Client → Bool}
    (sound : Sound home ⟨hub, grants⟩) (here : home client = me)
    (polling : (hub.servers me).control = .polling)
    (next : hub.requests client = receive :: rest) :
    Sound home
      ⟨{ hub with
          servers := Function.update hub.servers me ((hub.servers me).dispatch client receive)
          requests := Function.update hub.requests client rest, closed }, grants⟩ := by
  obtain ⟨_, serving, locked, probes⟩ :=
    @Server.dispatch_hand Client (hub.servers me) client _ receive polling
  refine ⟨?_, ?_, sound.homed, ?_, ?_, ?_, ?_⟩
  · intro someone slot
    have before := sound.tokens someone slot
    simp only at before ⊢
    rw [← before]
    by_cases near : home someone = me
    · rw [near, Function.update_self, Server.dispatch_tokens polling, polling]
      by_cases same : someone = client
      · subst same
        rw [Function.update_self, next, List.countP_cons]
        simp only [true_and, ServerControl.tokens]
        omega
      · rw [Function.update_of_ne same, if_neg (fun both => same both.1.symm)]
        rfl
    · have apart : someone ≠ client := fun equal => near (equal ▸ here)
      rw [Function.update_of_ne near, Function.update_of_ne apart]
  · intro other slot
    by_cases same : other = me
    · subst same
      simp only [Function.update_self, locked]
      exact sound.table other slot
    · simp only [Function.update_of_ne same]
      exact sound.table other slot
  · intro other someone
    by_cases same : other = me
    · subst same
      simp only [Function.update_self]
      intro served
      cases serving with
      | inl mine =>
          rw [mine] at served
          cases served
          exact here
      | inr none =>
          rw [none] at served
          cases served
    · simp only [Function.update_of_ne same]
      exact sound.served other someone
  · intro other slot
    by_cases same : other = me
    · subst same
      simp only [Function.update_self, probes]
      exact nofun
    · simp only [Function.update_of_ne same]
      exact sound.fresh other slot
  · intro someone
    by_cases same : someone = client
    · subst same
      simp only [Function.update_self]
      intro io member
      exact sound.queued someone io (by simp [next, member])
    · simp only [Function.update_of_ne same]
      exact sound.queued someone
  · intro other someone msg
    by_cases same : other = me
    · subst same
      simp only [Function.update_self]
      intro finishing
      obtain ⟨type, rfl⟩ := Server.dispatch_finishing polling finishing
      exact sound.queued client receive (by simp [next]) type
    · simp only [Function.update_of_ne same]
      exact sound.handled other someone msg

theorem call {turn : Turn n Client} {junk : Message} {after : Grants n Client}
    (sound : Sound home ⟨hub, grants⟩)
    (advanced : (hub.servers me).advance me junk hub.disk = some turn)
    (mine : ∀ client slot, home client = me →
      turn.server.control.tokens client slot + after.tokens client slot +
          grants.owed me client slot =
        (hub.servers me).control.tokens client slot + grants.tokens client slot +
          after.owed me client slot)
    (others : ∀ client, home client ≠ me → after.available client = grants.available client)
    (apart : ∀ other, other ≠ me → after.reserved other = grants.reserved other)
    (table : ∀ slot, turn.server.locked slot = (after.reserved me slot).isSome)
    (homed : ∀ slot client, after.reserved me slot = some client → home client = me) :
    Sound home
      ⟨{ hub with servers := Function.update hub.servers me turn.server, disk := turn.disk },
        after⟩ := by
  refine ⟨?_, ?_, ?_, ?_, ?_, sound.queued, ?_⟩
  · intro client slot
    have before := sound.tokens client slot
    simp only at before ⊢
    by_cases near : home client = me
    · have moved := mine client slot near
      rw [near] at before
      rw [near, Function.update_self]
      omega
    · rw [Function.update_of_ne near]
      simp only [Grants.tokens, Grants.owed, others client near, apart _ near] at before ⊢
      exact before
  · intro other slot
    by_cases same : other = me
    · subst same
      simp only [Function.update_self]
      exact table slot
    · simp only [Function.update_of_ne same, apart other same]
      exact sound.table other slot
  · intro other slot client held
    by_cases same : other = me
    · subst same
      exact homed slot client held
    · rw [apart other same] at held
      exact sound.homed other slot client held
  · intro other client
    by_cases same : other = me
    · subst same
      simp only [Function.update_self]
      intro served
      cases Server.advance_serving advanced with
      | inl none =>
          rw [none] at served
          cases served
      | inr kept =>
          rw [kept] at served
          exact sound.served other client served
    · simp only [Function.update_of_ne same]
      exact sound.served other client
  · intro other
    by_cases same : other = me
    · subst same
      simp only [Function.update_self]
      exact Server.advance_fresh advanced (sound.fresh other)
    · simp only [Function.update_of_ne same]
      exact sound.fresh other
  · intro other client msg
    by_cases same : other = me
    · subst same
      simp only [Function.update_self]
      intro finishing
      exact sound.handled other client msg (.inl (Server.advance_finishing advanced finishing))
    · simp only [Function.update_of_ne same]
      exact sound.handled other client msg

/-- A system call that changes no reservation and sends no `!available`. -/
theorem quiet {turn : Turn n Client} {junk : Message} (sound : Sound home ⟨hub, grants⟩)
    (advanced : (hub.servers me).advance me junk hub.disk = some turn)
    (tokens : ∀ client slot, turn.server.control.tokens client slot =
      (hub.servers me).control.tokens client slot)
    (locked : turn.server.locked = (hub.servers me).locked) :
    Sound home
      ⟨{ hub with servers := Function.update hub.servers me turn.server, disk := turn.disk },
        grants⟩ := by
  refine sound.call advanced ?_ (fun _ _ => rfl) (fun _ _ => rfl) ?_ (sound.homed me)
  · intro client slot _
    rw [tokens]
  · intro slot
    rw [locked]
    exact sound.table me slot

theorem granting {tmp : Slot} (sound : Sound home ⟨hub, grants⟩)
    (control : (hub.servers me).control = .granting client tmp) :
    grants.available client tmp = false ∧ home client = me := by
  have near : home client = me := sound.served me client (by rw [control]; rfl)
  have before := sound.tokens client tmp
  simp only [near, control, ServerControl.tokens, Grants.tokens, Grants.owed, and_self,
    if_true] at before
  refine ⟨?_, near⟩
  cases available : grants.available client tmp with
  | false => rfl
  | true =>
      rw [available, if_pos rfl] at before
      split at before <;> omega

/-- A `!finish` in hand is for a slot that is reserved for its sender. -/
theorem finishing {msg : Message} (sound : Sound home ⟨hub, grants⟩)
    (control : (hub.servers me).control = .finishing client msg ∨
      (hub.servers me).control = .unlocking client msg) :
    ∃ slot, slotOf msg.pos = some slot ∧ grants.reserved me slot = some client ∧
      home client = me ∧ grants.available client slot = false := by
  obtain ⟨slot, pos⟩ := sound.handled me client msg control
  have near : home client = me := by
    refine sound.served me client ?_
    cases control with
    | inl control => rw [control]; rfl
    | inr control => rw [control]; rfl
  have hand : (hub.servers me).control.tokens client slot = 1 := by
    cases control with
    | inl control => simp [control, ServerControl.tokens, pos]
    | inr control => simp [control, ServerControl.tokens, pos]
  have before := sound.tokens client slot
  simp only [near, hand, Grants.owed, Grants.tokens] at before
  refine ⟨slot, pos, ?_, near, ?_⟩
  · by_contra free
    rw [if_neg free] at before
    omega
  · cases available : grants.available client slot with
    | false => rfl
    | true =>
        rw [available, if_pos rfl] at before
        split at before <;> omega

end Sound

namespace Hub

variable [DecidableEq Client] {hub : Hub n Client} {grants : Grants n Client} {me : Fin n}
  {client : Client} {junk : Message} {turn : Turn n Client}

theorem note_serving (advanced : (hub.servers me).advance me junk hub.disk = some turn)
    (serving : (hub.servers me).control.serving = some client) :
    note (.advance me junk) hub grants = grants.apply me client turn.effect := by
  simp only [note, advanced, serving]

theorem note_idle (serving : (hub.servers me).control.serving = none) :
    note (.advance me junk) hub grants = grants := by
  simp only [note, serving]
  cases (hub.servers me).advance me junk hub.disk <;> rfl

end Hub

namespace Sound

variable [DecidableEq Client] {home : Client → Fin n} {hub : Hub n Client}
  {grants : Grants n Client} {me : Fin n} {client : Client} {junk : Message}

theorem advance {turn : Turn n Client} (sound : Sound home ⟨hub, grants⟩)
    (advanced : (hub.servers me).advance me junk hub.disk = some turn) :
    Sound home
      ⟨{ hub with servers := Function.update hub.servers me turn.server, disk := turn.disk },
        Hub.note (.advance me junk) hub grants⟩ := by
  cases Server.advance_called advanced with
  | opened control | restored control =>
      rw [Hub.note_idle (by rw [control]; rfl)]
      exact sound.quiet advanced (fun _ _ => by rw [control]; rfl) rfl
  | loaded client control =>
      rw [Hub.note_serving advanced (by rw [control]; rfl)]
      exact sound.quiet advanced (fun _ _ => by rw [control]; rfl) rfl
  | found client index control =>
      rw [Hub.note_serving advanced (by rw [control]; rfl)]
      exact sound.quiet advanced (fun _ _ => by rw [control]; rfl) rfl
  | passed client index i control | probed client index i control =>
      rw [Hub.note_serving advanced (by rw [control]; rfl)]
      exact sound.quiet advanced (fun _ _ => by rw [control]; rfl) rfl
  | skipped client i num_locked control | entered client i num_locked control =>
      rw [Hub.note_serving advanced (by rw [control]; rfl)]
      exact sound.quiet advanced (fun _ _ => by rw [control]; rfl) rfl
  | left client i num_locked control | kept client i num_locked control =>
      rw [Hub.note_serving advanced (by rw [control]; rfl)]
      exact sound.quiet advanced (fun _ _ => by rw [control]; rfl) rfl
  | refused client index i control =>
      rw [Hub.note_serving advanced (by rw [control]; rfl), Grants.apply,
        Grants.mention_other (by simp)]
      exact sound.quiet advanced (fun _ _ => by rw [control]; rfl) rfl
  | ended client i num_locked control =>
      rw [Hub.note_serving advanced (by rw [control]; rfl), Grants.apply,
        Grants.mention_other (by simp)]
      exact sound.quiet advanced (fun _ _ => by rw [control]; rfl) rfl
  | showed client i num_locked control =>
      rw [Hub.note_serving advanced (by rw [control]; rfl), Grants.apply,
        Grants.mention_other (by simp)]
      exact sound.quiet advanced (fun _ _ => by rw [control]; rfl) rfl
  | wrote client msg slot control pos =>
      rw [Hub.note_serving advanced (by rw [control]; rfl)]
      exact sound.quiet advanced (fun _ _ => by rw [control]; rfl) rfl
  | crashed client msg control outside =>
      obtain ⟨slot, pos⟩ := sound.handled me client msg control
      rw [outside] at pos
      cases pos
  | granted client tmp control =>
      obtain ⟨unused, near⟩ := sound.granting control
      have offered : Grants.apply grants me client
          (.reply ⟨.available, { junk with pos := tmp }⟩) = grants.offer client tmp true :=
        Grants.mention_same (slotOf_val tmp)
      rw [Hub.note_serving advanced (by rw [control]; rfl), offered]
      refine sound.call advanced ?_ ?_ (fun _ _ => rfl) (sound.table me) (sound.homed me)
      · intro someone slot _
        rw [control]
        by_cases same : someone = client ∧ slot = tmp
        · obtain ⟨rfl, rfl⟩ := same
          simp [ServerControl.tokens, Server.moveTo, Grants.tokens, unused]
        · have apart : ¬(client = someone ∧ tmp = slot) :=
            fun both => same ⟨both.1.symm, both.2.symm⟩
          simp [ServerControl.tokens, Server.moveTo, Grants.tokens, same, apart]
      · intro someone far
        funext slot
        have different : someone ≠ client := fun equal => far (equal ▸ near)
        simp [different]
  | reserved client tmp control =>
      have near : home client = me := sound.served me client (by rw [control]; rfl)
      have free : grants.reserved me tmp = none := by
        have unlocked := sound.fresh me tmp (by rw [control]; rfl)
        have table := sound.table me tmp
        simp only at unlocked table
        rw [unlocked] at table
        exact Option.isNone_iff_eq_none.mp (by simpa using table.symm)
      rw [Hub.note_serving advanced (by rw [control]; rfl), Grants.apply]
      refine sound.call advanced ?_ (fun _ _ => rfl) ?_ ?_ ?_
      · intro someone slot _
        rw [control]
        by_cases equal : slot = tmp
        · subst equal
          by_cases same : client = someone
          · simp [ServerControl.tokens, Server.moveTo, Grants.owed, free, same]
            omega
          · simp [ServerControl.tokens, Server.moveTo, Grants.owed, free, same]
        · simp [ServerControl.tokens, Server.moveTo, Grants.owed, equal,
            Ne.symm equal]
      · intro other different
        funext slot
        simp [different]
      · intro slot
        have table := sound.table me slot
        simp only at table
        by_cases equal : slot = tmp
        · simp [Server.moveTo, Server.reserve, equal]
        · simp [Server.moveTo, Server.reserve, equal, table]
      · intro slot someone held
        by_cases equal : slot = tmp
        · simp only [Grants.reserve_reserved, equal, and_self, if_true, Option.some.injEq] at held
          exact held ▸ near
        · simp only [Grants.reserve_reserved, equal, and_false, if_false] at held
          exact sound.homed me slot someone held
  | freed client msg slot control pos =>
      obtain ⟨found, pos', held, near, unused⟩ := sound.finishing (.inr control)
      obtain rfl : slot = found := Option.some.inj (pos.symm.trans pos')
      rw [Hub.note_serving advanced (by rw [control]; rfl), Grants.apply]
      refine sound.call advanced ?_ (fun _ _ => rfl) ?_ ?_ ?_
      · intro someone other _
        rw [control]
        by_cases equal : other = slot
        · subst equal
          by_cases same : client = someone
          · simp [ServerControl.tokens, Server.moveTo, Grants.owed, held, same, pos]
            omega
          · simp [ServerControl.tokens, Server.moveTo, Grants.owed, held, same]
        · simp [ServerControl.tokens, Server.moveTo, Grants.owed, equal,
            Ne.symm equal, pos]
      · intro other different
        funext slot
        simp [different]
      · intro other
        have table := sound.table me other
        simp only at table
        by_cases equal : other = slot
        · simp [Server.moveTo, Server.reserve, equal]
        · simp [Server.moveTo, Server.reserve, equal, table]
      · intro other someone held
        by_cases equal : other = slot
        · simp [equal] at held
        · simp only [Grants.reserve_reserved, equal, and_false, if_false] at held
          exact sound.homed me other someone held

theorem boot (board : Slot → Record) : Sound home (Hub.start n Client board) where
  tokens client slot := rfl
  table me slot := rfl
  homed me slot client held := by cases held
  served me client served := by cases served
  fresh me slot probes := by cases probes
  queued client io member := by cases member
  handled me client msg control := by rcases control with control | control <;> cases control

theorem step {before after : Traced (Hub n Client) (Grants n Client)} (sound : Sound home before)
    (stepped : Hub.Step home before after) (disciplined : Disciplined before after) :
    Sound home after := by
  obtain ⟨event, computed, noted⟩ := stepped
  have same : after = ⟨after.state, Hub.note event before.state before.past⟩ := by rw [← noted]
  unfold Hub.step at computed
  cases event with
  | send client io =>
      simp only [Option.some.injEq] at computed
      rw [same, ← computed]
      refine sound.send fun finish => disciplined client io ?_ finish
      simp [← computed]
  | serve me client =>
      simp only at computed
      split at computed
      · rename_i enabled
        split at computed
        · cases computed
        · rename_i receive rest next
          rw [Option.some.injEq] at computed
          rw [same, ← computed]
          exact sound.serve enabled.1 enabled.2.1 next
      · cases computed
  | advance me junk =>
      simp only at computed
      split at computed
      · cases computed
      · rename_i turn advanced
        rw [Option.some.injEq] at computed
        rw [same, ← computed]
        exact sound.advance advanced

theorem of_run {board : Slot → Record} {traced : Traced (Hub n Client) (Grants n Client)}
    (run : ReflTransGen (Restrict (Hub.Step home) Disciplined) (Hub.start n Client board) traced) :
    Sound home traced :=
  invariant_of_run (fun _ _ taken sound => sound.step taken.1 taken.2) run (boot board)

end Sound

/-- A system call inside a `!finish` handler touches the slot of its message only. -/
theorem Server.advance_touches {server : Server Client} {disk : Disk n} {turn : Turn n Client}
    {me : Fin n} {client : Client} {junk : Message} {msg : Message} {slot other : Slot}
    (advanced : server.advance me junk disk = some turn)
    (control : server.control = .finishing client msg ∨ server.control = .unlocking client msg)
    (pos : slotOf msg.pos = some slot) (different : other ≠ slot) :
    turn.disk.board other = disk.board other ∧ turn.server.locked other = server.locked other := by
  have board := advanced
  unfold advance at board
  cases control with
  | inl control =>
      simp only [control, pos, Option.some.injEq] at board
      subst board
      exact ⟨Function.update_of_ne different .., rfl⟩
  | inr control =>
      simp only [control, pos, Option.some.injEq] at board
      subst board
      refine ⟨?_, Function.update_of_ne different ..⟩
      unfold Disk.unlock
      split <;> rfl

variable [DecidableEq Client] {home : Client → Fin n} {board : Slot → Record}
  {traced : Traced (Hub n Client) (Grants n Client)}

/-- With disciplined clients, every `!finish` that is handled is for a slot reserved for
its sender, and changes the board and the table there only. -/
theorem finish_writes_reserved
    (run : ReflTransGen (Restrict (Hub.Step home) Disciplined) (Hub.start n Client board) traced)
    (me : Fin n) (client : Client) (msg : Message)
    (control : (traced.state.servers me).control = .finishing client msg ∨
      (traced.state.servers me).control = .unlocking client msg) :
    ∃ slot, slotOf msg.pos = some slot ∧ traced.past.reserved me slot = some client ∧
      ∀ junk turn, (traced.state.servers me).advance me junk traced.state.disk = some turn →
        ∀ other, other ≠ slot → turn.disk.board other = traced.state.disk.board other ∧
          turn.server.locked other = (traced.state.servers me).locked other := by
  obtain ⟨slot, pos, held, _⟩ := (Sound.of_run run).finishing control
  exact ⟨slot, pos, held, fun junk turn advanced other different =>
    Server.advance_touches advanced control pos different⟩

theorem finish_writes_reserved_granted :
    ∃ traced : Traced (Hub 1 Unit) (Grants 1 Unit),
      (traced.state.servers 0).control = .finishing () ⟨.zero, 0⟩ ∧
      traced.past.reserved 0 0 = some () := by
  have completes : (Traced.run (Hub.step fun _ => 0) Hub.note
      (fun before after => decide (Disciplined before after))
      (List.replicate 2 (Event.advance 0 ⟨.zero, 0⟩) ++ [Event.send () ⟨.post, ⟨.zero, 0⟩⟩, .serve 0 ()] ++
        List.replicate 4 (Event.advance 0 ⟨.zero, 0⟩) ++
        [Event.send () ⟨.finish, ⟨.zero, 0⟩⟩, .serve 0 ()])
      (Hub.start 1 Unit fun _ => .zero)).any (fun traced =>
        (traced.state.servers 0).control = .finishing () ⟨.zero, 0⟩) = true := by
    decide +kernel
  obtain ⟨traced, ran, facts⟩ := (Option.any_eq_true _ _).mp completes
  have control := of_decide_eq_true facts
  have steps : ReflTransGen (Restrict (Hub.Step fun _ => 0) Disciplined)
      (Hub.start 1 Unit fun _ => .zero) traced := by
    have taken := Traced.run_steps ran
    simp only [decide_eq_true_eq] at taken
    exact taken
  obtain ⟨slot, pos, held, _⟩ := finish_writes_reserved steps 0 () _ (.inl control)
  cases pos
  exact ⟨traced, control, held⟩

def letter : Message := ⟨⟨scanf Record.zero.From ⟨[97], by decide⟩, .replicate _ 0⟩, 0⟩

/-- A client sends a `!finish` out of the blue, and it is written. -/
theorem finish_unreserved :
    ∃ traced after : Traced (Hub 1 Unit) (Grants 1 Unit),
      ReflTransGen (Hub.Step fun _ => 0) (Hub.start 1 Unit fun _ => .zero) traced ∧
      (traced.state.servers 0).control = .finishing () letter ∧
      (∀ slot, traced.past.reserved 0 slot = none) ∧
      Hub.Step (fun _ => 0) traced after ∧
      after.state.disk.board 0 ≠ traced.state.disk.board 0 := by
  have completes : (Traced.run (Hub.step fun _ => 0) Hub.note (fun _ _ => true)
      (List.replicate 2 (Event.advance 0 ⟨.zero, 0⟩) ++ [Event.send () ⟨.finish, letter⟩, .serve 0 ()])
      (Hub.start 1 Unit fun _ => .zero)).any (fun traced =>
        (traced.state.servers 0).control = .finishing () letter ∧
        (∀ slot, traced.past.reserved 0 slot = none) ∧
        (Hub.step (fun _ => 0) (.advance 0 ⟨.zero, 0⟩) traced.state).any (fun hub =>
          hub.disk.board 0 ≠ traced.state.disk.board 0) = true) = true := by
    decide +kernel
  obtain ⟨traced, ran, facts⟩ := (Option.any_eq_true _ _).mp completes
  obtain ⟨control, free, next⟩ := of_decide_eq_true facts
  obtain ⟨hub, stepped, changed⟩ := (Option.any_eq_true _ _).mp next
  exact ⟨traced, ⟨hub, Hub.note (.advance 0 ⟨.zero, 0⟩) traced.state traced.past⟩,
    Restrict.run _ (Traced.run_steps ran), control, free, ⟨_, stepped, rfl⟩,
    of_decide_eq_true changed⟩

end SysProg.Bulletin
