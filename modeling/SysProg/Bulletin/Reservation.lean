import SysProg.Data.Reservation
import SysProg.Bulletin.Session

namespace SysProg.Bulletin

open Relation SysProg.Data SysProg.Transition

variable {n : Nat} {Client : Type} {home : Client → Fin n}
  {state after : State n Client} {me : Fin n} {junk : Message} {server : Server Client}
  {disk : Disk n} {turn : Turn n Client} {client : Client}

/-- The slot whose probe a server is about to give up or has found free. -/
def ServerControl.probes : ServerControl Client → Option Slot
  | .probed _ index => some index
  | .reserving _ tmp => some tmp
  | .seen _ i _ => some i
  | _ => none

def Effect.lock (effect : Effect) (locked : Slot → Bool) : Slot → Bool :=
  match effect with
  | .reserve slot => Function.update locked slot true
  | .free slot => Function.update locked slot false
  | _ => locked

theorem hand_of_serving [DecidableEq Client] {control : ServerControl Client} (other : control.serving ≠ some client) :
    control.hand client = .idle := by
  cases control with
  | opening => rfl
  | restoring => rfl
  | polling => rfl
  | crashed => rfl
  | _ => exact if_neg (fun same => other (congrArg some same))

namespace Server

theorem advance_locked (advanced : server.advance me junk disk = some turn) :
    turn.server.locked = turn.effect.lock server.locked := by
  unfold advance at advanced
  cases control : server.control with
  | probing client index i =>
      simp only [control, Option.some.injEq] at advanced
      subst advanced
      unfold probe
      split
      · split
        · rfl
        · split <;> rfl
      · rfl
  | scanning client i num_locked =>
      simp only [control, Option.some.injEq] at advanced
      subst advanced
      unfold scan
      split
      · split <;> rfl
      · rfl
  | finishing client msg =>
      simp only [control] at advanced
      split at advanced <;> (cases advanced; rfl)
  | unlocking client msg =>
      simp only [control] at advanced
      split at advanced <;> (cases advanced; rfl)
  | _ =>
      simp only [control, reduceCtorEq, Option.some.injEq] at advanced
      try subst advanced
      try rfl

theorem advance_fresh (advanced : server.advance me junk disk = some turn)
    (fresh : ∀ slot, server.control.probes = some slot → server.locked slot = false) :
    ∀ slot, turn.server.control.probes = some slot → turn.server.locked slot = false := by
  unfold advance at advanced
  cases control : server.control with
  | probing client index i =>
      simp only [control, Option.some.injEq] at advanced
      subst advanced
      unfold probe
      split
      · split
        · intro slot probes
          cases probes
        · rename_i unlocked
          split
          · intro slot probes
            cases probes
            exact Bool.not_eq_true _ ▸ unlocked
          · intro slot probes
            cases probes
      · intro slot probes
        cases probes
  | scanning client i num_locked =>
      simp only [control, Option.some.injEq] at advanced
      subst advanced
      unfold scan
      split
      · split
        · intro slot probes
          cases probes
        · rename_i open_
          intro slot probes
          cases probes
          rw [not_or, Bool.not_eq_true] at open_
          exact open_.1
      · intro slot probes
        cases probes
  | finishing client msg =>
      simp only [control] at advanced
      split at advanced <;> (cases advanced; intro slot probes; cases probes)
  | unlocking client msg =>
      simp only [control] at advanced
      split at advanced <;> (cases advanced; intro slot probes; cases probes)
  | probed client index =>
      simp only [control, Option.some.injEq] at advanced
      subst advanced
      rw [control] at fresh
      exact fresh
  | seen client i num_locked =>
      simp only [control, Option.some.injEq] at advanced
      subst advanced
      intro slot probes
      change (if _ then ServerControl.scanning client (i + 1) num_locked else
        .showing client i num_locked).probes = some slot at probes
      split at probes <;> cases probes
  | _ =>
      simp only [control, reduceCtorEq, Option.some.injEq] at advanced
      try (subst advanced; intro slot probes; cases probes)

/-- A slot is reserved after its probe only. -/
theorem advance_reserves {slot : Slot} (advanced : server.advance me junk disk = some turn)
    (reserves : turn.effect = .reserve slot) : server.control.probes = some slot := by
  unfold advance at advanced
  cases control : server.control with
  | reserving client tmp =>
      simp only [control, Option.some.injEq] at advanced
      subst advanced
      cases reserves
      rfl
  | probing client index i =>
      simp only [control, Option.some.injEq] at advanced
      subst advanced
      unfold probe at reserves
      split at reserves
      · split at reserves
        · cases reserves
        · split at reserves <;> cases reserves
      · cases reserves
  | scanning client i num_locked =>
      simp only [control, Option.some.injEq] at advanced
      subst advanced
      unfold scan at reserves
      split at reserves
      · split at reserves <;> cases reserves
      · cases reserves
  | finishing client msg =>
      simp only [control] at advanced
      split at advanced <;> (cases advanced; cases reserves)
  | unlocking client msg =>
      simp only [control] at advanced
      split at advanced <;> (cases advanced; cases reserves)
  | _ =>
      simp only [control, reduceCtorEq, Option.some.injEq] at advanced
      try (subst advanced; cases reserves)

variable [DecidableEq Client]

/-- A conversation between two points of one handler. -/
def Converses (client : Client) (before : ServerControl Client) (turn : Turn n Client) : Prop :=
  HandStep (before.hand client) (turn.server.control.hand client) turn.effect ∧
    (turn.server.control.serving = some client ∨ turn.server.control.serving = none)

theorem probe_hand (index : Slot) (i : Nat) :
    Converses client (.probing client index i) (probe me junk client index i server disk) := by
  unfold probe
  split
  · split
    · exact ⟨by simpa [ServerControl.hand, moveTo] using HandStep.seek, .inl rfl⟩
    · split <;> exact ⟨by simpa [ServerControl.hand, moveTo] using HandStep.seek, .inl rfl⟩
  · exact ⟨by simpa [ServerControl.hand, moveTo] using HandStep.full ⟨.full, junk⟩ rfl, .inr rfl⟩

theorem scan_hand (i num_locked : Nat) :
    Converses client (.scanning client i num_locked)
      (scan me junk client i num_locked server disk) := by
  unfold scan
  split
  · split <;> exact ⟨by simpa [ServerControl.hand, moveTo] using HandStep.pull, .inl rfl⟩
  · exact ⟨by simpa [ServerControl.hand, moveTo] using HandStep.ended ⟨.end, junk⟩ rfl, .inr rfl⟩

/-- A system call is one step of the conversation with the client it is made for. -/
theorem advance_hand (advanced : server.advance me junk disk = some turn)
    (serving : server.control.serving = some client) :
    Converses client server.control turn := by
  unfold advance at advanced
  cases control : server.control with
  | opening => simp [control, ServerControl.serving] at serving
  | restoring => simp [control, ServerControl.serving] at serving
  | polling => simp [control, ServerControl.serving] at serving
  | crashed => simp [control, ServerControl.serving] at serving
  | probing other index i =>
      obtain rfl : other = client := by simpa [control, ServerControl.serving] using serving
      simp only [control, Option.some.injEq] at advanced
      exact advanced ▸ probe_hand index i
  | probed other index =>
      obtain rfl : other = client := by simpa [control, ServerControl.serving] using serving
      simp only [control, Option.some.injEq] at advanced
      subst advanced
      exact ⟨by simpa [ServerControl.hand, moveTo] using HandStep.seek, .inl rfl⟩
  | reserving other tmp =>
      obtain rfl : other = client := by simpa [control, ServerControl.serving] using serving
      simp only [control, Option.some.injEq] at advanced
      subst advanced
      exact ⟨by simpa [ServerControl.hand, moveTo] using HandStep.reserve tmp, .inl rfl⟩
  | granting other tmp =>
      obtain rfl : other = client := by simpa [control, ServerControl.serving] using serving
      simp only [control, Option.some.injEq] at advanced
      subst advanced
      have granted := HandStep.grant tmp ⟨.available, { junk with pos := tmp }⟩ rfl (slotOf_val tmp)
      exact ⟨by simpa [ServerControl.hand, moveTo] using granted, .inr rfl⟩
  | loading other =>
      obtain rfl : other = client := by simpa [control, ServerControl.serving] using serving
      simp only [control, Option.some.injEq] at advanced
      subst advanced
      exact ⟨by simpa [ServerControl.hand, moveTo] using HandStep.pull, .inl rfl⟩
  | scanning other i num_locked =>
      obtain rfl : other = client := by simpa [control, ServerControl.serving] using serving
      simp only [control, Option.some.injEq] at advanced
      exact advanced ▸ scan_hand i num_locked
  | seen other i num_locked =>
      obtain rfl : other = client := by simpa [control, ServerControl.serving] using serving
      simp only [control, Option.some.injEq] at advanced
      subst advanced
      unfold Converses moveTo
      cases (server.bulletinbuf i).empty with
      | true => exact ⟨by simpa [ServerControl.hand] using HandStep.pull, .inl rfl⟩
      | false => exact ⟨by simpa [ServerControl.hand] using HandStep.pull, .inl rfl⟩
  | showing other i num_locked =>
      obtain rfl : other = client := by simpa [control, ServerControl.serving] using serving
      simp only [control, Option.some.injEq] at advanced
      subst advanced
      have shown := HandStep.record ⟨.record, { junk with rd := server.bulletinbuf i }⟩ rfl
      exact ⟨by simpa [ServerControl.hand, moveTo] using shown, .inl rfl⟩
  | finishing other msg =>
      obtain rfl : other = client := by simpa [control, ServerControl.serving] using serving
      simp only [control] at advanced
      split at advanced
      · rename_i slot pos
        cases advanced
        exact ⟨by simpa [ServerControl.hand, moveTo] using HandStep.write msg slot pos, .inl rfl⟩
      · rename_i outside
        cases advanced
        exact ⟨by simpa [ServerControl.hand, moveTo] using HandStep.crash msg outside, .inr rfl⟩
  | unlocking other msg =>
      obtain rfl : other = client := by simpa [control, ServerControl.serving] using serving
      simp only [control] at advanced
      split at advanced
      · rename_i slot pos
        cases advanced
        exact ⟨by simpa [ServerControl.hand, moveTo] using HandStep.free msg slot pos, .inr rfl⟩
      · rename_i outside
        cases advanced
        exact ⟨by simpa [ServerControl.hand, moveTo] using HandStep.crash msg outside, .inr rfl⟩

omit [DecidableEq Client] in
theorem advance_start (advanced : server.advance me junk disk = some turn)
    (serving : server.control.serving = none) :
    turn.effect = .silent ∧ turn.server.control.serving = none := by
  unfold advance at advanced
  cases control : server.control with
  | opening =>
      simp only [control, Option.some.injEq] at advanced
      exact advanced ▸ ⟨rfl, rfl⟩
  | restoring =>
      simp only [control, Option.some.injEq] at advanced
      exact advanced ▸ ⟨rfl, rfl⟩
  | polling => simp [control] at advanced
  | crashed => simp [control] at advanced
  | _ => simp [control, ServerControl.serving] at serving

theorem dispatch_hand (receive : Io) (polling : server.control = .polling) :
    (server.dispatch client receive).control.hand client = receive.hand ∧
      ((server.dispatch client receive).control.serving = some client ∨
        (server.dispatch client receive).control.serving = none) ∧
      (server.dispatch client receive).locked = server.locked ∧
      (server.dispatch client receive).control.probes = none := by
  unfold dispatch Io.hand
  cases receive.type <;>
    simp [ServerControl.hand, ServerControl.serving, ServerControl.probes, moveTo, polling]

end Server

variable [DecidableEq Client]

namespace State

theorem apply_servers (client : Client) (effect : Effect) (state : State n Client) :
    (state.apply client effect).servers = state.servers := by
  cases effect <;> rfl

theorem apply_disk (client : Client) (effect : Effect) (state : State n Client) :
    (state.apply client effect).disk = state.disk := by
  cases effect <;> rfl

theorem apply_clients (client : Client) (effect : Effect) (state : State n Client) :
    (state.apply client effect).clients =
      Function.update state.clients client ((state.clients client).receive effect) := by
  cases effect with
  | reply io => rfl
  | _ => exact (Function.update_eq_self client state.clients).symm

theorem apply_holding (client : Client) (effect : Effect) (state : State n Client) :
    (state.apply client effect).holding =
      Function.update state.holding client (effect.hold (state.holding client)) := by
  cases effect with
  | reserve slot => rfl
  | free slot => rfl
  | _ => exact (Function.update_eq_self client state.holding).symm

end State

/-- Each server's table `locked` agrees with the conversations of its clients. -/
structure Reserved (home : Client → Fin n) (state : State n Client) : Prop where
  homed : ∀ me client, (state.servers me).control.serving = some client → home client = me
  session : ∀ client, Session (state.clients client)
    ((state.servers (home client)).control.hand client) (state.holding client)
  fresh : ∀ me slot, (state.servers me).control.probes = some slot →
    (state.servers me).locked slot = false
  table : ∀ me, Matched (state.servers me).locked state.holding fun client => home client = me

/-- What a step for `client` does to the table of its server and to the history. -/
theorem Effect.table {locked : Slot → Bool} {holding : Client → Option Slot}
    {member : Client → Prop} {effect : Effect} (matched : Matched locked holding member)
    (inside : member client)
    (reserves : ∀ slot, effect = .reserve slot → locked slot = false ∧ holding client = none)
    (frees : ∀ slot, effect = .free slot → holding client = some slot) :
    Matched (effect.lock locked)
      (Function.update holding client (effect.hold (holding client))) member := by
  cases effect with
  | reserve slot =>
      obtain ⟨free, empty⟩ := reserves slot rfl
      exact matched.take inside free empty
  | free slot => exact matched.release inside (frees slot rfl)
  | _ => simpa only [lock, hold, Function.update_eq_self] using matched

namespace Reserved

theorem boot (home : Client → Fin n) (board : Slot → Record) :
    Reserved home (boot n Client board) where
  homed := by simp [Bulletin.boot, Server.boot, ServerControl.serving]
  session client := .prompt _ _ (.inl rfl) rfl (.clear rfl)
  fresh := by simp [Bulletin.boot, Server.boot, ServerControl.probes]
  table _ := .of_empty fun _ => rfl

theorem move {move : ClientMove} {now : ClientState} (reserved : Reserved home state)
    (moved : (state.clients client).move move = some now) :
    Reserved home (state.setClient client now) where
  homed := reserved.homed
  session other := by
    cases eq_or_ne other client with
    | inl equal =>
        subst equal
        have here : (state.setClient other now).clients other = now := Function.update_self ..
        rw [here]
        exact (reserved.session other).move moved
    | inr different =>
        have there : (state.setClient client now).clients other = state.clients other :=
          Function.update_of_ne different ..
        rw [there]
        exact reserved.session other
  fresh := reserved.fresh
  table := reserved.table

theorem served {server : Server Client} {now : ClientState} {effect : Effect}
    (reserved : Reserved home state)
    (servers : after.servers = Function.update state.servers (home client) server)
    (clients : after.clients = Function.update state.clients client now)
    (holding : after.holding =
      Function.update state.holding client (effect.hold (state.holding client)))
    (alone : (state.servers (home client)).control.serving = some client ∨
      (state.servers (home client)).control.serving = none)
    (serving : server.control.serving = some client ∨ server.control.serving = none)
    (session : Session now (server.control.hand client)
      (effect.hold (state.holding client)))
    (fresh : ∀ slot, server.control.probes = some slot → server.locked slot = false)
    (locked : server.locked = effect.lock (state.servers (home client)).locked)
    (reserves : ∀ slot, effect = .reserve slot →
      (state.servers (home client)).locked slot = false ∧ state.holding client = none)
    (frees : ∀ slot, effect = .free slot → state.holding client = some slot) :
    Reserved home after where
  homed me other serves := by
    rw [servers] at serves
    cases eq_or_ne me (home client) with
    | inl equal =>
        subst equal
        rw [Function.update_self] at serves
        cases serving with
        | inl same =>
            rw [same] at serves
            rw [Option.some.inj serves]
        | inr nobody =>
            rw [nobody] at serves
            cases serves
    | inr different =>
        rw [Function.update_of_ne different] at serves
        exact reserved.homed me other serves
  session other := by
    rw [servers, clients, holding]
    cases eq_or_ne other client with
    | inl equal =>
        subst equal
        simpa only [Function.update_self] using session
    | inr different =>
        rw [Function.update_of_ne different, Function.update_of_ne different]
        have before := reserved.session other
        cases eq_or_ne (home other) (home client) with
        | inl together =>
            have idle : ∀ control : ServerControl Client,
                control.serving = some client ∨ control.serving = none →
                control.hand other = .idle := by
              intro control either
              refine hand_of_serving ?_
              cases either with
              | inl same =>
                  rw [same]
                  exact fun equal => different (Option.some.inj equal).symm
              | inr nobody => simp [nobody]
            rw [together, idle _ alone] at before
            rwa [together, Function.update_self, idle _ serving]
        | inr apart => rwa [Function.update_of_ne apart]
  fresh me slot probes := by
    rw [servers] at probes ⊢
    cases eq_or_ne me (home client) with
    | inl equal =>
        subst equal
        rw [Function.update_self] at probes ⊢
        exact fresh slot probes
    | inr different =>
        rw [Function.update_of_ne different] at probes ⊢
        exact reserved.fresh me slot probes
  table me := by
    rw [servers, holding]
    cases eq_or_ne me (home client) with
    | inl equal =>
        subst equal
        rw [Function.update_self, locked]
        exact Effect.table (reserved.table (home client)) rfl reserves frees
    | inr different =>
        rw [Function.update_of_ne different]
        refine (reserved.table me).congr fun other there => ?_
        exact Function.update_of_ne (fun equal => different (equal ▸ there).symm) ..

theorem serve {receive : Io} {rest : List Io} (reserved : Reserved home state)
    (polling : (state.servers (home client)).control = .polling)
    (next : (state.clients client).requests = receive :: rest) :
    Reserved home ((state.setServer (home client)
      ((state.servers (home client)).dispatch client receive)).setClient client
        { state.clients client with requests := rest }) := by
  obtain ⟨hand, serving, locked, probes⟩ :=
    @Server.dispatch_hand Client (state.servers (home client)) client _ receive polling
  have idle : Session (state.clients client) .idle (state.holding client) := by
    have session := reserved.session client
    rwa [polling] at session
  refine @served n Client home state _ client _ _ _ .silent reserved rfl rfl
    (Function.update_eq_self ..).symm (.inr (by rw [polling]; rfl)) serving
    (hand ▸ idle.serve next) ?_ locked (by simp) (by simp)
  intro slot probed
  rw [probes] at probed
  cases probed

theorem advance {turn : Turn n Client} (reserved : Reserved home state)
    (serving : (state.servers me).control.serving = some client)
    (advanced : (state.servers me).advance me junk state.disk = some turn) :
    Reserved home ({ state.setServer me turn.server with disk := turn.disk }.apply client
      turn.effect) := by
  obtain rfl : home client = me := reserved.homed me client serving
  obtain ⟨step, serving'⟩ := Server.advance_hand advanced serving
  have session := reserved.session client
  refine reserved.served (State.apply_servers ..) (State.apply_clients ..)
    (State.apply_holding ..) (.inl serving) serving' (session.advance step)
    (Server.advance_fresh advanced (reserved.fresh _)) (Server.advance_locked advanced) ?_ ?_
  · intro slot reserves
    exact ⟨reserved.fresh _ slot (Server.advance_reserves advanced reserves),
      session.reserves (reserves ▸ step)⟩
  · intro slot frees
    exact session.frees (frees ▸ step)

theorem start {turn : Turn n Client} (reserved : Reserved home state)
    (serving : (state.servers me).control.serving = none)
    (advanced : (state.servers me).advance me junk state.disk = some turn) :
    Reserved home { state.setServer me turn.server with disk := turn.disk } := by
  obtain ⟨silent, serving'⟩ := Server.advance_start advanced serving
  have locked := Server.advance_locked advanced
  have fresh := Server.advance_fresh advanced (reserved.fresh me)
  rw [silent] at locked
  have idle : ∀ control : ServerControl Client, control.serving = none → ∀ client,
      control.hand client = .idle := fun control nobody client =>
    hand_of_serving (by simp [nobody])
  refine ⟨?_, ?_, ?_, ?_⟩
  · intro other client serves
    change (Function.update state.servers me turn.server other).control.serving = _ at serves
    cases eq_or_ne other me with
    | inl equal => simp [equal, serving'] at serves
    | inr different =>
        rw [Function.update_of_ne different] at serves
        exact reserved.homed other client serves
  · intro client
    change Session _ ((Function.update state.servers me turn.server (home client)).control.hand _) _
    have before := reserved.session client
    cases eq_or_ne (home client) me with
    | inl equal =>
        rw [equal, idle _ serving] at before
        rwa [equal, Function.update_self, idle _ serving']
    | inr different => rwa [Function.update_of_ne different]
  · intro other slot probes
    change (Function.update state.servers me turn.server other).control.probes = _ at probes
    change (Function.update state.servers me turn.server other).locked slot = false
    cases eq_or_ne other me with
    | inl equal =>
        rw [equal, Function.update_self] at probes ⊢
        exact fresh slot probes
    | inr different =>
        rw [Function.update_of_ne different] at probes ⊢
        exact reserved.fresh other slot probes
  · intro other
    change Matched (Function.update state.servers me turn.server other).locked _ _
    cases eq_or_ne other me with
    | inl equal =>
        rw [equal, Function.update_self, locked]
        exact reserved.table me
    | inr different =>
        rw [Function.update_of_ne different]
        exact reserved.table other

theorem step {action : Action n Client} (reserved : Reserved home state)
    (stepped : Bulletin.step home action state = some after) : Reserved home after := by
  unfold Bulletin.step at stepped
  cases action with
  | client client move =>
      simp only at stepped
      split at stepped
      · rename_i now moved
        cases stepped
        exact reserved.move moved
      · cases stepped
  | serve me client =>
      simp only at stepped
      split at stepped
      · rename_i enabled
        obtain ⟨rfl, polling⟩ := enabled
        split at stepped
        · cases stepped
        · rename_i receive rest next
          cases stepped
          exact reserved.serve polling next
      · cases stepped
  | advance me junk =>
      simp only at stepped
      split at stepped
      · cases stepped
      · rename_i turn advanced
        split at stepped
        · rename_i serving
          cases stepped
          exact reserved.start serving advanced
        · rename_i client serving
          cases stepped
          exact reserved.advance serving advanced

theorem of_reachable {board : Slot → Record} (reached : Reachable home board state) :
    Reserved home state := by
  refine invariant_of_run ?_ reached (boot home board)
  intro before after stepped reserved
  obtain ⟨action, computed⟩ := stepped
  exact reserved.step computed

end Reserved

end SysProg.Bulletin
