import Mathlib.Data.Fintype.Card
import SysProg.Bulletin.Requests
import SysProg.Bulletin.Reservation
import SysProg.Data.Workload
import SysProg.Transition.Until

namespace SysProg.Bulletin

open Relation SysProg.Transition SysProg.Data

/-! # Every command is answered

Without new commands the servers and clients come to rest: each request has been handled
and each answer read, whatever the order of the steps. -/

variable {n : Nat} {Client : Type} {me : Fin n} {server : Server Client} {home : Client → Fin n}

/-- A step that no user has to prompt. -/
def Action.Unprompted : Action n Client → Prop
  | .client _ .read | .serve _ _ | .advance _ _ => True
  | .client _ _ => False

/-- No message is on its way, and the client waits for none. -/
structure ClientState.Rests (now : ClientState) : Prop where
  requests : now.requests = []
  replies : now.replies = []
  reading : now.control ≠ .reading
  waiting : now.control ≠ .waiting

/-! ## What is left to do -/

/-- A request may cost its handler 32 calls with an answer each, and is read once. -/
def ClientState.due (now : ClientState) : Nat := 70 * now.requests.length + now.replies.length

def Server.due (server : Server Client) : Nat := 2 * server.control.left

theorem Server.dispatch_due (client : Client) (receive : Io) (polling : server.control = .polling) :
    (server.dispatch client receive).due ≤ 64 := by
  unfold dispatch due
  cases receive.type with
  | post =>
      show 2 * (RECORD_NUM - 0 + 4) ≤ 64
      decide
  | pull =>
      show 2 * (3 * RECORD_NUM + 2) ≤ 64
      decide
  | finish =>
      show 2 * 2 ≤ 64
      decide
  | exit | full | available | record | «end» => simp [ServerControl.left, polling]

theorem ClientState.receive_due (effect : Effect) (now : ClientState) :
    (now.receive effect).due ≤ now.due + 1 := by
  unfold receive due
  cases effect with
  | reply io => simp; omega
  | _ => simp

theorem ClientState.read_due {now after : ClientState} (read : now.move .read = some after) :
    after.due + 1 = now.due := by
  unfold move at read
  cases control : now.control with
  | reading =>
      cases replies : now.replies with
      | nil => simp [control, replies] at read
      | cons receive rest =>
          simp only [control, replies] at read
          split at read <;> cases read <;> simp [due, replies] <;> omega
  | waiting =>
      cases replies : now.replies with
      | nil => simp [control, replies] at read
      | cons receive rest =>
          simp only [control, replies] at read
          split at read <;> cases read <;> simp [due, replies] <;> omega
  | starting | prompt | typing msg | closed => simp [control] at read

variable [DecidableEq Client]

def Settles (home : Client → Fin n) (before after : State n Client) : Prop :=
  ∃ action : Action n Client, action.Unprompted ∧ step home action before = some after

variable {state before after : State n Client}

/-- The handlers do not index out of bounds. -/
def Handling (state : State n Client) : Prop := ∀ me, (state.servers me).control.Sound

omit [DecidableEq Client] in
theorem Handling.boot (board : Slot → Record) : Handling (boot n Client board) := fun _ => trivial

/-- A message that a server takes out of `poll` does not send it out of bounds. -/
theorem dispatch_sound {client : Client} {receive : Io} (polling : server.control = .polling)
    {now : ClientState} {holding : Option Slot}
    (session : Session now ((server.dispatch client receive).control.hand client) holding) :
    (server.dispatch client receive).control.Sound := by
  rw [Server.dispatch] at session ⊢
  cases type : receive.type with
  | finish =>
      rw [type] at session
      have hand : (ServerControl.finishing client receive.buf).hand client = .finishing receive.buf := if_pos rfl
      change Session now ((ServerControl.finishing client receive.buf).hand client) holding at session
      rw [hand] at session
      obtain ⟨slot, pos, _⟩ := session.of_finishing
      show slotOf receive.buf.pos ≠ none
      rw [pos]
      exact Option.some_ne_none slot
  | post | pull => trivial
  | exit | full | available | record | «end» =>
      show server.control.Sound
      rw [polling]
      trivial

theorem Handling.step {action : Action n Client} (handling : Handling before) (reserved : Reserved home before)
    (stepped : Bulletin.step home action before = some after) : Handling after := by
  have reserved' := reserved.step stepped
  unfold Bulletin.step at stepped
  cases action with
  | client client move =>
      simp only at stepped
      split at stepped
      · cases stepped
        exact handling
      · cases stepped
  | serve me client =>
      simp only at stepped
      split at stepped
      · rename_i enabled
        obtain ⟨rfl, polling⟩ := enabled
        split at stepped
        · cases stepped
        · rename_i receive rest next
          cases stepped
          intro other
          have session := reserved'.session client
          simp only [State.setServer, State.setClient, Function.update_self] at session
          simp only [State.setServer, State.setClient]
          by_cases same : other = home client
          · rw [same, Function.update_self]
            exact dispatch_sound polling session
          · rw [Function.update_of_ne same]
            exact handling other
      · cases stepped
  | advance me junk =>
      simp only at stepped
      split at stepped
      · cases stepped
      · rename_i turn advanced
        have servers : after.servers = Function.update before.servers me turn.server := by
          split at stepped
          · cases stepped
            rfl
          · cases stepped
            exact State.apply_servers ..
        intro other
        rw [servers]
        by_cases same : other = me
        · rw [same, Function.update_self]
          exact ((Server.advance_called advanced).sound (handling me)).1
        · rw [Function.update_of_ne same]
          exact handling other

theorem Handling.of_reachable {board : Slot → Record} (reached : Reachable home board state) :
    Handling state := by
  refine invariant_of_reached ?_ reached (.boot board)
  intro before after run stepped handling
  obtain ⟨action, computed⟩ := stepped
  exact handling.step (.of_reachable run) computed

/-! ## Every step leaves less to do -/

variable [Fintype Client]

def State.due (state : State n Client) : Nat :=
  workload ClientState.due Finset.univ state.clients + workload Server.due Finset.univ state.servers

theorem State.due_setClient (state : State n Client) (client : Client) (now : ClientState) :
    (state.setClient client now).due + (state.clients client).due = state.due + now.due := by
  have moved := @workload_update _ _ ClientState.due Finset.univ state.clients _ client (Finset.mem_univ _) now
  rw [due, due]
  change workload ClientState.due Finset.univ (Function.update state.clients client now) +
    workload Server.due Finset.univ state.servers + _ = _
  omega

omit [DecidableEq Client] in
theorem State.due_setServer (state : State n Client) (me : Fin n) (server : Server Client) :
    (state.setServer me server).due + (state.servers me).due = state.due + server.due := by
  have moved := @workload_update _ _ Server.due Finset.univ state.servers _ me (Finset.mem_univ _) server
  rw [due, due]
  change workload ClientState.due Finset.univ state.clients +
    workload Server.due Finset.univ (Function.update state.servers me server) + _ = _
  omega

theorem Settles.lowers (handling : Handling before) (settles : Settles home before after) :
    after.due < before.due := by
  obtain ⟨action, unprompted, stepped⟩ := settles
  unfold step at stepped
  cases action with
  | client client move =>
      cases move with
      | read =>
          simp only at stepped
          split at stepped
          · rename_i now moved
            cases stepped
            have read := ClientState.read_due moved
            have total := State.due_setClient before client now
            omega
          · cases stepped
      | connect | exit | pull | post | other | fill => exact unprompted.elim
  | serve me client =>
      simp only at stepped
      split at stepped
      · rename_i enabled
        obtain ⟨rfl, polling⟩ := enabled
        split at stepped
        · cases stepped
        · rename_i receive rest next
          cases stepped
          let server := (before.servers (home client)).dispatch client receive
          have handles := Server.dispatch_due client receive polling
          have first := State.due_setServer before (home client) server
          have second := State.due_setClient (before.setServer (home client) server) client
            { before.clients client with requests := rest }
          have asked : (before.clients client).due =
              ({ before.clients client with requests := rest } : ClientState).due + 70 := by
            simp only [ClientState.due, next, List.length_cons]
            omega
          change _ + (before.clients client).due = _ at second
          change server.due ≤ 64 at handles
          change ((before.setServer (home client) server).setClient client
            { before.clients client with requests := rest }).due < _
          omega
      · cases stepped
  | advance me junk =>
      simp only at stepped
      split at stepped
      · cases stepped
      · rename_i turn advanced
        have lower := ((Server.advance_called advanced).sound (handling me)).2
        have moved := State.due_setServer before me turn.server
        have less : turn.server.due + 2 ≤ (before.servers me).due := by
          rw [Server.due, Server.due]
          omega
        split at stepped
        · cases stepped
          change (before.setServer me turn.server).due < _
          omega
        · rename_i client serving
          cases stepped
          let middle : State n Client := { before.setServer me turn.server with disk := turn.disk }
          have answered : (middle.apply client turn.effect).due =
              (middle.setClient client ((middle.clients client).receive turn.effect)).due := by
            rw [State.due, State.due, State.apply_clients, State.apply_servers]
            rfl
          have total := State.due_setClient middle client ((middle.clients client).receive turn.effect)
          have atMost := ClientState.receive_due turn.effect (middle.clients client)
          change (middle.apply client turn.effect).due < _
          rw [answered]
          change (before.setServer me turn.server).due + _ = _ at moved
          have same : middle.due = (before.setServer me turn.server).due := rfl
          omega

/-! ## Nobody waits for an answer that does not come -/

section Stalls

variable {now : ClientState} {holding : Option Slot}

/-- A client whose server has nothing to do for it and to which nothing is on its way. -/
theorem Session.stalls (session : Session now .idle holding) (none : now.requests = []) (none' : now.replies = []) :
    now.Rests ∧ ∀ slot, holding = some slot ↔ ∃ msg, now.control = .typing msg ∧ slotOf msg.pos = some slot := by
  have clear : ∀ {ios}, Behind now ios .idle holding → ios = [] ∧ holding = .none := by
    intro ios behind
    cases behind with
    | clear requests => exact ⟨requests.symm.trans none, rfl⟩
    | sent msg slot requests => cases none.symm.trans requests
  have away (other : ∀ msg, now.control ≠ .typing msg) (empty : holding = .none) (slot : Slot) :
      holding = some slot ↔ ∃ msg, now.control = .typing msg ∧ slotOf msg.pos = some slot := by
    constructor
    · intro holds
      cases empty.symm.trans holds
    · intro types
      obtain ⟨msg, control, _⟩ := types
      exact absurd control (other msg)
  cases session with
  | prompt _ _ control _ behind =>
      refine ⟨⟨none, none', ?_, ?_⟩, away ?_ (clear behind).2⟩ <;>
        rcases control with control | control <;> rw [control] <;> nofun
  | askedPull _ _ _ _ _ behind => cases (clear behind).1
  | askedPost _ _ _ _ _ behind => cases (clear behind).1
  | leaving _ _ _ _ _ behind => cases (clear behind).1
  | ended records last _ _ replies =>
      rw [none'] at replies
      exact absurd replies.symm (List.append_ne_nil_of_right_ne_nil _ (List.cons_ne_nil _ _))
  | refused io _ _ replies => cases none'.symm.trans replies
  | granted io slot _ _ replies => cases none'.symm.trans replies
  | typing msg slot control _ _ pos =>
      refine ⟨⟨none, none', by rw [control]; nofun, by rw [control]; nofun⟩, fun other => ?_⟩
      constructor
      · intro holds
        cases holds
        exact ⟨msg, control, pos⟩
      · intro types
        obtain ⟨msg', control', pos'⟩ := types
        cases control.symm.trans control'
        exact pos.symm.trans pos'
  | left control =>
      exact ⟨⟨none, none', by rw [control]; nofun, by rw [control]; nofun⟩,
        away (fun msg => by rw [control]; nofun) rfl⟩

/-- A client reads what is sent to it. -/
theorem Session.reads (session : Session now .idle holding) (some : now.replies ≠ []) :
    ∃ after, now.move .read = .some after := by
  obtain ⟨receive, rest, replies⟩ := List.exists_cons_of_ne_nil some
  have read (control : now.control = .reading ∨ now.control = .waiting) :
      ∃ after, now.move .read = .some after := by
    unfold ClientState.move
    rcases control with control | control
    · simp only [control, replies]
      split <;> exact ⟨_, rfl⟩
    · simp only [control, replies]
      split <;> exact ⟨_, rfl⟩
  cases session with
  | prompt _ _ _ none | askedPull _ _ _ _ none | askedPost _ _ _ _ none | leaving _ _ _ _ none =>
      exact absurd none some
  | ended _ _ control => exact read (.inl control)
  | refused _ control | granted _ _ control => exact read (.inr control)
  | typing _ _ _ _ none | left _ none => exact absurd none some

end Stalls

/-- All servers poll, no client waits, and a slot is locked for the clients whose users are
about to type a post. -/
structure State.AtRest (home : Client → Fin n) (state : State n Client) : Prop where
  polling : ∀ me, (state.servers me).control = .polling
  rests : ∀ client, (state.clients client).Rests
  locked : ∀ me slot, (state.servers me).locked slot = true ↔
    ∃ client msg, home client = me ∧ (state.clients client).control = .typing msg ∧ slotOf msg.pos = some slot

omit [Fintype Client] in
theorem settles_of {action : Action n Client} (unprompted : action.Unprompted)
    (some : (step home action state).isSome) : ∃ next, Settles home state next := by
  obtain ⟨next, stepped⟩ := Option.isSome_iff_exists.mp some
  exact ⟨next, action, unprompted, stepped⟩

omit [Fintype Client] in
theorem settles_goes (reserved : Reserved home state) (handling : Handling state) :
    state.AtRest home ∨ ∃ next, Settles home state next := by
  by_cases busy : ∃ me, (state.servers me).control ≠ .polling
  · obtain ⟨me, busy⟩ := busy
    obtain ⟨turn, advanced⟩ := Option.isSome_iff_exists.mp
      (Server.advance_some me ⟨.zero, 0⟩ state.disk busy (handling me))
    refine .inr (@settles_of _ _ _ _ _ (.advance me ⟨.zero, 0⟩) trivial ?_)
    cases serving : (state.servers me).control.serving <;> simp [step, advanced, serving]
  · have polling : ∀ me, (state.servers me).control = .polling :=
      fun me => by_contra fun other => busy ⟨me, other⟩
    have session (client : Client) : Session (state.clients client) .idle (state.holding client) := by
      have here := reserved.session client
      rwa [polling] at here
    by_cases asks : ∃ client, (state.clients client).requests ≠ []
    · obtain ⟨client, asks⟩ := asks
      obtain ⟨receive, rest, requests⟩ := List.exists_cons_of_ne_nil asks
      exact .inr (@settles_of _ _ _ _ _ (.serve (home client) client) trivial (by
        simp [step, polling, requests]))
    · by_cases told : ∃ client, (state.clients client).replies ≠ []
      · obtain ⟨client, told⟩ := told
        obtain ⟨after, moved⟩ := (session client).reads told
        exact .inr (@settles_of _ _ _ _ _ (.client client .read) trivial (by simp [step, moved]))
      · have stalls (client : Client) := (session client).stalls
          (by_contra fun some => asks ⟨client, some⟩) (by_contra fun some => told ⟨client, some⟩)
        refine .inl ⟨polling, fun client => (stalls client).1, fun me slot => ?_⟩
        rw [(reserved.table me).held slot]
        constructor
        · intro held
          obtain ⟨client, mine, holds⟩ := held
          obtain ⟨msg, types⟩ := ((stalls client).2 slot).mp holds
          exact ⟨client, msg, mine, types⟩
        · intro types
          obtain ⟨client, msg, mine, types⟩ := types
          exact ⟨client, mine, ((stalls client).2 slot).mpr ⟨msg, types⟩⟩

/-- From every state that any servers and clients with words that fit reach: if no user types a
command, every run ends, with all requests handled and all answers read; no server has crashed
and no client waits for ever. -/
theorem commands_answered (home : Client → Fin n) (board : Slot → Record) (state : State n Client)
    (reached : Reachable home board state) :
    Until (Settles home) (fun _ => True) (State.AtRest home) state := by
  have goal : Until (Settles home) (Reachable home board)
      (fun now => Reachable home board now ∧ now.AtRest home) state := by
    refine .of_potential State.due ?_ ?_ ?_ reached
    · intro before after run settles
      obtain ⟨action, _, stepped⟩ := settles
      exact run.tail ⟨action, stepped⟩
    · exact fun before after run settles => settles.lowers (.of_reachable run)
    · exact fun now run => settles_goes (.of_reachable run) (.of_reachable run)
  exact goal.mono (fun _ _ => trivial) fun _ => And.right

/-- A server is started and a client has asked for the board. -/
theorem commands_answered_connected :
    ∃ asked last : State 1 Unit, (asked.clients ()).control = .reading ∧
      ReflTransGen (Settles fun _ => 0) asked last ∧ (last.clients ()).Rests := by
  let home : Unit → Fin 1 := fun _ => 0
  let start : State 1 Unit := boot 1 Unit fun _ => .zero
  obtain ⟨asked, connects⟩ : ∃ asked, step home (.client () (.connect ⟨.zero, 0⟩)) start = some asked := ⟨_, rfl⟩
  have reached : Reachable home (fun _ => .zero) asked := .single ⟨_, connects⟩
  obtain ⟨last, rests, run⟩ := (commands_answered home _ asked reached).reaches
  cases connects
  exact ⟨_, last, rfl, run, rests.rests ()⟩

end SysProg.Bulletin
