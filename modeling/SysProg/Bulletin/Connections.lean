import SysProg.Bulletin.Poll
import SysProg.Bulletin.Release
import SysProg.Bulletin.Reservation
import SysProg.Transition.Simulation
import SysProg.Transition.Trace

namespace SysProg.Bulletin

open Relation SysProg.Transition

/-! # Every connection has a place

The loops of the servers are runs of `State`: a connection is in the table, in the backlog or
nowhere, and what `poll` has reported is still there when the loop comes to it. -/

variable {n : Nat} {Client : Type} [DecidableEq Client] {home : Client → Fin n} {me : Fin n}
  {before after system : System n Client} {action : LoopAction n Client}

/-- How the loop of a server stands to its clients. -/
structure Listed (home : Client → Fin n) (me : Fin n) (loop : Loop Client)
    (control : ServerControl Client) (clients : Client → ClientState) : Prop where
  proper : loop.Proper home me
  started : ∀ i client, loop.fds i = some client → (clients client).control ≠ .starting
  unserved : ∀ client ∈ loop.line, (clients client).Unserved
  seen : ∀ i, loop.place.Ahead i → loop.revents i = true →
    ∃ client, loop.fds i = some client ∧ (clients client).requests ≠ []
  serves : ∀ client, control.serving = some client → ∃ i, loop.fds i = some client
  placed : ∀ client, home client = me →
    clients client = .start ∨ client ∈ loop.line ∨ (∃ i, loop.fds i = some client) ∨
      (clients client).Gone

namespace Listed

variable {loop : Loop Client} {control : ServerControl Client} {clients clients' : Client → ClientState}
  {client : Client} {now : ClientState}

omit [DecidableEq Client] in
/-- Only the clients of its server matter. -/
theorem congr (listed : Listed home me loop control clients)
    (same : ∀ client, home client = me → clients' client = clients client) :
    Listed home me loop control clients' where
  proper := listed.proper
  started i client there := by
    rw [same client (listed.proper.homed i client there)]
    exact listed.started i client there
  unserved client lined := by
    rw [same client (listed.proper.outside client lined).1]
    exact listed.unserved client lined
  seen i ahead reported := by
    obtain ⟨client, there, asks⟩ := listed.seen i ahead reported
    exact ⟨client, there, by rwa [same client (listed.proper.homed i client there)]⟩
  serves := listed.serves
  placed client mine := by
    rw [same client mine]
    exact listed.placed client mine

/-- A client goes on and keeps its place. -/
theorem set (listed : Listed home me loop control clients)
    (started : now.control ≠ .starting) (asks : (clients client).requests ≠ [] → now.requests ≠ [])
    (unserved : client ∈ loop.line → now.Unserved) (begun : clients client ≠ .start)
    (gone : (clients client).Gone → now.Gone) :
    Listed home me loop control (Function.update clients client now) where
  proper := listed.proper
  started i other there := by
    by_cases same : other = client
    · rw [same, Function.update_self]
      exact started
    · rw [Function.update_of_ne same]
      exact listed.started i other there
  unserved other lined := by
    by_cases same : other = client
    · rw [same, Function.update_self]
      exact unserved (same ▸ lined)
    · rw [Function.update_of_ne same]
      exact listed.unserved other lined
  seen i ahead reported := by
    obtain ⟨other, there, asked⟩ := listed.seen i ahead reported
    refine ⟨other, there, ?_⟩
    by_cases same : other = client
    · rw [same, Function.update_self]
      exact asks (same ▸ asked)
    · rwa [Function.update_of_ne same]
  serves := listed.serves
  placed other mine := by
    by_cases same : other = client
    · subst same
      rw [Function.update_self]
      rcases listed.placed other mine with start | lined | there | left
      · exact absurd start begun
      · exact .inr (.inl lined)
      · exact .inr (.inr (.inl there))
      · exact .inr (.inr (.inr (gone left)))
    · rw [Function.update_of_ne same]
      exact listed.placed other mine

theorem connect {junk : Message} (listed : Listed home (home client) loop control clients)
    (moved : (clients client).move (.connect junk) = some now) :
    Listed home (home client) (loop.connect client) control (Function.update clients client now) := by
  have starting : (clients client).control = .starting := by
    cases start : (clients client).control with
    | starting => rfl
    | _ => simp [ClientState.move, start] at moved
  have new : client ∉ loop.line := by
    intro lined
    cases starting.symm.trans (listed.unserved client lined).control
  have new' : ∀ i, loop.fds i ≠ some client := fun i there => listed.started i client there starting
  have start : clients client = .start := by
    rcases listed.placed client rfl with start | lined | there | left
    · exact start
    · exact absurd lined new
    · obtain ⟨i, there⟩ := there
      exact absurd there (new' i)
    · cases starting.symm.trans left.control
  have sent : now.Unserved := by
    rw [start] at moved
    cases moved
    exact ⟨rfl, ⟨junk, rfl⟩, rfl, rfl⟩
  have others {other : Client} {i : Entry} (there : loop.fds i = some other) : other ≠ client :=
    fun same => new' i (same ▸ there)
  refine ⟨listed.proper.connect rfl new new', ?_, ?_, ?_, listed.serves, ?_⟩
  · intro i other there
    rw [Function.update_of_ne (others there)]
    exact listed.started i other there
  · intro other lined
    by_cases same : other = client
    · rw [same, Function.update_self]
      exact sent
    · rw [Function.update_of_ne same]
      rw [Loop.line, Loop.connect, List.append_assoc, List.mem_append, List.mem_append,
        List.mem_singleton] at lined
      rcases lined with lined | same' | lined
      · exact listed.unserved other (List.mem_append_left _ lined)
      · exact absurd same' same
      · exact listed.unserved other (List.mem_append_right _ lined)
  · intro i ahead reported
    obtain ⟨other, there, asked⟩ := listed.seen i ahead reported
    exact ⟨other, there, by rwa [Function.update_of_ne (others there)]⟩
  · intro other mine
    by_cases same : other = client
    · refine .inr (.inl ?_)
      rw [same, Loop.line, Loop.connect, List.append_assoc]
      exact List.mem_append_right _ List.mem_cons_self
    · rw [Function.update_of_ne same]
      refine (listed.placed other mine).imp id (Or.imp ?_ id)
      intro lined
      rw [Loop.line, Loop.connect, List.append_assoc]
      rcases List.mem_append.mp lined with lined | lined
      · exact List.mem_append_left _ lined
      · exact List.mem_append_right _ (List.mem_cons_of_mem _ lined)

omit [DecidableEq Client] in
theorem poll {asks : Client → Bool} {after : Loop Client} (listed : Listed home me loop control clients)
    (polled : loop.poll asks = some after)
    (found : ∀ client, asks client = true → (clients client).requests ≠ []) :
    Listed home me after control clients := by
  have proper := listed.proper.poll polled
  unfold Loop.poll at polled
  split at polled
  · cases polled
    refine ⟨proper, listed.started, listed.unserved, ?_, listed.serves, listed.placed⟩
    intro i _ reported
    obtain ⟨client, there, asked⟩ := (Option.any_eq_true _ _).mp reported
    exact ⟨client, there, found client asked⟩
  · cases polled

omit [DecidableEq Client] in
theorem turn {place : Place} (listed : Listed home me loop control clients)
    (other : place ≠ .accepting) (further : ∀ i, place.Ahead i → loop.revents i = true → loop.place.Ahead i) :
    Listed home me (loop.turn place) control clients where
  proper := listed.proper.turn other
  started := listed.started
  unserved := listed.unserved
  seen i ahead reported := listed.seen i (further i ahead reported) reported
  serves := listed.serves
  placed := listed.placed

omit [DecidableEq Client] in
theorem accept {after : Loop Client} (listed : Listed home me loop control clients)
    (accepting : loop.place = .accepting) (accepted : loop.accept = some after) :
    Listed home me after control clients := by
  have proper := listed.proper.accept accepted
  obtain ⟨client, backlog, waiting, placed⟩ := Loop.accept_cases accepted
  have line : loop.line = client :: (backlog ++ loop.unheard) := by
    rw [Loop.line, waiting]
    rfl
  have ahead (i : Entry) : loop.place.Ahead i := by
    rw [accepting]
    trivial
  have first := listed.unserved client (line ▸ List.mem_cons_self)
  rcases placed with placed | placed
  · obtain ⟨i, free, rfl⟩ := placed
    have kept {j : Entry} {other : Client} (there : loop.fds j = some other) :
        Function.update loop.fds i (some client) j = some other := by
      rw [Function.update_of_ne]
      · exact there
      · intro same
        cases (same ▸ there).symm.trans free
    refine ⟨proper, ?_, ?_, ?_, ?_, ?_⟩
    · intro j other there
      by_cases same : j = i
      · change Function.update loop.fds i (some client) j = some other at there
        rw [same, Function.update_self, Option.some.injEq] at there
        rw [← there, first.control]
        exact ClientControl.noConfusion
      · change Function.update loop.fds i (some client) j = some other at there
        rw [Function.update_of_ne same] at there
        exact listed.started j other there
    · intro other lined
      exact listed.unserved other (line ▸ List.mem_cons_of_mem client lined)
    · intro j _ reported
      obtain ⟨other, there, asked⟩ := listed.seen j (ahead j) reported
      exact ⟨other, kept there, asked⟩
    · intro other serving
      obtain ⟨j, there⟩ := listed.serves other serving
      exact ⟨j, kept there⟩
    · intro other mine
      refine (listed.placed other mine).imp id ?_
      intro placed
      rcases placed with lined | there | left
      · rw [line] at lined
        rcases List.mem_cons.mp lined with same | lined
        · subst same
          exact .inr (.inl ⟨i, Function.update_self ..⟩)
        · exact .inl lined
      · obtain ⟨j, there⟩ := there
        exact .inr (.inl ⟨j, kept there⟩)
      · exact .inr (.inr left)
  · obtain ⟨_, rfl⟩ := placed
    have same (other : Client) : other ∈ backlog ++ (loop.unheard ++ [client]) ↔ other ∈ loop.line := by
      rw [line, ← List.append_assoc]
      exact (List.perm_append_singleton _ _).mem_iff
    refine ⟨proper, listed.started, ?_, ?_, listed.serves, ?_⟩
    · intro other lined
      exact listed.unserved other ((same other).mp lined)
    · intro j _ reported
      exact listed.seen j (ahead j) reported
    · intro other mine
      exact (listed.placed other mine).imp id (Or.imp (same other).mpr id)

/-- The server has read a message of the entry `i`. -/
theorem heed {i : Entry} {receive : Io} {rest : List Io} {server : Server Client}
    (listed : Listed home me loop server.control clients) (polling : server.control = .polling)
    (checking : loop.place = .checking i) (there : loop.fds i = some client)
    (exits : receive.type = .exit → (clients client).control = .closed ∧ rest = []) :
    Listed home me (loop.heed i receive) (server.dispatch client receive).control
      (Function.update clients client { clients client with requests := rest }) := by
  have away {j : Entry} {other : Client} (different : j ≠ i) (there' : loop.fds j = some other) :
      other ≠ client := by
    intro same
    exact different (listed.proper.single j i other there' (same ▸ there))
  have kept {j : Entry} (different : j ≠ i) : (loop.heed i receive).fds j = loop.fds j := by
    simp only [Loop.heed]
    split
    · exact Function.update_of_ne different ..
    · rfl
  refine ⟨listed.proper.heed i receive, ?_, ?_, ?_, ?_, ?_⟩
  · intro j other there'
    have started := listed.started j other (Loop.heed_sound there')
    by_cases same : other = client
    · subst same
      rw [Function.update_self]
      exact started
    · rwa [Function.update_of_ne same]
  · intro other lined
    have different : other ≠ client := by
      intro same
      exact (listed.proper.outside other lined).2 i (same ▸ there)
    rw [Function.update_of_ne different]
    exact listed.unserved other lined
  · intro j ahead reported
    have later : i.val + 1 ≤ j.val := ahead
    have different : j ≠ i := by
      intro same
      rw [same] at later
      omega
    have before : loop.place.Ahead j := by
      rw [checking]
      exact Nat.le_of_succ_le later
    obtain ⟨other, there', asked⟩ := listed.seen j before reported
    exact ⟨other, (kept different).trans there', by rwa [Function.update_of_ne (away different there')]⟩
  · intro other serving
    obtain ⟨same, stays⟩ := Server.dispatch_serving polling serving
    refine ⟨i, ?_⟩
    simp only [Loop.heed, if_neg stays]
    exact same ▸ there
  · intro other mine
    by_cases same : other = client
    · subst same
      rw [Function.update_self]
      by_cases exit : receive.type = .exit
      · exact .inr (.inr (.inr ⟨(exits exit).1, (exits exit).2⟩))
      · refine .inr (.inr (.inl ⟨i, ?_⟩))
        simp only [Loop.heed, if_neg exit]
        exact there
    · rw [Function.update_of_ne same]
      refine (listed.placed other mine).imp id (Or.imp id (Or.imp ?_ id))
      intro placed
      obtain ⟨j, there'⟩ := placed
      have different : j ≠ i := by
        intro same'
        exact same (Option.some.inj ((same' ▸ there').symm.trans there))
      exact ⟨j, (kept different).trans there'⟩

omit [DecidableEq Client] in
/-- A server that works for nobody new. -/
theorem goes_on {control' : ServerControl Client} (listed : Listed home me loop control clients)
    (less : ∀ client, control'.serving = some client → control.serving = some client) :
    Listed home me loop control' clients where
  proper := listed.proper
  started := listed.started
  unserved := listed.unserved
  seen := listed.seen
  serves client serving := listed.serves client (less client serving)
  placed := listed.placed

/-- The client that a server works for is sent something. -/
theorem receive {control' : ServerControl Client} (listed : Listed home me loop control' clients)
    (serving : control.serving = some client) (listed' : Listed home me loop control clients)
    (effect : Effect) :
    Listed home me loop control'
      (Function.update clients client ((clients client).receive effect)) := by
  obtain ⟨i, there⟩ := listed'.serves client serving
  have started := listed.started i client there
  have control : ((clients client).receive effect).control = (clients client).control := by
    cases effect <;> rfl
  have requests : ((clients client).receive effect).requests = (clients client).requests := by
    cases effect <;> rfl
  refine listed.set (control ▸ started) ?_ ?_ ?_ ?_
  · intro asks
    rwa [requests]
  · intro lined
    exact absurd there ((listed.proper.outside client lined).2 i)
  · intro start
    rw [start] at started
    exact started rfl
  · intro left
    exact ⟨control.trans left.control, requests.trans left.requests⟩

end Listed

/-- Only a message that the client sent last is an `!exit`. -/
theorem Session.exits {now : ClientState} {holding : Option Slot} {receive : Io} {rest : List Io}
    (session : Session now .idle holding) (next : now.requests = receive :: rest)
    (exit : receive.type = .exit) : now.control = .closed ∧ rest = [] := by
  have behind {ios : List Io} (still : Behind now ios .idle holding) : ios = receive :: rest := by
    cases still with
    | clear requests => exact requests.symm.trans next
    | sent msg slot requests =>
        rw [requests, List.cons.injEq] at next
        cases next.1 ▸ exit
  cases session with
  | prompt _ _ _ _ still => cases behind still
  | askedPull _ _ _ _ _ still | askedPost _ _ _ _ _ still =>
      have same := behind still
      rw [List.cons.injEq] at same
      cases same.1 ▸ exit
  | leaving _ _ _ control _ still =>
      have same := behind still
      rw [List.cons.injEq] at same
      exact ⟨control, same.2.symm⟩
  | ended _ _ _ none | refused _ _ none | granted _ _ _ none | typing _ _ _ none | left _ _ none =>
      rw [none] at next
      cases next

omit [DecidableEq Client] in
theorem Listed.boot (home : Client → Fin n) (me : Fin n) :
    Listed home me (Loop.boot : Loop Client) .opening fun _ => .start where
  proper := .boot home me
  started _ _ there := by cases there
  unserved _ lined := by cases lined
  seen _ ahead := ahead.elim
  serves _ serving := by cases serving
  placed _ _ := .inl rfl

/-- What client.c does once it is connected. -/
theorem ClientState.move_connected {now after : ClientState} {move : ClientMove}
    (moved : now.move move = some after) (other : ∀ junk, move ≠ .connect junk) :
    now.control ≠ .starting ∧ after.control ≠ .starting ∧
      (now.requests ≠ [] → after.requests ≠ []) ∧ ¬ now.Unserved ∧ ¬ now.Gone := by
  have waiting (away : now.control ≠ .reading) : ¬ now.Unserved := fun unserved => away unserved.control
  have leaving (away : now.control ≠ .closed) : ¬ now.Gone := fun gone => away gone.control
  unfold ClientState.move at moved
  split at moved
  · rename_i junk _
    exact absurd rfl (other junk)
  · rename_i control
    split at moved
    · cases moved
    · rename_i receive rest replies
      have heard : ¬ now.Unserved := fun unserved => by cases replies.symm.trans unserved.replies
      split at moved <;> cases moved <;> simp [control, heard, leaving]
  · rename_i control
    cases moved
    simp [control, ClientState.send, waiting, leaving]
  · rename_i control
    cases moved
    simp [control, ClientState.send, waiting, leaving]
  · rename_i control
    cases moved
    simp [control, ClientState.send, waiting, leaving]
  · rename_i control
    cases moved
    simp [control, waiting, leaving]
  · rename_i control
    split at moved
    · cases moved
    · split at moved <;> cases moved <;> simp [control, waiting, leaving]
  · rename_i control
    cases moved
    simp [control, ClientState.send, waiting, leaving]
  · cases moved

/-- A handler moves no client and reads no further message. -/
theorem advance_clients {state after : State n Client} {junk : Message}
    (advanced : step home (.advance me junk) state = some after) (client : Client) :
    (after.clients client).control = (state.clients client).control ∧
      (after.clients client).requests = (state.clients client).requests := by
  unfold step at advanced
  simp only at advanced
  split at advanced
  · cases advanced
  · rename_i turn _
    split at advanced
    · cases advanced
      exact ⟨rfl, rfl⟩
    · rename_i someone _
      cases advanced
      rw [State.apply_clients]
      simp only [State.setServer]
      by_cases same : client = someone
      · rw [same, Function.update_self]
        cases turn.effect <;> exact ⟨rfl, rfl⟩
      · rw [Function.update_of_ne same]
        exact ⟨rfl, rfl⟩

/-! ## The loops keep it so -/

namespace System

def InPlace (home : Client → Fin n) (system : System n Client) : Prop :=
  ∀ me, Listed home me (system.loops me) (system.state.servers me).control system.state.clients

namespace InPlace

omit [DecidableEq Client] in
/-- A step of a server or of its clients leaves the others alone. -/
theorem update (inPlace : before.InPlace home) (me : Fin n)
    (loops : ∀ other, other ≠ me → after.loops other = before.loops other)
    (servers : ∀ other, other ≠ me → after.state.servers other = before.state.servers other)
    (clients : ∀ client, home client ≠ me → after.state.clients client = before.state.clients client)
    (here : Listed home me (after.loops me) (after.state.servers me).control after.state.clients) :
    after.InPlace home := by
  intro other
  by_cases same : other = me
  · exact same ▸ here
  · rw [loops other same, servers other same]
    refine (inPlace other).congr fun client mine => clients client ?_
    exact fun same' => same (mine.symm.trans same')

omit [DecidableEq Client] in
theorem setLoop {loop : Loop Client} (inPlace : before.InPlace home)
    (here : Listed home me loop (before.state.servers me).control before.state.clients) :
    (before.setLoop me loop).InPlace home := by
  refine inPlace.update me (fun other different => Function.update_of_ne different ..)
    (fun _ _ => rfl) (fun _ _ => rfl) ?_
  simp only [System.setLoop, Function.update_self]
  exact here

theorem advance {junk : Message} {state : State n Client} (inPlace : before.InPlace home)
    (advanced : Bulletin.step home (.advance me junk) before.state = some state) :
    (System.mk state before.loops).InPlace home := by
  unfold Bulletin.step at advanced
  simp only at advanced
  split at advanced
  · cases advanced
  · rename_i turn advanced'
    have less (client : Client) (serving : turn.server.control.serving = some client) :
        (before.state.servers me).control.serving = some client := by
      rcases Server.advance_serving advanced' with none | same
      · cases none.symm.trans serving
      · exact same ▸ serving
    have gone := (inPlace me).goes_on less
    split at advanced
    · cases advanced
      refine inPlace.update me (fun _ _ => rfl) (fun other different => Function.update_of_ne different ..)
        (fun _ _ => rfl) ?_
      simp only [State.setServer, Function.update_self]
      exact gone
    · rename_i client serving
      cases advanced
      have mine : home client = me := by
        obtain ⟨i, there⟩ := (inPlace me).serves client serving
        exact (inPlace me).proper.homed i client there
      refine inPlace.update me (fun _ _ => rfl) ?_ ?_ ?_
      · intro other different
        rw [State.apply_servers]
        exact Function.update_of_ne different ..
      · intro other away
        rw [State.apply_clients]
        exact Function.update_of_ne (fun same => away ((congrArg home same).trans mine)) ..
      · rw [State.apply_servers, State.apply_clients]
        simp only [State.setServer, Function.update_self]
        exact gone.receive serving (inPlace me) turn.effect

theorem step {board : Slot → Record} (inPlace : before.InPlace home)
    (reached : Bulletin.Reachable home board before.state) (looped : Looped home before action after) :
    after.InPlace home := by
  cases looped with
  | moved client move now moved other =>
      obtain ⟨begun, started, asks, waits, stays⟩ := ClientState.move_connected moved other
      refine inPlace.update (home client) (fun _ _ => rfl) (fun _ _ => rfl) ?_ ?_
      · intro someone away
        exact Function.update_of_ne (fun same => away (congrArg home same)) ..
      · refine (inPlace (home client)).set started asks ?_ ?_ (fun gone => absurd gone stays)
        · exact fun lined => absurd ((inPlace (home client)).unserved client lined) waits
        · exact fun start => begun (start ▸ rfl)
  | connected client junk now moved =>
      refine inPlace.update (home client) (fun other different => Function.update_of_ne different ..)
        (fun _ _ => rfl) ?_ ?_
      · intro someone away
        exact Function.update_of_ne (fun same => away (congrArg home same)) ..
      · simp only [Function.update_self]
        exact (inPlace (home client)).connect moved
  | polled me loop polling polled =>
      exact inPlace.setLoop ((inPlace me).poll polled fun client asked => of_decide_eq_true asked)
  | accepted me loop accepted =>
      exact inPlace.setLoop ((inPlace me).accept (Loop.accept_place accepted) accepted)
  | heeded me i client receive rest place polling _ there requests =>
      have mine := (inPlace me).proper.homed i client there
      have idle : Session (before.state.clients client) .idle (before.state.holding client) := by
        have session := (Reserved.of_reachable reached).session client
        rwa [mine, polling] at session
      refine inPlace.update me (fun other different => Function.update_of_ne different ..)
        (fun other different => Function.update_of_ne different ..) ?_ ?_
      · intro other away
        exact Function.update_of_ne (fun same => away ((congrArg home same).trans mine)) ..
      · simp only [State.setServer, State.setClient, Function.update_self]
        exact (inPlace me).heed polling place there (idle.exits requests)
  | passed me i place none =>
      refine inPlace.setLoop ((inPlace me).turn nofun fun j ahead reported => ?_)
      rw [place]
      exact Nat.le_of_succ_le ahead
  | finished me i => exact inPlace.setLoop ((inPlace me).turn nofun fun j ahead => ahead.elim)
  | advanced me junk state advanced => exact inPlace.advance advanced

end InPlace

/-- A step of the loops is one of `State` or does not show in it. -/
theorem follows (inPlace : before.InPlace home) (looped : Looped home before action after) :
    after.state = before.state ∨ Bulletin.Step home before.state after.state := by
  cases looped with
  | moved client move now moved =>
      exact .inr ⟨.client client move, by simp only [Bulletin.step, moved]⟩
  | connected client junk now moved =>
      exact .inr ⟨.client client (.connect junk), by simp only [Bulletin.step, moved]⟩
  | polled | accepted | passed | finished => exact .inl rfl
  | heeded me i client receive rest place polling _ there requests =>
      refine .inr ⟨.serve me client, ?_⟩
      have mine := (inPlace me).proper.homed i client there
      simp only [Bulletin.step, requests, if_pos (And.intro mine polling)]
  | advanced me junk state advanced => exact .inr ⟨.advance me junk, advanced⟩

end System

/-- The loops refine `State`. -/
theorem loops_simulate (home : Client → Fin n) (board : Slot → Record) :
    Simulation (System.Step home) (Step home) System.state
      (fun system : System n Client => system.InPlace home ∧ Reachable home board system.state) where
  kept before after stepped kept := by
    obtain ⟨action, stepped⟩ := stepped
    have looped := System.step_looped stepped
    refine ⟨kept.1.step kept.2 looped, ?_⟩
    rcases System.follows kept.1 looped with same | taken
    · exact same ▸ kept.2
    · exact kept.2.tail taken
  follows before after stepped kept := by
    obtain ⟨action, stepped⟩ := stepped
    exact System.follows kept.1 (System.step_looped stepped)

theorem System.InPlace.of_reachable {board : Slot → Record} (reached : System.Reachable home board system) :
    system.InPlace home ∧ Bulletin.Reachable home board system.state :=
  (loops_simulate home board).invariant_run reached ⟨fun me => .boot home me, .refl⟩

/-- Neither an `accept` nor a `read` of the loop blocks. -/
theorem System.InPlace.goes_on (inPlace : system.InPlace home)
    (polling : (system.state.servers me).control = .polling) (busy : (system.loops me).place ≠ .polling) :
    ∃ action after, (action = .accept me ∨ action = .check me) ∧
      System.step home action system = some after := by
  cases place : (system.loops me).place with
  | polling => exact absurd place busy
  | accepting =>
      obtain ⟨client, backlog, waiting⟩ := List.exists_cons_of_ne_nil ((inPlace me).proper.waits place)
      have accepts : ((system.loops me).accept).isSome := by
        simp only [Loop.accept, place, waiting]
        cases (system.loops me).vacant <;> rfl
      obtain ⟨loop, accepted⟩ := Option.isSome_iff_exists.mp accepts
      exact ⟨.accept me, system.setLoop me loop, .inl rfl, by simp only [System.step, accepted]⟩
  | checking i =>
      have checks : (system.check me).isSome := by
        by_cases inside : i < MAX_CLIENTS
        · by_cases reported : (system.loops me).revents ⟨i, inside⟩ = true
          · have ahead : (system.loops me).place.Ahead ⟨i, inside⟩ := by
              rw [place]
              exact Nat.le_refl i
            obtain ⟨client, there, asks⟩ := (inPlace me).seen ⟨i, inside⟩ ahead reported
            obtain ⟨receive, rest, requests⟩ := List.exists_cons_of_ne_nil asks
            simp [System.check, place, polling, inside, reported, System.receive, there, requests]
          · simp [System.check, place, polling, inside, reported]
        · simp [System.check, place, polling, inside]
      obtain ⟨after, checked⟩ := Option.isSome_iff_exists.mp checks
      exact ⟨.check me, after, .inr rfl, checked⟩

/-- In every run of the loops the servers and clients do what `State` lets them do, a connection
is in one entry of one table, and a server waits nowhere but in `poll`. -/
theorem loop_refines (home : Client → Fin n) (board : Slot → Record) (system : System n Client)
    (reached : System.Reachable home board system) :
    Reachable home board system.state ∧
    (∀ client me me' i j, (system.loops me).fds i = some client →
      (system.loops me').fds j = some client → me = me' ∧ i = j) ∧
    ∀ me, (system.state.servers me).control = .polling → (system.loops me).place ≠ .polling →
      ∃ action after, (action = .accept me ∨ action = .check me) ∧
        System.step home action system = some after := by
  obtain ⟨inPlace, run⟩ := System.InPlace.of_reachable reached
  refine ⟨run, ?_, fun me polling busy => inPlace.goes_on polling busy⟩
  intro client me me' i j there there'
  have same : me = me' :=
    ((inPlace me).proper.homed i client there).symm.trans ((inPlace me').proper.homed j client there')
  subst same
  exact ⟨rfl, (inPlace me).proper.single i j client there there'⟩

/-- A client is connected and accepted, and its `!pull` is read. -/
theorem loop_refines_accepted :
    ∃ system : System 1 Unit, (system.loops 0).fds 0 = some () ∧
      (system.loops 0).place = .checking 1 ∧
      Reachable (fun _ => 0) (fun _ => .zero) system.state := by
  obtain ⟨system, ran⟩ : ∃ system, [LoopAction.advance 0 ⟨.zero, 0⟩, .advance 0 ⟨.zero, 0⟩,
      .client () (.connect ⟨.zero, 0⟩), .poll 0, .accept 0, .check 0].foldlM
        (fun system action => System.step (fun _ => 0) action system)
        (System.boot 1 Unit fun _ => .zero) = some system := ⟨_, rfl⟩
  have refines := loop_refines (fun _ => 0) (fun _ => .zero) system (System.run_steps ran)
  cases ran
  exact ⟨_, rfl, rfl, refines.1⟩

end SysProg.Bulletin
