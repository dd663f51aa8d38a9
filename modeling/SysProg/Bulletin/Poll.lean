import SysProg.Bulletin.Network

namespace SysProg.Bulletin

open Relation SysProg.Transition

/-! # The loop around `poll`

In `State` a server takes up a message of any client.  Here it has the table `fds`, and
takes up what `poll` reports in the order of the table. -/

abbrev MAX_CLIENTS : Nat := 20

/-- An entry of `fds` behind that of `listen_fd`. -/
abbrev Entry := Fin MAX_CLIENTS

/-- Inside `poll`, before an `accept`, or in round `i` of the loop over `fds`. -/
inductive Place where
  | polling
  | accepting
  | checking (i : Nat)
deriving DecidableEq, Repr

/-- The table of a server, with the bits that `poll` has set in it, and the connections that
wait for an `accept`.  `unheard` is history: those that were accepted when the table was full. -/
structure Loop (Client : Type) where
  fds : Entry → Option Client
  revents : Entry → Bool
  place : Place
  backlog : List Client
  unheard : List Client

variable {n : Nat} {Client : Type}

namespace Loop

def boot : Loop Client where
  fds := fun _ => none
  revents := fun _ => false
  place := .polling
  backlog := []
  unheard := []

/-- `connect` returns as soon as the connection is in the backlog. -/
def connect (client : Client) (loop : Loop Client) : Loop Client :=
  { loop with backlog := loop.backlog ++ [client] }

/-- What `poll` finds in an entry; an entry of -1 has no events. -/
def ready (asks : Client → Bool) (loop : Loop Client) (i : Entry) : Bool := (loop.fds i).any asks

/-- `poll` returns once there is something to report, and reports all there is then. -/
def poll (asks : Client → Bool) (loop : Loop Client) : Option (Loop Client) :=
  if loop.place = .polling ∧ (loop.backlog ≠ [] ∨ ∃ i, loop.ready asks i) then
    some { loop with
      revents := loop.ready asks
      place := if loop.backlog = [] then .checking 0 else .accepting }
  else none

/-- The first entry of -1. -/
def vacant (loop : Loop Client) : Option Entry :=
  (List.finRange MAX_CLIENTS).find? fun i => (loop.fds i).isNone

/-- `accept` and the search for an entry. -/
def accept (loop : Loop Client) : Option (Loop Client) :=
  match loop.place, loop.backlog with
  | .accepting, client :: backlog =>
      match loop.vacant with
      | some i =>
          some { loop with
            fds := Function.update loop.fds i (some client), backlog, place := .checking 0 }
      | none =>
          some { loop with unheard := loop.unheard ++ [client], backlog, place := .checking 0 }
  | _, _ => none

/-- The table behind a message of the entry `i`. -/
def heed (i : Entry) (receive : Io) (loop : Loop Client) : Loop Client :=
  { loop with
    fds := if receive.type = .exit then Function.update loop.fds i none else loop.fds
    place := .checking (i + 1) }

def turn (place : Place) (loop : Loop Client) : Loop Client := { loop with place }

end Loop

/-- A client that waits for the board and of whom no server has read anything. -/
structure ClientState.Unserved (now : ClientState) : Prop where
  control : now.control = .reading
  asked : ∃ junk, now.requests = [⟨.pull, junk⟩]
  replies : now.replies = []
  out : now.out = []

/-- A client that has left and whose `!exit` has been read. -/
structure ClientState.Gone (now : ClientState) : Prop where
  control : now.control = .closed
  requests : now.requests = []

/-- The loop has not passed the entry since `poll`. -/
def Place.Ahead (place : Place) (i : Entry) : Prop :=
  match place with
  | .polling => False
  | .accepting => True
  | .checking k => k ≤ i

/-- More clients than a table has entries. -/
def Crowded (home : Client → Fin n) (me : Fin n) : Prop :=
  ∃ clients : List Client, clients.Nodup ∧ MAX_CLIENTS < clients.length ∧
    ∀ client ∈ clients, home client = me

namespace Loop

/-- The connections that are not in the table. -/
def line (loop : Loop Client) : List Client := loop.backlog ++ loop.unheard

/-- Every connection has one place, and `accept` finds one. -/
structure Proper (home : Client → Fin n) (me : Fin n) (loop : Loop Client) : Prop where
  homed : ∀ i client, loop.fds i = some client → home client = me
  single : ∀ i j client, loop.fds i = some client → loop.fds j = some client → i = j
  lined : loop.line.Nodup
  outside : ∀ client ∈ loop.line, home client = me ∧ ∀ i, loop.fds i ≠ some client
  waits : loop.place = .accepting → loop.backlog ≠ []
  crowded : loop.unheard ≠ [] → Crowded home me

variable {home : Client → Fin n} {me : Fin n} {loop after : Loop Client}

theorem vacant_free {i : Entry} (vacant : loop.vacant = some i) : loop.fds i = none := by
  have free := List.find?_some vacant
  exact Option.isNone_iff_eq_none.mp free

theorem vacant_none (vacant : loop.vacant = none) (i : Entry) :
    ∃ client, loop.fds i = some client := by
  have taken := List.find?_eq_none.mp vacant i (List.mem_finRange i)
  rw [Option.isNone_iff_eq_none] at taken
  exact Option.ne_none_iff_exists'.mp taken

theorem accept_place (accepted : loop.accept = some after) : loop.place = .accepting := by
  unfold accept at accepted
  split at accepted
  · assumption
  · cases accepted

/-- An `accept` takes the first connection of the backlog into an entry or leaves it
without one. -/
theorem accept_cases (accepted : loop.accept = some after) :
    ∃ client backlog, loop.backlog = client :: backlog ∧
      ((∃ i, loop.fds i = none ∧ after = { loop with
          fds := Function.update loop.fds i (some client), backlog, place := .checking 0 }) ∨
        (loop.vacant = none ∧ after = { loop with
          unheard := loop.unheard ++ [client], backlog, place := .checking 0 })) := by
  unfold accept at accepted
  split at accepted
  · rename_i client backlog _ waiting
    split at accepted
    · rename_i i vacant
      cases accepted
      exact ⟨client, backlog, waiting, .inl ⟨i, vacant_free vacant, rfl⟩⟩
    · rename_i full
      cases accepted
      exact ⟨client, backlog, waiting, .inr ⟨full, rfl⟩⟩
  · cases accepted

theorem heed_sound {i j : Entry} {receive : Io} {client : Client}
    (there : (loop.heed i receive).fds j = some client) : loop.fds j = some client := by
  simp only [heed] at there
  split at there
  · by_cases same : j = i
    · rw [same, Function.update_self] at there
      cases there
    · rwa [Function.update_of_ne same] at there
  · exact there

namespace Proper

theorem boot (home : Client → Fin n) (me : Fin n) : Proper home me Loop.boot where
  homed _ _ there := by cases there
  single _ _ _ there := by cases there
  lined := List.nodup_nil
  outside _ lined := by cases lined
  waits accepting := by cases accepting
  crowded some := absurd rfl some

theorem connect {client : Client} (proper : loop.Proper home me) (mine : home client = me)
    (new : client ∉ loop.line) (new' : ∀ i, loop.fds i ≠ some client) :
    (loop.connect client).Proper home me where
  homed := proper.homed
  single := proper.single
  lined := by
    have perm : (loop.connect client).line.Perm (client :: loop.line) := by
      rw [line, line, Loop.connect, List.append_assoc]
      exact List.perm_middle
    exact perm.nodup_iff.mpr (List.nodup_cons.mpr ⟨new, proper.lined⟩)
  outside other lined := by
    rw [line, Loop.connect, List.append_assoc, List.mem_append, List.mem_append,
      List.mem_singleton] at lined
    rcases lined with lined | same | lined
    · exact proper.outside other (List.mem_append_left _ lined)
    · subst same
      exact ⟨mine, new'⟩
    · exact proper.outside other (List.mem_append_right _ lined)
  waits _ := List.append_ne_nil_of_right_ne_nil _ (List.cons_ne_nil _ _)
  crowded := proper.crowded

theorem poll {asks : Client → Bool} (proper : loop.Proper home me)
    (polled : loop.poll asks = some after) : after.Proper home me := by
  unfold Loop.poll at polled
  split at polled
  · cases polled
    refine ⟨proper.homed, proper.single, proper.lined, proper.outside, ?_, proper.crowded⟩
    intro accepting none
    exact absurd (accepting.symm.trans (if_pos none)) Place.noConfusion
  · cases polled

theorem turn {place : Place} (proper : loop.Proper home me) (other : place ≠ .accepting) :
    (loop.turn place).Proper home me where
  homed := proper.homed
  single := proper.single
  lined := proper.lined
  outside := proper.outside
  waits accepting := absurd accepting other
  crowded := proper.crowded

/-- The clients of a full table and one more. -/
theorem crowds {client : Client} (proper : loop.Proper home me) (full : loop.vacant = none)
    (lined : client ∈ loop.line) : Crowded home me := by
  choose sits there using vacant_none full
  have distinct : Function.Injective sits := by
    intro i j same
    exact proper.single i j (sits i) (there i) (same ▸ there j)
  obtain ⟨mine, absent⟩ := proper.outside client lined
  refine ⟨client :: (List.finRange MAX_CLIENTS).map sits, ?_, ?_, ?_⟩
  · refine List.nodup_cons.mpr ⟨?_, (List.nodup_finRange _).map distinct⟩
    intro among
    obtain ⟨i, _, same⟩ := List.mem_map.mp among
    exact absent i (same ▸ there i)
  · simp
  · intro other among
    rcases List.mem_cons.mp among with same | among
    · exact same ▸ mine
    · obtain ⟨i, _, same⟩ := List.mem_map.mp among
      exact same ▸ proper.homed i (sits i) (there i)

theorem accept (proper : loop.Proper home me) (accepted : loop.accept = some after) :
    after.Proper home me := by
  obtain ⟨client, backlog, waiting, placed⟩ := accept_cases accepted
  have line : loop.line = client :: (backlog ++ loop.unheard) := by
    rw [Loop.line, waiting]
    rfl
  have lined := line ▸ proper.lined
  have outside := proper.outside client (line ▸ List.mem_cons_self)
  rcases placed with placed | placed
  · obtain ⟨i, free, rfl⟩ := placed
    have entry {j : Entry} {other : Client}
        (there : Function.update loop.fds i (some client) j = some other) :
        j = i ∧ other = client ∨ loop.fds j = some other := by
      by_cases same : j = i
      · rw [same, Function.update_self, Option.some.injEq] at there
        exact .inl ⟨same, there.symm⟩
      · rw [Function.update_of_ne same] at there
        exact .inr there
    refine ⟨?_, ?_, (List.nodup_cons.mp lined).2, ?_, nofun, proper.crowded⟩
    · intro j other there
      rcases entry there with ⟨_, same⟩ | there
      · exact same ▸ outside.1
      · exact proper.homed j other there
    · intro j k other there there'
      rcases entry there with ⟨same, mine⟩ | there <;>
        rcases entry there' with ⟨same', mine'⟩ | there'
      · exact same.trans same'.symm
      · exact absurd there' (mine ▸ outside.2 k)
      · exact absurd there (mine' ▸ outside.2 j)
      · exact proper.single j k other there there'
    · intro other among
      have before := proper.outside other (line ▸ List.mem_cons_of_mem client among)
      refine ⟨before.1, ?_⟩
      intro j there
      rcases entry there with ⟨_, same⟩ | there
      · exact (List.nodup_cons.mp lined).1 (same ▸ among)
      · exact before.2 j there
  · obtain ⟨full, rfl⟩ := placed
    have perm : (backlog ++ (loop.unheard ++ [client])).Perm loop.line := by
      rw [line, ← List.append_assoc]
      exact List.perm_append_singleton _ _
    refine ⟨proper.homed, proper.single, perm.nodup_iff.mpr proper.lined, ?_, nofun, ?_⟩
    · intro other among
      exact proper.outside other (perm.mem_iff.mp among)
    · intro _
      exact proper.crowds full (line ▸ List.mem_cons_self)

theorem heed (proper : loop.Proper home me) (i : Entry) (receive : Io) :
    (loop.heed i receive).Proper home me where
  homed j client there := proper.homed j client (heed_sound there)
  single j k client there there' := proper.single j k client (heed_sound there) (heed_sound there')
  lined := proper.lined
  outside client lined :=
    ⟨(proper.outside client lined).1, fun j there => (proper.outside client lined).2 j (heed_sound there)⟩
  waits accepting := by cases accepting
  crowded := proper.crowded

end Proper

end Loop

/-! ## The system -/

/-- Servers with their loops, and their clients. -/
structure System (n : Nat) (Client : Type) where
  state : State n Client
  loops : Fin n → Loop Client

/-- Who takes the next step: a client, or a server in its loop or in a handler. -/
inductive LoopAction (n : Nat) (Client : Type) where
  | client (client : Client) (move : ClientMove)
  | poll (me : Fin n)
  | accept (me : Fin n)
  | check (me : Fin n)
  | advance (me : Fin n) (junk : Message)

variable [DecidableEq Client]

namespace System

def setLoop (me : Fin n) (loop : Loop Client) (system : System n Client) : System n Client :=
  { system with loops := Function.update system.loops me loop }

/-- What `poll` asks of a connection. -/
def asks (system : System n Client) (client : Client) : Bool :=
  (system.state.clients client).requests ≠ []

/-- `read` from the entry `i` and the branch that the message takes; a `read` that finds
nothing would block. -/
def receive (me : Fin n) (i : Entry) (system : System n Client) : Option (System n Client) :=
  match (system.loops me).fds i with
  | none => none
  | some client =>
      match (system.state.clients client).requests with
      | [] => none
      | receive :: rest =>
          some ⟨(system.state.setServer me ((system.state.servers me).dispatch client receive)).setClient
              client { system.state.clients client with requests := rest },
            Function.update system.loops me ((system.loops me).heed i receive)⟩

/-- The next round of the loop over `fds`, when the handler of the last one is done. -/
def check (me : Fin n) (system : System n Client) : Option (System n Client) :=
  match (system.loops me).place with
  | .checking i =>
      if (system.state.servers me).control = .polling then
        if inside : i < MAX_CLIENTS then
          if (system.loops me).revents ⟨i, inside⟩ then system.receive me ⟨i, inside⟩
          else some (system.setLoop me ((system.loops me).turn (.checking (i + 1))))
        else some (system.setLoop me ((system.loops me).turn .polling))
      else none
  | _ => none

/-- A client goes on; a new connection gets into the backlog of its server. -/
def client (home : Client → Fin n) (client : Client) (move : ClientMove) (system : System n Client) :
    Option (System n Client) :=
  match (system.state.clients client).move move with
  | none => none
  | some now =>
      some ⟨system.state.setClient client now,
        match move with
        | .connect _ =>
            Function.update system.loops (home client) ((system.loops (home client)).connect client)
        | _ => system.loops⟩

def step (home : Client → Fin n) (action : LoopAction n Client) (system : System n Client) :
    Option (System n Client) :=
  match action with
  | .client client move => system.client home client move
  | .poll me =>
      if (system.state.servers me).control = .polling then
        match (system.loops me).poll system.asks with
        | some loop => some (system.setLoop me loop)
        | none => none
      else none
  | .accept me =>
      match (system.loops me).accept with
      | some loop => some (system.setLoop me loop)
      | none => none
  | .check me => system.check me
  | .advance me junk =>
      match Bulletin.step home (.advance me junk) system.state with
      | some state => some { system with state }
      | none => none

def boot (n : Nat) (Client : Type) (board : Slot → Record) : System n Client where
  state := Bulletin.boot n Client board
  loops := fun _ => .boot

def Step (home : Client → Fin n) (before after : System n Client) : Prop :=
  ∃ action, step home action before = some after

def Reachable (home : Client → Fin n) (board : Slot → Record) (system : System n Client) : Prop :=
  ReflTransGen (Step home) (boot n Client board) system

theorem run_steps {home : Client → Fin n} {actions : List (LoopAction n Client)}
    {first last : System n Client}
    (ran : actions.foldlM (fun system action => step home action system) first = some last) :
    ReflTransGen (Step home) first last :=
  (run_iff_moves fun _ _ => Iff.rfl).mpr ⟨actions, ran⟩

end System

variable {home : Client → Fin n} {me : Fin n} {before after system : System n Client}
  {action : LoopAction n Client}

/-- Every way a step can go. -/
inductive Looped (home : Client → Fin n) (before : System n Client) :
    LoopAction n Client → System n Client → Prop
  | moved (client : Client) (move : ClientMove) (now : ClientState) :
      (before.state.clients client).move move = some now → (∀ junk, move ≠ .connect junk) →
      Looped home before (.client client move) ⟨before.state.setClient client now, before.loops⟩
  | connected (client : Client) (junk : Message) (now : ClientState) :
      (before.state.clients client).move (.connect junk) = some now →
      Looped home before (.client client (.connect junk))
        ⟨before.state.setClient client now,
          Function.update before.loops (home client) ((before.loops (home client)).connect client)⟩
  | polled (me : Fin n) (loop : Loop Client) :
      (before.state.servers me).control = .polling →
      (before.loops me).poll before.asks = some loop →
      Looped home before (.poll me) (before.setLoop me loop)
  | accepted (me : Fin n) (loop : Loop Client) :
      (before.loops me).accept = some loop →
      Looped home before (.accept me) (before.setLoop me loop)
  | heeded (me : Fin n) (i : Entry) (client : Client) (receive : Io) (rest : List Io) :
      (before.loops me).place = .checking i → (before.state.servers me).control = .polling →
      (before.loops me).revents i = true → (before.loops me).fds i = some client →
      (before.state.clients client).requests = receive :: rest →
      Looped home before (.check me)
        ⟨(before.state.setServer me ((before.state.servers me).dispatch client receive)).setClient
            client { before.state.clients client with requests := rest },
          Function.update before.loops me ((before.loops me).heed i receive)⟩
  | passed (me : Fin n) (i : Entry) :
      (before.loops me).place = .checking i → (before.loops me).revents i = false →
      Looped home before (.check me)
        (before.setLoop me ((before.loops me).turn (.checking (i + 1))))
  | finished (me : Fin n) (i : Nat) :
      (before.loops me).place = .checking i → MAX_CLIENTS ≤ i →
      Looped home before (.check me) (before.setLoop me ((before.loops me).turn .polling))
  | advanced (me : Fin n) (junk : Message) (state : State n Client) :
      Bulletin.step home (.advance me junk) before.state = some state →
      Looped home before (.advance me junk) ⟨state, before.loops⟩

namespace System

theorem check_looped (checked : before.check me = some after) :
    Looped home before (.check me) after := by
  unfold check at checked
  split at checked
  · rename_i i place
    split at checked
    · rename_i polling
      split at checked
      · rename_i inside
        split at checked
        · rename_i reported
          unfold receive at checked
          split at checked
          · cases checked
          · rename_i client there
            split at checked
            · cases checked
            · rename_i receive rest requests
              cases checked
              exact .heeded me ⟨i, inside⟩ client receive rest place polling reported there requests
        · rename_i none
          cases checked
          exact .passed me ⟨i, inside⟩ place (Bool.not_eq_true _ ▸ none)
      · rename_i outside
        cases checked
        exact .finished me i place (Nat.not_lt.mp outside)
    · cases checked
  · cases checked

theorem step_looped (stepped : step home action before = some after) :
    Looped home before action after := by
  unfold step at stepped
  cases action with
  | client client move =>
      simp only [System.client] at stepped
      split at stepped
      · cases stepped
      · rename_i now moved
        cases stepped
        cases move with
        | connect junk => exact .connected client junk now moved
        | read | exit | pull | post | other | fill => exact .moved client _ now moved nofun
  | poll me =>
      simp only at stepped
      split at stepped
      · rename_i polling
        split at stepped
        · rename_i loop polled
          cases stepped
          exact .polled me loop polling polled
        · cases stepped
      · cases stepped
  | accept me =>
      simp only at stepped
      split at stepped
      · rename_i loop accepted
        cases stepped
        exact .accepted me loop accepted
      · cases stepped
  | check me => exact check_looped stepped
  | advance me junk =>
      simp only at stepped
      split at stepped
      · rename_i state advanced
        cases stepped
        exact .advanced me junk state advanced
      · cases stepped

end System

end SysProg.Bulletin
