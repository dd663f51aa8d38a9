import SysProg.Bulletin.Answered
import SysProg.Bulletin.Connections

namespace SysProg.Bulletin

open Relation SysProg.Data SysProg.Transition

/-! # Heard and unheard

Every client in a table is answered.  A client that found the table full is in none, and no
server ever reads what it sends. -/

variable {n : Nat} {Client : Type} {home : Client → Fin n} {me : Fin n}
  {before after system : System n Client} {action : LoopAction n Client}

/-- A step that no user has to prompt. -/
def LoopAction.Unprompted : LoopAction n Client → Prop
  | .client _ .read | .poll _ | .accept _ | .check _ | .advance _ _ => True
  | .client _ _ => False

/-- The steps of a pass that are left; `poll` is paid by the first message or connection of
the pass, so up to that one it counts as taken. -/
def Place.due (revents : Entry → Bool) : Place → Nat
  | .polling => 23
  | .accepting => 22
  | .checking k => 21 - k + if ∃ i : Entry, k ≤ i ∧ revents i then 0 else 24

def Loop.due (loop : Loop Client) : Nat := 24 * loop.backlog.length + loop.place.due loop.revents

section Passes

variable {revents : Entry → Bool} {loop after : Loop Client}

theorem Place.due_some {i : Entry} {k : Nat} (behind : k ≤ i.val) (reported : revents i = true) :
    (Place.checking k).due revents = 21 - k :=
  congrArg (21 - k + ·) (if_pos ⟨i, behind, reported⟩)

theorem Place.due_none {k : Nat} (none : ∀ i : Entry, k ≤ i.val → revents i = false) :
    (Place.checking k).due revents = 21 - k + 24 := by
  refine congrArg (21 - k + ·) (if_neg fun found => ?_)
  obtain ⟨i, behind, reported⟩ := found
  cases (none i behind).symm.trans reported

theorem Place.due_le (k : Nat) : (Place.checking k).due revents ≤ 21 - k + 24 := by
  rw [due]
  by_cases found : ∃ i : Entry, k ≤ i ∧ revents i
  · rw [if_pos found]
    omega
  · rw [if_neg found]

theorem Loop.poll_due {asks : Client → Bool} (polled : loop.poll asks = some after) :
    after.due < loop.due := by
  unfold poll at polled
  split at polled
  · rename_i polling
    cases polled
    rw [due, due, polling.1]
    by_cases empty : loop.backlog = []
    · obtain ⟨i, ready⟩ := polling.2.resolve_left (not_not.mpr empty)
      simp only [if_pos empty, Place.due_some (Nat.zero_le i.val) ready]
      rw [Place.due]
      omega
    · simp only [if_neg empty, Place.due]
      omega
  · cases polled

theorem Loop.accept_due (accepting : loop.place = .accepting) (accepted : loop.accept = some after) :
    after.due < loop.due := by
  obtain ⟨client, backlog, waiting, placed⟩ := accept_cases accepted
  have first := @Place.due_le loop.revents 0
  have less : 24 * backlog.length + (Place.checking 0).due loop.revents < loop.due := by
    rw [due, accepting, waiting, List.length_cons, Place.due]
    omega
  rcases placed with placed | placed
  · obtain ⟨i, _, rfl⟩ := placed
    exact less
  · obtain ⟨_, rfl⟩ := placed
    exact less

theorem Loop.heed_due {i : Entry} (receive : Io) (place : loop.place = .checking i)
    (reported : loop.revents i = true) : (loop.heed i receive).due ≤ loop.due + 23 := by
  have inside : i.val < 20 := i.isLt
  have next := @Place.due_le loop.revents (i + 1)
  rw [due, due, place, Place.due_some (Nat.le_refl i.val) reported]
  change 24 * loop.backlog.length + (Place.checking (i + 1)).due loop.revents ≤ _
  omega

theorem Loop.pass_due {i : Entry} (place : loop.place = .checking i) (none : loop.revents i = false) :
    (loop.turn (.checking (i + 1))).due < loop.due := by
  have inside : i.val < 20 := i.isLt
  rw [due, due, place]
  change 24 * loop.backlog.length + (Place.checking (i + 1)).due loop.revents < _
  by_cases later : ∃ j : Entry, i.val ≤ j.val ∧ loop.revents j = true
  · obtain ⟨j, behind, reported⟩ := later
    have different : i.val ≠ j.val := by
      intro same
      cases (Fin.ext same ▸ none).symm.trans reported
    rw [Place.due_some behind reported, Place.due_some (by omega : i.val + 1 ≤ j.val) reported]
    omega
  · have none' : ∀ j : Entry, i.val ≤ j.val → loop.revents j = false := by
      intro j behind
      rw [← Bool.not_eq_true]
      exact fun reported => later ⟨j, behind, reported⟩
    have next := @Place.due_le loop.revents (i + 1)
    rw [Place.due_none none']
    omega

theorem Loop.finish_due {k : Nat} (place : loop.place = .checking k) (outside : MAX_CLIENTS ≤ k) :
    (loop.turn .polling).due < loop.due := by
  have none : ∀ i : Entry, k ≤ i.val → loop.revents i = false := by
    intro i behind
    exact absurd (Nat.lt_of_lt_of_le i.isLt outside) (Nat.not_lt.mpr behind)
  rw [due, due, place, Place.due_none none]
  change 24 * loop.backlog.length + 23 < _
  omega

end Passes

theorem ClientState.Rests.start : ClientState.start.Rests :=
  ⟨rfl, rfl, ClientControl.noConfusion, ClientControl.noConfusion⟩

variable [DecidableEq Client]

namespace System

def Settles (home : Client → Fin n) (before after : System n Client) : Prop :=
  ∃ action : LoopAction n Client, action.Unprompted ∧ step home action before = some after

/-- All servers are in `poll`, no connection waits for them, and no client waits but those that
found a full table. -/
structure AtRest (home : Client → Fin n) (system : System n Client) : Prop where
  polling : ∀ me, (system.state.servers me).control = .polling ∧ (system.loops me).place = .polling
  accepted : ∀ me, (system.loops me).backlog = []
  rests : ∀ client, (system.state.clients client).Rests ∨
    client ∈ (system.loops (home client)).unheard ∧ Crowded home (home client)

variable [Fintype Client]

def due (system : System n Client) : Nat :=
  24 * system.state.due + workload Loop.due Finset.univ system.loops

omit [DecidableEq Client] in
theorem due_setLoop (system : System n Client) (me : Fin n) (loop : Loop Client) :
    (system.setLoop me loop).due + (system.loops me).due = system.due + loop.due := by
  have moved := @workload_update _ _ Loop.due Finset.univ system.loops _ me (Finset.mem_univ _) loop
  rw [due, due]
  change 24 * system.state.due +
    workload Loop.due Finset.univ (Function.update system.loops me loop) + _ = _
  omega

theorem Settles.lowers {board : Slot → Record} (inPlace : before.InPlace home)
    (reached : Bulletin.Reachable home board before.state) (settles : Settles home before after) :
    after.due < before.due := by
  obtain ⟨action, unprompted, stepped⟩ := settles
  have inside (action : Action n Client) (unprompted : action.Unprompted)
      (stepped : Bulletin.step home action before.state = some after.state) :
      after.state.due < before.state.due :=
    Bulletin.Settles.lowers (.of_reachable reached) ⟨action, unprompted, stepped⟩
  cases step_looped stepped with
  | moved client move now moved begun =>
      cases move with
      | read =>
          have lower := inside (.client client .read) trivial (by simp only [Bulletin.step, moved])
          simp only [due] at lower ⊢
          omega
      | connect | exit | pull | post | other | fill => exact unprompted.elim
  | connected => exact unprompted.elim
  | polled me loop polling polled =>
      have lower := Loop.poll_due polled
      have total := due_setLoop before me loop
      omega
  | accepted me loop accepted =>
      have lower := Loop.accept_due (Loop.accept_place accepted) accepted
      have total := due_setLoop before me loop
      omega
  | heeded me i client receive rest place polling reported there requests =>
      have mine := (inPlace me).proper.homed i client there
      have lower := inside (.serve me client) trivial
        (by simp only [Bulletin.step, requests, if_pos (And.intro mine polling)])
      have higher := Loop.heed_due receive place reported
      have total := due_setLoop before me ((before.loops me).heed i receive)
      simp only [due, setLoop] at lower total ⊢
      omega
  | passed me i place none =>
      have lower := Loop.pass_due place none
      have total := due_setLoop before me ((before.loops me).turn (.checking (i + 1)))
      omega
  | finished me k place outside =>
      have lower := Loop.finish_due place outside
      have total := due_setLoop before me ((before.loops me).turn .polling)
      omega
  | advanced me junk state advanced =>
      have lower := inside (.advance me junk) trivial advanced
      simp only [due] at lower ⊢
      omega

omit [Fintype Client] in
theorem settles_of {action : LoopAction n Client} (unprompted : action.Unprompted)
    (some : (step home action system).isSome) : ∃ next, Settles home system next := by
  obtain ⟨next, stepped⟩ := Option.isSome_iff_exists.mp some
  exact ⟨next, action, unprompted, stepped⟩

omit [Fintype Client] in
theorem settles_goes {board : Slot → Record} (inPlace : system.InPlace home)
    (reached : Bulletin.Reachable home board system.state) :
    system.AtRest home ∨ ∃ next, Settles home system next := by
  have handling : Handling system.state := .of_reachable reached
  have reserved : Reserved home system.state := .of_reachable reached
  by_cases busy : ∃ me, (system.state.servers me).control ≠ .polling
  · obtain ⟨me, busy⟩ := busy
    obtain ⟨turn, advanced⟩ := Option.isSome_iff_exists.mp
      (Server.advance_some me ⟨.zero, 0⟩ system.state.disk busy (handling me))
    refine .inr (@settles_of _ _ _ _ _ (.advance me ⟨.zero, 0⟩) trivial ?_)
    cases serving : (system.state.servers me).control.serving <;>
      simp [step, Bulletin.step, advanced, serving]
  · have polling : ∀ me, (system.state.servers me).control = .polling :=
      fun me => by_contra fun other => busy ⟨me, other⟩
    by_cases busy : ∃ me, (system.loops me).place ≠ .polling
    · obtain ⟨me, busy⟩ := busy
      obtain ⟨action, after, looping, stepped⟩ := inPlace.goes_on (polling me) busy
      refine .inr ⟨after, action, ?_, stepped⟩
      rcases looping with rfl | rfl <;> trivial
    · have place : ∀ me, (system.loops me).place = .polling :=
        fun me => by_contra fun other => busy ⟨me, other⟩
      by_cases reports : ∃ me, (system.loops me).backlog ≠ [] ∨ ∃ i, (system.loops me).ready system.asks i
      · obtain ⟨me, reports⟩ := reports
        refine .inr (@settles_of _ _ _ _ _ (.poll me) trivial ?_)
        simp [step, polling, Loop.poll, place, reports]
      · have session (client : Client) :
            Session (system.state.clients client) .idle (system.state.holding client) := by
          have here := reserved.session client
          rwa [polling] at here
        by_cases told : ∃ client, (system.state.clients client).replies ≠ []
        · obtain ⟨client, told⟩ := told
          obtain ⟨after, moved⟩ := (session client).reads told
          exact .inr (@settles_of _ _ _ _ _ (.client client .read) trivial
            (by simp [step, System.client, moved]))
        · have accepted (me : Fin n) : (system.loops me).backlog = [] :=
            by_contra fun some => reports ⟨me, .inl some⟩
          have replies (client : Client) : (system.state.clients client).replies = [] :=
            by_contra fun some => told ⟨client, some⟩
          refine .inl ⟨fun me => ⟨polling me, place me⟩, accepted, fun client => ?_⟩
          rcases (inPlace (home client)).placed client rfl with start | lined | there | gone
          · rw [start]
            exact .inl .start
          · rw [Loop.line, accepted, List.nil_append] at lined
            exact .inr ⟨lined, (inPlace _).proper.crowded (List.ne_nil_of_mem lined)⟩
          · obtain ⟨i, there⟩ := there
            have silent : (system.state.clients client).requests = [] := by
              by_contra asks
              refine reports ⟨home client, .inr ⟨i, ?_⟩⟩
              rw [Loop.ready, there]
              exact decide_eq_true asks
            exact .inl ((session client).stalls silent (replies client)).1
          · exact .inl ((session client).stalls gone.requests (replies client)).1

/-- From every state that the loops reach, if no user types a command, every run ends. -/
theorem comes_to_rest {board : Slot → Record} (reached : System.Reachable home board system) :
    Until (Settles home) (System.Reachable home board)
      (fun now => System.Reachable home board now ∧ now.AtRest home) system := by
  refine .of_potential due ?_ ?_ ?_ reached
  · intro before after run settles
    obtain ⟨action, _, stepped⟩ := settles
    exact run.tail ⟨action, stepped⟩
  · intro before after run settles
    obtain ⟨inPlace, reached⟩ := InPlace.of_reachable run
    exact settles.lowers inPlace reached
  · intro now run
    obtain ⟨inPlace, reached⟩ := InPlace.of_reachable run
    exact settles_goes inPlace reached

end System

/-- From every state that the servers reach with their loops and any clients with words that fit:
if no user types a further command, every run ends with all servers in `poll` and all connections
accepted, and no client waits but those that found the table full, of which there are none where
at most `MAX_CLIENTS` clients use the server. -/
theorem connections_answered [Fintype Client] (home : Client → Fin n) (board : Slot → Record)
    (system : System n Client) (reached : System.Reachable home board system) :
    Until (System.Settles home) (fun _ => True) (System.AtRest home) system :=
  (System.comes_to_rest reached).mono (fun _ _ => trivial) fun _ => And.right

/-- A client asks for the board and gets it. -/
theorem connections_answered_connected :
    ∃ system last : System 1 Unit, (system.state.clients ()).control = .reading ∧
      ReflTransGen (System.Settles fun _ => 0) system last ∧ last.AtRest fun _ => 0 := by
  obtain ⟨system, ran, control⟩ : ∃ system, [LoopAction.advance 0 ⟨.zero, 0⟩,
      .client () (.connect ⟨.zero, 0⟩)].foldlM
        (fun system action => System.step (fun _ => 0) action system)
        (System.boot 1 Unit fun _ => .zero) = some system ∧
      (system.state.clients ()).control = .reading := ⟨_, rfl, rfl⟩
  obtain ⟨last, rests, run⟩ :=
    (connections_answered (fun _ => 0) _ system (System.run_steps ran)).reaches
  exact ⟨system, last, control, run, rests⟩

/-! ## The others -/

/-- A connection without an entry never gets one. -/
theorem Looped.unheard {client : Client} (looped : Looped home before action after)
    (lost : client ∈ (before.loops me).unheard) : client ∈ (after.loops me).unheard := by
  have set {other : Fin n} {loop : Loop Client}
      (kept : client ∈ (before.loops other).unheard → client ∈ loop.unheard) :
      client ∈ (Function.update before.loops other loop me).unheard := by
    by_cases same : me = other
    · subst same
      rw [Function.update_self]
      exact kept lost
    · rwa [Function.update_of_ne same]
  cases looped with
  | moved | advanced => exact lost
  | connected => exact set id
  | polled other loop polling polled =>
      refine set ?_
      unfold Loop.poll at polled
      split at polled
      · cases polled
        exact id
      · cases polled
  | accepted other loop accepted =>
      refine set ?_
      obtain ⟨first, backlog, _, placed⟩ := Loop.accept_cases accepted
      rcases placed with placed | placed
      · obtain ⟨i, _, rfl⟩ := placed
        exact id
      · obtain ⟨_, rfl⟩ := placed
        exact List.mem_append_left _
  | heeded | passed | finished => exact set id

/-- A client whose connection found the table full waits for the board for ever: no server reads
its `!pull` or gives it an entry, also when entries are free again.  This happens only where more
than `MAX_CLIENTS` clients use one server. -/
theorem unheard_forever (home : Client → Fin n) (board : Slot → Record) (system last : System n Client)
    (reached : System.Reachable home board system) (client : Client)
    (lost : client ∈ (system.loops (home client)).unheard)
    (run : ReflTransGen (System.Step home) system last) :
    (last.state.clients client).Unserved ∧ (∀ me i, (last.loops me).fds i ≠ some client) ∧
      Crowded home (home client) := by
  have kept : client ∈ (last.loops (home client)).unheard := by
    refine @invariant_of_run _ _ _ _
      (fun now : System n Client => client ∈ (now.loops (home client)).unheard) ?_ run lost
    intro before after taken lost
    obtain ⟨action, stepped⟩ := taken
    exact (System.step_looped stepped).unheard lost
  have inPlace := (System.InPlace.of_reachable (reached.trans run)).1
  have lined : client ∈ (last.loops (home client)).line := List.mem_append_right _ kept
  refine ⟨(inPlace (home client)).unserved client lined, ?_,
    (inPlace (home client)).proper.crowded (List.ne_nil_of_mem kept)⟩
  intro me i there
  have mine := (inPlace me).proper.homed i client there
  subst mine
  exact ((inPlace (home client)).proper.outside client lined).2 i there

/-- A client that has the board or waits for it. -/
def ClientState.Pulls (now : ClientState) : Prop := now.control = .reading ∨ now.control = .prompt

theorem ClientState.Pulls.read {now after : ClientState} (pulls : now.Pulls)
    (moved : now.move .read = some after) : after.Pulls := by
  unfold ClientState.move at moved
  rcases pulls with control | control
  · rw [control] at moved
    simp only at moved
    split at moved
    · cases moved
    · split at moved <;> cases moved
      · exact .inr rfl
      · exact .inl rfl
  · rw [control] at moved
    cases moved

/-- Without a command it goes on so. -/
theorem System.Settles.pulls {client : Client} (settles : Settles home before after)
    (pulls : (before.state.clients client).Pulls) : (after.state.clients client).Pulls := by
  obtain ⟨action, unprompted, stepped⟩ := settles
  have set {someone : Client} {now : ClientState}
      (kept : (before.state.clients someone).Pulls → now.Pulls) :
      (Function.update before.state.clients someone now client).Pulls := by
    by_cases same : client = someone
    · subst same
      rw [Function.update_self]
      exact kept pulls
    · rwa [Function.update_of_ne same]
  cases step_looped stepped with
  | moved someone move now moved =>
      cases move with
      | read => exact set fun pulls => pulls.read moved
      | connect | exit | pull | post | other | fill => exact unprompted.elim
  | connected => exact unprompted.elim
  | polled | accepted | passed | finished => exact pulls
  | heeded => exact set id
  | advanced me junk state advanced =>
      unfold ClientState.Pulls
      rwa [(advance_clients advanced client).1]

/-- Any clients may connect before a server accepts one. -/
theorem System.all_connected (home : Client → Fin n) (board : Slot → Record) (clients : List Client) :
    ∃ system, System.Reachable home board system ∧
      (∀ client, system.state.clients client = .start ∨ (system.state.clients client).Pulls) ∧
      ∀ client ∈ clients, (system.state.clients client).Pulls := by
  induction clients with
  | nil => exact ⟨_, .refl, fun _ => .inl rfl, nofun⟩
  | cons client rest ih =>
      obtain ⟨system, reached, each, all⟩ := ih
      rcases each client with start | pulls
      · have stepped : System.step home (.client client (.connect ⟨.zero, 0⟩)) system =
            some ⟨system.state.setClient client (ClientState.start.send ⟨.pull, ⟨.zero, 0⟩⟩ .reading),
              Function.update system.loops (home client) ((system.loops (home client)).connect client)⟩ := by
          rw [System.step, System.client, start]
          rfl
        refine ⟨_, reached.tail ⟨_, stepped⟩, ?_, ?_⟩
        · intro other
          simp only [State.setClient]
          by_cases same : other = client
          · rw [same, Function.update_self]
            exact .inr (.inl rfl)
          · rw [Function.update_of_ne same]
            exact each other
        · intro other among
          simp only [State.setClient]
          by_cases same : other = client
          · rw [same, Function.update_self]
            exact .inl rfl
          · rw [Function.update_of_ne same]
            exact all other ((List.mem_cons.mp among).resolve_left same)
      · refine ⟨system, reached, each, ?_⟩
        intro other among
        rcases List.mem_cons.mp among with same | among
        · exact same ▸ pulls
        · exact all other among

/-- Of 21 clients that use one server, one is unheard. -/
theorem unheard_forever_twenty_one :
    ∃ (system : System 1 (Fin 21)) (client : Fin 21), client ∈ (system.loops 0).unheard ∧
      ∀ last, ReflTransGen (System.Step fun _ => 0) system last →
        (last.state.clients client).Unserved := by
  let home : Fin 21 → Fin 1 := fun _ => 0
  obtain ⟨start, begun, _, all⟩ := System.all_connected home (fun _ => .zero) (List.finRange 21)
  obtain ⟨system, rests, run⟩ := (System.comes_to_rest begun).reaches
  obtain ⟨reached, rests⟩ := rests
  have pulls (client : Fin 21) : (system.state.clients client).Pulls := by
    refine @invariant_of_run _ _ _ _ (fun now : System 1 (Fin 21) => (now.state.clients client).Pulls)
      ?_ run (all client (List.mem_finRange client))
    exact fun before after settles pulls => settles.pulls pulls
  have inPlace := (System.InPlace.of_reachable reached).1
  obtain ⟨client, lost⟩ : ∃ client, client ∈ (system.loops 0).unheard := by
    by_contra none
    have there (client : Fin 21) : ∃ i, (system.loops 0).fds i = some client := by
      rcases (inPlace 0).placed client rfl with start | lined | there | gone
      · have control := pulls client
        rw [start] at control
        rcases control with control | control <;> cases control
      · rw [Loop.line, rests.accepted, List.nil_append] at lined
        exact absurd ⟨client, lined⟩ none
      · exact there
      · rcases pulls client with control | control <;> cases control.symm.trans gone.control
    choose sits there using there
    have distinct : Function.Injective sits := by
      intro client other same
      exact Option.some.inj ((there client).symm.trans (same ▸ there other))
    have few := Fintype.card_le_of_injective sits distinct
    rw [Fintype.card_fin, Fintype.card_fin] at few
    exact absurd few (by decide)
  exact ⟨system, client, lost, fun last later =>
    (unheard_forever home (fun _ => .zero) system last reached client lost later).1⟩

end SysProg.Bulletin
