import SysProg.Bulletin.Connections

namespace SysProg.Bulletin

open Relation SysProg.Transition

/-! # Served in turn

A server comes to every connection of its table that has sent something, in the order of the
table. -/

variable {n : Nat} {Client : Type} {home : Client → Fin n} {me : Fin n}
  {before after system : System n Client} {action : LoopAction n Client}

namespace System

/-- The connection that the next `check` of a server reads from. -/
def reads (me : Fin n) (system : System n Client) : Option Client :=
  match (system.loops me).place with
  | .checking i =>
      if inside : i < MAX_CLIENTS then
        if (system.loops me).revents ⟨i, inside⟩ then (system.loops me).fds ⟨i, inside⟩ else none
      else none
  | _ => none

/-- The connections that `me` has read from, one for each message. -/
def note (me : Fin n) (action : LoopAction n Client) (system : System n Client)
    (served : List Client) : List Client :=
  match action with
  | .check other => if other = me then served ++ (system.reads me).toList else served
  | _ => served

end System

/-- How many messages a server may read before it comes to a message in the entry `i`. -/
def Loop.ahead (i : Entry) (loop : Loop Client) : Nat :=
  match loop.place with
  | .polling => i
  | .accepting => if loop.revents i then i else MAX_CLIENTS + i
  | .checking k => if loop.revents i ∧ k ≤ i then i - k else MAX_CLIENTS - k + i

theorem Loop.ahead_le (i : Entry) (loop : Loop Client) : loop.ahead i < 2 * MAX_CLIENTS := by
  have inside := i.isLt
  unfold ahead
  split
  · omega
  · split <;> omega
  · split <;> omega

theorem System.note_prefix (me : Fin n) (action : LoopAction n Client) (system : System n Client)
    (served : List Client) : ∃ more, note me action system served = served ++ more ∧ more.length ≤ 1 := by
  unfold note
  split
  · split
    · exact ⟨_, rfl, by cases system.reads me <;> simp⟩
    · exact ⟨[], (List.append_nil _).symm, Nat.zero_le 1⟩
  · exact ⟨[], (List.append_nil _).symm, Nat.zero_le 1⟩

/-- A connection that has a message for the server, and how long it may have to wait. -/
structure Waits (client : Client) (i : Entry) (me : Fin n) (bound : Nat)
    (traced : Traced (System n Client) (List Client)) : Prop where
  there : (traced.state.loops me).fds i = some client
  asks : (traced.state.state.clients client).requests ≠ []
  turn : traced.past.length + (traced.state.loops me).ahead i < bound

namespace Waits

variable {client : Client} {i : Entry} {bound : Nat} {served : List Client}

/-- A step that leaves the entry and its message alone and does not put the loop back. -/
theorem along {loop : Loop Client} (waits : Waits client i me bound ⟨before, served⟩)
    (here : after.loops me = loop) (fds : loop.fds i = (before.loops me).fds i)
    (ahead : loop.ahead i ≤ (before.loops me).ahead i)
    (asks : (before.state.clients client).requests ≠ [] → (after.state.clients client).requests ≠ []) :
    Waits client i me bound ⟨after, served⟩ := by
  subst here
  exact ⟨fds.trans waits.there, asks waits.asks, Nat.lt_of_le_of_lt (Nat.add_le_add_left ahead _) waits.turn⟩

theorem setLoop {loop : Loop Client} (waits : Waits client i me bound ⟨before, served⟩)
    (fds : loop.fds i = (before.loops me).fds i) (ahead : loop.ahead i ≤ (before.loops me).ahead i) :
    Waits client i me bound ⟨before.setLoop me loop, served⟩ :=
  waits.along (Function.update_self ..) fds ahead id

/-- The loop of another server goes on. -/
theorem other {other : Fin n} {loop : Loop Client} (waits : Waits client i me bound ⟨before, served⟩)
    (different : other ≠ me) : Waits client i me bound ⟨before.setLoop other loop, served⟩ :=
  waits.along (Function.update_of_ne (Ne.symm different) ..) rfl (Nat.le_refl _) id

theorem poll {loop : Loop Client} (waits : Waits client i me bound ⟨before, served⟩)
    (polled : (before.loops me).poll before.asks = some loop) :
    Waits client i me bound ⟨before.setLoop me loop, served⟩ := by
  have reported : (before.loops me).ready before.asks i = true := by
    rw [Loop.ready, waits.there]
    exact decide_eq_true waits.asks
  unfold Loop.poll at polled
  split at polled
  · rename_i polling
    cases polled
    refine waits.setLoop rfl ?_
    by_cases empty : (before.loops me).backlog = [] <;>
      simp [Loop.ahead, polling.1, empty, reported]
  · cases polled

theorem accept {loop : Loop Client} (waits : Waits client i me bound ⟨before, served⟩)
    (accepted : (before.loops me).accept = some loop) :
    Waits client i me bound ⟨before.setLoop me loop, served⟩ := by
  have place := Loop.accept_place accepted
  obtain ⟨first, backlog, _, placed⟩ := Loop.accept_cases accepted
  rcases placed with placed | placed
  · obtain ⟨j, free, rfl⟩ := placed
    have different : i ≠ j := by
      intro same
      cases (same ▸ waits.there).symm.trans free
    refine waits.setLoop (Function.update_of_ne different ..) ?_
    simp [Loop.ahead, place]
  · obtain ⟨_, rfl⟩ := placed
    refine waits.setLoop rfl ?_
    simp [Loop.ahead, place]

theorem pass {j : Entry} (waits : Waits client i me bound ⟨before, served⟩)
    (place : (before.loops me).place = .checking j) (none : (before.loops me).revents j = false) :
    Waits client i me bound
      ⟨before.setLoop me ((before.loops me).turn (.checking (j + 1))), served⟩ := by
  refine waits.setLoop rfl ?_
  have inside := j.isLt
  simp only [Loop.ahead, Loop.turn, place]
  by_cases reported : (before.loops me).revents i = true
  · have different : i.val ≠ j.val := by
      intro same
      cases (Fin.ext same ▸ reported).symm.trans none
    simp only [reported, true_and]
    split <;> split <;> omega
  · simp only [Bool.not_eq_true] at reported
    simp only [reported, Bool.false_eq_true, false_and, if_false]
    omega

theorem finish {k : Nat} (waits : Waits client i me bound ⟨before, served⟩)
    (place : (before.loops me).place = .checking k) (outside : MAX_CLIENTS ≤ k) :
    Waits client i me bound ⟨before.setLoop me ((before.loops me).turn .polling), served⟩ := by
  refine waits.setLoop rfl ?_
  have inside := i.isLt
  simp only [Loop.ahead, Loop.turn, place]
  split <;> omega

variable [DecidableEq Client]

theorem heed {j : Entry} {other : Client} {receive : Io} {rest : List Io}
    (waits : Waits client i me bound ⟨before, served⟩)
    (place : (before.loops me).place = .checking j) (there : (before.loops me).fds j = some other)
    (passes : client ≠ other) :
    Waits client i me bound
      ⟨⟨(before.state.setServer me ((before.state.servers me).dispatch other receive)).setClient other
          { before.state.clients other with requests := rest },
        Function.update before.loops me ((before.loops me).heed j receive)⟩, served ++ [other]⟩ := by
  have different : i ≠ j := by
    intro same
    exact passes (Option.some.inj ((same ▸ waits.there).symm.trans there))
  have apart : i.val ≠ j.val := fun same => different (Fin.ext same)
  have fds : ((before.loops me).heed j receive).fds i = (before.loops me).fds i := by
    simp only [Loop.heed]
    split
    · exact Function.update_of_ne different ..
    · rfl
  refine ⟨?_, ?_, ?_⟩
  · simp only [Function.update_self]
    exact fds.trans waits.there
  · simp only [State.setClient, Function.update_of_ne passes]
    exact waits.asks
  · have turn := waits.turn
    have inside := j.isLt
    simp only [Function.update_self, List.length_append, List.length_singleton, Loop.ahead, Loop.heed]
    simp only [Loop.ahead, place] at turn
    by_cases reported : (before.loops me).revents i = true
    · simp only [reported, true_and] at turn ⊢
      split at turn <;> split <;> omega
    · simp only [Bool.not_eq_true] at reported
      simp only [reported, Bool.false_eq_true, false_and, if_false] at turn ⊢
      omega

theorem step (waits : Waits client i me bound ⟨before, served⟩) (inPlace : before.InPlace home)
    (looped : Looped home before action after) (passes : client ∉ System.note me action before served) :
    Waits client i me bound ⟨after, System.note me action before served⟩ := by
  cases looped with
  | moved someone move now moved begun =>
      refine waits.along rfl rfl (Nat.le_refl _) fun asks => ?_
      simp only [State.setClient]
      by_cases same : client = someone
      · subst same
        rw [Function.update_self]
        exact (ClientState.move_connected moved begun).2.2.1 asks
      · rwa [Function.update_of_ne same]
  | connected someone junk now moved =>
      have started := (inPlace me).started i client waits.there
      have different : client ≠ someone := by
        intro same
        subst same
        unfold ClientState.move at moved
        split at moved <;> simp_all
      have asks (asked : (before.state.clients client).requests ≠ []) :
          ((before.state.setClient someone now).clients client).requests ≠ [] := by
        simp only [State.setClient]
        rwa [Function.update_of_ne different]
      by_cases same : me = home someone
      · subst same
        exact waits.along (Function.update_self ..) rfl (Nat.le_refl _) asks
      · exact waits.along (Function.update_of_ne same ..) rfl (Nat.le_refl _) asks
  | polled other loop polling polled =>
      by_cases same : other = me
      · subst same
        exact waits.poll polled
      · exact waits.other same
  | accepted other loop accepted =>
      by_cases same : other = me
      · subst same
        exact waits.accept accepted
      · exact waits.other same
  | heeded other j someone receive rest place polling reported there requests =>
      by_cases same : other = me
      · subst same
        have reads : before.reads other = some someone := by
          simp [System.reads, place, reported, there]
        simp only [System.note, if_true, reads, Option.toList_some] at passes ⊢
        exact waits.heed place there fun same => passes (List.mem_append_right _ (same ▸ List.mem_cons_self))
      · have different : client ≠ someone := by
          intro same'
          have mine := (inPlace me).proper.homed i client waits.there
          exact same (((inPlace other).proper.homed j someone there).symm.trans (same' ▸ mine))
        simp only [System.note, if_neg same]
        refine waits.along (Function.update_of_ne (Ne.symm same) ..) rfl (Nat.le_refl _) fun asks => ?_
        simp only [State.setClient]
        rwa [Function.update_of_ne different]
  | passed other j place none =>
      by_cases same : other = me
      · subst same
        have reads : before.reads other = .none := by
          simp [System.reads, place, none]
        simp only [System.note, if_true, reads, Option.toList_none, List.append_nil]
        exact waits.pass place none
      · simp only [System.note, if_neg same]
        exact waits.other same
  | finished other k place outside =>
      by_cases same : other = me
      · subst same
        have reads : before.reads other = none := by
          simp [System.reads, place, Nat.not_lt.mpr outside]
        simp only [System.note, if_true, reads, Option.toList_none, List.append_nil]
        exact waits.finish place outside
      · simp only [System.note, if_neg same]
        exact waits.other same
  | advanced other junk state advanced =>
      refine waits.along rfl rfl (Nat.le_refl _) fun asks => ?_
      rwa [(advance_clients advanced client).2]

end Waits

variable [DecidableEq Client]

/-- In every run a server that has read `2 * MAX_CLIENTS` messages has read one of each client
of its table that had sent one. -/
theorem served_in_turn (home : Client → Fin n) (board : Slot → Record) (system : System n Client)
    (reached : System.Reachable home board system) (me : Fin n) (i : Entry) (client : Client)
    (there : (system.loops me).fds i = some client)
    (asks : (system.state.clients client).requests ≠ []) {traced : Traced (System n Client) (List Client)}
    (run : ReflTransGen (Traced.Step (System.step home) (System.note me)) ⟨system, []⟩ traced) :
    traced.past.length < 2 * MAX_CLIENTS ∨ client ∈ traced.past.take (2 * MAX_CLIENTS) := by
  let Served (traced : Traced (System n Client) (List Client)) : Prop :=
    System.Reachable home board traced.state ∧
      (Waits client i me (2 * MAX_CLIENTS) traced ∨ client ∈ traced.past.take (2 * MAX_CLIENTS))
  have served : Served traced := by
    refine @invariant_of_run _ _ _ _ Served ?_ run ⟨reached, .inl ⟨there, asks, ?_⟩⟩
    · intro before after taken served
      obtain ⟨reached, waits⟩ := served
      obtain ⟨action, stepped, noted⟩ := taken
      refine ⟨reached.tail ⟨action, stepped⟩, ?_⟩
      obtain ⟨more, past, one⟩ := System.note_prefix me action before.state before.past
      have past' : after.past = before.past ++ more := noted.trans past
      rcases waits with waits | among
      · by_cases read : client ∈ after.past
        · have few := waits.turn
          refine .inr ?_
          rwa [List.take_of_length_le]
          rw [past', List.length_append]
          omega
        · have next := waits.step (System.InPlace.of_reachable reached).1 (System.step_looped stepped)
            (noted ▸ read)
          rw [← noted] at next
          exact .inl next
      · refine .inr ?_
        rw [past', List.take_append]
        exact List.mem_append_left _ among
    · have few := Loop.ahead_le i (system.loops me)
      rwa [List.length_nil, Nat.zero_add]
  rcases served.2 with waits | among
  · have few := waits.turn
    exact .inl (by omega)
  · exact .inr among

/-- Client 1 is accepted while client 0 is answered.  Client 0 then sends its next message and
is read once more before client 1, and no second time. -/
theorem served_in_turn_accepted :
    ∃ (system : System 1 (Fin 2)) (traced : Traced (System 1 (Fin 2)) (List (Fin 2))),
      (system.loops 0).fds 1 = some 1 ∧ (system.state.clients 1).requests ≠ [] ∧
      (system.state.clients 0).requests = [] ∧ traced.past = [0, 1] ∧
      (traced.past.length < 2 * MAX_CLIENTS ∨ 1 ∈ traced.past.take (2 * MAX_CLIENTS)) := by
  let joins : List (LoopAction 1 (Fin 2)) :=
    [.advance 0 ⟨.zero, 0⟩, .advance 0 ⟨.zero, 0⟩, .client 0 (.connect ⟨.zero, 0⟩),
      .client 1 (.connect ⟨.zero, 0⟩), .poll 0, .accept 0] ++
      List.replicate 21 (.check 0) ++ [.poll 0, .accept 0, .check 0]
  let reads : List (LoopAction 1 (Fin 2)) :=
    List.replicate 22 (.advance 0 ⟨.zero, 0⟩) ++ [.client 0 .read, .client 0 (.pull ⟨.zero, 0⟩)] ++
      List.replicate 20 (.check 0) ++ [.poll 0, .check 0] ++
      List.replicate 22 (.advance 0 ⟨.zero, 0⟩) ++ [.check 0]
  have completes : (joins.foldlM (fun system action => System.step (fun _ => 0) action system)
        (System.boot 1 (Fin 2) fun _ => .zero)).any (fun system =>
          (system.loops 0).fds 1 = some 1 ∧ (system.state.clients 1).requests ≠ [] ∧
          (system.state.clients 0).requests = [] ∧
          (Traced.run (System.step fun _ => 0) (System.note 0) (fun _ _ => true) reads
            ⟨system, []⟩).any (fun traced => traced.past = [0, 1]) = true) = true := by
    decide +kernel
  obtain ⟨system, ran, facts⟩ := (Option.any_eq_true _ _).mp completes
  obtain ⟨there, asks, idle, passes⟩ := of_decide_eq_true facts
  obtain ⟨traced, passed, read⟩ := (Option.any_eq_true _ _).mp passes
  exact ⟨system, traced, there, asks, idle, of_decide_eq_true read,
    served_in_turn (fun _ => 0) _ system (System.run_steps ran) 0 1 1 there asks
      (Restrict.run _ (Traced.run_steps passed))⟩

end SysProg.Bulletin
