import SysProg.Bulletin.Reservation

namespace SysProg.Bulletin

open Relation SysProg.Data SysProg.Transition

variable {n : Nat} {Client : Type} [DecidableEq Client] {home : Client → Fin n}
  {state after : State n Client} {client : Client} {slot : Slot}

/-- An `!available` with the slot is on its way to the client, the client is typing
that post, or its `!finish` is on its way. -/
def ClientState.Owns (now : ClientState) (slot : Slot) : Prop :=
  (∃ io ∈ now.replies, io.type = .available ∧ slotOf io.buf.pos = some slot) ∨
  (∃ msg, now.control = .typing msg ∧ slotOf msg.pos = some slot) ∨
  (∃ io ∈ now.requests, io.type = .finish ∧ slotOf io.buf.pos = some slot)

/-- The server is about to send that `!available` or has not done with that `!finish`. -/
def Hand.Owns (hand : Hand) (slot : Slot) : Prop :=
  hand = .granting slot ∨ ∃ msg, hand = .finishing msg ∧ slotOf msg.pos = some slot

/-- The client owns the slot, in a state between two messages or inside a handler. -/
def Owns (home : Client → Fin n) (state : State n Client) (client : Client) (slot : Slot) : Prop :=
  (state.clients client).Owns slot ∨
    ((state.servers (home client)).control.hand client).Owns slot

variable {now : ClientState} {hand : Hand} {holding : Option Slot} {ios : List Io}

theorem Behind.owns (behind : Behind now ios hand holding) (none : now.replies = [])
    (typing : ∀ msg, now.control ≠ .typing msg) (others : ∀ io ∈ ios, io.type ≠ .finish) :
    holding = some slot ↔ now.Owns slot ∨ hand.Owns slot := by
  unfold ClientState.Owns Hand.Owns
  cases behind with
  | clear requests =>
      rw [none, requests]
      simp only [List.not_mem_nil, false_and, exists_false, typing, reduceCtorEq, or_self,
        false_or, false_iff, or_false]
      intro existing
      obtain ⟨io, member, finish, _⟩ := existing
      exact others io member finish
  | sent msg held requests pos filled =>
      rw [none, requests]
      simp only [List.not_mem_nil, false_and, exists_false, typing, reduceCtorEq, or_self,
        false_or, or_false, Option.some.injEq]
      refine ⟨?_, ?_⟩
      · intro same
        exact ⟨⟨.finish, msg⟩, by simp, rfl, same ▸ pos⟩
      · intro existing
        obtain ⟨io, member, finish, pos'⟩ := existing
        rw [List.mem_cons] at member
        cases member with
        | inl head =>
            rw [head, pos] at pos'
            exact Option.some.inj pos'
        | inr later => exact absurd finish (others io later)
  | handled msg held requests pos filled =>
      rw [none, requests]
      simp only [List.not_mem_nil, false_and, exists_false, typing, reduceCtorEq, false_or,
        Hand.finishing.injEq, Option.some.injEq]
      refine ⟨?_, ?_⟩
      · intro same
        exact .inr ⟨msg, rfl, same ▸ pos⟩
      · intro either
        cases either with
        | inl existing =>
            obtain ⟨io, member, finish, _⟩ := existing
            exact absurd finish (others io member)
        | inr existing =>
            obtain ⟨other, rfl, pos'⟩ := existing
            exact Option.some.inj (pos.symm.trans pos')

/-- In every stage of a conversation the slot held is the slot owned. -/
theorem Session.owns (session : Session now hand holding) :
    holding = some slot ↔ now.Owns slot ∨ hand.Owns slot := by
  cases session with
  | prompt _ _ control none behind =>
      refine behind.owns none ?_ (by simp)
      intro msg typing
      simp [typing] at control
  | askedPull _ _ junk control none behind => exact behind.owns none (by simp [control]) (by simp)
  | askedPost _ _ junk control none behind => exact behind.owns none (by simp [control]) (by simp)
  | leaving _ _ junk control none behind => exact behind.owns none (by simp [control]) (by simp)
  | shown control none records =>
      simp only [ClientState.Owns, Hand.Owns, none, control, reduceCtorEq, false_iff]
      simp only [List.not_mem_nil, false_and, exists_false, or_false, not_exists]
      intro io mentioned
      simp [records io mentioned.1] at mentioned
  | ended records last control none replies isRecord isEnd =>
      simp only [ClientState.Owns, Hand.Owns, none, control, replies, reduceCtorEq, false_iff]
      simp only [List.not_mem_nil, false_and, exists_false, or_false, not_exists]
      intro io mentioned
      obtain ⟨member, available, _⟩ := mentioned
      rw [List.mem_append, List.mem_singleton] at member
      cases member with
      | inl earlier => simp [isRecord io earlier] at available
      | inr same => simp [same, isEnd] at available
  | sought control none none' => simp [ClientState.Owns, Hand.Owns, none, none', control]
  | reserved held control none none' => simp [ClientState.Owns, Hand.Owns, none, none', control]
  | refused io control none replies isFull =>
      simp [ClientState.Owns, Hand.Owns, none, replies, control, isFull]
  | granted io held control none replies isAvailable pos =>
      simp [ClientState.Owns, Hand.Owns, none, replies, control, isAvailable, pos]
  | typing msg held control none none' pos =>
      simp [ClientState.Owns, Hand.Owns, none, none', control, pos]
  | left control none none' => simp [ClientState.Owns, Hand.Owns, none, none', control]

namespace Reserved

theorem holds_iff (reserved : Reserved home state) :
    state.holding client = some slot ↔ Owns home state client slot :=
  (reserved.session client).owns

/-- A `!finish` in hand is the post its sender typed, for the slot that sender owns. -/
theorem finishing {msg : Message} (reserved : Reserved home state)
    (hand : (state.servers (home client)).control.hand client = .finishing msg) :
    ∃ slot, slotOf msg.pos = some slot ∧ Owns home state client slot ∧
      (state.clients client).filled = some msg := by
  have session := reserved.session client
  rw [hand] at session
  obtain ⟨slot, pos, holding, filled⟩ := session.of_finishing
  exact ⟨slot, pos, reserved.holds_iff.mp holding, filled⟩

end Reserved

/-- One server's reservations, and what a handled `!finish` does. -/
structure OneServer (home : Client → Fin 1) (state : State 1 Client) : Prop where
  owned : ∀ slot, (state.servers 0).locked slot = true ↔ ∃! client, Owns home state client slot
  free : ∀ slot, (state.servers 0).locked slot = false ↔ ∀ client, ¬ Owns home state client slot
  between : (state.servers 0).control = .polling → ∀ client slot,
    Owns home state client slot ↔ (state.clients client).Owns slot
  written : ∀ client msg junk after, (state.servers 0).control = .finishing client msg →
    step home (.advance 0 junk) state = some after →
    ∃ slot, slotOf msg.pos = some slot ∧ Owns home state client slot ∧
      (state.clients client).filled = some msg ∧
      after.disk.board = Function.update state.disk.board slot msg.rd ∧
      (after.servers 0).locked = (state.servers 0).locked ∧
      (after.servers 0).control = .unlocking client msg
  freed : ∀ client msg junk after, (state.servers 0).control = .unlocking client msg →
    step home (.advance 0 junk) state = some after →
    ∃ slot, slotOf msg.pos = some slot ∧ Owns home state client slot ∧
      (state.clients client).filled = some msg ∧
      after.disk.board = state.disk.board ∧
      (after.servers 0).locked = Function.update (state.servers 0).locked slot false ∧
      (after.servers 0).control = .polling

theorem reservations_owned {home : Client → Fin 1} {board : Slot → Record}
    {state : State 1 Client} (reached : Reachable home board state) : OneServer home state := by
  have reserved := Reserved.of_reachable reached
  have only : ∀ client, home client = 0 := fun client => Subsingleton.elim ..
  have someone : ∀ slot, (state.servers 0).locked slot = true ↔
      ∃ client, Owns home state client slot := by
    intro slot
    rw [(reserved.table 0).held]
    refine exists_congr fun client => ?_
    rw [reserved.holds_iff, and_iff_right (only client)]
  refine ⟨?_, ?_, ?_, ?_, ?_⟩
  · intro slot
    rw [someone]
    refine ⟨?_, fun unique => unique.exists⟩
    intro existing
    obtain ⟨client, owns⟩ := existing
    refine ⟨client, owns, ?_⟩
    intro other ownsOther
    exact (reserved.table 0).single other client slot (only other) (only client)
      (reserved.holds_iff.mpr ownsOther) (reserved.holds_iff.mpr owns)
  · intro slot
    rw [← Bool.not_eq_true, someone, not_exists]
  · intro polling client slot
    simp [Owns, only client, polling, ServerControl.hand, Hand.Owns]
  · intro client msg junk after control stepped
    have hand : (state.servers (home client)).control.hand client = .finishing msg := by
      simp [only client, control, ServerControl.hand]
    obtain ⟨slot, pos, owns, filled⟩ := reserved.finishing hand
    refine ⟨slot, pos, owns, filled, ?_⟩
    simp only [step, Server.advance, control, pos, ServerControl.serving, State.apply,
      Option.some.injEq] at stepped
    subst stepped
    refine ⟨rfl, ?_, ?_⟩ <;> simp [State.setServer, Server.moveTo]
  · intro client msg junk after control stepped
    have hand : (state.servers (home client)).control.hand client = .finishing msg := by
      simp [only client, control, ServerControl.hand]
    obtain ⟨slot, pos, owns, filled⟩ := reserved.finishing hand
    refine ⟨slot, pos, owns, filled, ?_⟩
    simp only [step, Server.advance, control, pos, ServerControl.serving, State.apply,
      Option.some.injEq] at stepped
    subst stepped
    refine ⟨?_, ?_, ?_⟩
    · simp only [State.setHolding, Disk.unlock]
      split <;> rfl
    · simp [State.setServer, State.setHolding, Server.moveTo, Server.reserve]
    · simp [State.setServer, State.setHolding, Server.moveTo, Server.reserve]

/-- A client pulls the empty board and is granted its first slot. -/
def grantedRun : List (Action 1 Unit) :=
  List.replicate 2 (.advance 0 ⟨.zero, 0⟩) ++
    [.client () (.connect ⟨.zero, 0⟩), .serve 0 ()] ++
    List.replicate 22 (.advance 0 ⟨.zero, 0⟩) ++
    [.client () .read, .client () (.post ⟨.zero, 0⟩), .serve 0 ()] ++
    List.replicate 4 (.advance 0 ⟨.zero, 0⟩)

theorem reservations_owned_granted :
    ∃ state : State 1 Unit,
      run (fun _ _ => true) (fun _ => 0) grantedRun (boot 1 Unit fun _ => .zero) = some state ∧
      OneServer (fun _ => 0) state := by
  have completes : (run (fun _ _ => true) (fun _ => 0) grantedRun
      (boot 1 Unit fun _ => .zero)).isSome = true := by
    decide +kernel
  obtain ⟨state, ran⟩ := Option.isSome_iff_exists.mp completes
  exact ⟨state, ran, reservations_owned (Restrict.run _ (run_steps ran))⟩

end SysProg.Bulletin
