import SysProg.Bulletin.Ownership

namespace SysProg.Bulletin

open Relation SysProg.Data SysProg.Transition

variable {n : Nat} {Client : Type} {home : Client → Fin n} {me other : Fin n} {junk : Message}
  {server : Server Client} {disk : Disk n} {turn : Turn n Client} {slot : Slot}

namespace Disk

theorem write_lock_other {taken : Slot} (owned : disk.owner slot = some other)
    (different : other ≠ me) : (disk.write_lock me taken).owner slot = some other := by
  unfold write_lock
  split
  · rename_i lockable
    have apart : slot ≠ taken := by
      intro equal
      subst equal
      simp [Disk.lockable, owned, different] at lockable
    exact (Function.update_of_ne apart ..).trans owned
  · exact owned

theorem write_lock_own {taken : Slot} (owned : disk.owner slot = some me) :
    (disk.write_lock me taken).owner slot = some me := by
  unfold write_lock
  split
  · change Function.update disk.owner taken (some me) slot = some me
    cases eq_or_ne slot taken with
    | inl equal => rw [equal, Function.update_self]
    | inr apart => rw [Function.update_of_ne apart, owned]
  · exact owned

theorem write_lock_self (lockable : disk.lockable me slot = true) :
    (disk.write_lock me slot).owner slot = some me := by
  rw [write_lock, if_pos lockable]
  exact Function.update_self ..

theorem unlock_apart {freed : Slot} (owned : disk.owner slot = some other)
    (apart : slot ≠ freed ∨ other ≠ me) : (disk.unlock me freed).owner slot = some other := by
  unfold unlock
  split
  · rename_i mine
    have different : slot ≠ freed := by
      cases apart with
      | inl different => exact different
      | inr different =>
          intro equal
          rw [← equal, owned] at mine
          exact different (Option.some.inj mine)
    exact (Function.update_of_ne different ..).trans owned
  · exact owned

end Disk

/-- The result that the `!post` branch does not look at is a success: no other server
holds the lock of the slot when it is locked again. -/
def Undisturbed (before after : State n Client) : Prop :=
  ∀ me client tmp, (before.servers me).control = .reserving client tmp →
    (after.servers me).control ≠ .reserving client tmp →
    before.disk.lockable me tmp = true

namespace Server

/-- A server takes no lock from another and keeps the locks of its own reservations. -/
theorem advance_owner (advanced : server.advance me junk disk = some turn)
    (owned : disk.owner slot = some other)
    (keeps : other ≠ me ∨ (server.locked slot = true ∧ turn.server.locked slot = true))
    (fresh : ∀ slot, server.control.probes = some slot → server.locked slot = false) :
    turn.disk.owner slot = some other := by
  have locking : ∀ taken, (disk.write_lock me taken).owner slot = some other := by
    intro taken
    cases eq_or_ne other me with
    | inl equal =>
        subst equal
        exact Disk.write_lock_own owned
    | inr different => exact Disk.write_lock_other owned different
  have unlocking : ∀ freed, (other = me → server.locked freed = false) →
      (disk.unlock me freed).owner slot = some other := by
    intro freed unlocked
    refine Disk.unlock_apart owned ?_
    cases eq_or_ne other me with
    | inl equal =>
        refine .inl ?_
        intro same
        cases keeps with
        | inl different => exact different equal
        | inr both =>
            rw [same, unlocked equal] at both
            cases both.1
    | inr different => exact .inr different
  unfold advance at advanced
  cases control : server.control with
  | probing client index i =>
      simp only [control, Option.some.injEq] at advanced
      subst advanced
      unfold probe
      split
      · split
        · exact owned
        · split
          · exact locking _
          · exact owned
      · exact owned
  | scanning client i num_locked =>
      simp only [control, Option.some.injEq] at advanced
      subst advanced
      unfold scan
      split
      · split
        · exact owned
        · exact locking _
      · exact owned
  | probed client index =>
      simp only [control, Option.some.injEq] at advanced
      subst advanced
      exact unlocking index fun _ => fresh index (by rw [control]; rfl)
  | seen client i num_locked =>
      simp only [control, Option.some.injEq] at advanced
      subst advanced
      exact unlocking i fun _ => fresh i (by rw [control]; rfl)
  | reserving client tmp =>
      simp only [control, Option.some.injEq] at advanced
      subst advanced
      exact locking tmp
  | finishing client msg =>
      simp only [control] at advanced
      split at advanced <;> (cases advanced; exact owned)
  | unlocking client msg =>
      simp only [control] at advanced
      split at advanced
      · rename_i freed pos
        cases advanced
        refine Disk.unlock_apart owned ?_
        cases keeps with
        | inl different => exact .inr different
        | inr both =>
            refine .inl ?_
            intro same
            have gone : Function.update server.locked freed false slot = true := both.2
            rw [same, Function.update_self] at gone
            cases gone
      · cases advanced
        exact owned
  | polling => simp [control] at advanced
  | crashed => simp [control] at advanced
  | _ =>
      simp only [control, Option.some.injEq] at advanced
      subst advanced
      exact owned

/-- A reservation that is new has got its lock, if nobody was in the way. -/
theorem advance_lock (advanced : server.advance me junk disk = some turn)
    (new : server.locked slot = false) (locked : turn.server.locked slot = true) :
    ∃ client, server.control = .reserving client slot ∧
      turn.server.control = .granting client slot ∧ turn.disk = disk.write_lock me slot := by
  have effect : turn.effect = .reserve slot := by
    have table := advance_locked advanced
    rw [table] at locked
    cases made : turn.effect with
    | reserve taken =>
        rw [made] at locked
        change Function.update server.locked taken true slot = true at locked
        cases eq_or_ne slot taken with
        | inl equal => rw [equal]
        | inr apart => simp [Function.update_of_ne apart, new] at locked
    | free freed =>
        rw [made] at locked
        change Function.update server.locked freed false slot = true at locked
        cases eq_or_ne slot freed with
        | inl equal => simp [equal] at locked
        | inr apart => simp [Function.update_of_ne apart, new] at locked
    | _ => simp [made, Effect.lock, new] at locked
  have probes := advance_reserves advanced effect
  unfold advance at advanced
  cases control : server.control with
  | reserving client tmp =>
      simp only [control, Option.some.injEq] at advanced
      subst advanced
      cases effect
      exact ⟨client, rfl, rfl, rfl⟩
  | probed client index =>
      simp only [control, Option.some.injEq] at advanced
      subst advanced
      cases effect
  | seen client i num_locked =>
      simp only [control, Option.some.injEq] at advanced
      subst advanced
      cases effect
  | _ => simp [control, ServerControl.probes] at probes

end Server

/-- Every reservation is backed by the file lock of its slot. -/
def Backed (state : State n Client) : Prop :=
  ∀ me slot, (state.servers me).locked slot = true → state.disk.owner slot = some me

variable [DecidableEq Client] {state before after : State n Client} {client : Client}

/-- The client has been sent `!available` with the slot and its `!finish` has not been
handled. -/
def Granted (home : Client → Fin n) (state : State n Client) (client : Client)
    (slot : Slot) : Prop :=
  state.holding client = some slot ∧
    (state.servers (home client)).control ≠ .granting client slot

namespace Backed

omit [DecidableEq Client] in
theorem boot (board : Slot → Record) : Backed (boot n Client board) := by
  intro me slot locked
  cases locked

omit [DecidableEq Client] in
theorem advance {servers : Fin n → Server Client} {disk : Disk n} {turn : Turn n Client}
    (backed : ∀ me slot, (servers me).locked slot = true → disk.owner slot = some me)
    (fresh : ∀ slot, (servers me).control.probes = some slot → (servers me).locked slot = false)
    (advanced : (servers me).advance me junk disk = some turn)
    (succeeds : ∀ client tmp, (servers me).control = .reserving client tmp →
      turn.server.control ≠ .reserving client tmp → disk.lockable me tmp = true) :
    ∀ other slot, (Function.update servers me turn.server other).locked slot = true →
      turn.disk.owner slot = some other := by
  intro other slot locked
  cases eq_or_ne other me with
  | inl equal =>
      subst equal
      rw [Function.update_self] at locked
      cases before : (servers other).locked slot with
      | true =>
          exact Server.advance_owner advanced (backed other slot before) (.inr ⟨before, locked⟩)
            fresh
      | false =>
          obtain ⟨client, control, after, written⟩ := Server.advance_lock advanced before locked
          rw [written]
          exact Disk.write_lock_self (succeeds client slot control (by simp [after]))
  | inr different =>
      rw [Function.update_of_ne different] at locked
      exact Server.advance_owner advanced (backed other slot locked) (.inl different) fresh

theorem step (reserved : Reserved home before) (backed : Backed before)
    (stepped : Step home before after) (undisturbed : Undisturbed before after) :
    Backed after := by
  obtain ⟨action, computed⟩ := stepped
  unfold Bulletin.step at computed
  cases action with
  | client client move =>
      simp only at computed
      split at computed
      · cases computed
        exact backed
      · cases computed
  | serve me client =>
      simp only at computed
      split at computed
      · rename_i enabled
        split at computed
        · cases computed
        · rename_i receive rest next
          cases computed
          obtain ⟨_, _, locked, _⟩ :=
            @Server.dispatch_hand Client (before.servers me) client _ receive enabled.2
          intro other slot reservation
          change (Function.update before.servers me _ other).locked slot = true at reservation
          refine backed other slot ?_
          cases eq_or_ne other me with
          | inl equal =>
              rw [equal, Function.update_self, locked] at reservation
              rw [equal, reservation]
          | inr different => rwa [Function.update_of_ne different] at reservation
      · cases computed
  | advance me junk =>
      simp only at computed
      split at computed
      · cases computed
      · rename_i turn advanced
        have result : after.servers = Function.update before.servers me turn.server ∧
            after.disk = turn.disk := by
          split at computed
          · cases computed
            exact ⟨rfl, rfl⟩
          · cases computed
            exact ⟨State.apply_servers .., State.apply_disk ..⟩
        intro other slot locked
        rw [result.1] at locked
        rw [result.2]
        refine advance backed (reserved.fresh me) advanced ?_ other slot locked
        intro client tmp control moved
        refine undisturbed me client tmp control ?_
        rwa [result.1, Function.update_self]

theorem of_run {board : Slot → Record}
    (run : ReflTransGen (Restrict (Step home) Undisturbed) (Bulletin.boot n Client board) state) :
    Backed state := by
  refine invariant_of_reached ?_ run (boot board)
  intro before after reached taken backed
  exact backed.step (Reserved.of_reachable (Restrict.run _ reached)) taken.1 taken.2

end Backed

/-- In a run in which every unchecked `write_lock` succeeds, of clients with words that fit, no
slot is granted twice, and whoever finishes a post does it in a slot granted to nobody else. -/
theorem slots_exclusive {board : Slot → Record}
    (run : ReflTransGen (Restrict (Step home) Undisturbed) (boot n Client board) state) :
    (∀ left right slot, Granted home state left slot → Granted home state right slot →
      left = right) ∧
    ∀ writer msg slot, (state.servers (home writer)).control = .finishing writer msg →
      slotOf msg.pos = some slot →
      ∀ other, Granted home state other slot → other = writer := by
  have reserved : Reserved home state := .of_reachable (Restrict.run _ run)
  have backed : Backed state := .of_run run
  have exclusive : ∀ left right slot, state.holding left = some slot →
      state.holding right = some slot → left = right := by
    intro left right slot heldLeft heldRight
    have owned : ∀ client, state.holding client = some slot →
        state.disk.owner slot = some (home client) := by
      intro client held
      exact backed (home client) slot
        (((reserved.table (home client)).held slot).mpr ⟨client, rfl, held⟩)
    have together : home left = home right :=
      Option.some.inj ((owned left heldLeft).symm.trans (owned right heldRight))
    exact (reserved.table (home right)).single left right slot together rfl heldLeft heldRight
  refine ⟨?_, ?_⟩
  · intro left right slot grantedLeft grantedRight
    exact exclusive left right slot grantedLeft.1 grantedRight.1
  · intro writer msg slot control pos other granted
    have hand : (state.servers (home writer)).control.hand writer = .finishing msg := by
      simp [control, ServerControl.hand]
    obtain ⟨held, pos', owns, _⟩ := reserved.finishing hand
    obtain rfl : held = slot := Option.some.inj (pos'.symm.trans pos)
    exact exclusive other writer held granted.1 (reserved.holds_iff.mpr owns)

instance (before after : State n (Fin 2)) : Decidable (Undisturbed before after) :=
  inferInstanceAs (Decidable (∀ _ _ _, _ → _ → _))

def junk0 : Message := ⟨.zero, 0⟩

def asking (first second : Fin 2) : List (Action 2 (Fin 2)) :=
  List.replicate 2 (Action.advance first junk0) ++ List.replicate 2 (Action.advance second junk0) ++
    [Action.client first (.connect junk0), Action.client second (.connect junk0), Action.serve first first,
      Action.serve second second] ++
    List.replicate 22 (Action.advance first junk0) ++ List.replicate 22 (Action.advance second junk0) ++
    [Action.client first .read, Action.client second .read, Action.client first (.post junk0),
      Action.client second (.post junk0), Action.serve first first, Action.serve second second]

/-- The second server probes when the first has its lock for good. -/
theorem slots_exclusive_in_turn :
    ∃ state : State 2 (Fin 2),
      ReflTransGen (Restrict (Step id) Undisturbed) (boot 2 (Fin 2) fun _ => .zero) state ∧
      Granted id state 0 0 ∧ Granted id state 1 1 ∧
      ∀ left right slot, Granted id state left slot → Granted id state right slot →
        left = right := by
  have completes : (run (fun before after => decide (Undisturbed before after)) id
      (asking 0 1 ++ List.replicate 4 (.advance 0 junk0) ++ List.replicate 5 (.advance 1 junk0))
      (boot 2 (Fin 2) fun _ => .zero)).any (fun state =>
        state.holding 0 = some 0 ∧ (state.servers 0).control = .polling ∧
        state.holding 1 = some 1 ∧ (state.servers 1).control = .polling) = true := by
    decide +kernel
  obtain ⟨state, ran, facts⟩ := (Option.any_eq_true _ _).mp completes
  obtain ⟨first, polling, second, polling'⟩ := of_decide_eq_true facts
  have steps : ReflTransGen (Restrict (Step id) Undisturbed)
      (boot 2 (Fin 2) fun _ => .zero) state := by
    simpa only [decide_eq_true_eq] using run_steps ran
  exact ⟨state, steps, ⟨first, by simp [polling]⟩, ⟨second, by simp [polling']⟩,
    (slots_exclusive steps).1⟩

/-- Both servers find slot 0 free before either locks it for good. -/
theorem slot_granted_twice :
    ∃ state : State 2 (Fin 2), Reachable id (fun _ => .zero) state ∧
      Granted id state 0 0 ∧ Granted id state 1 0 := by
  have completes : (run (fun _ _ => true) id (asking 0 1 ++
      List.replicate 2 (.advance 0 junk0) ++ List.replicate 2 (.advance 1 junk0) ++
      List.replicate 2 (.advance 0 junk0) ++ List.replicate 2 (.advance 1 junk0))
      (boot 2 (Fin 2) fun _ => .zero)).any (fun state =>
        state.holding 0 = some 0 ∧ (state.servers 0).control = .polling ∧
        state.holding 1 = some 0 ∧ (state.servers 1).control = .polling) = true := by
    decide +kernel
  obtain ⟨state, ran, facts⟩ := (Option.any_eq_true _ _).mp completes
  obtain ⟨first, polling, second, polling'⟩ := of_decide_eq_true facts
  exact ⟨state, Restrict.run _ (run_steps ran), ⟨first, by simp [polling]⟩, ⟨second, by simp [polling']⟩⟩

end SysProg.Bulletin
