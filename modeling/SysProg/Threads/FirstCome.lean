import SysProg.Threads.RoundRobin

namespace SysProg.Threads

open SysProg.Data

/-! # The lock goes to the first that came

A thread that is given the lock by the scheduler runs `lock()` again.  A thread whose own id is
-1 leaves the lock free when it gets it; it is dispatched at once then. -/

variable {specs : List Spec} {state after : State} {ready waiting : List Ptr} {ptr other : Ptr}
  {tcb new : Tcb} {val i j k : Nat} {signals : Nat → Option Signal} {received : List Ptr}
  {lines : List Line} {leaves inside : Bool}

/-- The thread `ptr` runs and is about to call `lock()`. -/
def AboutToLock (state : State) (ptr : Ptr) : Prop :=
  state.control = .running (.setup .bank_operation) ∧ state.ready[state.rq_current]? = some ptr

/-- Where `received` are the threads that the scheduler has given the lock. -/
structure Orderly (state : State) (received : List Ptr) : Prop where
  gone : ∀ ptr ∈ received, ptr ∉ state.waiting
  handed : ∀ ptr ∈ received, ∀ tcb, state.tcbs ptr = some tcb →
    tcb.environment = .setup .bank_operation →
      state.lock_owner = tcb.id ∧ (tcb.id = -1 → AboutToLock state ptr)
  owner : ∀ ptr tcb, state.tcbs ptr = some tcb → tcb.environment = .setup .bank_operation →
    state.lock_owner = tcb.id → tcb.id ≠ -1 → ptr ∈ received
  idle : state.lock_owner = -1 → state.waiting ≠ [] → state.control = .scheduling 3 ∨
    ∃ ptr ∈ received, ∃ tcb, state.ready[state.rq_current]? = some ptr ∧
      state.tcbs ptr = some tcb ∧ tcb.id = -1

theorem Turn.keeps (turn : Turn tcb new lines leaves) :
    new.id = tcb.id ∧ (new.environment = .setup .bank_operation → tcb.environment = .setup .bank_operation) := by
  cases turn with
  | last counts => exact ⟨rfl, fun same => absurd (congrArg Environment.func same) counts⟩
  | round counts =>
      refine ⟨rfl, fun same => ?_⟩
      have func := congrArg Environment.func same
      cases loop : tcb.environment.func with
      | bank_operation => exact absurd loop counts
      | fibonacci | factorial =>
          simp only [loop, Func.looping] at same
          cases same
  | refused point => exact ⟨rfl, fun _ => point⟩
  | locks point => exact ⟨rfl, nofun⟩
  | transacts point => exact ⟨rfl, nofun⟩
  | releases point =>
      refine ⟨rfl, fun same => ?_⟩
      rw [point] at same
      cases same

/-- What a thread that runs past `lock()` does to the lock. -/
inductive Locks (state after : State) (tcb : Tcb) : Prop
  | same (same : after.lock_owner = state.lock_owner)
  | takes (owner : after.lock_owner = tcb.id) (free : state.lock_owner = -1 ∨ state.lock_owner = tcb.id)
  | releases (owned : state.lock_owner = tcb.id) (owner : after.lock_owner = -1)
      (exits : after.control = .scheduling 3)

/-- A thread fails to get the lock and does nothing else, or it comes past `lock()`. -/
theorem resume_locks (block : state.tcbs ptr = some tcb) :
    (tcb.environment = .setup .bank_operation ∧ ¬ (state.lock_owner = -1 ∨ state.lock_owner = tcb.id) ∧
      resume tcb.environment ptr tcb state = { state with control := .scheduling 2 }) ∨
    ∃ new, (resume tcb.environment ptr tcb state).tcbs = Function.update state.tcbs ptr (some new) ∧
      new.id = tcb.id ∧ new.environment ≠ .setup .bank_operation ∧
      Locks state (resume tcb.environment ptr tcb state) tcb := by
  by_cases atLock : tcb.environment = .setup .bank_operation
  · rw [atLock]
    by_cases free : state.lock_owner = -1 ∨ state.lock_owner = tcb.id
    · have locked : resume (.setup .bank_operation) ptr tcb state = _ := if_pos free
      rw [locked]
      exact .inr ⟨_, rfl, rfl, nofun, .takes rfl free⟩
    · exact .inl ⟨rfl, free, if_neg free⟩
  · obtain ⟨new, lines, leaves, turn, acts⟩ := resume_turn block
    refine .inr ⟨new, acts.tcbs, turn.keeps.1, fun same => atLock (turn.keeps.2 same), ?_⟩
    cases resume_cases tcb.environment ptr tcb state with
    | round loop i x y counts func computed =>
        rw [computed]
        refine .same ?_
        unfold endRound
        split <;> rfl
    | lock point computed => exact absurd point atLock
    | update point computed =>
        obtain ⟨balance, line, updated⟩ := bankUpdate_eq ptr tcb state
        rw [computed, updated]
        exact .same rfl
    | release point computed =>
        rw [computed, bankRelease_eq]
        by_cases owns : state.lock_owner = tcb.id
        · exact .releases owns (if_pos owns) rfl
        · exact .same (if_neg owns)

/-- The thread that is to enter the waiting queue. -/
theorem Invariant.entering (invariant : Invariant specs state ready waiting) (enters : state.enters = some ptr) :
    ∃ tcb, Current state ready ptr tcb ∧ tcb.environment = .setup .bank_operation ∧
      state.lock_owner ≠ -1 ∧ state.lock_owner ≠ tcb.id := by
  have placed := invariant.placed
  unfold State.enters at enters
  split at enters
  · rename_i control
    rw [control] at placed
    obtain ⟨other, tcb, current, point, taken, differs⟩ := placed
    rw [invariant.arranged.entry current.1, Option.some.injEq] at enters
    subst enters
    exact ⟨tcb, current, point, taken, differs⟩
  · cases enters

namespace Orderly

variable (orderly : Orderly state received)

include orderly

theorem running (invariant : Invariant specs state ready waiting) (distinct : (specs.map Spec.id).Nodup)
    (current : Current state ready ptr tcb) (awake : state.control ≠ .scheduling 3)
    (rota : after.rota = state.rota) (tcbs : after.tcbs = Function.update state.tcbs ptr (some new))
    (id : new.id = tcb.id) (past : new.environment ≠ .setup .bank_operation) (locks : Locks state after tcb) :
    Orderly after received := by
  have ready_eq : after.ready = state.ready := congrArg Rota.ready rota
  have waiting_eq : after.waiting = state.waiting := congrArg Rota.waiting rota
  have place : after.rq_current = state.rq_current := congrArg Rota.current rota
  have here : state.ready[state.rq_current]? = some ptr := by rw [invariant.arranged.ready_eq, current.1]
  have before : ∀ other block, after.tcbs other = some block → block.environment = .setup .bank_operation →
      other ≠ ptr ∧ state.tcbs other = some block := by
    intro other block found point
    rw [tcbs] at found
    by_cases same : other = ptr
    · rw [same, Function.update_self] at found
      cases found
      exact absurd point past
    · rw [Function.update_of_ne same] at found
      exact ⟨same, found⟩
  have apart : ∀ other block, other ≠ ptr → state.tcbs other = some block → block.id ≠ tcb.id := by
    intro other block different found same
    exact different (invariant.toThreaded.same_id distinct found current.2 same)
  -- a thread whose own id is -1 would be the running one
  have named : ∀ other ∈ received, ∀ block, other ≠ ptr → state.tcbs other = some block →
      block.environment = .setup .bank_operation → state.lock_owner = block.id ∧ block.id ≠ -1 := by
    intro other member block different found point
    obtain ⟨owns, sentinel⟩ := orderly.handed other member block found point
    refine ⟨owns, fun minus => different ?_⟩
    exact Option.some.inj ((sentinel minus).2.symm.trans here)
  have still : state.lock_owner = -1 → state.waiting ≠ [] → ptr ∈ received ∧ tcb.id = -1 := by
    intro free some
    rcases orderly.idle free some with exits | ⟨other, member, block, place, found, minus⟩
    · exact absurd exits awake
    · obtain rfl : other = ptr := Option.some.inj (place.symm.trans here)
      obtain rfl : block = tcb := Option.some.inj (found.symm.trans current.2)
      exact ⟨member, minus⟩
  refine ⟨by rw [waiting_eq]; exact orderly.gone, ?_, ?_, ?_⟩
  · intro other member block found point
    obtain ⟨different, found⟩ := before other block found point
    obtain ⟨owns, minus⟩ := named other member block different found point
    refine ⟨?_, fun same => absurd same minus⟩
    cases locks with
    | same same => rw [same, owns]
    | takes _ free =>
        rw [owns] at free
        exact absurd (free.resolve_left minus) (apart other block different found)
    | releases owned => exact absurd (owns.symm.trans owned) (apart other block different found)
  · intro other block found point owns minus
    obtain ⟨different, found⟩ := before other block found point
    cases locks with
    | same same => exact orderly.owner other block found point (same ▸ owns) minus
    | takes owner => exact absurd (owns.symm.trans owner) (apart other block different found)
    | releases _ owner => exact absurd (owns.symm.trans owner) minus
  · intro free some
    rw [waiting_eq] at some
    have goes_on : state.lock_owner = -1 → ∃ ptr ∈ received, ∃ tcb,
        after.ready[after.rq_current]? = Option.some ptr ∧ after.tcbs ptr = Option.some tcb ∧ tcb.id = -1 := by
      intro free
      obtain ⟨member, minus⟩ := still free some
      exact ⟨ptr, member, new, by rw [ready_eq, place, here], by rw [tcbs, Function.update_self], id.trans minus⟩
    cases locks with
    | same same => exact .inr (goes_on (same.symm.trans free))
    | takes owner before =>
        have minus : tcb.id = -1 := owner.symm.trans free
        exact .inr (goes_on (before.elim (·) fun owns => owns.trans minus))
    | releases _ _ exits => exact .inl exits

/-- A failed `lock()`, or a step that leaves queues, blocks and lock alone. -/
theorem stands {control : Control} {out : List Line}
    (here : state.lock_owner ≠ -1 ∨ state.control ≠ .running (.setup .bank_operation))
    (awake : state.control ≠ .scheduling 3) : Orderly { state with control, out } received := by
  refine ⟨orderly.gone, ?_, orderly.owner, fun free some => .inr ?_⟩
  · intro ptr member tcb block point
    obtain ⟨owns, sentinel⟩ := orderly.handed ptr member tcb block point
    refine ⟨owns, fun minus => ?_⟩
    rcases here with taken | elsewhere
    · exact absurd (owns.trans minus) taken
    · exact absurd (sentinel minus).1 elsewhere
  · exact (orderly.idle free some).resolve_left awake

/-- No thread that has been given the lock waits for it again. -/
theorem never_again (invariant : Invariant specs state ready waiting) (enters : state.enters = some ptr) :
    ptr ∉ received := by
  intro member
  obtain ⟨tcb, current, point, _, differs⟩ := invariant.entering enters
  exact differs (orderly.handed ptr member tcb current.2 point).1

/-- A call of `scheduler` that hands the lock to nobody. -/
theorem scheduled (invariant : Invariant specs state ready waiting) (control : state.control = .scheduling val)
    (tcbs : ∀ ptr tcb, after.tcbs ptr = some tcb → state.tcbs ptr = some tcb)
    (lock : after.lock_owner = state.lock_owner) (queue : after.waiting = state.waiting ++ state.enters.toList)
    (none : state.lock_owner ≠ -1 ∨ state.waiting = []) : Orderly after received := by
  refine ⟨?_, ?_, ?_, ?_⟩
  · intro ptr member waits
    rw [queue] at waits
    rcases List.mem_append.mp waits with waited | entered
    · exact orderly.gone ptr member waited
    · exact orderly.never_again invariant (Option.mem_toList.mp entered) member
  · intro ptr member tcb found point
    obtain ⟨owns, sentinel⟩ := orderly.handed ptr member tcb (tcbs ptr tcb found) point
    refine ⟨lock.trans owns, fun minus => ?_⟩
    have runs := (sentinel minus).1
    rw [control] at runs
    cases runs
  · intro ptr tcb found point owns minus
    exact orderly.owner ptr tcb (tcbs ptr tcb found) point (lock ▸ owns) minus
  · intro free some
    rw [lock] at free
    rw [queue, none.resolve_left (· free), List.nil_append] at some
    obtain ⟨ptr, entered⟩ := List.exists_mem_of_ne_nil _ some
    obtain ⟨_, _, _, taken, _⟩ := invariant.entering (Option.mem_toList.mp entered)
    exact absurd free taken

/-- A call of `scheduler` that hands the lock to the first waiting thread. -/
theorem handsOver {first : Ptr} {rest : List Ptr} (invariant : Invariant specs state ready waiting)
    (distinct : (specs.map Spec.id).Nodup) (control : state.control = .scheduling val)
    (tcbs : ∀ ptr tcb, after.tcbs ptr = some tcb → state.tcbs ptr = some tcb)
    (free : state.lock_owner = -1) (split : state.waiting = first :: rest) (queue : after.waiting = rest)
    (owner : ∃ tcb, state.tcbs first = some tcb ∧ after.lock_owner = tcb.id)
    (next : val = 3 → AboutToLock after first ∧ after.tcbs first = state.tcbs first) :
    Orderly after (received ++ [first]) := by
  obtain ⟨block, here, owner⟩ := owner
  have waits : waiting = first :: rest := invariant.arranged.waiting_eq.symm.trans split
  have once : first ∉ rest := by
    have nodup := (List.nodup_append.mp invariant.nodup).2.1
    rw [waits] at nodup
    exact (List.nodup_cons.mp nodup).1
  -- with the id -1 the thread is the next one to run
  have sentinel : block.id = -1 → val = 3 := by
    intro minus
    rcases orderly.idle free (by rw [split]; nofun) with exits | ⟨ptr, member, tcb, _, found, same⟩
    · rw [control] at exits
      cases exits
      rfl
    · obtain rfl := invariant.toThreaded.same_id distinct found here (same.trans minus.symm)
      exact absurd (by rw [split]; exact List.mem_cons_self) (orderly.gone ptr member)
  refine ⟨?_, ?_, ?_, ?_⟩
  · intro ptr member waited
    rw [queue] at waited
    rcases List.mem_append.mp member with earlier | last
    · exact orderly.gone ptr earlier (split ▸ List.mem_cons_of_mem _ waited)
    · rw [List.mem_singleton.mp last] at waited
      exact once waited
  · intro ptr member tcb found point
    rcases List.mem_append.mp member with earlier | last
    · obtain ⟨owns, about⟩ := orderly.handed ptr earlier tcb (tcbs ptr tcb found) point
      have runs := (about (owns.symm.trans free)).1
      rw [control] at runs
      cases runs
    · obtain rfl := List.mem_singleton.mp last
      obtain rfl : block = tcb := Option.some.inj (here.symm.trans (tcbs ptr tcb found))
      exact ⟨owner, fun minus => (next (sentinel minus)).1⟩
  · intro ptr tcb found point owns _
    have same := invariant.toThreaded.same_id distinct (tcbs ptr tcb found) here (owns.symm.trans owner)
    rw [same]
    exact List.mem_append_right _ (List.mem_singleton_self first)
  · intro minus _
    obtain ⟨about, kept⟩ := next (sentinel (owner.symm.trans minus))
    exact .inr ⟨first, List.mem_append_right _ (List.mem_singleton_self first), block, about.2,
      kept.trans here, owner.symm.trans minus⟩

end Orderly

/-- The scheduler hands the lock over where it is free and a thread waits. -/
theorem Invariant.hands_cases (invariant : Invariant specs state ready waiting)
    (control : state.control = .scheduling val) :
    (state.hands = none ∧ (state.lock_owner ≠ -1 ∨ state.waiting = [])) ∨
    ∃ first rest, state.hands = some first ∧ state.lock_owner = -1 ∧ state.waiting = first :: rest ∧ val ≠ 0 := by
  by_cases begins : val = 0
  · subst begins
    have placed := invariant.placed
    rw [control] at placed
    exact .inl ⟨by simp [State.hands, control], .inr (invariant.arranged.waiting_eq.trans placed)⟩
  · have hands := hands_eq control begins
    by_cases free : state.lock_owner = -1
    · rw [if_pos free] at hands
      cases split : state.waiting with
      | nil =>
          rw [split] at hands
          exact .inl ⟨Option.toList_eq_nil_iff.mp hands, .inr rfl⟩
      | cons first rest =>
          rw [split] at hands
          exact .inr ⟨first, rest, Option.toList_eq_singleton_iff.mp hands, free, rfl, begins⟩
    · rw [if_neg free] at hands
      exact .inl ⟨Option.toList_eq_nil_iff.mp hands, .inl free⟩

/-- The blocks behind a call of `scheduler` are among those before it. -/
theorem Invariant.blocks_next (few : specs.length ≤ THREAD_MAX) (invariant : Invariant specs state ready waiting)
    (signal : Option Signal) (control : state.control = .scheduling val)
    (found : (Threads.next signal state).tcbs ptr = some tcb) : state.tcbs ptr = some tcb := by
  obtain ⟨outcome, _, _, computed, _, _, kept, _, freed⟩ := invariant.schedules few control
  rw [(next_scheduled signal control computed).2.1] at found
  by_cases gone : ptr ∈ state.exited
  · rw [freed ptr gone] at found
    cases found
  · rw [← kept.blocks ptr gone, found]

/-- When a thread exits, the one that is given the lock takes its place and runs. -/
theorem Invariant.runs_first {first : Ptr} {rest : List Ptr} (few : specs.length ≤ THREAD_MAX)
    (invariant : Invariant specs state ready waiting) (signal : Option Signal)
    (control : state.control = .scheduling 3) (free : state.lock_owner = -1)
    (split : state.waiting = first :: rest) :
    AboutToLock (Threads.next signal state) first ∧ (Threads.next signal state).tcbs first = state.tcbs first := by
  obtain ⟨outcome, ready', waiting', computed, threaded, _, _, ended, _⟩ := invariant.schedules few control
  obtain ⟨rota, tcbs, _, goes⟩ := next_scheduled signal control computed
  obtain ⟨handed, left, _, _, _, left_rota, _, picks⟩ := invariant.rearranges few control (by decide)
  obtain ⟨_, ptr, tcb, current⟩ := invariant.caller control (by decide)
  have inside : state.rq_current < state.ready.length := by
    rw [invariant.arranged.ready_eq]
    exact current.inside
  -- the last of the ready threads fills the place of the one that exits
  have left_ready : state.rearranged 3 =
      ⟨state.ready.set state.rq_current first, rest, state.rq_current⟩ := by
    obtain ⟨others, queue, rearranged⟩ := rearranged_eq control (by decide)
    have hands : state.hands.toList = [first] := by
      rw [hands_eq control (by decide), if_pos free, split]
      rfl
    rw [hands, split, List.singleton_append, List.cons.injEq] at queue
    rw [rearranged, hands, Rota.takeOut, if_neg (by decide), if_pos rfl, Rota.remove, swapRemove_append, queue.2]
  cases outcome with
  | returned after =>
      have empty : after.ready = [] := threaded.arranged.ready_eq.trans ended.1
      have picked : pickNext 3 left = .ok (.returned after) := picks.symm.trans computed
      have same : after.ready = left.ready := (pickNext_queues picked).1
      have whole : left.ready = state.ready.set state.rq_current first :=
        congrArg Rota.ready (left_rota.trans left_ready)
      have none : (state.ready.set state.rq_current first).length = 0 := by rw [← whole, ← same, empty]; rfl
      rw [List.length_set] at none
      omega
  | dispatch environment after =>
      have turned := (invariant.rotates few control (by decide) computed).1
      have stays : ¬ Rota.wraps 3 ⟨state.ready.set state.rq_current first, rest, state.rq_current⟩ := by
        rw [Rota.wraps, if_neg (by decide), List.length_set]
        exact Nat.ne_of_lt inside
      rw [left_ready, Rota.next, if_neg stays, if_neg (by decide)] at turned
      have next_rota := rota.trans turned
      have here : (Threads.next signal state).ready[(Threads.next signal state).rq_current]? = some first := by
        have next_ready : (Threads.next signal state).ready = _ := congrArg Rota.ready next_rota
        have place : (Threads.next signal state).rq_current = _ := congrArg Rota.current next_rota
        rw [next_ready, place, List.getElem?_set_self inside]
      obtain ⟨other, block, ⟨found, alive⟩, point⟩ := ended
      obtain rfl : other = first := by
        have after_ready : after.ready = ready' := threaded.arranged.ready_eq
        have same : (Threads.next signal state).ready = after.ready := congrArg Rota.ready rota
        have place : (Threads.next signal state).rq_current = after.rq_current := congrArg Rota.current rota
        rw [same, place, after_ready, found] at here
        exact Option.some.inj here
      have next_block : (Threads.next signal state).tcbs other = some block := by
        rw [tcbs]
        exact alive
      have block_eq := invariant.blocks_next few signal control next_block
      have waits : other ∈ waiting := by
        rw [← invariant.arranged.waiting_eq, split]
        exact List.mem_cons_self
      obtain ⟨tcb', block', atLock⟩ := invariant.atLock other waits
      obtain rfl : block = tcb' := Option.some.inj (block_eq.symm.trans block')
      refine ⟨⟨?_, here⟩, next_block.trans block_eq.symm⟩
      have runs : (Threads.next signal state).control = .running environment := goes
      rw [runs, ← point, atLock]

/-- What a call of `scheduler` makes of the lock. -/
theorem Invariant.lock_next (few : specs.length ≤ THREAD_MAX) (invariant : Invariant specs state ready waiting)
    (signal : Option Signal) (control : state.control = .scheduling val) :
    Owned state (Threads.next signal state) := by
  obtain ⟨outcome, computed, _⟩ := invariant.comes few control
  obtain ⟨_, _, lock, _⟩ := next_scheduled signal control computed
  by_cases begins : val = 0
  · subst begins
    have none : state.waiting = [] := by
      have placed := invariant.placed
      rw [control] at placed
      rw [invariant.arranged.waiting_eq, (placed : waiting = [])]
    refine ⟨fun first rest _ some => ?_, fun _ => ?_⟩
    · rw [none] at some
      cases some
    · rw [lock, (scheduler_start computed).2.2]
  · obtain ⟨handed, left, _, _, _, _, owned, picks⟩ := invariant.rearranges few control begins
    exact owned.congr (lock.trans (pickNext_queues (picks ▸ computed)).2.2)

theorem Orderly.step (few : specs.length ≤ THREAD_MAX) (distinct : (specs.map Spec.id).Nodup)
    (orderly : Orderly state received) (invariant : Invariant specs state ready waiting) (signal : Option Signal) :
    Orderly (next signal state) (received ++ state.hands.toList) := by
  have placed := invariant.placed
  cases control : state.control with
  | scheduling val =>
      have owned := invariant.lock_next few signal control
      have queue := invariant.waiting_next few signal
      rcases invariant.hands_cases control with ⟨silent, none⟩ | ⟨first, rest, hands, free, split, positive⟩
      · rw [silent, Option.toList_none, List.nil_append] at queue
        rw [silent, Option.toList_none, List.append_nil]
        exact orderly.scheduled invariant control (fun _ _ => invariant.blocks_next few signal control)
          (owned.kept none) queue none
      · have entering : state.enters = none := by
          rw [Option.eq_none_iff_forall_ne_some]
          intro other enters
          obtain ⟨_, _, _, taken, _⟩ := invariant.entering enters
          exact taken free
        rw [hands, split, entering, Option.toList_none, List.append_nil] at queue
        rw [hands]
        refine orderly.handsOver invariant distinct control
          (fun _ _ => invariant.blocks_next few signal control) free split (List.cons.inj queue).2
          (owned.given first rest free split) ?_
        intro same
        obtain rfl := same
        exact invariant.runs_first few signal control free split
  | running environment =>
      rw [control] at placed
      obtain ⟨ptr, tcb, current, rfl⟩ := placed
      have turns : next signal state = resume tcb.environment ptr tcb state := by
        simp only [next, control, invariant.arranged.running current.1 current.2]
      have silent : state.hands = none := by simp [State.hands, control]
      rw [turns, silent, Option.toList_none, List.append_nil]
      rcases resume_locks current.2 with ⟨_, taken, same⟩ | ⟨new, tcbs, id, past, locks⟩
      · rw [same]
        exact orderly.stands (.inl fun free => taken (.inl free)) (by simp [control])
      · exact orderly.running invariant distinct current (by simp [control])
          (resume_rota tcb.environment ptr tcb state) tcbs id past locks
  | yielding environment =>
      have silent : state.hands = none := by simp [State.hands, control]
      rw [silent, Option.toList_none, List.append_nil]
      have stands : ∀ {control : Control} {out : List Line}, Orderly { state with control, out } received :=
        orderly.stands (.inr (by simp [control])) (by simp [control])
      cases signal with
      | none =>
          simp only [next, control]
          exact stands
      | some signal =>
          simp only [next, control]
          exact stands
  | finished | crashed fault =>
      have silent : state.hands = none := by simp [State.hands, control]
      have same : next signal state = state := by simp only [next, control]
      rw [silent, Option.toList_none, List.append_nil, same]
      exact orderly

theorem Built.orderly (built : Built specs state) : Orderly state [] := by
  refine ⟨nofun, nofun, ?_, ?_⟩
  · intro ptr tcb _ _ owns minus
    exact absurd (owns.symm.trans built.lock_owner) minus
  · intro _ some
    exact absurd built.arranged.waiting_eq some

/-- The running thread of a state in which a thread runs `lock()`. -/
theorem Invariant.locking (invariant : Invariant specs state ready waiting)
    (locks : state.locks = some (ptr, inside)) :
    ∃ tcb, Current state ready ptr tcb ∧ state.control = .running (.setup .bank_operation) ∧
      tcb.environment = .setup .bank_operation ∧
      (inside = true ↔ state.lock_owner = -1 ∨ state.lock_owner = tcb.id) := by
  have placed := invariant.placed
  unfold State.locks at locks
  split at locks
  · rename_i other tcb control running
    rw [control] at placed
    obtain ⟨found, block, current, point⟩ := placed
    rw [invariant.arranged.running current.1 current.2] at running
    cases running
    cases locks
    exact ⟨tcb, current, control, point, decide_eq_true_iff⟩
  · cases locks

theorem State.refused_locks : state.refused = some ptr ↔ state.locks = some (ptr, false) := by
  unfold State.refused
  split
  · rename_i other locks
    rw [locks]
    simp
  · rename_i others
    exact ⟨nofun, fun locks => absurd locks (others ptr)⟩

theorem State.acquires_locks : state.acquires = some ptr ↔ state.locks = some (ptr, true) := by
  unfold State.acquires
  split
  · rename_i other locks
    rw [locks]
    simp
  · rename_i others
    exact ⟨nofun, fun locks => absurd locks (others ptr)⟩

/-- A thread whose `lock()` fails goes to the waiting queue. -/
theorem Invariant.refused_next (invariant : Invariant specs state ready waiting) (signal : Option Signal)
    (refused : state.refused = some ptr) : (Threads.next signal state).enters = some ptr := by
  obtain ⟨tcb, current, control, point, free⟩ := invariant.locking (State.refused_locks.mp refused)
  have taken : ¬ (state.lock_owner = -1 ∨ state.lock_owner = tcb.id) := fun gets => by cases free.mpr gets
  have turns : Threads.next signal state = Threads.bankLock ptr tcb state := by
    simp only [Threads.next, control, invariant.arranged.running current.1 current.2]
    rfl
  have same : Threads.bankLock ptr tcb state = { state with control := .scheduling 2 } := if_neg taken
  rw [turns, same]
  exact invariant.arranged.entry current.1

/-- A thread that calls `lock()` while others wait and has not been given it fails. -/
theorem Orderly.fails (orderly : Orderly state received) (invariant : Invariant specs state ready waiting)
    (locks : state.locks = some (ptr, inside)) (new : ptr ∉ received) (some : state.waiting ≠ []) :
    inside = false := by
  obtain ⟨tcb, current, control, point, free⟩ := invariant.locking locks
  have owned : state.lock_owner ≠ -1 := by
    intro idle
    rcases orderly.idle idle some with exits | ⟨other, member, _, place, _⟩
    · rw [control] at exits
      cases exits
    · rw [invariant.arranged.ready_eq, current.1] at place
      exact new (Option.some.inj place ▸ member)
  cases inside with
  | false => rfl
  | true =>
      have owns := (free.mp rfl).resolve_left owned
      exact absurd (orderly.owner ptr tcb current.2 point owns fun minus => owned (owns.trans minus)) new

/-- What the lock does in a run. -/
structure FirstCome (specs : List Spec) (signals : Nat → Option Signal) : Prop where
  enters : ∀ i ptr, (run specs signals (i + 1)).enters = some ptr ↔ (run specs signals i).refused = some ptr
  order : ∀ k, during State.enters specs signals 0 k =
    during State.hands specs signals 0 k ++ (run specs signals k).waiting
  once : ∀ k, (during State.enters specs signals 0 k).Nodup
  firm : ∀ i j ptr, i < j → (run specs signals i).hands = some ptr →
    (run specs signals j).refused ≠ some ptr
  fair : ∀ i j ptr inside other, i ≤ j → (run specs signals i).locks = some (ptr, inside) →
    (∀ h < i, (run specs signals h).hands ≠ some ptr) → other ∈ (run specs signals i).waiting →
    (run specs signals j).hands = some ptr ∨ (run specs signals j).acquires = some ptr →
    ∃ l, i ≤ l ∧ l < j ∧ (run specs signals l).hands = some other

section Run

variable (few : specs.length ≤ THREAD_MAX) (distinct : (specs.map Spec.id).Nodup)

include few distinct

theorem run_orderly (signals : Nat → Option Signal) (k : Nat) :
    Orderly (run specs signals k) (during State.hands specs signals 0 k) := by
  induction k with
  | zero =>
      rw [during_self]
      exact (start_built few).orderly
  | succ k ih =>
      obtain ⟨ready, waiting, invariant⟩ := run_invariant few distinct signals k
      rw [during_succ (Nat.zero_le k)]
      exact ih.step few distinct invariant (signals k)

theorem run_queue (signals : Nat → Option Signal) (k : Nat) :
    during State.enters specs signals 0 k =
      during State.hands specs signals 0 k ++ (run specs signals k).waiting := by
  induction k with
  | zero =>
      rw [during_self, during_self, List.nil_append]
      exact (start_built few).arranged.waiting_eq.symm
  | succ k ih =>
      obtain ⟨ready, waiting, invariant⟩ := run_invariant few distinct signals k
      have queue := invariant.waiting_next few (signals k)
      rw [during_succ (Nat.zero_le k), during_succ (Nat.zero_le k), ih, List.append_assoc, List.append_assoc, ← queue]
      rfl

theorem run_enters_once (signals : Nat → Option Signal) (k : Nat) :
    (during State.enters specs signals 0 k).Nodup := by
  induction k with
  | zero =>
      rw [during_self]
      exact List.nodup_nil
  | succ k ih =>
      obtain ⟨ready, waiting, invariant⟩ := run_invariant few distinct signals k
      rw [during_succ (Nat.zero_le k)]
      refine List.nodup_append.mpr ⟨ih, ?_, ?_⟩
      · cases (run specs signals k).enters <;> simp
      · intro ptr earlier other now
        have enters := Option.mem_toList.mp now
        intro same
        obtain rfl := same
        obtain ⟨tcb, current, _⟩ := invariant.entering enters
        rw [run_queue few distinct] at earlier
        rcases List.mem_append.mp earlier with handed | waits
        · exact (run_orderly few distinct signals k).never_again invariant enters handed
        · rw [invariant.arranged.waiting_eq] at waits
          exact invariant.toThreaded.not_waiting current waits

/-- No thread calls `lock()` in vain that has been given the lock. -/
theorem run_firm (signals : Nat → Option Signal) {i j : Nat} (later : i < j)
    (hands : (run specs signals i).hands = some ptr) : (run specs signals j).refused ≠ some ptr := by
  intro refused
  obtain ⟨ready, waiting, invariant⟩ := run_invariant few distinct signals j
  obtain ⟨tcb, current, _, point, free⟩ := invariant.locking (State.refused_locks.mp refused)
  have member : ptr ∈ during State.hands specs signals 0 j :=
    mem_during.mpr ⟨i, Nat.zero_le i, later, hands⟩
  have owns := ((run_orderly few distinct signals j).handed ptr member tcb current.2 point).1
  cases free.mpr (.inr owns)

/-- Whoever waits before a thread comes is given the lock before it. -/
theorem run_overtakes (signals : Nat → Option Signal) {i k : Nat} (later : i ≤ k)
    (new : ptr ∉ during State.enters specs signals 0 i) (waits : other ∈ (run specs signals i).waiting)
    (gains : ptr ∈ during State.hands specs signals 0 k) : other ∈ during State.hands specs signals 0 k := by
  have whole := run_queue few distinct signals k
  rw [during_append (Nat.zero_le i) later] at whole
  rcases List.append_eq_append_iff.mp whole with ⟨rest, handed, _⟩ | ⟨rest, entered, _⟩
  · rw [handed, run_queue few distinct]
    exact List.mem_append_left _ (List.mem_append_right _ waits)
  · exact absurd (entered ▸ List.mem_append_left _ gains) new

theorem run_fair (signals : Nat → Option Signal) {i j : Nat} (later : i ≤ j)
    (locks : (run specs signals i).locks = some (ptr, inside))
    (new : ∀ h < i, (run specs signals h).hands ≠ some ptr) (waits : other ∈ (run specs signals i).waiting)
    (gains : (run specs signals j).hands = some ptr ∨ (run specs signals j).acquires = some ptr) :
    ∃ l, i ≤ l ∧ l < j ∧ (run specs signals l).hands = some other := by
  obtain ⟨ready, waiting, invariant⟩ := run_invariant few distinct signals i
  have orderly := run_orderly few distinct signals i
  obtain ⟨tcb, current, _⟩ := invariant.locking locks
  have unhanded : ptr ∉ during State.hands specs signals 0 i := by
    intro member
    obtain ⟨h, _, before, hands⟩ := mem_during.mp member
    exact new h before hands
  have running : ptr ∉ (run specs signals i).waiting := by
    rw [invariant.arranged.waiting_eq]
    exact invariant.toThreaded.not_waiting current
  obtain rfl := orderly.fails invariant locks unhanded (List.ne_nil_of_mem waits)
  have enters := invariant.refused_next (signals i) (State.refused_locks.mpr locks)
  have unentered : ptr ∉ during State.enters specs signals 0 i := by
    rw [run_queue few distinct]
    exact fun member => (List.mem_append.mp member).elim unhanded running
  obtain ⟨k, later', bound, gained⟩ : ∃ k, i ≤ k ∧ (k ≤ j ∨ k = j + 1 ∧ (run specs signals j).hands = some ptr) ∧
      ptr ∈ during State.hands specs signals 0 k := by
    rcases gains with hands | acquires
    · exact ⟨j + 1, Nat.le_succ_of_le later, .inr ⟨rfl, hands⟩,
        mem_during.mpr ⟨j, Nat.zero_le j, Nat.lt_succ_self j, hands⟩⟩
    · refine ⟨j, later, .inl (Nat.le_refl j), ?_⟩
      have locks' := State.acquires_locks.mp acquires
      obtain ⟨_, _, invariant'⟩ := run_invariant few distinct signals j
      obtain ⟨_, current', control', _⟩ := invariant'.locking locks'
      have between : i + 1 < j := by
        rcases Nat.lt_trichotomy (i + 1) j with less | same | more
        · exact less
        · rw [← same] at control'
          unfold State.enters at enters
          have entering : (next (signals i) (run specs signals i)).control = _ := control'
          rw [entering] at enters
          cases enters
        · obtain rfl : j = i := by omega
          rw [locks] at locks'
          cases locks'
      have entered : ptr ∈ during State.enters specs signals 0 j :=
        mem_during.mpr ⟨i + 1, Nat.zero_le _, between, enters⟩
      rw [run_queue few distinct] at entered
      refine (List.mem_append.mp entered).resolve_right fun waits => ?_
      rw [invariant'.arranged.waiting_eq] at waits
      exact invariant'.toThreaded.not_waiting current' waits
  obtain ⟨l, _, before, hands⟩ := mem_during.mp (run_overtakes few distinct signals later' unentered waits gained)
  have behind : i ≤ l := by
    by_contra less
    exact orderly.gone other (mem_during.mpr ⟨l, Nat.zero_le l, Nat.lt_of_not_le less, hands⟩) waits
  refine ⟨l, behind, ?_, hands⟩
  rcases bound with short | ⟨rfl, last⟩
  · exact Nat.lt_of_lt_of_le before short
  · refine Nat.lt_of_le_of_ne (Nat.le_of_lt_succ before) ?_
    intro same
    obtain rfl := same
    rw [last, Option.some.injEq] at hands
    exact running (hands ▸ waits)

end Run

/-- Threads that fail to get the lock are given it in the order in which they come, and nobody
overtakes them. -/
theorem lock_first_come (few : specs.length ≤ THREAD_MAX) (distinct : (specs.map Spec.id).Nodup)
    (signals : Nat → Option Signal) : FirstCome specs signals := by
  refine ⟨fun i ptr => ?_, run_queue few distinct signals, run_enters_once few distinct signals, ?_, ?_⟩
  · obtain ⟨ready, waiting, invariant⟩ := run_invariant few distinct signals i
    exact ⟨invariant.enters_next (signals i), invariant.refused_next (signals i)⟩
  · exact fun i j ptr later hands => run_firm few distinct signals later hands
  · exact fun i j ptr inside other later locks new waits gains =>
      run_fair few distinct signals later locks new waits gains

theorem lock_first_come_four :
    FirstCome (init_threads 5 4 (-200) 300 0) fun i => if i % 2 = 0 then some .SIGALRM else none :=
  lock_first_come (by decide) (by decide) _

end SysProg.Threads
