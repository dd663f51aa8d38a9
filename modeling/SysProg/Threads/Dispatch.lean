import SysProg.Threads.Invariant

namespace SysProg.Threads

open SysProg.Data

variable {specs : List Spec} {state after : State} {ready waiting : List Ptr} {ptr : Ptr}
  {tcb : Tcb}

/-- What `scheduler` does to the lock: nothing, or it gives the free lock to the
first waiting thread. -/
def HandedOver (state after : State) (waiting : List Ptr) : Prop :=
  (after.lock_owner = state.lock_owner ∧ after.acquisitions = state.acquisitions) ∨
  (state.lock_owner = -1 ∧ ∃ first tcb, waiting.head? = some first ∧
    state.tcbs first = some tcb ∧ after.lock_owner = tcb.id ∧
    after.acquisitions = state.acquisitions ++ [tcb.id])

/-- What `scheduler` leaves alone: all but the queues, the lock and the blocks of
exited threads. -/
structure Scheduled (state after : State) (waiting : List Ptr) : Prop where
  balance : after.balance = state.balance
  out : after.out = state.out
  exited : after.exited = state.exited
  lock : HandedOver state after waiting
  blocks : ∀ ptr, ptr ∉ state.exited → after.tcbs ptr = state.tcbs ptr

theorem Held.mono {items others : List Ptr} (held : Held state items) (inside : items ⊆ others) :
    Held state others := by
  cases held with
  | inl free => exact .inl free
  | inr owned =>
      obtain ⟨ptr, member, owner⟩ := owned
      exact .inr ⟨ptr, inside member, owner⟩

theorem Held.nonempty {items : List Ptr} (held : Held state items)
    (taken : state.lock_owner ≠ -1) : items ≠ [] := by
  cases held with
  | inl free => exact absurd free taken
  | inr owned =>
      obtain ⟨ptr, member, _⟩ := owned
      exact List.ne_nil_of_mem member

/-- Steps 1 and 2: `appended` is the thread, if any, that gets the lock. -/
theorem Threaded.giveLock (few : specs.length ≤ THREAD_MAX)
    (threaded : Threaded specs state ready waiting) :
    ∃ handed appended rest,
      Threads.giveLock state = .ok handed ∧
      waiting = appended ++ rest ∧
      Threaded specs handed (ready ++ appended) rest ∧
      (∀ items, Held state items → Held handed (items ++ appended)) ∧
      (appended = [] → rest ≠ [] → handed.lock_owner ≠ -1) ∧
      (state.lock_owner ≠ -1 → appended = []) ∧
      Scheduled state handed waiting ∧ handed.tcbs = state.tcbs ∧
      handed.rq_current = state.rq_current := by
  cases waiting with
  | nil =>
      have same : Threads.giveLock state = .ok state := by
        rw [Threads.giveLock, if_neg (by simp [threaded.arranged.wq_size])]
      refine ⟨state, [], [], same, rfl, ?_, ?_, ?_, fun _ => rfl, ?_, rfl, rfl⟩
      · simpa using threaded
      · intro items held
        simpa using held
      · simp
      · exact ⟨rfl, rfl, rfl, .inl ⟨rfl, rfl⟩, fun _ _ => rfl⟩
  | cons first rest =>
      by_cases free : state.lock_owner = -1
      · obtain ⟨tcb, block, environment⟩ := threaded.atLock first (by simp)
        have room : ready.length < THREAD_MAX := by
          have bound := threaded.size
          rw [List.length_cons] at bound
          omega
        obtain ⟨ready_queue, waiting_queue, handed, arranged⟩ :=
          threaded.arranged.handOff block room
        refine ⟨_, [first], rest, ?_, rfl, threaded.rearrange arranged (by simp) rfl rfl ?_, ?_,
          ?_, ?_, ⟨rfl, rfl, rfl, ?_, fun _ _ => rfl⟩, rfl, rfl⟩
        · rw [Threads.giveLock, if_pos ⟨free, by simp [threaded.arranged.wq_size]⟩]
          exact handed
        · intro ptr member
          exact threaded.atLock ptr (by simp [member])
        · intro items held
          exact .inr ⟨first, by simp, tcb, block, rfl, by rw [environment]; rfl⟩
        · simp
        · intro taken
          exact absurd free taken
        · exact .inr ⟨free, first, tcb, rfl, block, rfl, rfl⟩
      · refine ⟨state, [], first :: rest, if_neg (fun both => free both.1), rfl, ?_, ?_, ?_,
          fun _ => rfl, ⟨rfl, rfl, rfl, .inl ⟨rfl, rfl⟩, fun _ _ => rfl⟩, rfl, rfl⟩
        · simpa using threaded
        · intro items held
          simpa using held
        · intro _ _
          exact free

theorem Threaded.current (threaded : Threaded specs state ready waiting)
    (inside : state.rq_current < ready.length) :
    ∃ ptr tcb, Current state ready ptr tcb := by
  have found : ready[state.rq_current]? = some ready[state.rq_current] :=
    List.getElem?_eq_getElem inside
  have member : ready[state.rq_current] ∈ ready ++ waiting := by simp
  obtain ⟨tcb, block⟩ := (threaded.live _).mp member
  exact ⟨_, tcb, found, block⟩

theorem dispatch_spec (threaded : Threaded specs state ready waiting)
    (inside : state.rq_current < ready.length) :
    ∃ ptr tcb, Current state ready ptr tcb ∧
      dispatch state = .ok (.dispatch tcb.environment state) := by
  obtain ⟨ptr, tcb, current⟩ := threaded.current inside
  refine ⟨ptr, tcb, current, ?_⟩
  simp [dispatch, threaded.arranged.running current.1 current.2, pure, Except.pure]

/-- Steps 5 and 6: the next position is one of the ready queue. -/
theorem pickNext_spec {val : Nat} (threaded : Threaded specs state ready waiting)
    (more : waiting ≠ [] → ready ≠ [])
    (position : val = 1 ∧ state.rq_current < ready.length ∨
      (val = 2 ∨ val = 3) ∧ state.rq_current ≤ ready.length) :
    (ready = [] ∧ waiting = [] ∧ pickNext val state = .ok (.returned state)) ∨
    ∃ rq_current ptr tcb, Current { state with rq_current } ready ptr tcb ∧
      pickNext val state = .ok (.dispatch tcb.environment { state with rq_current }) := by
  by_cases empty : ready = [] ∧ waiting = []
  · refine .inl ⟨empty.1, empty.2, ?_⟩
    rw [pickNext, if_pos (threaded.arranged.empty_iff.mpr empty)]
  · refine .inr ?_
    have some : ready ≠ [] := by
      intro none
      cases waiting with
      | nil => exact empty ⟨none, rfl⟩
      | cons first rest => exact more (by simp) none
    have positive : 0 < ready.length := List.length_pos_iff.mpr some
    have size : state.rq_size = ready.length := threaded.arranged.rq_size
    have moved : ∀ rq_current, Threaded specs { state with rq_current } ready waiting :=
      fun rq_current => threaded.rearrange
        ⟨threaded.arranged.ready_queue, threaded.arranged.rq_size,
          threaded.arranged.waiting_queue, threaded.arranged.wq_size⟩ (.refl _) rfl rfl
        threaded.atLock
    unfold pickNext
    rw [if_neg (fun both => empty (threaded.arranged.empty_iff.mp both))]
    cases position with
    | inl yielded =>
        obtain ⟨rfl, inside⟩ := yielded
        rw [if_pos rfl]
        have wrapped : (if state.rq_current + 1 = state.rq_size then 0
            else state.rq_current + 1) < ready.length := by
          split <;> omega
        obtain ⟨ptr, tcb, current, jumped⟩ := dispatch_spec (moved _) wrapped
        exact ⟨_, ptr, tcb, current, jumped⟩
    | inr left =>
        obtain ⟨value, inside⟩ := left
        rw [if_neg (by omega), if_pos value]
        have wrapped : (if state.rq_current = state.rq_size then 0
            else state.rq_current) < ready.length := by
          split <;> omega
        obtain ⟨ptr, tcb, current, jumped⟩ := dispatch_spec (moved _) wrapped
        exact ⟨_, ptr, tcb, current, jumped⟩

/-- Where `scheduler` may end. -/
def Ended (ready waiting : List Ptr) : Outcome → Prop
  | .returned _ => ready = [] ∧ waiting = []
  | .dispatch environment after =>
      ∃ ptr tcb, Current after ready ptr tcb ∧ tcb.environment = environment

def Outcome.final : Outcome → State
  | .returned state => state
  | .dispatch _ state => state

/-- A call of `scheduler` that goes well: no access out of bounds, and queues that
still hold the threads that are left. -/
def Schedules (specs : List Spec) (state : State) (waiting : List Ptr) (val : Nat) : Prop :=
  ∃ outcome ready' waiting', scheduler val state = .ok outcome ∧
    Threaded specs outcome.final ready' waiting' ∧ Held outcome.final ready' ∧
    Scheduled state outcome.final waiting ∧ Ended ready' waiting' outcome ∧
    ∀ ptr ∈ state.exited, outcome.final.tcbs ptr = none

theorem Scheduled.pick {left : State} (scheduled : Scheduled state left waiting)
    (rq_current : Nat) : Scheduled state { left with rq_current } waiting :=
  ⟨scheduled.balance, scheduled.out, scheduled.exited, scheduled.lock, scheduled.blocks⟩

/-- The end of `scheduler` after the queues have been rearranged. -/
theorem Threaded.finish {val : Nat} {left : State} {ready' waiting' : List Ptr}
    (computed : scheduler val state = pickNext val left)
    (threaded : Threaded specs left ready' waiting') (held : Held left ready')
    (scheduled : Scheduled state left waiting) (more : waiting' ≠ [] → ready' ≠ [])
    (position : val = 1 ∧ left.rq_current < ready'.length ∨
      (val = 2 ∨ val = 3) ∧ left.rq_current ≤ ready'.length)
    (freed : ∀ ptr ∈ state.exited, left.tcbs ptr = none) :
    Schedules specs state waiting val := by
  cases pickNext_spec threaded more position with
  | inl empty =>
      obtain ⟨none, none', picked⟩ := empty
      exact ⟨_, ready', waiting', computed.trans picked, threaded, held, scheduled,
        ⟨none, none'⟩, freed⟩
  | inr next =>
      obtain ⟨rq_current, ptr, tcb, current, picked⟩ := next
      have moved : Threaded specs { left with rq_current } ready' waiting' :=
        threaded.rearrange ⟨threaded.arranged.ready_queue, threaded.arranged.rq_size,
          threaded.arranged.waiting_queue, threaded.arranged.wq_size⟩ (.refl _) rfl rfl
          threaded.atLock
      exact ⟨_, ready', waiting', computed.trans picked, moved, held, scheduled.pick rq_current,
        ⟨ptr, tcb, current, rfl⟩, freed⟩

theorem scheduler_eq {val : Nat} {handed left : State}
    (nonempty : ¬(state.rq_size = 0 ∧ state.wq_size = 0)) (positive : val ≠ 0)
    (first : giveLock state = .ok handed) (second : takeOut val handed = .ok left) : scheduler val state = pickNext val left := by
  rw [scheduler, if_neg nonempty, if_neg positive, first, ok_bind, second, ok_bind]

theorem Current.inside (current : Current state ready ptr tcb) :
    state.rq_current < ready.length :=
  (List.getElem?_eq_some_iff.mp current.1).1

theorem Current.nonempty (current : Current state ready ptr tcb)
    (arranged : Arranged state ready waiting) : ¬(state.rq_size = 0 ∧ state.wq_size = 0) := by
  have inside := current.inside
  rw [arranged.rq_size]
  omega

theorem Threaded.schedules_start (threaded : Threaded specs state ready [])
    (held : Held state ready) (freed : ∀ ptr ∈ state.exited, state.tcbs ptr = none) :
    Schedules specs state [] 0 := by
  have kept : Scheduled state state [] := ⟨rfl, rfl, rfl, .inl ⟨rfl, rfl⟩, fun _ _ => rfl⟩
  by_cases empty : ready = []
  · refine ⟨.returned state, ready, [], ?_, threaded, held, kept, ⟨empty, rfl⟩, freed⟩
    rw [scheduler, if_pos (threaded.arranged.empty_iff.mpr ⟨empty, rfl⟩)]
  · have moved : Threaded specs { state with rq_current := 0 } ready [] :=
      threaded.rearrange ⟨threaded.arranged.ready_queue, threaded.arranged.rq_size,
        threaded.arranged.waiting_queue, threaded.arranged.wq_size⟩ (.refl _) rfl rfl
        threaded.atLock
    obtain ⟨ptr, tcb, current, jumped⟩ := dispatch_spec moved (List.length_pos_iff.mpr empty)
    refine ⟨.dispatch tcb.environment { state with rq_current := 0 }, ready, [], ?_, moved, held,
      kept.pick 0, ⟨ptr, tcb, current, rfl⟩, freed⟩
    rw [scheduler, if_neg (fun both => empty (threaded.arranged.empty_iff.mp both).1), if_pos rfl]
    exact jumped

theorem Threaded.schedules_yield (few : specs.length ≤ THREAD_MAX)
    (threaded : Threaded specs state ready waiting) (held : Held state ready)
    (current : Current state ready ptr tcb)
    (freed : ∀ ptr ∈ state.exited, state.tcbs ptr = none) :
    Schedules specs state waiting 1 := by
  obtain ⟨handed, appended, rest, first, rfl, threaded', holds, _, _, scheduled, tcbs, same⟩ :=
    threaded.giveLock few
  have inside := current.inside
  refine threaded'.finish (scheduler_eq (current.nonempty threaded.arranged) (by decide) first rfl)
    (holds ready held) scheduled ?_ (.inl ⟨rfl, ?_⟩) (by rwa [tcbs])
  · intro _ none
    rw [List.append_eq_nil_iff] at none
    simp [none.1] at inside
  · rw [same, List.length_append]
    omega

/-- The running thread leaves the ready queue: the others stay. -/
theorem swapRemove_others {appended : List Ptr} {i : Nat}
    (current : (ready ++ appended)[i]? = some ptr) (member : ptr ∈ ready) :
    (swapRemove i (ready ++ appended)).Perm (ready.erase ptr ++ appended) := by
  have whole := (swapRemove_perm current).trans
    ((List.perm_cons_erase member).append_right appended)
  exact whole.cons_inv

theorem Threaded.schedules_lock (few : specs.length ≤ THREAD_MAX)
    (threaded : Threaded specs state ready waiting) (held : Held state (ready.erase ptr))
    (current : Current state ready ptr tcb)
    (atLock : tcb.environment = .setup .bank_operation) (taken : state.lock_owner ≠ -1)
    (freed : ∀ ptr ∈ state.exited, state.tcbs ptr = none) :
    Schedules specs state waiting 2 := by
  obtain ⟨handed, appended, rest, first, rfl, threaded', holds, _, alone, scheduled, tcbs,
    same⟩ := threaded.giveLock few
  obtain rfl : appended = [] := alone taken
  have member : ptr ∈ ready := List.mem_of_getElem? current.1
  have current' : (ready ++ [])[handed.rq_current]? = some ptr := by
    rw [List.append_nil, same, current.1]
  have room : rest.length < THREAD_MAX := by
    have bound := threaded.size
    have inside := current.inside
    rw [List.nil_append] at bound
    omega
  obtain ⟨ready_queue, waiting_queue, moved, arranged⟩ :=
    threaded'.arranged.moveToWaiting current' room
  have others := swapRemove_others current' member
  have held' := (holds _ held).mono others.symm.subset
  have stillTaken : handed.lock_owner ≠ -1 := by
    cases scheduled.lock with
    | inl kept => rw [kept.1]; exact taken
    | inr given => exact absurd given.1 taken
  have whole : (swapRemove handed.rq_current (ready ++ []) ++ (rest ++ [ptr])).Perm
      (ready ++ [] ++ rest) := by
    rw [← List.append_assoc]
    refine (List.perm_append_singleton ptr _).trans ?_
    exact (swapRemove_perm current').append_right rest
  refine Threaded.finish (scheduler_eq (current.nonempty threaded.arranged) (by decide) first moved)
    (threaded'.rearrange arranged whole rfl rfl ?_) held'
    ⟨scheduled.balance, scheduled.out, scheduled.exited, scheduled.lock, scheduled.blocks⟩
    (fun _ => held'.nonempty stillTaken) (.inr ⟨.inl rfl, ?_⟩) (by rwa [tcbs])
  · intro other waits
    rw [List.mem_append, List.mem_singleton] at waits
    cases waits with
    | inl earlier => exact threaded'.atLock other earlier
    | inr last =>
        subst last
        exact ⟨tcb, by rw [tcbs]; exact current.2, atLock⟩
  · rw [length_swapRemove]
    have inside := (List.getElem?_eq_some_iff.mp current').1
    exact Nat.le_sub_one_of_lt inside

theorem Threaded.schedules_exit (few : specs.length ≤ THREAD_MAX)
    (threaded : Threaded specs state ready waiting) (held : Held state (ready.erase ptr))
    (current : Current state ready ptr tcb) (gone : ptr ∈ state.exited)
    (freed : ∀ other ∈ state.exited, other ≠ ptr → state.tcbs other = none) :
    Schedules specs state waiting 3 := by
  obtain ⟨handed, appended, rest, first, rfl, threaded', holds, taken, _, scheduled, tcbs,
    same⟩ := threaded.giveLock few
  have member : ptr ∈ ready := List.mem_of_getElem? current.1
  have current' : (ready ++ appended)[handed.rq_current]? = some ptr := by
    rw [same, List.getElem?_append_left current.inside, current.1]
  obtain ⟨ready_queue, moved, arranged⟩ :=
    threaded'.arranged.freeRunning current' (tcbs ▸ current.2)
  have others := swapRemove_others current' member
  have apart : ∀ other ∈ ready.erase ptr ++ appended, other ≠ ptr := by
    have whole := (List.perm_cons_erase member).append_right appended
    have nodup := (List.nodup_append.mp threaded'.nodup).1
    rw [whole.nodup_iff, List.cons_append, List.nodup_cons] at nodup
    intro other inside equal
    exact nodup.1 (equal ▸ inside)
  have held' : Held { handed with
      ready_queue
      tcbs := Function.update handed.tcbs ptr none
      rq_size := handed.rq_size - 1 } (swapRemove handed.rq_current (ready ++ appended)) := by
    cases holds _ held with
    | inl free => exact .inl free
    | inr owned =>
        obtain ⟨owner, inside, block, found, owns⟩ := owned
        exact .inr ⟨owner, others.symm.subset inside, block,
          (Function.update_of_ne (apart owner inside) _ _).trans found, owns⟩
  refine Threaded.finish (scheduler_eq (current.nonempty threaded.arranged) (by decide) first moved)
    (threaded'.free arranged (swapRemove_perm current') rfl rfl (scheduled.exited ▸ gone)) held'
    ⟨scheduled.balance, scheduled.out, scheduled.exited, scheduled.lock, ?_⟩
    ?_ (.inr ⟨.inr rfl, ?_⟩) ?_
  · intro other alive
    have different : other ≠ ptr := fun equal => alive (equal ▸ gone)
    exact (Function.update_of_ne different _ _).trans (scheduled.blocks other alive)
  · intro waits
    cases appended with
    | nil => exact held'.nonempty (taken rfl waits)
    | cons one more =>
        intro none
        rw [none] at others
        simpa using others.symm.eq_nil
  · rw [length_swapRemove]
    have inside := (List.getElem?_eq_some_iff.mp current').1
    exact Nat.le_sub_one_of_lt inside
  · intro other left
    cases eq_or_ne other ptr with
    | inl equal => exact equal ▸ Function.update_self ..
    | inr different =>
        exact (Function.update_of_ne different _ _).trans (tcbs ▸ freed other left different)

theorem Invariant.others_hold (invariant : Invariant specs state ready waiting)
    (current : Current state ready ptr tcb)
    (differs : state.lock_owner = -1 ∨ state.lock_owner ≠ tcb.id) :
    Held state (ready.erase ptr) := by
  cases invariant.held with
  | inl free => exact .inl free
  | inr owned =>
      obtain ⟨owner, member, block, found, id, bank⟩ := owned
      cases differs with
      | inl free => exact .inl free
      | inr different =>
          have apart : owner ≠ ptr := by
            intro equal
            subst equal
            have same : block = tcb := Option.some.inj (found.symm.trans current.2)
            exact different (by rw [← id, same])
          exact .inr ⟨owner, (List.mem_erase_of_ne apart).mpr member, block, found, id, bank⟩

theorem Invariant.schedules {val : Nat} (few : specs.length ≤ THREAD_MAX)
    (invariant : Invariant specs state ready waiting)
    (control : state.control = .scheduling val) : Schedules specs state waiting val := by
  have placed := invariant.placed
  rw [control] at placed
  have freed : val ≠ 3 → ∀ ptr ∈ state.exited, state.tcbs ptr = none := by
    intro stays ptr member
    cases invariant.leaving ptr member with
    | inl gone => exact gone
    | inr leaving =>
        rw [control] at leaving
        exact absurd (Control.scheduling.inj leaving.1) stays
  match val with
  | 0 =>
      obtain rfl : waiting = [] := placed
      exact invariant.toThreaded.schedules_start invariant.held (freed (by decide))
  | 1 =>
      obtain ⟨ptr, tcb, current⟩ := placed
      exact invariant.toThreaded.schedules_yield few invariant.held current (freed (by decide))
  | 2 =>
      obtain ⟨ptr, tcb, current, atLock, taken, differs⟩ := placed
      exact invariant.toThreaded.schedules_lock few
        (invariant.others_hold current (.inr differs)) current atLock taken
        (freed (by decide))
  | 3 =>
      obtain ⟨ptr, tcb, current, gone, differs⟩ := placed
      refine invariant.toThreaded.schedules_exit few
        (invariant.others_hold current differs) current gone ?_
      intro other member different
      cases invariant.leaving other member with
      | inl none => exact none
      | inr leaving =>
          rw [current.1] at leaving
          exact absurd (Option.some.inj leaving.2).symm different
  | _ + 4 => exact placed.elim

end SysProg.Threads
