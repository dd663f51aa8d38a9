import SysProg.Threads.Termination

namespace SysProg.Threads

open SysProg.Data

/-! # The queues from one dispatch to the next

`Rota` is what the scheduler works on, without the blocks and the arrays: the two queues and
the place of the running thread.  The scheduler of the program does to its arrays what `turn`
does to a rota. -/

variable {specs : List Spec} {state after handed left : State} {ready waiting : List Ptr} {ptr : Ptr}
  {tcb : Tcb} {val : Nat}

structure Rota where
  ready : List Ptr
  waiting : List Ptr
  current : Nat

namespace Rota

/-- The first waiting thread joins the ready ones. -/
def hand (rota : Rota) : Rota :=
  { rota with ready := rota.ready ++ rota.waiting.take 1, waiting := rota.waiting.drop 1 }

/-- The running thread leaves the ready queue. -/
def remove (rota : Rota) : Rota := { rota with ready := swapRemove rota.current rota.ready }

/-- The running thread leaves for the waiting queue. -/
def park (rota : Rota) : Rota :=
  { rota.remove with waiting := rota.waiting ++ rota.ready[rota.current]?.toList }

def takeOut (val : Nat) (rota : Rota) : Rota :=
  if val = 2 then rota.park else if val = 3 then rota.remove else rota

/-- Whether the next place is the first one again. -/
def wraps (val : Nat) (rota : Rota) : Prop :=
  if val = 1 then rota.current + 1 = rota.ready.length else rota.current = rota.ready.length

instance (val : Nat) (rota : Rota) : Decidable (rota.wraps val) := by
  unfold wraps
  infer_instance

def next (val : Nat) (rota : Rota) : Rota :=
  { rota with current := if rota.wraps val then 0 else if val = 1 then rota.current + 1 else rota.current }

end Rota

def State.rota (state : State) : Rota := ⟨state.ready, state.waiting, state.rq_current⟩

/-- The queues after steps 1 to 4 of the scheduler. -/
def State.rearranged (val : Nat) (state : State) : Rota :=
  (if state.lock_owner = -1 then state.rota.hand else state.rota).takeOut val

/-- What steps 1 and 2 make of the lock. -/
structure Owned (state after : State) : Prop where
  given : ∀ first rest, state.lock_owner = -1 → state.waiting = first :: rest →
    ∃ tcb, state.tcbs first = some tcb ∧ after.lock_owner = tcb.id
  kept : state.lock_owner ≠ -1 ∨ state.waiting = [] → after.lock_owner = state.lock_owner

theorem Arranged.rota (arranged : Arranged state ready waiting) :
    state.rota = ⟨ready, waiting, state.rq_current⟩ := by
  rw [State.rota, arranged.ready_eq, arranged.waiting_eq]

theorem Arranged.self (arranged : Arranged state ready waiting) :
    Arranged state state.ready state.waiting := by
  rwa [arranged.ready_eq, arranged.waiting_eq]

/-- Steps 1 and 2 on the arrays. -/
theorem Threaded.hands (few : specs.length ≤ THREAD_MAX) (threaded : Threaded specs state ready waiting) :
    ∃ handed, Threads.giveLock state = .ok handed ∧ Arranged handed handed.ready handed.waiting ∧
      handed.rota = (if state.lock_owner = -1 then state.rota.hand else state.rota) ∧
      Owned state handed ∧ handed.tcbs = state.tcbs := by
  have queues := threaded.arranged.waiting_eq
  by_cases free : state.lock_owner = -1 ∧ waiting ≠ []
  · obtain ⟨free, some⟩ := free
    obtain ⟨first, rest, rfl⟩ := List.exists_cons_of_ne_nil some
    obtain ⟨tcb, block, _⟩ := threaded.atLock first List.mem_cons_self
    have room : ready.length < THREAD_MAX := by
      have bound := threaded.size
      rw [List.length_cons] at bound
      omega
    obtain ⟨ready_queue, waiting_queue, handed, arranged⟩ := threaded.arranged.handOff block room
    refine ⟨_, ?_, arranged.self, ?_, ⟨?_, ?_⟩, rfl⟩
    · rw [Threads.giveLock, if_pos ⟨free, by simp [threaded.arranged.wq_size]⟩]
      exact handed
    · rw [if_pos free, arranged.rota, threaded.arranged.rota]
      rfl
    · intro other others _ same
      rw [queues, List.cons.injEq] at same
      exact ⟨tcb, same.1 ▸ block, rfl⟩
    · intro either
      obtain taken | none := either
      · exact absurd free taken
      · rw [queues] at none
        cases none
  · have same : Threads.giveLock state = .ok state := by
      rw [Threads.giveLock, if_neg]
      intro both
      refine free ⟨both.1, fun none => both.2 ?_⟩
      rw [threaded.arranged.wq_size, none]
      rfl
    refine ⟨state, same, threaded.arranged.self, ?_, ⟨?_, fun _ => rfl⟩, rfl⟩
    · split
      · rename_i idle
        obtain rfl : waiting = [] := by
          by_contra some
          exact free ⟨idle, some⟩
        rw [threaded.arranged.rota]
        simp [Rota.hand]
      · rfl
    · intro first rest idle some
      rw [queues] at some
      exact absurd ⟨idle, by simp [some]⟩ free

/-- Steps 3 and 4 on the arrays. -/
theorem Arranged.takesOut (arranged : Arranged state ready waiting) (room : waiting.length < THREAD_MAX)
    (current : Current state ready ptr tcb) (val : Nat) :
    ∃ left, takeOut val state = .ok left ∧ Arranged left left.ready left.waiting ∧
      left.rota = state.rota.takeOut val ∧ left.lock_owner = state.lock_owner := by
  unfold Threads.takeOut Rota.takeOut
  rw [arranged.rota]
  by_cases refused : val = 2
  · obtain ⟨ready_queue, waiting_queue, moved, arranged'⟩ := arranged.moveToWaiting current.1 room
    rw [if_pos refused, if_pos refused]
    refine ⟨_, moved, arranged'.self, ?_, rfl⟩
    rw [arranged'.rota, Rota.park, current.1]
    rfl
  · rw [if_neg refused, if_neg refused]
    by_cases exits : val = 3
    · obtain ⟨ready_queue, freed, arranged'⟩ := arranged.freeRunning current.1 current.2
      rw [if_pos exits, if_pos exits]
      exact ⟨_, freed, arranged'.self, arranged'.rota, rfl⟩
    · rw [if_neg exits, if_neg exits]
      exact ⟨state, rfl, arranged.self, arranged.rota, rfl⟩

theorem Owned.congr (owned : Owned state handed) (same : left.lock_owner = handed.lock_owner) :
    Owned state left := by
  obtain ⟨given, kept⟩ := owned
  rw [← same] at kept
  simp only [← same] at given
  exact ⟨given, kept⟩

/-- A call that comes from a thread. -/
theorem Invariant.caller (invariant : Invariant specs state ready waiting)
    (control : state.control = .scheduling val) (positive : val ≠ 0) :
    (val = 1 ∨ val = 2 ∨ val = 3) ∧ ∃ ptr tcb, Current state ready ptr tcb := by
  have placed := invariant.placed
  rw [control] at placed
  match val with
  | 0 => exact absurd rfl positive
  | 1 => exact ⟨.inl rfl, placed⟩
  | 2 =>
      obtain ⟨ptr, tcb, current, _⟩ := placed
      exact ⟨.inr (.inl rfl), ptr, tcb, current⟩
  | 3 =>
      obtain ⟨ptr, tcb, current, _⟩ := placed
      exact ⟨.inr (.inr rfl), ptr, tcb, current⟩
  | _ + 4 => exact placed.elim

/-- Steps 1 to 4 of a call that comes from a thread. -/
theorem Invariant.rearranges (few : specs.length ≤ THREAD_MAX) (invariant : Invariant specs state ready waiting)
    (control : state.control = .scheduling val) (positive : val ≠ 0) :
    ∃ handed left, giveLock state = .ok handed ∧ takeOut val handed = .ok left ∧
      Arranged left left.ready left.waiting ∧ left.rota = state.rearranged val ∧ Owned state left ∧
      scheduler val state = pickNext val left := by
  obtain ⟨_, ptr, tcb, current⟩ := invariant.caller control positive
  obtain ⟨handed, first, arranged, rota, owned, blocks⟩ := invariant.toThreaded.hands few
  have fits := invariant.toThreaded.size
  have inside := current.inside
  have kept : Current handed handed.ready ptr tcb ∧ handed.waiting.length ≤ waiting.length := by
    rw [invariant.arranged.rota] at rota
    by_cases free : state.lock_owner = -1
    · rw [if_pos free] at rota
      simp only [State.rota, Rota.hand, Rota.mk.injEq] at rota
      obtain ⟨ready', waiting', same⟩ := rota
      refine ⟨⟨?_, by rw [blocks, current.2]⟩, ?_⟩
      · rw [ready', same, List.getElem?_append_left inside, current.1]
      · rw [waiting', List.length_drop]
        omega
    · rw [if_neg free] at rota
      simp only [State.rota, Rota.mk.injEq] at rota
      obtain ⟨ready', waiting', same⟩ := rota
      exact ⟨⟨by rw [ready', same, current.1], by rw [blocks, current.2]⟩, by rw [waiting']⟩
  obtain ⟨left, second, arranged', rota', lock⟩ := arranged.takesOut (by omega) kept.1 val
  refine ⟨handed, left, first, second, arranged', ?_, owned.congr lock, ?_⟩
  · rw [rota', rota, State.rearranged]
  · exact scheduler_eq (current.nonempty invariant.arranged) positive first second

/-- Steps 5 and 6. -/
theorem pickNext_rota {environment : Environment} (arranged : Arranged left left.ready left.waiting)
    (picked : pickNext val left = .ok (.dispatch environment after)) :
    after.rota = left.rota.next val ∧ after.lock_owner = left.lock_owner := by
  have jump : ∀ rq_current, dispatch { left with rq_current } = .ok (.dispatch environment after) →
      after = { left with rq_current } := fun _ jumped => dispatch_final jumped
  unfold pickNext at picked
  split at picked
  · cases picked
  split at picked
  · rename_i yielded
    rw [jump _ picked]
    refine ⟨?_, rfl⟩
    simp only [Rota.next, Rota.wraps, if_pos yielded, State.rota, ← arranged.rq_size]
    rfl
  split at picked
  · rename_i stayed _
    rw [jump _ picked]
    refine ⟨?_, rfl⟩
    simp only [Rota.next, Rota.wraps, if_neg stayed, State.rota, ← arranged.rq_size]
    rfl
  · cases picked

/-- A dispatch that is not the first leaves the queues as `Rota.next` does. -/
theorem Invariant.rotates {environment : Environment} (few : specs.length ≤ THREAD_MAX)
    (invariant : Invariant specs state ready waiting) (control : state.control = .scheduling val)
    (positive : val ≠ 0) (computed : scheduler val state = .ok (.dispatch environment after)) :
    after.rota = (state.rearranged val).next val ∧ Owned state after := by
  obtain ⟨handed, left, _, _, arranged, rota, owned, picks⟩ := invariant.rearranges few control positive
  obtain ⟨turned, lock⟩ := pickNext_rota arranged (picks ▸ computed)
  exact ⟨by rw [turned, rota], owned.congr lock⟩

/-! ## What happens in a step -/

/-- The thread that the scheduler gives the lock. -/
def State.hands (state : State) : Option Ptr :=
  match state.control with
  | .scheduling val =>
      if val ≠ 0 ∧ state.lock_owner = -1 ∧ state.wq_size ≠ 0 then state.waiting_queue[0]? else none
  | _ => none

/-- The thread that the scheduler moves to the waiting queue. -/
def State.enters (state : State) : Option Ptr :=
  match state.control with
  | .scheduling 2 => state.ready_queue[state.rq_current]?
  | _ => none

/-- The thread that runs `lock()`, and whether it gets behind it. -/
def State.locks (state : State) : Option (Ptr × Bool) :=
  match state.control, RUNNING state with
  | .running (.setup .bank_operation), .ok (ptr, tcb) =>
      some (ptr, state.lock_owner = -1 ∨ state.lock_owner = tcb.id)
  | _, _ => none

/-- The thread whose `lock()` fails. -/
def State.refused (state : State) : Option Ptr :=
  match state.locks with
  | some (ptr, false) => some ptr
  | _ => none

/-- The thread whose `lock()` succeeds. -/
def State.acquires (state : State) : Option Ptr :=
  match state.locks with
  | some (ptr, true) => some ptr
  | _ => none

/-- The thread that the scheduler jumps to. -/
def State.dispatched (state : State) : Option Ptr :=
  match state.control with
  | .scheduling val =>
      match scheduler val state with
      | .ok (.dispatch _ after) => (RUNNING after).toOption.map Prod.fst
      | _ => none
  | _ => none

/-- What happens in the steps `j` to `k` of a run, the last one apart. -/
def during (event : State → Option Ptr) (specs : List Spec) (signals : Nat → Option Signal) (j k : Nat) :
    List Ptr :=
  (List.range' j (k - j)).filterMap fun i => event (run specs signals i)

section During

variable {event : State → Option Ptr} {signals : Nat → Option Signal} {j k : Nat}

@[simp] theorem during_self : during event specs signals j j = [] := by simp [during]

theorem during_succ (behind : j ≤ k) :
    during event specs signals j (k + 1) =
      during event specs signals j k ++ (event (run specs signals k)).toList := by
  have longer : k + 1 - j = k - j + 1 := by omega
  have last : j + 1 * (k - j) = k := by omega
  rw [during, longer, List.range'_concat, List.filterMap_append, last, during]
  congr 1

theorem during_append {i : Nat} (before : j ≤ i) (behind : i ≤ k) :
    during event specs signals j k =
      during event specs signals j i ++ during event specs signals i k := by
  induction k, behind using Nat.le_induction with
  | base => rw [during_self, List.append_nil]
  | succ k behind ih =>
      rw [during_succ (Nat.le_trans before behind), during_succ behind, ih, List.append_assoc]

theorem mem_during : ptr ∈ during event specs signals j k ↔
    ∃ i, j ≤ i ∧ i < k ∧ event (run specs signals i) = some ptr := by
  rw [during, List.mem_filterMap]
  refine exists_congr fun i => ?_
  rw [List.mem_range'_1]
  constructor
  · intro last
    obtain ⟨⟨behind, before⟩, happens⟩ := last
    exact ⟨behind, by omega, happens⟩
  · intro last
    obtain ⟨behind, before, happens⟩ := last
    exact ⟨⟨behind, by omega⟩, happens⟩

end During

theorem hands_eq (control : state.control = .scheduling val) (positive : val ≠ 0) :
    state.hands.toList = if state.lock_owner = -1 then state.waiting.take 1 else [] := by
  have head : state.waiting.take 1 =
      (if state.wq_size ≠ 0 then state.waiting_queue[0]? else none).toList := by
    cases size : state.wq_size with
    | zero => simp [State.waiting, size]
    | succ more =>
        rw [if_pos (Nat.succ_ne_zero more), State.waiting, size, List.take_take,
          Nat.min_eq_left (Nat.succ_le_succ (Nat.zero_le more)), ← Vector.getElem?_toList,
          List.take_one]
        cases state.waiting_queue.toList <;> rfl
  simp only [State.hands, control]
  by_cases free : state.lock_owner = -1
  · rw [if_pos free, head]
    by_cases some : state.wq_size ≠ 0
    · rw [if_pos ⟨positive, free, some⟩, if_pos some]
    · rw [if_neg (fun all => some all.2.2), if_neg some]
  · rw [if_neg free, if_neg (fun all => free all.2.1)]
    rfl

/-- The queues behind the hand-off. -/
theorem rearranged_eq (control : state.control = .scheduling val) (positive : val ≠ 0) :
    ∃ rest, state.waiting = state.hands.toList ++ rest ∧
      state.rearranged val =
        Rota.takeOut val ⟨state.ready ++ state.hands.toList, rest, state.rq_current⟩ := by
  rw [hands_eq control positive, State.rearranged]
  by_cases free : state.lock_owner = -1
  · rw [if_pos free, if_pos free]
    exact ⟨state.waiting.drop 1, (List.take_append_drop 1 _).symm, rfl⟩
  · rw [if_neg free, if_neg free, List.append_nil]
    exact ⟨state.waiting, rfl, rfl⟩

/-- A thread that runs leaves the queues alone. -/
theorem resume_rota (environment : Environment) (ptr : Ptr) (tcb : Tcb) (state : State) :
    (resume environment ptr tcb state).rota = state.rota := by
  cases resume_cases environment ptr tcb state with
  | round loop i x y counts func computed =>
      rw [computed]
      unfold endRound
      split <;> rfl
  | lock point computed =>
      rw [computed]
      unfold bankLock
      split <;> rfl
  | update point computed =>
      obtain ⟨balance, line, updated⟩ := bankUpdate_eq ptr tcb state
      rw [computed, updated]
      rfl
  | release point computed =>
      rw [computed, bankRelease_eq]
      rfl

/-- What a call of `scheduler` comes to. -/
inductive Comes (state : State) (val : Nat) : Outcome → Prop
  | returned {after : State} (none : state.dispatched = none) : Comes state val (.returned after)
  | dispatch {environment : Environment} {after : State} (ptr : Ptr) (found : state.dispatched = some ptr)
      (current : after.ready[after.rq_current]? = some ptr) : Comes state val (.dispatch environment after)

theorem Invariant.comes (few : specs.length ≤ THREAD_MAX) (invariant : Invariant specs state ready waiting)
    (control : state.control = .scheduling val) :
    ∃ outcome, scheduler val state = .ok outcome ∧ Comes state val outcome := by
  obtain ⟨outcome, ready', waiting', computed, threaded, _, _, ended, _⟩ := invariant.schedules few control
  refine ⟨outcome, computed, ?_⟩
  cases outcome with
  | returned after => exact .returned (by simp only [State.dispatched, control, computed])
  | dispatch environment after =>
      obtain ⟨ptr, tcb, current, _⟩ := ended
      have arranged : Arranged after ready' waiting' := threaded.arranged
      refine .dispatch ptr ?_ ?_
      · simp only [State.dispatched, control, computed, arranged.running current.1 current.2]
        rfl
      · rw [arranged.ready_eq, current.1]

def Outcome.control : Outcome → Control
  | .returned _ => .finished
  | .dispatch environment _ => .running environment

/-- The step behind a call of `scheduler`. -/
theorem next_scheduled {outcome : Outcome} (signal : Option Signal) (control : state.control = .scheduling val)
    (computed : scheduler val state = .ok outcome) :
    (next signal state).rota = outcome.final.rota ∧ (next signal state).tcbs = outcome.final.tcbs ∧
      (next signal state).lock_owner = outcome.final.lock_owner ∧
      (next signal state).control = outcome.control := by
  simp only [next, control, computed]
  cases outcome <;> exact ⟨rfl, rfl, rfl, rfl⟩

theorem resume_control (environment : Environment) (ptr : Ptr) (tcb : Tcb) (state : State) :
    (∃ point, (resume environment ptr tcb state).control = .yielding point) ∨
    (resume environment ptr tcb state).control = .scheduling 3 ∨
    (resume environment ptr tcb state).control = .scheduling 2 ∧ environment = .setup .bank_operation ∧
      ¬ (state.lock_owner = -1 ∨ state.lock_owner = tcb.id) := by
  cases resume_cases environment ptr tcb state with
  | round loop i x y counts func computed =>
      rw [computed]
      unfold endRound
      split
      · exact .inr (.inl rfl)
      · exact .inl ⟨loop, rfl⟩
  | lock point computed =>
      rw [computed]
      unfold bankLock
      by_cases free : state.lock_owner = -1 ∨ state.lock_owner = tcb.id
      · rw [if_pos free]
        exact .inl ⟨.acquired, rfl⟩
      · rw [if_neg free]
        exact .inr (.inr ⟨rfl, point, free⟩)
  | update point computed =>
      obtain ⟨balance, line, updated⟩ := bankUpdate_eq ptr tcb state
      rw [computed, updated]
      exact .inl ⟨.updated, rfl⟩
  | release point computed =>
      rw [computed, bankRelease_eq]
      exact .inr (.inl rfl)

theorem Arranged.entry {i : Nat} (arranged : Arranged state ready waiting) (found : ready[i]? = some ptr) :
    state.ready_queue[i]? = some ptr := by
  have loaded := load_prefix arranged.ready_queue found
  unfold load at loaded
  split at loaded
  · rename_i entry
    cases loaded
    exact entry
  · cases loaded

/-- How a step comes to a call of `scheduler`: a signal at a yield, an exit, or a failed `lock()`. -/
theorem Invariant.jumps (invariant : Invariant specs state ready waiting) (signal : Option Signal) {val : Nat}
    (control : (Threads.next signal state).control = .scheduling val) :
    val = 1 ∨ val = 3 ∨ val = 2 ∧ ∃ ptr, ready[state.rq_current]? = some ptr ∧
      state.refused = some ptr ∧ (Threads.next signal state).enters = some ptr := by
  have placed := invariant.placed
  cases point : state.control with
  | running environment =>
      rw [point] at placed
      obtain ⟨ptr, tcb, current, rfl⟩ := placed
      have running := invariant.arranged.running current.1 current.2
      have turns : Threads.next signal state = Threads.resume tcb.environment ptr tcb state := by
        simp only [Threads.next, point, running]
      rw [turns] at control ⊢
      rcases resume_control tcb.environment ptr tcb state with ⟨other, yields⟩ | exits | ⟨refuses, here, taken⟩
      · rw [yields] at control
        cases control
      · rw [exits] at control
        cases control
        exact .inr (.inl rfl)
      · rw [refuses] at control
        cases control
        refine .inr (.inr ⟨rfl, ptr, current.1, ?_, ?_⟩)
        · rw [here] at point
          simp only [State.refused, State.locks, point, running, decide_eq_false taken]
        · have same : Threads.resume tcb.environment ptr tcb state = { state with control := .scheduling 2 } := by
            rw [here]
            exact if_neg taken
          rw [same]
          exact invariant.arranged.entry current.1
  | yielding environment =>
      rw [Threads.next, point] at control
      cases signal with
      | none => cases control
      | some signal =>
          cases control
          exact .inl rfl
  | scheduling val' =>
      rw [Threads.next, point] at control
      dsimp only at control
      split at control <;> cases control
  | finished | crashed fault =>
      rw [Threads.next, point, point] at control
      cases control

/-- A thread enters the waiting queue after its `lock()` has failed. -/
theorem Invariant.enters_next (invariant : Invariant specs state ready waiting) (signal : Option Signal)
    (enters : (Threads.next signal state).enters = some ptr) : state.refused = some ptr := by
  have control : (Threads.next signal state).control = .scheduling 2 := by
    unfold State.enters at enters
    split at enters
    · assumption
    · cases enters
  rcases invariant.jumps signal control with one | three | ⟨_, other, _, refused, entered⟩
  · cases one
  · cases three
  · rwa [← Option.some.inj (entered.symm.trans enters)]

/-- A step that is no call of `scheduler` leaves the queues alone. -/
theorem Invariant.rota_next (invariant : Invariant specs state ready waiting) (signal : Option Signal)
    (elsewhere : ∀ val, state.control ≠ .scheduling val) : (Threads.next signal state).rota = state.rota := by
  have placed := invariant.placed
  unfold Threads.next
  cases control : state.control with
  | running environment =>
      rw [control] at placed
      obtain ⟨ptr, tcb, current, _⟩ := placed
      simp only [invariant.arranged.running current.1 current.2]
      exact resume_rota environment ptr tcb state
  | yielding environment => cases signal <;> rfl
  | scheduling val => exact absurd control (elsewhere val)
  | finished | crashed _ => rfl

theorem scheduler_start {outcome : Outcome} (computed : scheduler 0 state = .ok outcome) :
    outcome.final.ready = state.ready ∧ outcome.final.waiting = state.waiting ∧
      outcome.final.lock_owner = state.lock_owner := by
  unfold scheduler at computed
  split at computed
  · cases computed
    exact ⟨rfl, rfl, rfl⟩
  · rw [if_pos rfl] at computed
    rw [dispatch_final computed]
    exact ⟨rfl, rfl, rfl⟩

theorem pickNext_queues {outcome : Outcome} (picked : pickNext val left = .ok outcome) :
    outcome.final.ready = left.ready ∧ outcome.final.waiting = left.waiting ∧
      outcome.final.lock_owner = left.lock_owner := by
  unfold pickNext at picked
  split at picked
  · cases picked
    exact ⟨rfl, rfl, rfl⟩
  split at picked
  · rw [dispatch_final picked]
    exact ⟨rfl, rfl, rfl⟩
  split at picked
  · rw [dispatch_final picked]
    exact ⟨rfl, rfl, rfl⟩
  · cases picked
    exact ⟨rfl, rfl, rfl⟩

/-- Threads leave the waiting queue at its head and enter it at its tail. -/
theorem Invariant.waiting_next (few : specs.length ≤ THREAD_MAX) (invariant : Invariant specs state ready waiting)
    (signal : Option Signal) :
    state.hands.toList ++ (Threads.next signal state).waiting = state.waiting ++ state.enters.toList := by
  cases control : state.control with
  | scheduling val =>
      obtain ⟨outcome, computed, _⟩ := invariant.comes few control
      obtain ⟨rota, _⟩ := next_scheduled signal control computed
      have waiting_eq : (Threads.next signal state).waiting = outcome.final.waiting := congrArg Rota.waiting rota
      rw [waiting_eq]
      by_cases begins : val = 0
      · subst begins
        rw [(scheduler_start computed).2.1]
        simp [State.hands, State.enters, control]
      · obtain ⟨handed, left, _, _, arranged, rota, _, picks⟩ := invariant.rearranges few control begins
        obtain ⟨rest, split, rearranged⟩ := rearranged_eq control begins
        obtain ⟨comes, ptr, tcb, current⟩ := invariant.caller control begins
        have entry : (state.ready ++ state.hands.toList)[state.rq_current]? = some ptr := by
          rw [invariant.arranged.ready_eq, List.getElem?_append_left current.inside, current.1]
        have left_waiting : left.waiting = rest ++ state.enters.toList := by
          have same : left.waiting = (state.rearranged val).waiting := congrArg Rota.waiting rota
          rw [same, rearranged]
          rcases comes with rfl | rfl | rfl
          · simp [Rota.takeOut, State.enters, control]
          · simp [Rota.takeOut, Rota.park, State.enters, control, entry, invariant.arranged.entry current.1]
          · simp [Rota.takeOut, Rota.remove, State.enters, control]
        rw [(pickNext_queues (picks ▸ computed)).2.1, left_waiting, split, List.append_assoc]
  | running | yielding | finished | crashed =>
      have same : (Threads.next signal state).waiting = state.waiting := by
        have rota := invariant.rota_next signal (by simp [control])
        exact congrArg Rota.waiting rota
      rw [same]
      simp [State.hands, State.enters, control]

end SysProg.Threads
