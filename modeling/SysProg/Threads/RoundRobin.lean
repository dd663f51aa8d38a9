import SysProg.Data.Sweep
import SysProg.Threads.Rotation

namespace SysProg.Threads

open SysProg.Data

/-! # Sweeps of the scheduler

A sweep begins where the scheduler executes `rq_current = 0`. -/

variable {specs : List Spec} {state after : State} {ready waiting : List Ptr} {ptr : Ptr}
  {val j k : Nat} {signals : Nat → Option Signal} {rota : Rota} {first served joined : List Ptr}

/-- Whether step 5 executes `rq_current = 0`. -/
def pickResets (val : Nat) (left : State) : Bool :=
  ¬(left.rq_size = 0 ∧ left.wq_size = 0) ∧
    if val = 1 then left.rq_current + 1 = left.rq_size
    else (val = 2 ∨ val = 3) ∧ left.rq_current = left.rq_size

/-- Whether `scheduler` executes `rq_current = 0`. -/
def resets (val : Nat) (state : State) : Except Fault Bool :=
  if state.rq_size = 0 ∧ state.wq_size = 0 then .ok false
  else if val = 0 then .ok true
  else do
    let handed ← giveLock state
    let left ← takeOut val handed
    return pickResets val left

def State.resets (state : State) : Bool :=
  match state.control with
  | .scheduling val => Threads.resets val state = .ok true
  | _ => false

/-- The part of a run from one execution of `rq_current = 0` to the next: the assignment is
in step `j` and again in step `k`. -/
structure CompletedSweep (specs : List Spec) (signals : Nat → Option Signal) (j k : Nat) : Prop where
  starts : (run specs signals j).resets = true
  ends : (run specs signals k).resets = true
  before : j < k
  between : ∀ i, j < i → i < k → (run specs signals i).resets = false

namespace Rota

/-- In the middle of a sweep. -/
def Sweeping (first : List Ptr) (rota : Rota) (served joined : List Ptr) : Prop :=
  ∃ front item behind, rota.ready = front ++ item :: behind ∧ rota.current = front.length ∧
    Sweep first front item behind served joined

theorem Sweeping.start (some : 0 < rota.ready.length) (here : rota.current = 0) :
    ∃ item, rota.ready[rota.current]? = Option.some item ∧ Sweeping rota.ready rota [item] [] := by
  obtain ⟨item, behind, whole⟩ := List.exists_cons_of_length_pos some
  refine ⟨item, by rw [here, whole]; rfl, [], item, behind, whole, here, .start whole⟩

theorem Sweeping.join (new : List Ptr) (rest : List Ptr) (sweeping : Sweeping first rota served joined) :
    Sweeping first ⟨rota.ready ++ new, rest, rota.current⟩ served (joined ++ new) := by
  obtain ⟨front, item, behind, whole, here, sweep⟩ := sweeping
  exact ⟨front, item, behind ++ new, by rw [whole]; simp, here, sweep.join_all new⟩

/-- The ready queue without the running thread. -/
theorem remove_cases (sweeping : Sweeping first rota served joined) :
    (rota.remove.ready.length = rota.current ∧ served.Perm (first ++ joined)) ∨
    ∃ item, rota.current < rota.remove.ready.length ∧ rota.remove.ready[rota.current]? = some item ∧
      Sweeping first rota.remove (served ++ [item]) joined := by
  obtain ⟨front, item, behind, whole, here, sweep⟩ := sweeping
  rw [remove, whole, here]
  cases behind.eq_nil_or_concat' with
  | inl none =>
      subst none
      rw [swapRemove_last]
      exact .inl ⟨rfl, sweep.finished⟩
  | inr more =>
      obtain ⟨behind, last, rfl⟩ := more
      rw [swapRemove_between]
      refine .inr ⟨last, ?_, ?_, front, last, behind, rfl, rfl, sweep.replace⟩
      · simp
      · simp

theorem takeOut_ready (rota : Rota) (leaves : val ≠ 1) (comes : val = 1 ∨ val = 2 ∨ val = 3) :
    (rota.takeOut val).ready = rota.remove.ready ∧ (rota.takeOut val).current = rota.current := by
  rcases comes with rfl | rfl | rfl
  · exact absurd rfl leaves
  · exact ⟨rfl, rfl⟩
  · exact ⟨rfl, rfl⟩

/-- A turn of the scheduler ends the sweep or serves one more thread. -/
theorem Sweeping.turn (comes : val = 1 ∨ val = 2 ∨ val = 3) (sweeping : Sweeping first rota served joined) :
    ((rota.takeOut val).wraps val ∧ served.Perm (first ++ joined)) ∨
    (¬ (rota.takeOut val).wraps val ∧
      ∃ item, ((rota.takeOut val).next val).ready[((rota.takeOut val).next val).current]? = some item ∧
        Sweeping first ((rota.takeOut val).next val) (served ++ [item]) joined) := by
  by_cases yields : val = 1
  · subst yields
    obtain ⟨front, item, behind, whole, here, sweep⟩ := sweeping
    have same : rota.takeOut 1 = rota := rfl
    have wraps : rota.wraps 1 ↔ rota.current + 1 = rota.ready.length := by rw [wraps, if_pos rfl]
    rw [same]
    cases behind with
    | nil =>
        refine .inl ⟨wraps.mpr ?_, sweep.finished⟩
        rw [whole, here]
        simp
    | cons next behind =>
        have stays : ¬ rota.wraps 1 := by
          rw [wraps, whole, here]
          simp
        have moved : rota.next 1 = { rota with current := rota.current + 1 } := by
          rw [Rota.next, if_neg stays, if_pos rfl]
        rw [moved]
        refine .inr ⟨stays, next, ?_, front ++ [item], next, behind, ?_, ?_, sweep.advance⟩
        · simp [whole, here]
        · simp [whole]
        · simp [here]
  · obtain ⟨left, current⟩ := takeOut_ready rota yields comes
    have wraps : (rota.takeOut val).wraps val ↔ rota.current = rota.remove.ready.length := by
      rw [Rota.wraps, if_neg yields, left, current]
    rcases remove_cases sweeping with ⟨last, served⟩ | ⟨item, inside, found, sweeping⟩
    · exact .inl ⟨wraps.mpr last.symm, served⟩
    · have stays : ¬ (rota.takeOut val).wraps val := fun ends => absurd (wraps.mp ends) (Nat.ne_of_lt inside)
      have moved : (rota.takeOut val).next val = rota.takeOut val := by
        rw [Rota.next, if_neg stays, if_neg yields]
      rw [moved, left, current]
      refine .inr ⟨stays, item, found, ?_⟩
      obtain ⟨front, item, behind, whole, here, sweep⟩ := sweeping
      exact ⟨front, _, behind, left.trans whole, current.trans here, sweep⟩

end Rota

/-- Step 5 where the scheduler dispatches. -/
theorem pickResets_iff {environment : Environment} {left : State} (arranged : Arranged left left.ready left.waiting)
    (picked : pickNext val left = .ok (.dispatch environment after)) :
    pickResets val left = true ↔ left.rota.wraps val := by
  unfold pickNext at picked
  rw [pickResets, decide_eq_true_eq, Rota.wraps, arranged.rq_size]
  split at picked
  · cases picked
  rename_i some
  rw [arranged.rq_size] at some
  split at picked
  · rename_i yields
    rw [if_pos yields, if_pos yields]
    exact and_iff_right some
  split at picked
  · rename_i stays leaves
    rw [if_neg stays, if_neg stays]
    exact (and_iff_right some).trans (and_iff_right leaves)
  · cases picked

/-- A call of `scheduler` from a thread, seen from its sweep. -/
theorem Invariant.resets_iff {environment : Environment} (few : specs.length ≤ THREAD_MAX)
    (invariant : Invariant specs state ready waiting) (control : state.control = .scheduling val)
    (positive : val ≠ 0) (computed : scheduler val state = .ok (.dispatch environment after)) :
    state.resets = true ↔ (state.rearranged val).wraps val := by
  obtain ⟨handed, left, first, second, arranged, rota, _, picks⟩ :=
    invariant.rearranges few control positive
  have some : ¬(state.rq_size = 0 ∧ state.wq_size = 0) := by
    intro empty
    rw [scheduler, if_pos empty] at computed
    cases computed
  rw [← rota, ← pickResets_iff arranged (picks ▸ computed)]
  simp only [State.resets, control, Threads.resets, if_neg some, if_neg positive, first, second, ok_bind]
  rw [decide_eq_true_eq]
  exact ⟨Except.ok.inj, congrArg Except.ok⟩

/-- Where nothing is dispatched nothing is reset. -/
theorem Invariant.not_resets (few : specs.length ≤ THREAD_MAX)
    (invariant : Invariant specs state ready waiting) (control : state.control = .scheduling val)
    (computed : scheduler val state = .ok (.returned after)) : state.resets = false := by
  obtain ⟨outcome, ready', waiting', same, threaded, _, _, ended, _⟩ := invariant.schedules few control
  obtain rfl : outcome = .returned after := Except.ok.inj (same.symm.trans computed)
  obtain ⟨rfl, rfl⟩ := ended
  have empty : after.ready = [] ∧ after.waiting = [] :=
    ⟨threaded.arranged.ready_eq, threaded.arranged.waiting_eq⟩
  by_cases begins : val = 0
  · subst begins
    obtain ⟨ready_eq, waiting_eq, _⟩ := scheduler_start computed
    have none : state.rq_size = 0 ∧ state.wq_size = 0 :=
      invariant.arranged.self.empty_iff.mpr ⟨ready_eq.symm.trans empty.1, waiting_eq.symm.trans empty.2⟩
    simp only [State.resets, control, Threads.resets, if_pos none]
    rfl
  · obtain ⟨handed, left, first, second, arranged, _, _, picks⟩ := invariant.rearranges few control begins
    obtain ⟨ready_eq, waiting_eq, _⟩ := pickNext_queues (picks ▸ computed)
    have none : left.rq_size = 0 ∧ left.wq_size = 0 :=
      arranged.empty_iff.mpr ⟨ready_eq.symm.trans empty.1, waiting_eq.symm.trans empty.2⟩
    have still : pickResets val left = false := decide_eq_false fun resets => resets.1 none
    simp only [State.resets, control, Threads.resets, if_neg begins, first, second, ok_bind, still]
    split <;> rfl

theorem State.resets_control (resets : state.resets = true) : ∃ val, state.control = .scheduling val := by
  unfold State.resets at resets
  split at resets
  · exact ⟨_, ‹_›⟩
  · cases resets

/-- The first place is the next one where `rq_current` is reset. -/
theorem Invariant.resets_current {environment : Environment} (few : specs.length ≤ THREAD_MAX)
    (invariant : Invariant specs state ready waiting) (control : state.control = .scheduling val)
    (computed : scheduler val state = .ok (.dispatch environment after)) (resets : state.resets = true) :
    after.rq_current = 0 := by
  by_cases begins : val = 0
  · subst begins
    unfold scheduler at computed
    split at computed
    · cases computed
    · rw [if_pos rfl] at computed
      exact congrArg State.rq_current (dispatch_final computed)
  · have rota := (invariant.rotates few control begins computed).1
    have wraps := (invariant.resets_iff few control begins computed).mp resets
    rw [Rota.next, if_pos wraps] at rota
    exact congrArg Rota.current rota

/-- A call of `scheduler` that resets `rq_current`. -/
theorem Invariant.starts_sweep (few : specs.length ≤ THREAD_MAX)
    (invariant : Invariant specs state ready waiting) (signal : Option Signal) (resets : state.resets = true) :
    ∃ item, state.dispatched = some item ∧
      Rota.Sweeping (Threads.next signal state).ready (Threads.next signal state).rota [item] [] := by
  obtain ⟨val, control⟩ := State.resets_control resets
  obtain ⟨outcome, computed, comes⟩ := invariant.comes few control
  cases comes with
  | returned =>
      rw [invariant.not_resets few control computed] at resets
      cases resets
  | @dispatch _ after item found current =>
      have here : after.rota.current = 0 := invariant.resets_current few control computed resets
      have rota : (Threads.next signal state).rota = after.rota := (next_scheduled signal control computed).1
      have ready_eq : (Threads.next signal state).ready = after.ready := congrArg Rota.ready rota
      have inside : 0 < after.rota.ready.length := by
        have bound := (List.getElem?_eq_some_iff.mp current).1
        exact Nat.zero_lt_of_lt bound
      obtain ⟨other, same, sweeping⟩ := Rota.Sweeping.start inside here
      obtain rfl : item = other := Option.some.inj (current.symm.trans same)
      rw [rota, ready_eq]
      exact ⟨item, found, sweeping⟩

/-- The sweep with the thread that is given the lock. -/
theorem Rota.Sweeping.handed (control : state.control = .scheduling val) (positive : val ≠ 0)
    (sweeping : state.rota.Sweeping first served joined) :
    ∃ rota : Rota, state.rearranged val = rota.takeOut val ∧
      rota.Sweeping first served (joined ++ state.hands.toList) := by
  obtain ⟨rest, _, rearranged⟩ := rearranged_eq control positive
  exact ⟨_, rearranged, sweeping.join state.hands.toList rest⟩

/-- A call of `scheduler` at the end of a sweep. -/
theorem Invariant.ends_sweep (few : specs.length ≤ THREAD_MAX)
    (invariant : Invariant specs state ready waiting) (resets : state.resets = true)
    (later : state.control ≠ .scheduling 0) (sweeping : state.rota.Sweeping first served joined) :
    served.Perm (first ++ (joined ++ state.hands.toList)) := by
  obtain ⟨val, control⟩ := State.resets_control resets
  have positive : val ≠ 0 := fun begins => later (begins ▸ control)
  obtain ⟨outcome, computed, comes⟩ := invariant.comes few control
  cases comes with
  | returned =>
      rw [invariant.not_resets few control computed] at resets
      cases resets
  | dispatch =>
      have wraps := (invariant.resets_iff few control positive computed).mp resets
      obtain ⟨rota, same, sweeping⟩ := sweeping.handed control positive
      rw [same] at wraps
      rcases sweeping.turn (invariant.caller control positive).1 with ⟨_, served⟩ | ⟨stays, _⟩
      · exact served
      · exact absurd wraps stays

/-- A step in the middle of a sweep. -/
theorem Invariant.goes_on (few : specs.length ≤ THREAD_MAX)
    (invariant : Invariant specs state ready waiting) (signal : Option Signal) (resets : state.resets = false)
    (later : state.control ≠ .scheduling 0) (sweeping : state.rota.Sweeping first served joined) :
    (Threads.next signal state).control = .finished ∨
      (Threads.next signal state).rota.Sweeping first (served ++ state.dispatched.toList)
        (joined ++ state.hands.toList) := by
  cases control : state.control with
  | scheduling val =>
      obtain ⟨outcome, computed, comes⟩ := invariant.comes few control
      obtain ⟨rota, _, _, goes⟩ := next_scheduled signal control computed
      cases comes with
      | returned => exact .inl goes
      | @dispatch _ after item found current =>
          have positive : val ≠ 0 := fun begins => later (begins ▸ control)
          have turned := (invariant.rotates few control positive computed).1
          obtain ⟨handed, same, sweeping⟩ := sweeping.handed control positive
          rw [same] at turned
          have stays : ¬ (handed.takeOut val).wraps val := by
            rw [← same, ← invariant.resets_iff few control positive computed, resets]
            exact Bool.false_ne_true
          rcases sweeping.turn (invariant.caller control positive).1 with ⟨wraps, _⟩ | ⟨_, other, there, sweeping⟩
          · exact absurd wraps stays
          · rw [← turned] at there sweeping
            obtain rfl : item = other := Option.some.inj (current.symm.trans there)
            rw [rota, found]
            exact .inr sweeping
  | running | yielding | finished | crashed =>
      rw [invariant.rota_next signal (by simp [control])]
      simp only [State.dispatched, State.hands, control]
      right
      simpa using sweeping

section Run

variable (few : specs.length ≤ THREAD_MAX) (distinct : (specs.map Spec.id).Nodup)

include few distinct

theorem run_invariant (signals : Nat → Option Signal) (i : Nat) :
    ∃ ready waiting, Invariant specs (run specs signals i) ready waiting :=
  reachable_invariant few distinct (run_reachable specs signals i)

/-- Only the first call of `scheduler` has the value 0. -/
theorem run_begins_once (signals : Nat → Option Signal) (i : Nat) :
    (run specs signals (i + 1)).control ≠ .scheduling 0 := by
  obtain ⟨ready, waiting, invariant⟩ := run_invariant few distinct signals i
  intro begins
  rcases invariant.jumps (signals i) begins with one | three | ⟨two, _⟩
  · cases one
  · cases three
  · cases two

/-- What the dispatches since the start of a sweep are. -/
theorem run_sweeping (starts : (run specs signals j).resets = true) {i : Nat} (behind : j + 1 ≤ i)
    (between : ∀ l, j < l → l < i → (run specs signals l).resets = false) :
    (run specs signals i).control = .finished ∨
      (run specs signals i).rota.Sweeping (run specs signals (j + 1)).ready
        (during State.dispatched specs signals j i) (during State.hands specs signals (j + 1) i) := by
  induction i, behind using Nat.le_induction with
  | base =>
      obtain ⟨ready, waiting, invariant⟩ := run_invariant few distinct signals j
      obtain ⟨item, found, sweeping⟩ := invariant.starts_sweep few (signals j) starts
      rw [during_succ (Nat.le_refl j), during_self, during_self, found]
      exact .inr sweeping
  | succ i behind ih =>
      obtain ⟨ready, waiting, invariant⟩ := run_invariant few distinct signals i
      rcases ih fun l after before => between l after (Nat.lt_succ_of_lt before) with finished | sweeping
      · exact .inl ((congrArg State.control (run_finished finished 1)).trans finished)
      · have later : (run specs signals i).control ≠ .scheduling 0 := by
          obtain ⟨before, rfl⟩ := Nat.exists_eq_add_of_le' (Nat.le_trans (Nat.succ_le_succ (Nat.zero_le j)) behind)
          exact run_begins_once few distinct signals before
        rw [during_succ (Nat.le_of_succ_le behind), during_succ behind]
        exact invariant.goes_on few (signals i) (between i behind (Nat.lt_succ_self i)) later sweeping

/-- The threads dispatched in a sweep are those that were ready and those that were given the
lock in it. -/
theorem CompletedSweep.dispatches (sweep : CompletedSweep specs signals j k) :
    (during State.dispatched specs signals j k).Perm
      ((run specs signals (j + 1)).ready ++ during State.hands specs signals (j + 1) (k + 1)) := by
  obtain ⟨ready, waiting, invariant⟩ := run_invariant few distinct signals k
  have later : (run specs signals k).control ≠ .scheduling 0 := by
    obtain ⟨before, rfl⟩ := Nat.exists_eq_add_of_le' (Nat.one_le_of_lt sweep.before)
    exact run_begins_once few distinct signals before
  rw [during_succ sweep.before]
  rcases run_sweeping few distinct sweep.starts sweep.before sweep.between with finished | sweeping
  · obtain ⟨val, control⟩ := State.resets_control sweep.ends
    rw [control] at finished
    cases finished
  · exact invariant.ends_sweep few sweep.ends later sweeping

/-- A thread that is ready does not wait before it fails to get the lock. -/
theorem run_stays_ready (member : ptr ∈ (run specs signals (j + 1)).ready)
    (starts : (run specs signals j).resets = true) {i : Nat} (behind : j + 1 ≤ i)
    (keeps : ∀ l, j < l → l < i → (run specs signals l).refused ≠ some ptr) :
    ptr ∉ (run specs signals i).waiting ∧ (run specs signals i).enters ≠ some ptr := by
  induction i, behind using Nat.le_induction with
  | base =>
      obtain ⟨ready, waiting, invariant⟩ := run_invariant few distinct signals (j + 1)
      obtain ⟨_, _, before⟩ := run_invariant few distinct signals j
      obtain ⟨val, control⟩ := State.resets_control starts
      refine ⟨?_, ?_⟩
      · rw [invariant.arranged.ready_eq] at member
        rw [invariant.arranged.waiting_eq]
        exact fun waits => (List.nodup_append.mp invariant.nodup).2.2 ptr member ptr waits rfl
      · intro enters
        have refused := before.enters_next (signals j) enters
        simp [State.refused, State.locks, control] at refused
  | succ i behind ih =>
      obtain ⟨ready, waiting, invariant⟩ := run_invariant few distinct signals i
      obtain ⟨stays, keeps_out⟩ := ih fun l after before => keeps l after (Nat.lt_succ_of_lt before)
      refine ⟨?_, ?_⟩
      · intro waits
        have queues := invariant.waiting_next few (signals i)
        have member : ptr ∈ (run specs signals i).waiting ++ (run specs signals i).enters.toList := by
          rw [← queues]
          exact List.mem_append_right _ waits
        rcases List.mem_append.mp member with waited | entered
        · exact stays waited
        · exact keeps_out (Option.mem_toList.mp entered)
      · intro enters
        exact keeps i behind (Nat.lt_succ_self i) (invariant.enters_next (signals i) enters)

end Run

/-- A thread that is ready when a sweep begins and that does not fail to get the lock is
dispatched exactly once before the next sweep. -/
theorem ready_dispatched_once (few : specs.length ≤ THREAD_MAX) (distinct : (specs.map Spec.id).Nodup)
    (sweep : CompletedSweep specs signals j k) (member : ptr ∈ (run specs signals (j + 1)).ready)
    (keeps : ∀ i, j < i → i < k → (run specs signals i).refused ≠ some ptr) :
    (during State.dispatched specs signals j k).count ptr = 1 := by
  obtain ⟨ready, waiting, invariant⟩ := run_invariant few distinct signals (j + 1)
  have once : (run specs signals (j + 1)).ready.Nodup := by
    rw [invariant.arranged.ready_eq]
    exact (List.nodup_append.mp invariant.nodup).1
  have apart : ptr ∉ during State.hands specs signals (j + 1) (k + 1) := by
    intro joined
    obtain ⟨i, behind, before, hands⟩ := mem_during.mp joined
    obtain ⟨_, _, invariant⟩ := run_invariant few distinct signals i
    obtain ⟨stays, keeps_out⟩ := run_stays_ready few distinct member sweep.starts behind
      fun l after less => keeps l after (by omega)
    have queues := invariant.waiting_next few (signals i)
    have waits : ptr ∈ (run specs signals i).waiting ++ (run specs signals i).enters.toList := by
      rw [← queues, hands]
      exact List.mem_append_left _ List.mem_cons_self
    rcases List.mem_append.mp waits with waited | entered
    · exact stays waited
    · exact keeps_out (Option.mem_toList.mp entered)
  rw [(sweep.dispatches few distinct).count_eq, List.count_append, List.count_eq_zero_of_not_mem apart,
    List.count_eq_one_of_mem once member]

/-- In the first sweep the fibonacci thread returns and thread 2 fails to get the lock; in the other
one thread 3 returns and hands the lock to it. -/
theorem ready_dispatched_once_four :
    ((run loops_and_transactions alarms 2).control = .scheduling 3 ∧
      (run loops_and_transactions alarms 9).refused = some 3 ∧
      (during State.dispatched loops_and_transactions alarms 0 10).count 2 = 1) ∧
    ((run loops_and_transactions alarms 18).control = .scheduling 3 ∧
      (run loops_and_transactions alarms 18).hands = some 3 ∧
      (during State.dispatched loops_and_transactions alarms 16 23).count 2 = 1) := by
  have first : ∀ i < 10, 0 < i → (run loops_and_transactions alarms i).resets = false ∧
      (run loops_and_transactions alarms i).refused ≠ some 2 := by decide +kernel
  have other : ∀ i < 23, 16 < i → (run loops_and_transactions alarms i).resets = false ∧
      (run loops_and_transactions alarms i).refused ≠ some 2 := by decide +kernel
  refine ⟨⟨by decide +kernel, by decide +kernel, ?_⟩, by decide +kernel, by decide +kernel, ?_⟩
  · exact ready_dispatched_once (by decide) (by decide)
      ⟨by decide +kernel, by decide +kernel, by decide,
        fun i after before => (first i before after).1⟩
      (by decide +kernel) fun i after before => (first i before after).2
  · exact ready_dispatched_once (by decide) (by decide)
      ⟨by decide +kernel, by decide +kernel, by decide,
        fun i after before => (other i before after).1⟩
      (by decide +kernel) fun i after before => (other i before after).2

end SysProg.Threads
