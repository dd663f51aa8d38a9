import SysProg.Threads.Progress

namespace SysProg.Threads

open Relation SysProg.Transition

/-! # Every run ends

Each turn of a thread either brings it closer to its exit or is refused the lock,
and then the ready queue has lost a thread. -/

variable {specs : List Spec} {state after : State} {ready waiting : List Ptr} {ptr : Ptr}
  {tcb new : Tcb} {lines more : List Line} {leaves : Bool} {spec : Spec}

/-- The turns that a thread still has to take, those refused apart. -/
def Tcb.work (tcb : Tcb) : Nat :=
  match tcb.environment with
  | .setup .fibonacci | .setup .factorial => tcb.arg.toNat
  | .fibonacciYield | .factorialYield => (tcb.arg - tcb.i).toNat
  | .setup .bank_operation => 3
  | .acquired => 2
  | .updated => 1

/-- How far control is from the next turn. -/
def State.rank (state : State) : Nat :=
  match state.control with
  | .yielding _ => 2 * THREAD_MAX + 4
  | .scheduling 2 => 2 * state.rq_size
  | .scheduling _ => 2 * THREAD_MAX + 3
  | .running _ => 2 * state.rq_size + 1
  | .finished | .crashed _ => 0

/-- A bound on the steps that are left. -/
def State.remaining (specs : List Spec) (state : State) : Nat :=
  state.total Tcb.work specs * (2 * THREAD_MAX + 5) + state.rank

theorem loop_work (counts : tcb.environment.func ≠ .bank_operation) {arg i : Int}
    (block : new.environment = tcb.environment.func.looping) (argument : new.arg = arg)
    (round : new.i = i) : new.work = (arg - i).toNat := by
  unfold Tcb.work
  rw [block, argument, round]
  cases func : tcb.environment.func with
  | fibonacci => rfl
  | factorial => rfl
  | bank_operation => exact absurd func counts

/-- A thread in or before its loop, in front of the round `tcb.next`. -/
theorem Turn.loop_work (counts : tcb.environment.func ≠ .bank_operation)
    (work : tcb.work = (tcb.arg - (tcb.next - 1)).toNat) (below : tcb.next - 1 < tcb.arg)
    (turn : Turn tcb new more leaves) :
    (leaves = true ∧ 0 < tcb.work) ∨ (leaves = false ∧ new.work < tcb.work) := by
  cases turn with
  | last _ done => exact .inl ⟨rfl, by omega⟩
  | round _ unfinished =>
      have less : ({ tcb.round tcb.next with
          environment := tcb.environment.func.looping } : Tcb).work = (tcb.arg - tcb.next).toNat :=
        Threads.loop_work counts rfl rfl rfl
      refine .inr ⟨rfl, ?_⟩
      rw [less, work]
      omega
  | refused point => exact absurd (by rw [point]; rfl) counts
  | locks point => exact absurd (by rw [point]; rfl) counts
  | transacts point => exact absurd (by rw [point]; rfl) counts
  | releases point => exact absurd (by rw [point]; rfl) counts

theorem Told.work (accepted : spec.Accepted) (told : Told spec tcb lines)
    (turn : Turn tcb new more leaves) :
    (more = [] ∧ new = tcb ∧ leaves = false) ∨
      (leaves = true ∧ 0 < tcb.work) ∨ (leaves = false ∧ new.work < tcb.work) := by
  cases told with
  | setup =>
      by_cases bank : spec.func = .bank_operation
      · have work : spec.tcb.work = 3 := by rw [Tcb.work, Spec.tcb, bank]
        cases turn with
        | last counts => exact absurd (by rw [Spec.tcb, Environment.func, bank]) counts
        | round counts => exact absurd (by rw [Spec.tcb, Environment.func, bank]) counts
        | refused => exact .inl ⟨rfl, rfl, rfl⟩
        | locks => exact .inr (.inr ⟨rfl, by rw [work]; exact Nat.lt_succ_self 2⟩)
        | transacts point => cases point
        | releases point => cases point
      · have positive := accepted.2 bank
        refine .inr (Turn.loop_work bank ?_ positive turn)
        simp only [Tcb.work, Tcb.next, Spec.tcb]
        cases func : spec.func with
        | fibonacci => simp
        | factorial => simp
        | bank_operation => exact absurd func bank
  | looping k counts started below =>
      have func := looping_func spec.func
      have bound := accepted.1.2
      have wraps : int32 ((k : Int) + 1) = (k : Int) + 1 := int32_eq ⟨by omega, by omega⟩
      have number : Tcb.next ⟨spec.id, spec.func.looping, spec.arg, k, (series spec k).1,
          (series spec k).2⟩ = k + 1 := by
        simp only [Tcb.next]
        cases point : spec.func with
        | fibonacci => exact wraps
        | factorial => exact wraps
        | bank_operation => exact absurd point counts
      have work : Tcb.work ⟨spec.id, spec.func.looping, spec.arg, k, (series spec k).1,
          (series spec k).2⟩ = (spec.arg - k).toNat :=
        @Threads.loop_work spec.tcb _ counts _ _ rfl rfl rfl
      refine .inr (Turn.loop_work (func.symm ▸ counts) ?_ ?_ turn)
      · rw [work, number]
        simp
      · rw [number]
        simpa using below
  | acquired bank =>
      cases turn with
      | last counts => exact absurd rfl counts
      | round counts => exact absurd rfl counts
      | refused point => cases point
      | locks point => cases point
      | transacts => exact .inr (.inr ⟨rfl, Nat.lt_succ_self 1⟩)
      | releases point => cases point
  | updated bank before balance =>
      cases turn with
      | last counts => exact absurd rfl counts
      | round counts => exact absurd rfl counts
      | refused point => cases point
      | locks point => cases point
      | transacts point => cases point
      | releases => exact .inr (.inl ⟨rfl, Nat.lt_succ_self 0⟩)

/-- A turn brings the end nearer: there is less to do, or the lock is refused. -/
theorem Acts.remaining (acts : Acts state after ptr new lines leaves)
    (few : specs.length ≤ THREAD_MAX) (accepted : ∀ spec ∈ specs, spec.Accepted)
    (recorded : Recorded specs state) (created : Created specs ptr spec)
    (alive : ptr ∉ state.exited) (block : state.tcbs ptr = some tcb)
    (turn : Turn tcb new lines leaves) (running : ∃ environment, state.control = .running environment)
    (size : state.rq_size ≤ specs.length) :
    after.remaining specs < state.remaining specs := by
  obtain ⟨found, stored, told⟩ := recorded.alive ptr spec created alive
  obtain rfl : tcb = found := Option.some.inj (block.symm.trans stored)
  obtain ⟨environment, control⟩ := running
  have before : state.rank = 2 * state.rq_size + 1 := by rw [State.rank, control]
  have high : after.rank ≤ 2 * THREAD_MAX + 4 := by
    have same := acts.rq_size
    unfold State.rank
    split <;> omega
  have share : state.share Tcb.work ptr = tcb.work := State.share_alive alive block
  have total := acts.total Tcb.work created
  simp only [State.remaining]
  rcases told.work (accepted spec created.mem) turn with ⟨none, rfl, rfl⟩ | ⟨rfl, some⟩ | ⟨rfl, less⟩
  · have now : after.share Tcb.work ptr = new.work :=
      State.share_alive (by rwa [acts.exited]) (by rw [acts.tcbs, Function.update_self])
    have same : after.total Tcb.work specs = state.total Tcb.work specs := by omega
    have rank : after.rank = 2 * state.rq_size := by
      rw [State.rank, acts.refused none]
      exact congrArg (2 * ·) acts.rq_size
    rw [same, rank, before]
    omega
  · have gone : after.share Tcb.work ptr = 0 := State.share_gone (by simp [acts.exited])
    have work : after.total Tcb.work specs < state.total Tcb.work specs := by omega
    have product := Nat.mul_le_mul_right (2 * THREAD_MAX + 5) (Nat.succ_le_of_lt work)
    rw [Nat.succ_mul] at product
    omega
  · have now : after.share Tcb.work ptr = new.work :=
      State.share_alive (by rwa [acts.exited]) (by rw [acts.tcbs, Function.update_self])
    have work : after.total Tcb.work specs < state.total Tcb.work specs := by omega
    have product := Nat.mul_le_mul_right (2 * THREAD_MAX + 5) (Nat.succ_le_of_lt work)
    rw [Nat.succ_mul] at product
    omega

theorem fillWithLast_size (filled : fillWithLast state = .ok after) :
    after.rq_size + 1 = state.rq_size := by
  unfold fillWithLast at filled
  cases size : state.rq_size with
  | zero =>
      rw [size] at filled
      cases filled
  | succ count =>
      simp only [size] at filled
      obtain ⟨last, _, filled⟩ := of_bind_ok filled
      obtain ⟨queue, _, filled⟩ := of_bind_ok filled
      cases filled
      rfl

theorem moveToWaiting_size (moved : moveToWaiting state = .ok after) :
    after.rq_size + 1 = state.rq_size := by
  obtain ⟨running, _, moved⟩ := of_bind_ok moved
  obtain ⟨queue, _, moved⟩ := of_bind_ok moved
  have shorter := fillWithLast_size moved
  exact shorter

theorem dispatch_final {outcome : Outcome} (jumped : dispatch state = .ok outcome) :
    outcome.final = state := by
  obtain ⟨_, _, jumped⟩ := of_bind_ok jumped
  cases jumped
  rfl

theorem pickNext_size {val : Nat} {outcome : Outcome} (picked : pickNext val state = .ok outcome) :
    outcome.final.rq_size = state.rq_size := by
  unfold pickNext at picked
  split at picked
  · cases picked
    rfl
  · split at picked
    · rw [dispatch_final picked]
    · split at picked
      · rw [dispatch_final picked]
      · cases picked
        rfl

/-- A refused thread leaves the ready queue one shorter. -/
theorem scheduler_refused {outcome : Outcome} (some : state.rq_size ≠ 0)
    (taken : state.lock_owner ≠ -1) (computed : scheduler 2 state = .ok outcome) :
    outcome.final.rq_size + 1 = state.rq_size := by
  have kept : giveLock state = .ok state := if_neg fun both => taken both.1
  rw [scheduler, if_neg (fun both => some both.1), if_neg (by decide), kept, ok_bind] at computed
  obtain ⟨left, moved, picked⟩ := of_bind_ok computed
  rw [pickNext_size picked]
  exact moveToWaiting_size moved

theorem rank_scheduling {val : Nat} (other : val ≠ 2) (control : state.control = .scheduling val) :
    state.rank = 2 * THREAD_MAX + 3 := by
  unfold State.rank
  rw [control]
  split
  · simp_all
  · simp_all
  · rfl
  · simp_all
  · simp_all
  · simp_all

theorem Outcome.rank_le (outcome : Outcome) (signal : Option Signal) {val : Nat}
    (control : state.control = .scheduling val) (computed : scheduler val state = .ok outcome) :
    (next signal state).rank ≤ 2 * outcome.final.rq_size + 1 := by
  simp only [next, control, computed]
  cases outcome with
  | returned after => exact Nat.zero_le _
  | dispatch environment after => exact Nat.le_refl _

/-- Between two turns control only comes nearer to the next one. -/
theorem Invariant.rank_next (few : specs.length ≤ THREAD_MAX)
    (invariant : Invariant specs state ready waiting)
    (idle : ∀ environment, state.control ≠ .running environment)
    (unfinished : state.control ≠ .finished) (signal : Option Signal) :
    (Threads.next signal state).rank < state.rank := by
  have placed := invariant.placed
  have size : state.rq_size ≤ specs.length := by
    have bound := invariant.size
    rw [invariant.arranged.rq_size]
    omega
  cases control : state.control with
  | running environment => exact absurd control (idle environment)
  | yielding environment =>
      have rank : state.rank = 2 * THREAD_MAX + 4 := by rw [State.rank, control]
      rw [rank]
      cases signal with
      | none =>
          simp only [Threads.next, control, State.rank]
          omega
      | some signal =>
          simp only [Threads.next, control, State.rank]
          exact Nat.lt_succ_self _
  | scheduling val =>
      obtain ⟨outcome, ready', waiting', computed, threaded, _⟩ := invariant.schedules few control
      have low := outcome.rank_le signal control computed
      by_cases refused : val = 2
      · subst refused
        rw [control] at placed
        obtain ⟨ptr, tcb, current, _, taken, _⟩ := placed
        have some : state.rq_size ≠ 0 := by
          have inside := current.inside
          rw [invariant.arranged.rq_size]
          omega
        have shorter := scheduler_refused some taken computed
        have rank : state.rank = 2 * state.rq_size := by simp only [State.rank, control]
        omega
      · have bound := threaded.size
        have length := threaded.arranged.rq_size
        rw [rank_scheduling refused control]
        omega
  | finished => exact absurd control unfinished
  | crashed fault =>
      rw [control] at placed
      exact placed.elim

/-- Every step before the end brings it nearer. -/
theorem Invariant.remaining_next (few : specs.length ≤ THREAD_MAX)
    (accepted : ∀ spec ∈ specs, spec.Accepted) (recorded : Recorded specs state)
    (invariant : Invariant specs state ready waiting) (unfinished : state.control ≠ .finished)
    (signal : Option Signal) :
    (Threads.next signal state).remaining specs < state.remaining specs := by
  rcases invariant.turns few signal with ⟨ptr, tcb, current, control, computed⟩ | ⟨idle, pauses⟩
  · rw [computed]
    obtain ⟨new, lines, leaves, turn, acts⟩ := resume_turn current.2
    obtain ⟨spec, created, _⟩ := invariant.made ptr tcb current.2
    refine acts.remaining few accepted recorded created
      (invariant.not_exited current (by simp [control])) current.2 turn ⟨_, control⟩ ?_
    have bound := invariant.size
    rw [invariant.arranged.rq_size]
    omega
  · have less := invariant.rank_next few idle unfinished signal
    rw [State.remaining, State.remaining, pauses.total]
    omega

theorem run_finished {signals : Nat → Option Signal} {k : Nat}
    (finished : (run specs signals k).control = .finished) (later : Nat) :
    run specs signals (k + later) = run specs signals k := by
  induction later with
  | zero => rfl
  | succ later ih =>
      rw [← Nat.add_assoc, run, ih]
      unfold next
      rw [finished]

/-- After `k` steps the run has ended, or `k` of the remaining steps are gone. -/
theorem run_remaining (few : specs.length ≤ THREAD_MAX) (distinct : (specs.map Spec.id).Nodup)
    (accepted : ∀ spec ∈ specs, spec.Accepted) (signals : Nat → Option Signal) (k : Nat) :
    (run specs signals k).control = .finished ∨
      (run specs signals k).remaining specs + k ≤ (start specs).remaining specs := by
  induction k with
  | zero => exact .inr (Nat.le_refl _)
  | succ k ih =>
      by_cases finished : (run specs signals k).control = .finished
      · exact .inl ((congrArg State.control (run_finished finished 1)).trans finished)
      · have reached := run_reachable specs signals k
        obtain ⟨ready, waiting, invariant⟩ := reachable_invariant few distinct reached
        have recorded := reachable_recorded few distinct accepted reached
        have less := invariant.remaining_next few accepted recorded finished (signals k)
        have before := ih.resolve_left finished
        refine .inr ?_
        rw [run]
        omega

theorem run_ends (few : specs.length ≤ THREAD_MAX) (distinct : (specs.map Spec.id).Nodup)
    (accepted : ∀ spec ∈ specs, spec.Accepted) (signals : Nat → Option Signal) :
    ∃ k, (run specs signals k).control = .finished := by
  refine ⟨(start specs).remaining specs + 1, ?_⟩
  refine (run_remaining few distinct accepted signals _).resolve_right ?_
  omega

/-- Where `scheduler` ends, the waiting threads are not alone. -/
theorem Invariant.not_stranded (few : specs.length ≤ THREAD_MAX)
    (invariant : Invariant specs state ready waiting) {val : Nat} {outcome : Outcome}
    (control : state.control = .scheduling val) (computed : scheduler val state = .ok outcome)
    (empty : outcome.final.rq_size = 0) : outcome.final.wq_size = 0 := by
  obtain ⟨found, ready', waiting', same, threaded, _, _, ended, _⟩ :=
    invariant.schedules few control
  obtain rfl : outcome = found := Except.ok.inj (computed.symm.trans same)
  have length := threaded.arranged.rq_size
  cases outcome with
  | returned after => exact (threaded.arranged.empty_iff.mpr ended).2
  | dispatch environment after =>
      obtain ⟨ptr, tcb, current, _⟩ := ended
      have inside := current.inside
      omega

theorem Invariant.all_exited (invariant : Invariant specs state ready waiting)
    (finished : state.control = .finished) (created : Created specs ptr spec) :
    ptr ∈ state.exited := by
  have placed := invariant.placed
  rw [finished] at placed
  obtain ⟨rfl, rfl⟩ := placed
  by_contra alive
  obtain ⟨tcb, block⟩ := invariant.kept ptr spec created alive
  have member := (invariant.live ptr).mpr ⟨tcb, block⟩
  cases member

theorem every_run_ends (few : specs.length ≤ THREAD_MAX) (distinct : (specs.map Spec.id).Nodup)
    (accepted : ∀ spec ∈ specs, spec.Accepted) :
    (∀ signals : Nat → Option Signal, ∃ k, ∀ m, k ≤ m →
      (run specs signals m).control = .finished) ∧
    ∀ state, Reachable specs state →
      (∀ val outcome, state.control = .scheduling val → scheduler val state = .ok outcome →
        outcome.final.rq_size = 0 → outcome.final.wq_size = 0) ∧
      (state.control = .finished → ∀ ptr spec, Created specs ptr spec → ptr ∈ state.exited) := by
  constructor
  · intro signals
    obtain ⟨k, finished⟩ := run_ends few distinct accepted signals
    refine ⟨k, ?_⟩
    intro m later
    obtain ⟨more, rfl⟩ := Nat.exists_eq_add_of_le later
    rw [run_finished finished, finished]
  · intro state reached
    obtain ⟨ready, waiting, invariant⟩ := reachable_invariant few distinct reached
    exact ⟨fun val outcome control computed => invariant.not_stranded few control computed,
      fun finished ptr spec created => invariant.all_exited finished created⟩

theorem every_run_ends_four :
    ∃ k, (run (init_threads 5 4 (-200) 300 0) (fun _ => some .SIGTSTP) k).control = .finished := by
  obtain ⟨k, finished⟩ := (@every_run_ends (init_threads 5 4 (-200) 300 0) (by decide) (by decide)
    (by decide)).1 fun _ => some .SIGTSTP
  exact ⟨k, finished k (Nat.le_refl k)⟩

end SysProg.Threads
