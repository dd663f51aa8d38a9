import SysProg.Pool.Exclusion

namespace SysProg.Pool

open Relation SysProg.Transition

variable {n : Nat} {Func Arg : Type} {state before after : State n Func Arg}

def WaitPc.finishSet : WaitPc → Bool
  | .broadcast | .join _ | .returned => true
  | _ => false

/-- `tpool_wait` has broadcast and has nothing left to do but to join. -/
def WaitPc.announced : WaitPc → Bool
  | .join _ | .returned => true
  | _ => false

/-- Asleep without a pending wake-up, or bound to fall asleep with the next step. -/
def WorkerPc.drowsy : WorkerPc Func Arg → Bool
  | .wait | .asleep => true
  | _ => false

/-- What one step may do to the program point of a worker: nothing, wake it, or
move it by a step of its own. -/
theorem Step.worker_pc (step : Step before after) (j : Fin n) :
    after.workers j = before.workers j ∨
      (before.workers j = .asleep ∧ after.workers j = .woken) ∨
      ∃ middle, WorkerStep j before (before.workers j) middle (after.workers j) := by
  have unmoved {middle : State n Func Arg}
      (workers : middle.workers = before.workers ∨ middle.workers = before.broadcast.workers) :
      middle.workers j = before.workers j ∨
        (before.workers j = .asleep ∧ middle.workers j = .woken) := by
    rcases workers with same | woken
    · exact .inl (by rw [same])
    · rw [woken]
      exact before.broadcast_workers j
  cases step with
  | worker i _ middle pc pc' here inner =>
      by_cases same : j = i
      · subst same
        subst here
        exact .inr (.inr ⟨middle, by simpa using inner⟩)
      · rw [State.setWorker_other same]
        exact (unmoved inner.frame.2.2.2).imp_right .inl
  | startAdd k _ func arg idle => exact .inl rfl
  | adder k _ middle pc pc' here inner =>
      exact (unmoved inner.frame.2.2.2.2.2.2).imp_right .inl
  | wait _ _ inner => exact (unmoved inner.frame.2.2.2.2).imp_right .inl

theorem Step.finish (step : Step before after) (set : before.finish = true) :
    after.finish = true := by
  cases step with
  | worker _ _ _ _ _ _ inner => exact inner.frame.1.trans set
  | startAdd => exact set
  | adder _ _ _ _ _ _ inner => exact inner.frame.1.trans set
  | wait _ _ inner => exact inner.frame.2.2.2.1 set

/-- A worker commits itself to sleep only while `finish` is unset. -/
theorem Step.wait_of_running (step : Step before after) {j : Fin n}
    (entered : after.workers j = .wait) :
    before.workers j = .wait ∨ (before.workers j = .test ∧ before.finish = false) := by
  rcases step.worker_pc j with same | ⟨_, woken⟩ | ⟨middle, inner⟩
  · exact .inl (same ▸ entered)
  · rw [woken] at entered
    cases entered
  · rw [entered] at inner
    generalize pc : before.workers j = here at inner
    cases inner with
    | testSleep _ running => exact .inr ⟨rfl, running⟩

theorem Step.asleep_of_wait (step : Step before after) {j : Fin n}
    (entered : after.workers j = .asleep) :
    before.workers j = .asleep ∨ before.workers j = .wait := by
  rcases step.worker_pc j with same | ⟨_, woken⟩ | ⟨middle, inner⟩
  · exact .inl (same ▸ entered)
  · rw [woken] at entered
    cases entered
  · rw [entered] at inner
    generalize pc : before.workers j = here at inner
    cases inner with
    | sleep => exact .inr rfl

theorem Step.leaving_of_finish (step : Step before after) {j : Fin n}
    (entered : (after.workers j).leaving = true) :
    (before.workers j).leaving = true ∨
      (before.workers j = .dequeue ∧ before.finish = true) := by
  rcases step.worker_pc j with same | ⟨_, woken⟩ | ⟨middle, inner⟩
  · exact .inl (same ▸ entered)
  · rw [woken] at entered
    cases entered
  · generalize pc : before.workers j = here at inner
    generalize pc' : after.workers j = there at inner entered
    cases inner with
    | leave _ set => exact .inr ⟨rfl, set⟩
    | unlockExit => exact .inl rfl
    | broadcastExit => exact .inl rfl
    | _ => cases entered

/-- The step that ends a worker wakes everybody who sleeps. -/
theorem Step.exited_broadcasts (step : Step before after) {i : Fin n}
    (entered : after.workers i = .exited) :
    before.workers i = .exited ∨ ∀ j, after.workers j ≠ .asleep := by
  cases step with
  | worker k _ middle pc pc' here inner =>
      by_cases same : i = k
      · subst same
        rw [State.setWorker_self] at entered
        subst entered
        cases inner with
        | broadcastExit =>
            right
            intro j
            by_cases equal : j = i
            · subst equal
              simp
            · rw [State.setWorker_other equal]
              exact before.broadcast_not_asleep j
      · rw [State.setWorker_other same, workers_eq_iff (by simp) (by simp) inner.frame.2.2.2]
          at entered
        exact .inl entered
  | startAdd k _ func arg idle => exact .inl entered
  | adder k _ middle pc pc' here inner =>
      rw [State.setAdder, workers_eq_iff (by simp) (by simp) inner.frame.2.2.2.2.2.2] at entered
      exact .inl entered
  | wait _ _ inner =>
      rw [workers_eq_iff (by simp) (by simp) inner.frame.2.2.2.2] at entered
      exact .inl entered

/-- Once a worker is on its way out nobody commits itself to sleep, and once one
has exited nobody sleeps: its last act was a broadcast. -/
structure Departing (state : State n Func Arg) : Prop where
  finished : ∀ i, (state.workers i).leaving = true → state.finish = true
  noWait : ∀ i j, (state.workers i).leaving = true → state.workers j ≠ .wait
  noSleep : ∀ i j, state.workers i = .exited → state.workers j ≠ .asleep

theorem Departing.initially : Departing (tpool_init n Func Arg) := by
  constructor <;> intro i <;> simp [tpool_init, WorkerPc.leaving]

theorem Departing.step (exclusive : Exclusive before) (departing : Departing before)
    (step : Step before after) : Departing after := by
  constructor
  · intro i leaving
    rcases step.leaving_of_finish leaving with already | ⟨_, set⟩
    · exact step.finish (departing.finished i already)
    · exact step.finish set
  · intro i j leaving waiting
    have set : before.finish = true := by
      rcases step.leaving_of_finish leaving with already | ⟨_, set⟩
      · exact departing.finished i already
      · exact set
    rcases step.wait_of_running waiting with already | ⟨_, running⟩
    · rcases step.leaving_of_finish leaving with left | ⟨deciding, _⟩
      · exact departing.noWait i j left already
      · -- `i` and `j` would both stand in the critical section
        have same := exclusive.owned.exclusive (.worker i) (.worker j)
          (by simp [State.holds, deciding, WorkerPc.holds])
          (by simp [State.holds, already, WorkerPc.holds])
        cases same
        rw [already] at deciding
        cases deciding
    · rw [set] at running
      cases running
  · intro i j exited asleep
    rcases step.exited_broadcasts exited with already | awake
    · rcases step.asleep_of_wait asleep with sleeping | waiting
      · exact departing.noSleep i j already sleeping
      · exact departing.noWait i j (by simp [already, WorkerPc.leaving]) waiting
    · exact awake j asleep

theorem Departing.of_reachable (reachable : Reachable state) : Departing state :=
  invariant_of_reached
    (fun _ _ reached taken departing => departing.step (Exclusive.of_reachable reached) taken)
    reachable Departing.initially

/-- While `finish` is set the drowsy workers only become fewer. -/
theorem Step.drowsy_before (step : Step before after) (set : before.finish = true) {j : Fin n}
    (drowsy : (after.workers j).drowsy = true) : (before.workers j).drowsy = true := by
  cases pc : after.workers j with
  | wait =>
      rcases step.wait_of_running pc with already | ⟨_, running⟩
      · simp [already, WorkerPc.drowsy]
      · rw [set] at running
        cases running
  | asleep =>
      rcases step.asleep_of_wait pc with sleeping | waiting
      · simp [sleeping, WorkerPc.drowsy]
      · simp [waiting, WorkerPc.drowsy]
  | _ => simp [pc, WorkerPc.drowsy] at drowsy

theorem Step.waiter (step : Step before after) :
    after.waiter = before.waiter ∨ WaitStep before after := by
  cases step with
  | worker _ _ _ _ _ _ inner => exact .inl inner.frame.2.2.1
  | startAdd => exact .inl rfl
  | adder _ _ _ _ _ _ inner => exact .inl inner.frame.2.2.1
  | wait _ _ inner => exact .inr inner

theorem Step.announces (step : Step before after) (announced : after.waiter.announced = true) :
    before.waiter.announced = true ∨
      (before.waiter = .broadcast ∧ after.workers = before.broadcast.workers) := by
  rcases step.waiter with same | inner
  · exact .inl (same ▸ announced)
  · cases inner with
    | broadcast atBroadcast => exact .inr ⟨atBroadcast, rfl⟩
    | join _ joining => exact .inl (by simp [joining, WaitPc.announced])
    | returned joined => exact .inl (by simp [joined, WaitPc.announced])
    | _ => cases announced

/-- After the broadcast of `tpool_wait` at most one worker is drowsy: the one
that the broadcast met between its test and its sleep. -/
structure Announced (state : State n Func Arg) : Prop where
  set : state.waiter.finishSet = true → state.finish = true
  one : state.waiter.announced = true → ∀ i j, (state.workers i).drowsy = true →
    (state.workers j).drowsy = true → i = j

theorem Announced.initially : Announced (tpool_init n Func Arg) := by
  constructor <;> simp [tpool_init, WaitPc.finishSet, WaitPc.announced]

theorem finishSet_of_announced {waiter : WaitPc} (announced : waiter.announced = true) :
    waiter.finishSet = true := by
  cases waiter <;> simp_all [WaitPc.announced, WaitPc.finishSet]

/-- A broadcast leaves only the owner of the mutex on its way to sleep. -/
theorem wait_of_drowsy_broadcast {j : Fin n}
    (drowsy : (before.broadcast.workers j).drowsy = true) : before.workers j = .wait := by
  rcases before.broadcast_workers j with same | ⟨_, woken⟩
  · rw [same] at drowsy
    cases pc : before.workers j with
    | wait => rfl
    | asleep => exact absurd (same.trans pc) (before.broadcast_not_asleep j)
    | _ => simp [pc, WorkerPc.drowsy] at drowsy
  · simp [woken, WorkerPc.drowsy] at drowsy

theorem Announced.step (exclusive : Exclusive before) (announced : Announced before)
    (step : Step before after) : Announced after := by
  constructor
  · intro finishSet
    rcases step.waiter with same | inner
    · exact step.finish (announced.set (same ▸ finishSet))
    · cases inner with
      | call => cases finishSet
      | setFinish => rfl
      | broadcast atBroadcast => exact announced.set (by simp [atBroadcast, WaitPc.finishSet])
      | join _ joining => exact announced.set (by simp [joining, WaitPc.finishSet])
      | returned joined => exact announced.set (by simp [joined, WaitPc.finishSet])
  · intro now i j first second
    rcases step.announces now with already | ⟨_, woken⟩
    · have set := announced.set (finishSet_of_announced already)
      exact announced.one already i j (step.drowsy_before set first)
        (step.drowsy_before set second)
    · rw [woken] at first second
      have left := wait_of_drowsy_broadcast first
      have right := wait_of_drowsy_broadcast second
      have same := exclusive.owned.exclusive (.worker i) (.worker j)
        (by simp [State.holds, left, WorkerPc.holds])
        (by simp [State.holds, right, WorkerPc.holds])
      exact Thread.worker.inj same

theorem Announced.of_reachable (reachable : Reachable state) : Announced state :=
  invariant_of_reached
    (fun _ _ reached taken announced => announced.step (Exclusive.of_reachable reached) taken)
    reachable Announced.initially

/-- `tpool_wait` has broadcast, and only sleepers without a pending wake-up and
finished workers are left: nobody will broadcast again and no join returns. -/
def Stranded (state : State n Func Arg) : Prop :=
  state.waiter.announced = true ∧ state.finish = true ∧ state.queue_head = none ∧
    (∃ i, state.workers i = .asleep) ∧
    ∀ i, state.workers i = .asleep ∨ state.workers i = .exited

/-- With a second worker the exit broadcast of the one rescues the other. -/
theorem not_stranded_of_two (two : 2 ≤ n) (reachable : Reachable state) :
    ¬ Stranded state := by
  intro stranded
  obtain ⟨announced, _, _, ⟨i, asleep⟩, others⟩ := stranded
  obtain ⟨j, different⟩ : ∃ j : Fin n, j ≠ i := by
    by_cases first : i.val = 0
    · exact ⟨⟨1, by omega⟩, fun same => by simp [← same] at first⟩
    · exact ⟨⟨0, by omega⟩, fun same => first (by simp [← same])⟩
  rcases others j with sleeping | exited
  · exact different ((Announced.of_reachable reachable).one announced j i
      (by simp [sleeping, WorkerPc.drowsy]) (by simp [asleep, WorkerPc.drowsy]))
  · exact (Departing.of_reachable reachable).noSleep j i exited asleep

/-- The broadcast of `tpool_wait` does not fall between the test of a lone worker
and its going to sleep. -/
def Timely (before after : State n Func Arg) : Prop :=
  before.waiter = .broadcast → after.waiter ≠ .broadcast →
    2 ≤ n ∨ ∀ i, before.workers i ≠ .wait

def Awake (state : State n Func Arg) : Prop :=
  state.waiter.announced = true → ∀ i, (state.workers i).drowsy = false

theorem Awake.step (lone : n < 2) (reached : Reachable before) (awake : Awake before)
    (step : Step before after) (timely : Timely before after) : Awake after := by
  intro announced i
  by_contra drowsy
  rw [Bool.not_eq_false] at drowsy
  rcases step.announces announced with already | ⟨atBroadcast, woken⟩
  · have set := (Announced.of_reachable reached).set (finishSet_of_announced already)
    have earlier := step.drowsy_before set drowsy
    rw [awake already i] at earlier
    cases earlier
  · rw [woken] at drowsy
    have moved : after.waiter ≠ .broadcast := by
      intro still
      simp [still, WaitPc.announced] at announced
    rcases timely atBroadcast moved with two | clear
    · omega
    · exact clear i (wait_of_drowsy_broadcast drowsy)

theorem not_stranded_of_timely
    (run : ReflTransGen (Restrict Step Timely) (tpool_init n Func Arg) state) :
    ¬ Stranded state := by
  by_cases two : 2 ≤ n
  · exact not_stranded_of_two two (Restrict.run Timely run)
  · intro stranded
    obtain ⟨announced, _, _, ⟨i, asleep⟩, _⟩ := stranded
    have awake : Awake state := invariant_of_reached
      (fun _ _ reached taken awake =>
        awake.step (by omega) (Restrict.run Timely reached) taken.1 taken.2)
      run (by simp [Awake, tpool_init, WaitPc.announced])
    have alert := awake announced i
    simp [asleep, WorkerPc.drowsy] at alert

/-- A lone worker tests, `tpool_wait` sets `finish` and broadcasts, the worker
falls asleep. -/
theorem stranded_alone : ∃ state : State 1 Func Arg, Reachable state ∧ Stranded state := by
  let start := tpool_init 1 Func Arg
  let locked := { start with mlock := some (.worker 0) }.setWorker 0 .test
  let tested := locked.setWorker 0 .wait
  let waiting := { tested with waiter := .setFinish }
  let finished := { waiting with finish := true, waiter := .broadcast }
  let announced := { finished.broadcast with waiter := .join 0 }
  let asleep := { announced with mlock := none }.setWorker 0 .asleep
  have locks : Step start locked := .worker 0 _ _ .lock .test rfl (.acquire _ rfl)
  have tests : Step locked tested := .worker 0 _ _ .test .wait rfl (.testSleep _ rfl rfl)
  have calls : Step tested waiting := .wait _ _ (.call _ rfl)
  have sets : Step waiting finished := .wait _ _ (.setFinish _ rfl)
  have broadcasts : Step finished announced := .wait _ _ (.broadcast _ rfl)
  have sleeps : Step announced asleep := .worker 0 _ _ .wait .asleep rfl (.sleep _)
  refine ⟨asleep, ?_, rfl, rfl, rfl, ⟨0, rfl⟩, ?_⟩
  · exact .tail (.tail (.tail (.tail (.tail (.single locks) tests) calls) sets) broadcasts) sleeps
  · intro i
    rw [Subsingleton.elim i 0]
    exact .inl rfl

/-- `tpool_wait` strands no worker exactly when the pool has at least two, and
with one worker in every run whose broadcast does not fall between the worker's
test and its sleep. -/
theorem shutdown_strands_no_worker_iff (Func Arg : Type) (n : Nat) (positive : 0 < n) :
    ((∀ state : State n Func Arg, Reachable state → ¬ Stranded state) ↔ 2 ≤ n) ∧
      ∀ state : State n Func Arg,
        ReflTransGen (Restrict Step Timely) (tpool_init n Func Arg) state → ¬ Stranded state := by
  refine ⟨⟨fun safe => ?_, fun two state => not_stranded_of_two two⟩,
    fun state => not_stranded_of_timely⟩
  by_contra few
  obtain rfl : n = 1 := by omega
  obtain ⟨state, reachable, stranded⟩ := @stranded_alone Func Arg
  exact safe state reachable stranded

theorem shutdown_strands_no_worker_iff_one_and_two :
    (∃ state : State 1 Unit Unit, Reachable state ∧ Stranded state) ∧
      ∀ state : State 2 Unit Unit, Reachable state → ¬ Stranded state := by
  constructor
  · by_contra none
    have safe := (shutdown_strands_no_worker_iff Unit Unit 1 (by decide)).1.mp
      (fun state reachable stranded => none ⟨state, reachable, stranded⟩)
    exact absurd safe (by decide)
  · exact (shutdown_strands_no_worker_iff Unit Unit 2 (by decide)).1.mpr (by decide)

theorem shutdown_strands_lone_worker :
    ¬ ∀ n : Nat, 0 < n → ∀ state : State n Unit Unit, Reachable state → ¬ Stranded state := by
  intro safe
  obtain ⟨state, reachable, stranded⟩ := @stranded_alone Unit Unit
  exact safe 1 (by decide) state reachable stranded

end SysProg.Pool
