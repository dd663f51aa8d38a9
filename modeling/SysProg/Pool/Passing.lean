import Mathlib.Order.Lattice.Nat
import SysProg.Pool.Bench

namespace SysProg.Pool

open Relation SysProg.Transition SysProg.Data

/-! # The benchmark comes to its assert

As long as the Collatz numbers it starts from come to 1. -/

/-- One round of the loop in `Collatz`. -/
def collatz (x : Int) : Int := if x % 2 = 1 then int64 (x * 3 + 1) else x.tdiv 2

def Comes (x : Int) : Prop := ∃ count, collatz^[count] x = 1

/-- The rounds until the loop ends. -/
noncomputable def rounds (x : Int) : Nat := sInf {count | collatz^[count] x = 1}

theorem Comes.next {x : Int} (comes : Comes x) (more : x ≠ 1) :
    Comes (collatz x) ∧ rounds (collatz x) < rounds x := by
  have ends : collatz^[rounds x] x = 1 := Nat.sInf_mem comes
  cases count : rounds x with
  | zero =>
      rw [count] at ends
      exact absurd ends more
  | succ less =>
      rw [count, Function.iterate_succ_apply] at ends
      exact ⟨⟨less, ends⟩, Nat.lt_succ_of_le (Nat.sInf_le ends)⟩

/-- What a task costs from its program point on. -/
noncomputable def CollatzPc.cost : CollatzPc → Nat
  | .idle => 0
  | .done => 1
  | .unlock => 2
  | .store _ => 3
  | .load => 4
  | .lock => 5
  | .loop x _ => rounds x + 6
  | .entry k => rounds (268435456 + k) + 7

namespace MainPc

/-- The calls of `tpool_add` that have not begun. -/
def left (M : Nat) : MainPc → Nat
  | .adding i => M - i
  | .inside i => M - (i + 1)
  | _ => 0

def cost : MainPc → Nat
  | .checking => 0
  | .freeing => 1
  | .adding _ | .waiting => 2
  | .inside _ => 3

end MainPc

variable {n M bound : Nat}

/-- The loop of a task goes on with a number that comes to 1. -/
theorem CollatzStep.comes {me : Fin n} {arg : Nat → Option Int} {cn cn' : Int} {cnm cnm' : Option (Fin n)}
    {pc pc' : CollatzPc} (step : CollatzStep me arg cn cnm pc cn' cnm' pc')
    (comes : ∀ x cnt, pc = .loop x cnt → Comes x)
    (written : ∀ k, pc = .entry k → arg k = some (268435456 + k) ∧ Comes (268435456 + k)) {x cnt : Int}
    (loops : pc' = .loop x cnt) : Comes x := by
  cases step with
  | read k y stored =>
      cases loops
      obtain ⟨there, starts⟩ := written k rfl
      rwa [Option.some.inj (stored.symm.trans there)]
  | odd y count more odd =>
      cases loops
      have next := ((comes y count rfl).next more).1
      rwa [collatz, if_pos odd] at next
  | even y count more even =>
      cases loops
      have next := ((comes y count rfl).next more).1
      rwa [collatz, if_neg (by omega)] at next
  | leave | acquire | load | store | unlock => cases loops

/-- A step of a task leaves it less to do. -/
theorem CollatzStep.lowers {me : Fin n} {arg : Nat → Option Int} {cn cn' : Int} {cnm cnm' : Option (Fin n)}
    {pc pc' : CollatzPc} (step : CollatzStep me arg cn cnm pc cn' cnm' pc')
    (comes : ∀ x cnt, pc = .loop x cnt → Comes x)
    (written : ∀ k, pc = .entry k → arg k = some (268435456 + k)) : pc'.cost < pc.cost := by
  cases step with
  | read k x stored =>
      obtain rfl : x = 268435456 + k := Option.some.inj (stored.symm.trans (written k rfl))
      exact Nat.lt_succ_self _
  | odd x cnt more odd =>
      have next := ((comes x cnt rfl).next more).2
      rw [collatz, if_pos odd] at next
      exact Nat.add_lt_add_right next 6
  | even x cnt more even =>
      have next := ((comes x cnt rfl).next more).2
      rw [collatz, if_neg (by omega)] at next
      exact Nat.add_lt_add_right next 6
  | leave cnt => exact Nat.lt_of_lt_of_le (Nat.lt_succ_self 5) (Nat.le_add_left 6 _)
  | acquire | load | store | unlock => exact Nat.lt_succ_self _

namespace Bench

variable {bench before after : Bench n}

/-- Steps under a scheduler that wakes nobody up unasked and does not put the broadcast of
`tpool_wait` between the test of a lone worker and its sleep. -/
structure Orderly (M : Nat) (before after : Bench n) : Prop where
  step : Step M before after
  timely : Timely before.pool after.pool
  sent : ¬ Spurious before.pool after.pool

/-- What holds in a run of such steps. -/
structure Going (M : Nat) (bench : Bench n) : Prop where
  reached : Reached n M bench
  course : Course 1 bench.pool
  comes : ∀ i x cnt, bench.tasks i = .loop x cnt → Comes x

theorem Going.initially : Going M (boot n) := ⟨.refl, .initially, fun _ _ _ loops => by cases loops⟩

/-- What is left to do, `bound` being the most a task costs. -/
noncomputable def potential (M bound : Nat) (bench : Bench n) : Nat :=
  (bench.pool.cost 1 + perCall n * bench.main.left M) * (bound + 2) +
    (workload CollatzPc.cost Finset.univ bench.tasks + bench.main.cost)

theorem Fed.outside (fed : Fed M bench) (behind : bench.main = .waiting ∨ bench.main = .adding M) (k : Nat) :
    bench.pool.adders k = .idle := by
  by_cases main : k = 0
  · subst main
    obtain ⟨count, feeds, _⟩ := fed.feeds
    generalize bench.main = here, bench.pool.adders 0 = pc at feeds behind
    rcases behind with rfl | rfl <;> cases feeds <;> rfl
  · exact fed.others k main

theorem Counts.entered (int : M < 2147483648) (reached : Reached n M bench) {i : Fin n} {k : Nat}
    (entry : bench.tasks i = .entry k) : k < M := by
  have known := (Counts.of_reached int reached).known i k entry
  obtain ⟨count, feeds, all⟩ := (Fed.of_reached reached).feeds
  rw [all, feed_length] at known
  exact Nat.lt_of_lt_of_le known feeds.bounded

/-- The beginning of a call in `main`. -/
theorem Going.adds (going : Going M before) {i : Nat} (here : before.main = .adding i) (more : i < M)
    (idle : before.pool.adders 0 = .idle) :
    Pool.Orderly 1 (before.pool, M - i) (before.pool.setAdder 0 (.lock () i), M - (i + 1)) := by
  have early : before.pool.waiter = .notCalled := by
    have waits := (Fed.of_reached going.reached).waits
    rwa [here] at waits
  refine ⟨.startAdd 0 _ () i idle, ⟨fun _ _ _ => early, fun _ called => absurd early called⟩, .of_same rfl,
    ?_, ?_, ?_⟩
  · intro spurious
    obtain ⟨j, _, same⟩ := spurious
    have locks : (before.pool.setAdder 0 (.lock () i)).adders 0 = .idle := by
      rw [show before.pool.setAdder 0 (.lock () i) = _ from same]
      exact idle
    cases (State.setAdder_self _ _).symm.trans locks
  · intro k beyond
    have other : k ≠ 0 := Nat.ne_of_gt beyond
    exact (State.setAdder_other other _).trans (going.course.few k beyond)
  · refine .inl ⟨.inl ⟨0, (), i, idle, State.setAdder_self _ _⟩, ?_⟩
    change M - (i + 1) + 1 = M - i
    omega

theorem Going.waits (going : Going M before) {middle : State n Unit Nat} (inner : WaitStep before.pool middle)
    (behind : before.main = .waiting ∨ before.main = .adding M) (timely : Timely before.pool middle) (left : Nat) :
    Pool.Orderly 1 (before.pool, left) (middle, left) := by
  have idle := (Fed.of_reached going.reached).outside behind
  have adders := inner.frame.2.1
  refine .of_wait going.course inner ?_ ⟨fun k idle busy => ?_, fun _ _ k => idle k⟩ timely
  · cases inner with
    | call here | setFinish here | broadcast here | returned here =>
        rw [here]
        nofun
    | join i here exited =>
        rw [here]
        exact fun same => Nat.succ_ne_self i (WaitPc.join.inj same)
  · exact absurd ((congrFun adders k).trans idle) busy

/-- A step of the benchmark is one of the pool, which may cost another part a little, or it
leaves the pool alone and there is less to do. -/
theorem Orderly.pool (int : M < 2147483648) (bounded : ∀ k < M, rounds (268435456 + k) + 7 ≤ bound)
    (going : Going M before) (orderly : Orderly M before after) :
    (Pool.Orderly 1 (before.pool, before.main.left M) (after.pool, after.main.left M) ∧
      workload CollatzPc.cost Finset.univ after.tasks + after.main.cost ≤
        workload CollatzPc.cost Finset.univ before.tasks + before.main.cost + (bound + 1)) ∨
    (after.pool = before.pool ∧ after.main.left M = before.main.left M ∧
      workload CollatzPc.cost Finset.univ after.tasks + after.main.cost <
        workload CollatzPc.cost Finset.univ before.tasks + before.main.cost) := by
  have course := going.course
  obtain ⟨step, timely, sent⟩ := orderly
  have moved (i : Fin n) (pc : CollatzPc) :=
    @workload_update _ _ CollatzPc.cost Finset.univ before.tasks _ i (Finset.mem_univ i) pc
  cases step with
  | add i here more idle =>
      have adds := going.adds here more idle
      rw [here]
      refine .inl ⟨adds, ?_⟩
      simp only [MainPc.cost]
      omega
  | inAdd middle pc pc' here inner =>
      refine .inl ⟨.of_adder course here inner ?_, Nat.le_add_right _ _⟩
      cases inner <;> nofun
  | added i here idle =>
      refine .inr ⟨rfl, by rw [here]; rfl, ?_⟩
      rw [here]
      exact Nat.lt_succ_self _
  | wait middle here early inner =>
      have none : before.main.left M = 0 := by
        rw [here]
        exact Nat.sub_self M
      rw [none]
      refine .inl ⟨going.waits inner (.inr here) timely 0, ?_⟩
      rw [here]
      exact Nat.le_add_right _ _
  | inWait middle here inner => exact .inl ⟨going.waits inner (.inl here) timely _, Nat.le_add_right _ _⟩
  | destroy here back =>
      refine .inr ⟨rfl, by rw [here]; rfl, ?_⟩
      rw [here]
      exact Nat.lt_succ_self _
  | free here =>
      refine .inr ⟨rfl, by rw [here]; rfl, ?_⟩
      rw [here]
      exact Nat.lt_succ_self _
  | work i middle pc pc' here inner out out' =>
      refine .inl ⟨.of_worker course here inner ?_ ?_ ?_, Nat.le_add_right _ _⟩
      · intro asleep
        subst asleep
        cases inner
        exact sent ⟨i, here, rfl⟩
      · cases inner with
        | inAdd => cases out
        | _ => nofun
      · intro job func arg run
        subst run
        cases out
  | call i job task here found =>
      refine .inl ⟨.of_worker course here (.call _ job task found) nofun nofun nofun, ?_⟩
      have reached := going.reached.tail (.call _ i job task here found)
      have most := bounded task.arg (Counts.entered int reached (Function.update_self _ _ _))
      have sum := moved i (.entry task.arg)
      change workload _ _ (Function.update before.tasks i (.entry task.arg)) + before.main.cost ≤ _
      rw [CollatzPc.cost] at sum
      omega
  | collatz i job cn cnm pc here inner =>
      have less := inner.lowers (going.comes i) fun k entry => entry_written int going.reached entry
      have sum := moved i pc
      refine .inr ⟨rfl, rfl, ?_⟩
      change workload _ _ (Function.update before.tasks i pc) + before.main.cost < _
      omega
  | ends i job here done =>
      refine .inl ⟨.of_worker course here (.return _ job) nofun nofun fun _ _ _ _ => nofun, ?_⟩
      have sum := moved i .idle
      change workload _ _ (Function.update before.tasks i .idle) + before.main.cost ≤ _
      simp only [CollatzPc.cost] at sum
      omega

theorem Going.step (int : M < 2147483648) (bounded : ∀ k < M, rounds (268435456 + k) + 7 ≤ bound)
    (starts : ∀ k < M, Comes (268435456 + k)) (going : Going M before) (orderly : Orderly M before after) :
    Going M after := by
  have reached := going.reached.tail orderly.step
  refine ⟨reached, ?_, ?_⟩
  · rcases orderly.pool int bounded going with ⟨pool, _⟩ | ⟨same, _⟩
    · exact going.course.step pool
    · rw [same]
      exact going.course
  · intro j x cnt loops
    cases orderly.step with
    | call i job task here found =>
        by_cases same : j = i
        · subst same
          cases (Function.update_self j _ before.tasks).symm.trans loops
        · exact going.comes j x cnt ((Function.update_of_ne same _ _).symm.trans loops)
    | ends i job here done =>
        by_cases same : j = i
        · subst same
          cases (Function.update_self j _ before.tasks).symm.trans loops
        · exact going.comes j x cnt ((Function.update_of_ne same _ _).symm.trans loops)
    | collatz i job cn cnm pc here inner =>
        by_cases same : j = i
        · subst same
          refine inner.comes (going.comes j) (fun k entry => ?_) ((Function.update_self _ _ _).symm.trans loops)
          exact ⟨entry_written int going.reached entry, starts k (Counts.entered int going.reached entry)⟩
        · exact going.comes j x cnt ((Function.update_of_ne same _ _).symm.trans loops)
    | _ => exact going.comes j x cnt loops

theorem Orderly.lowers (int : M < 2147483648) (bounded : ∀ k < M, rounds (268435456 + k) + 7 ≤ bound)
    (going : Going M before) (orderly : Orderly M before after) :
    after.potential M bound < before.potential M bound := by
  rcases orderly.pool int bounded going with ⟨pool, rest⟩ | ⟨same, left, rest⟩
  · have less : after.pool.cost 1 + perCall n * after.main.left M + 1 ≤
        before.pool.cost 1 + perCall n * before.main.left M := pool.lowers going.course
    have scaled := Nat.mul_le_mul_right (bound + 2) less
    rw [Nat.add_mul, Nat.one_mul] at scaled
    rw [potential, potential]
    omega
  · rw [potential, potential, same, left]
    omega

/-! ## Nothing in the benchmark waits for ever -/

theorem Orderly.of_pool {left left' : Nat} (step : Step M before after)
    (pool : Pool.Orderly 1 (before.pool, left) (after.pool, left')) : Orderly M before after :=
  ⟨step, pool.timely, pool.sent⟩

theorem Orderly.of_same (step : Step M before after) (waiter : after.pool.waiter = before.pool.waiter)
    (workers : ∀ i, before.pool.workers i = .asleep → after.pool.workers i = .asleep) :
    Orderly M before after := by
  refine ⟨step, .of_same waiter, fun spurious => ?_⟩
  obtain ⟨i, asleep, same⟩ := spurious
  have woken : after.pool.workers i = .woken := by rw [same, State.setWorker_self]
  cases (workers i asleep).symm.trans woken

theorem collatz_goes {i : Fin n} {job : Addr} {cn : Int} {cnm : Option (Fin n)} {pc pc' : CollatzPc}
    (here : bench.pool.workers i = .run job .idle) (stands : bench.tasks i = pc)
    (step : CollatzStep i bench.arg bench.cn bench.cnm pc cn cnm pc') : ∃ next, Orderly M bench next := by
  subst stands
  exact ⟨_, .of_same (.collatz _ i job cn cnm pc' here step) rfl fun _ => id⟩

/-- Whoever owns `cnm` goes on. -/
theorem Counts.holder_goes (counts : Counts bench) {i : Fin n} (inside : (bench.tasks i).holds = true) :
    ∃ next, Orderly M bench next := by
  have run : ∃ job, bench.pool.workers i = .run job .idle := by
    by_contra none
    rw [counts.outside i fun job run => none ⟨job, run⟩] at inside
    cases inside
  obtain ⟨job, here⟩ := run
  cases at_ : bench.tasks i with
  | load => exact collatz_goes here at_ .load
  | store read => exact collatz_goes here at_ (.store read)
  | unlock => exact collatz_goes here at_ .unlock
  | idle | entry | loop | lock | done =>
      rw [at_] at inside
      cases inside

/-- While a worker is in a task, some task goes on. -/
theorem Going.task_goes (int : M < 2147483648) (going : Going M bench) {i : Fin n} {job : Addr}
    (here : bench.pool.workers i = .run job .idle) : ∃ next, Orderly M bench next := by
  have counts := Counts.of_reached int going.reached
  cases at_ : bench.tasks i with
  | idle => exact absurd at_ (counts.manned i job .idle here).2
  | entry k =>
      have written := entry_written int going.reached at_
      exact collatz_goes here at_ (.read k _ written)
  | loop x cnt =>
      by_cases one : x = 1
      · subst one
        exact collatz_goes here at_ (.leave cnt)
      · by_cases odd : x % 2 = 1
        · exact collatz_goes here at_ (.odd x cnt one odd)
        · have even : x % 2 = 0 := by omega
          exact collatz_goes here at_ (.even x cnt one even)
  | lock =>
      cases owner : bench.cnm with
      | none => exact collatz_goes here at_ (.acquire owner)
      | some j => exact counts.holder_goes (counts.recorded j owner)
  | load | store | unlock => exact counts.holder_goes (i := i) (by rw [at_]; rfl)
  | done =>
      refine ⟨_, .of_same (.ends _ i job here at_) rfl fun j asleep => ?_⟩
      have other : j ≠ i := by
        intro same
        subst same
        cases here.symm.trans asleep
      exact (State.setWorker_other other _).trans asleep

/-- What the pool can do while no task runs, the benchmark can. -/
theorem Going.follows (going : Going M bench) (resting : ∀ i, (bench.pool.workers i).busy = false)
    (at_ : bench.main = .waiting ∨ ∃ i, bench.main = .inside i ∧ bench.pool.adders 0 ≠ .idle)
    {later : State n Unit Nat × Nat} (orderly : Pool.Orderly 1 (bench.pool, 0) later) :
    ∃ next, Orderly M bench next := by
  obtain ⟨state, left⟩ := later
  have step : Pool.Step bench.pool state := orderly.step
  have fed := Fed.of_reached going.reached
  cases step with
  | worker i middle _ pc pc' here inner =>
      have out : pc.busy = false := here ▸ resting i
      cases out' : pc'.busy with
      | false => exact ⟨_, .of_pool (.work _ i _ pc pc' here inner out out') orderly⟩
      | true =>
          cases inner with
          | call job task found => exact ⟨_, .of_pool (.call _ i job task here found) orderly⟩
          | add | inAdd => cases out
          | _ => cases out'
  | startAdd k _ func arg idle =>
      rcases orderly.calls with ⟨_, none⟩ | ⟨starts, _⟩
      · cases none
      · exact absurd (.inl ⟨k, func, arg, idle, State.setAdder_self _ _⟩) starts
  | adder k middle _ pc pc' here inner =>
      have main : k = 0 := by
        by_contra other
        obtain rfl := here.symm.trans (fed.others k other)
        cases inner
      subst main
      exact ⟨_, .of_pool (.inAdd _ _ pc pc' here inner) orderly⟩
  | wait _ _ inner =>
      rcases at_ with waiting | ⟨i, inside, busy⟩
      · exact ⟨{ bench with pool := state }, .of_pool (.inWait _ state waiting inner) orderly⟩
      · have early := fed.waits
        rw [inside] at early
        have later : state.waiter ≠ .notCalled := by
          cases inner <;> nofun
        exact absurd (orderly.client.2 early later 0) busy

/-- Until the `assert` some step can be taken. -/
theorem Going.goes (int : M < 2147483648) (going : Going M bench) :
    bench.main = .checking ∨ ∃ next, Orderly M bench next := by
  by_cases run : ∃ i, (bench.pool.workers i).busy = true
  · obtain ⟨i, busy⟩ := run
    cases here : bench.pool.workers i with
    | run job add =>
        obtain ⟨rfl, _⟩ := (Counts.of_reached int going.reached).manned i job add here
        exact .inr (going.task_goes int here)
    | _ =>
        rw [here] at busy
        cases busy
  · have resting (i : Fin n) : (bench.pool.workers i).busy = false := by
      by_contra busy
      exact run ⟨i, by simpa using busy⟩
    have fed := Fed.of_reached going.reached
    cases here : bench.main with
    | adding i =>
        obtain ⟨count, feeds, _⟩ := fed.feeds
        rw [here] at feeds
        generalize idle : bench.pool.adders 0 = pc at feeds
        cases feeds with
        | adding _ most =>
            rcases Nat.lt_or_eq_of_le most with more | last
            · exact .inr ⟨_, .of_pool (.add _ i here more idle) (going.adds here more idle)⟩
            · subst last
              have early := fed.waits
              rw [here] at early
              have apart : Timely bench.pool { bench.pool with waiter := .setFinish } :=
                fun at_ => by cases early.symm.trans at_
              exact .inr ⟨_, .of_pool (.wait _ _ here early (.call _ early))
                (going.waits (.call _ early) (.inr here) apart 0)⟩
    | inside i =>
        by_cases idle : bench.pool.adders 0 = .idle
        · exact .inr ⟨_, .of_same (.added _ i here idle) rfl fun _ => id⟩
        · rcases @Course.goes _ _ _ _ _ 0 going.course with returned | ⟨later, orderly⟩
          · have early := fed.waits
            rw [here] at early
            cases early.symm.trans returned
          · exact .inr (going.follows resting (.inr ⟨i, here, idle⟩) orderly)
    | waiting =>
        rcases @Course.goes _ _ _ _ _ 0 going.course with returned | ⟨later, orderly⟩
        · exact .inr ⟨_, .of_same (.destroy _ here returned) rfl fun _ => id⟩
        · exact .inr (going.follows resting (.inl here) orderly)
    | freeing => exact .inr ⟨_, .of_same (.free _ here) rfl fun _ => id⟩
    | checking => exact .inl rfl

/-- If the loop of `Collatz` ends for each number that `main` passes, the benchmark comes to
its `assert` in every run, with all tasks counted and nobody left in the pool. -/
theorem bench_passes (n M : Nat) (positive : 0 < n) (int : M < 2147483648)
    (starts : ∀ k < M, ∃ count, collatz^[count] (268435456 + k) = 1) :
    Until (Orderly M) (fun _ => True)
      (fun bench => bench.main = .checking ∧ bench.cn = M ∧ Unused bench.pool) (boot n) := by
  let bound := (Finset.range M).sup fun k => rounds (268435456 + k) + 7
  have bounded : ∀ k < M, rounds (268435456 + k) + 7 ≤ bound := by
    intro k less
    exact Finset.le_sup (f := fun k : Nat => rounds (268435456 + k) + 7) (Finset.mem_range.mpr less)
  have goal : Until (Orderly M) (Going M) (fun bench => Going M bench ∧ bench.main = .checking) (boot n) :=
    .of_potential (potential M bound) (fun _ _ going orderly => going.step int bounded starts orderly)
      (fun _ _ going orderly => orderly.lowers int bounded going) (fun _ going => going.goes int) .initially
  refine goal.mono (fun _ _ => trivial) fun bench ended => ?_
  obtain ⟨going, here⟩ := ended
  refine ⟨here, counted_all int (.inl positive) going.reached here, ?_⟩
  have returned := (Fed.of_reached going.reached).waits
  rw [here] at returned
  exact going.course.unused positive returned

/-- `0x10000000` is a power of two. -/
theorem bench_passes_one : ∃ bench : Bench 2, ReflTransGen (Orderly 1) (boot 2) bench ∧
    bench.main = .checking ∧ bench.cn = 1 := by
  have starts : ∀ k < 1, ∃ count, collatz^[count] (268435456 + (k : Nat)) = 1 := by
    intro k less
    obtain rfl := Nat.lt_one_iff.mp less
    exact ⟨28, by decide⟩
  obtain ⟨bench, ⟨here, counted, _⟩, run⟩ := (bench_passes 2 1 (by decide) (by decide) starts).reaches
  exact ⟨bench, run, here, counted⟩

end Bench

end SysProg.Pool
