import SysProg.Pool.Completion

namespace SysProg.Pool

open Relation SysProg.Transition SysProg.Data

/-! # The program in testcases/bench

Its `main` adds `M` tasks, waits and asserts that the counter `cn` has come to `M`.  The tasks
run `Collatz` on the elements of `arg`, and count themselves under a mutex of their own. -/

/-- A `long long` result of the exact value `value`. -/
def int64 (value : Int) : Int := value.bmod 18446744073709551616

/-- `adding i` is the head of the loop in `main`, `inside i` its call of `tpool_add`, `freeing`
behind `tpool_wait` and `tpool_destroy`, `checking` before the `assert`. -/
inductive MainPc where
  | adding (i : Nat)
  | inside (i : Nat)
  | waiting
  | freeing
  | checking
deriving DecidableEq, Repr

/-- Program points of `Collatz` on element `k` of `arg`, and `idle` outside it.  `cn++` is a
read and a write. -/
inductive CollatzPc where
  | idle
  | entry (k : Nat)
  | loop (x cnt : Int)
  | lock
  | load
  | store (read : Int)
  | unlock
  | done
deriving DecidableEq, Repr

/-- An element of `arg` is `none` until it is written and after `free`. -/
structure Bench (n : Nat) where
  pool : State n Unit Nat
  main : MainPc
  arg : Nat → Option Int
  cn : Int
  cnm : Option (Fin n)
  tasks : Fin n → CollatzPc

variable {n M : Nat}

/-- One step of `Collatz` in worker `me`, on `cn`, `cnm` and its own program point. -/
inductive CollatzStep (me : Fin n) (arg : Nat → Option Int) (cn : Int) (cnm : Option (Fin n)) :
    CollatzPc → Int → Option (Fin n) → CollatzPc → Prop where
  | read (k : Nat) (x : Int) : arg k = some x → CollatzStep me arg cn cnm (.entry k) cn cnm (.loop x 0)
  | odd (x cnt : Int) : x ≠ 1 → x % 2 = 1 →
      CollatzStep me arg cn cnm (.loop x cnt) cn cnm (.loop (int64 (x * 3 + 1)) (int64 (cnt + 1)))
  | even (x cnt : Int) : x ≠ 1 → x % 2 = 0 →
      CollatzStep me arg cn cnm (.loop x cnt) cn cnm (.loop (x.tdiv 2) (int64 (cnt + 1)))
  | leave (cnt : Int) : CollatzStep me arg cn cnm (.loop 1 cnt) cn cnm .lock
  | acquire : cnm = none → CollatzStep me arg cn cnm .lock cn (some me) .load
  | load : CollatzStep me arg cn cnm .load cn cnm (.store cn)
  | store (read : Int) : CollatzStep me arg cn cnm (.store read) (int64 (read + 1)) cnm .unlock
  | unlock : CollatzStep me arg cn cnm .unlock cn none .done

/-- The worker is in a task. -/
def WorkerPc.busy {Func Arg : Type} : WorkerPc Func Arg → Bool
  | .run _ _ => true
  | _ => false

namespace Bench

def boot (n : Nat) : Bench n where
  pool := tpool_init n Unit Nat
  main := .adding 0
  arg := fun _ => none
  cn := 0
  cnm := none
  tasks := fun _ => .idle

inductive Step (M : Nat) : Bench n → Bench n → Prop where
  | add (bench : Bench n) (i : Nat) : bench.main = .adding i → i < M → bench.pool.adders 0 = .idle →
      Step M bench { bench with
        pool := bench.pool.setAdder 0 (.lock () i)
        arg := Function.update bench.arg i (some (268435456 + i))
        main := .inside i }
  | inAdd (bench : Bench n) (after : State n Unit Nat) (pc pc' : AddPc Unit Nat) :
      bench.pool.adders 0 = pc → AddStep (.adder 0) bench.pool pc after pc' →
      Step M bench { bench with pool := after.setAdder 0 pc' }
  | added (bench : Bench n) (i : Nat) : bench.main = .inside i → bench.pool.adders 0 = .idle →
      Step M bench { bench with main := .adding (i + 1) }
  | wait (bench : Bench n) (after : State n Unit Nat) : bench.main = .adding M →
      bench.pool.waiter = .notCalled → WaitStep bench.pool after →
      Step M bench { bench with pool := after, main := .waiting }
  | inWait (bench : Bench n) (after : State n Unit Nat) : bench.main = .waiting →
      WaitStep bench.pool after → Step M bench { bench with pool := after }
  | destroy (bench : Bench n) : bench.main = .waiting → bench.pool.waiter = .returned →
      Step M bench { bench with main := .freeing }
  | free (bench : Bench n) : bench.main = .freeing →
      Step M bench { bench with arg := fun _ => none, main := .checking }
  | work (bench : Bench n) (i : Fin n) (after : State n Unit Nat) (pc pc' : WorkerPc Unit Nat) :
      bench.pool.workers i = pc → WorkerStep i bench.pool pc after pc' → pc.busy = false →
      pc'.busy = false → Step M bench { bench with pool := after.setWorker i pc' }
  | call (bench : Bench n) (i : Fin n) (job : Addr) (task : Task Unit Nat) :
      bench.pool.workers i = .call job → bench.pool.heap job = some task →
      Step M bench { bench with
        pool := (bench.pool.recordCall i job task).setWorker i (.run job .idle)
        tasks := Function.update bench.tasks i (.entry task.arg) }
  | collatz (bench : Bench n) (i : Fin n) (job : Addr) (cn : Int) (cnm : Option (Fin n))
      (pc : CollatzPc) : bench.pool.workers i = .run job .idle →
      CollatzStep i bench.arg bench.cn bench.cnm (bench.tasks i) cn cnm pc →
      Step M bench { bench with cn, cnm, tasks := Function.update bench.tasks i pc }
  | ends (bench : Bench n) (i : Fin n) (job : Addr) : bench.pool.workers i = .run job .idle →
      bench.tasks i = .done →
      Step M bench { bench with
        pool := (bench.pool.recordReturn job).setWorker i (.free job)
        tasks := Function.update bench.tasks i .idle }

def Reached (n M : Nat) (bench : Bench n) : Prop := ReflTransGen (Step M) (boot n) bench

end Bench

/-! ## What `main` has done -/

/-- What the first `i` calls of `tpool_add` add. -/
def feed (i : Nat) : List (Added Unit Nat) := (List.range i).map fun k => ⟨(), k⟩

theorem feed_succ (i : Nat) : feed (i + 1) = feed i ++ [⟨(), i⟩] := by
  rw [feed, feed, List.range_succ, List.map_append]
  rfl

@[simp] theorem feed_length (i : Nat) : (feed i).length = i := by
  rw [feed, List.length_map, List.length_range]

theorem mem_feed {i k : Nat} {call : Added Unit Nat} (found : (feed i)[k]? = some call) :
    k < i ∧ call.arg = k := by
  have inside : k < i := feed_length i ▸ (List.getElem?_eq_some_iff.mp found).1
  rw [feed, List.getElem?_map, List.getElem?_range inside] at found
  cases found
  exact ⟨inside, rfl⟩

/-- How many elements of `arg` are written. -/
def MainPc.written (M : Nat) : MainPc → Nat
  | .adding i => i
  | .inside i => i + 1
  | .waiting | .freeing => M
  | .checking => 0

def MainPc.admits : MainPc → WaitPc → Prop
  | .adding _, waiter | .inside _, waiter => waiter = .notCalled
  | .waiting, waiter => waiter ≠ .notCalled
  | .freeing, waiter | .checking, waiter => waiter = .returned

/-- Where `main` stands, where it stands in `tpool_add`, and how many tasks have been added. -/
inductive Feeds (M : Nat) : MainPc → AddPc Unit Nat → Nat → Prop where
  | adding (i : Nat) : i ≤ M → Feeds M (.adding i) .idle i
  | lock (i : Nat) : i < M → Feeds M (.inside i) (.lock () i) i
  | link (i : Nat) : i < M → Feeds M (.inside i) (.link () i) i
  | broadcast (i : Nat) : i < M → Feeds M (.inside i) .broadcast (i + 1)
  | unlock (i : Nat) : i < M → Feeds M (.inside i) .unlock (i + 1)
  | back (i : Nat) : i < M → Feeds M (.inside i) .idle (i + 1)
  | waiting : Feeds M .waiting .idle M
  | freeing : Feeds M .freeing .idle M
  | checking : Feeds M .checking .idle M

/-- A step inside `tpool_add` is one of `main` there, and adds its element. -/
theorem Feeds.add {main : MainPc} {me : Thread n} {state after : State n Unit Nat}
    {pc pc' : AddPc Unit Nat} {count : Nat} (feeds : Feeds M main pc count)
    (step : AddStep me state pc after pc') (added : state.added = feed count) :
    (∃ i, main = .inside i) ∧ ∃ count', Feeds M main pc' count' ∧ after.added = feed count' := by
  cases step with
  | acquire func arg free =>
      cases feeds with
      | lock _ less => exact ⟨⟨_, rfl⟩, _, .link _ less, added⟩
  | link _ job func arg fresh linked =>
      have more : after.added = state.added ++ [⟨func, arg⟩] := (State.linkJob_frame linked).2.2.2.2.2.2.1
      cases feeds with
      | link _ less =>
          refine ⟨⟨_, rfl⟩, _, .broadcast _ less, ?_⟩
          rw [more, added, feed_succ]
  | broadcast =>
      cases feeds with
      | broadcast i less => exact ⟨⟨i, rfl⟩, _, .unlock _ less, added⟩
  | unlock =>
      cases feeds with
      | unlock i less => exact ⟨⟨i, rfl⟩, _, .back _ less, added⟩

theorem Feeds.written {main : MainPc} {pc : AddPc Unit Nat} {count k : Nat} (feeds : Feeds M main pc count)
    (uses : main ≠ .checking) (less : k < count) : k < main.written M := by
  cases feeds with
  | lock | link => exact Nat.lt_succ_of_lt less
  | checking => exact absurd rfl uses
  | _ => exact less

theorem Feeds.bounded {main : MainPc} {pc : AddPc Unit Nat} {count : Nat} (feeds : Feeds M main pc count) :
    count ≤ M := by
  cases feeds <;> omega

theorem WorkerStep.added {i : Fin n} {state after : State n Unit Nat} {pc pc' : WorkerPc Unit Nat}
    (step : WorkerStep i state pc after pc') (outside : pc.busy = false) : after.added = state.added := by
  cases step with
  | inAdd => cases outside
  | _ => rfl

namespace Bench

variable {bench before after : Bench n}

/-- What `main` has done up to its program point. -/
structure Fed (M : Nat) (bench : Bench n) : Prop where
  client : ClientRun bench.pool
  others : ∀ k, k ≠ 0 → bench.pool.adders k = .idle
  waits : bench.main.admits bench.pool.waiter
  feeds : ∃ count, Feeds M bench.main (bench.pool.adders 0) count ∧ bench.pool.added = feed count
  written : ∀ k < bench.main.written M, bench.arg k = some (268435456 + k)

theorem Fed.initially : Fed M (boot n) where
  client := .refl
  others _ _ := rfl
  waits := rfl
  feeds := ⟨0, .adding 0 M.zero_le, rfl⟩
  written k less := absurd less (Nat.not_lt_zero k)

/-- A worker does nothing that `main` can see but what it added. -/
theorem Fed.worker (fed : Fed M before) {i : Fin n} {middle : State n Unit Nat} {pc pc' : WorkerPc Unit Nat}
    (here : before.pool.workers i = pc) (inner : WorkerStep i before.pool pc middle pc')
    (added : middle.added = before.pool.added) (pool : after.pool = middle.setWorker i pc')
    (main : after.main = before.main) (arg : after.arg = before.arg) : Fed M after := by
  obtain ⟨_, adders, waiter, _⟩ := inner.frame
  have same : after.pool.adders = before.pool.adders := by rw [pool]; exact adders
  have waits : after.pool.waiter = before.pool.waiter := by rw [pool]; exact waiter
  constructor
  · refine fed.client.tail ⟨?_, .of_same waits fun k idle => (congrFun same k).trans idle⟩
    rw [pool]
    exact .worker i _ _ _ _ here inner
  · intro k other
    exact (congrFun same k).trans (fed.others k other)
  · rw [main, waits]
    exact fed.waits
  · obtain ⟨count, feeds, all⟩ := fed.feeds
    refine ⟨count, ?_, ?_⟩
    · rw [main, same]
      exact feeds
    · rw [pool]
      exact added.trans all
  · rw [main, arg]
    exact fed.written

/-- A step of `tpool_wait`, after all tasks have been added. -/
theorem Fed.wait (fed : Fed M before) (inner : WaitStep before.pool after.pool)
    (behind : before.main = .waiting ∨ before.main = .adding M) (main : after.main = .waiting)
    (arg : after.arg = before.arg) : Fed M after := by
  obtain ⟨count, feeds, all⟩ := fed.feeds
  obtain ⟨_, adders, _⟩ := inner.frame
  have waits : after.pool.waiter ≠ .notCalled ∧ after.pool.added = before.pool.added := by
    generalize after.pool = later at inner
    cases inner <;> exact ⟨nofun, rfl⟩
  have ready : before.pool.adders 0 = .idle ∧ count = M ∧ before.main.written M = M := by
    generalize before.main = here, before.pool.adders 0 = pc at feeds behind
    rcases behind with rfl | rfl <;> cases feeds <;> exact ⟨rfl, rfl, rfl⟩
  obtain ⟨idle, rfl, written⟩ := ready
  constructor
  · refine fed.client.tail ⟨.wait _ _ inner, ?_, ?_⟩
    · intro k idle busy
      exact absurd ((congrFun adders k).trans idle) busy
    · intro early called k
      by_cases main : k = 0
      · exact main ▸ idle
      · exact fed.others k main
  · intro k other
    exact (congrFun adders k).trans (fed.others k other)
  · rw [main]
    exact waits.1
  · refine ⟨count, ?_, waits.2.trans all⟩
    rw [main, congrFun adders 0, idle]
    exact .waiting
  · rw [main, arg, MainPc.written, ← written]
    exact fed.written

theorem Fed.step (fed : Fed M before) (step : Step M before after) : Fed M after := by
  obtain ⟨count, feeds, added⟩ := fed.feeds
  cases step with
  | add i here more idle =>
      have early : before.pool.waiter = .notCalled := by
        have waits := fed.waits
        rwa [here] at waits
      have written := fed.written
      rw [here, idle] at feeds
      rw [here] at written
      obtain rfl : count = i := by
        cases feeds
        rfl
      refine ⟨fed.client.tail ⟨.startAdd 0 _ () count idle, fun _ _ _ => early, ?_⟩, ?_, early,
        ⟨count, ?_, added⟩, ?_⟩
      · intro _ called
        exact absurd early called
      · intro k other
        exact (State.setAdder_other other _).trans (fed.others k other)
      · rw [State.setAdder_self]
        exact .lock count more
      · intro k less
        rcases Nat.lt_succ_iff_lt_or_eq.mp less with below | rfl
        · exact (Function.update_of_ne (Nat.ne_of_lt below) _ _).trans (written k below)
        · exact Function.update_self _ _ _
  | inAdd middle pc pc' here inner =>
      obtain ⟨_, adders, waiter, _⟩ := inner.frame
      rw [here] at feeds
      obtain ⟨⟨i, inside⟩, count', feeds', added'⟩ := feeds.add inner added
      have early : before.pool.waiter = .notCalled := by
        have waits := fed.waits
        rwa [inside] at waits
      refine ⟨fed.client.tail ⟨.adder 0 _ _ _ _ here inner, fun _ _ _ => early, ?_⟩, ?_, ?_,
        ⟨count', ?_, added'⟩, fed.written⟩
      · intro _ called
        exact absurd (waiter.trans early) called
      · intro k other
        rw [State.setAdder_other other, adders]
        exact fed.others k other
      · rw [show (middle.setAdder 0 pc').waiter = before.pool.waiter from waiter]
        exact fed.waits
      · rw [State.setAdder_self]
        exact feeds'
  | added i here idle =>
      have waits := fed.waits
      have written := fed.written
      rw [here] at waits written
      rw [here, idle] at feeds
      cases feeds with
      | back _ less => exact ⟨fed.client, fed.others, waits, ⟨_, idle ▸ .adding _ less, added⟩, written⟩
  | wait middle here early inner => exact fed.wait inner (.inr here) rfl rfl
  | inWait middle here inner => exact fed.wait inner (.inl here) here rfl
  | destroy here back =>
      have written := fed.written
      rw [here] at feeds written
      generalize idle : before.pool.adders 0 = pc at feeds
      cases feeds
      exact ⟨fed.client, fed.others, back, ⟨M, idle ▸ .freeing, added⟩, written⟩
  | free here =>
      have waits := fed.waits
      rw [here] at feeds waits
      generalize idle : before.pool.adders 0 = pc at feeds
      cases feeds
      refine ⟨fed.client, fed.others, waits, ⟨M, idle ▸ .checking, added⟩, fun k less => ?_⟩
      exact absurd less (Nat.not_lt_zero k)
  | work i middle pc pc' here inner out out' =>
      exact fed.worker here inner (inner.added out) rfl rfl rfl
  | call i job task here found =>
      exact fed.worker here (.call _ job task found) rfl rfl rfl rfl
  | collatz i job cn cnm pc here inner => exact ⟨fed.client, fed.others, fed.waits, fed.feeds, fed.written⟩
  | ends i job here done => exact fed.worker here (.return _ job) rfl rfl rfl rfl

theorem Fed.of_reached (reached : Reached n M bench) : Fed M bench :=
  invariant_of_run (fun _ _ taken fed => fed.step taken) reached .initially

/-- Behind `tpool_wait` no worker is left. -/
theorem Fed.exited (fed : Fed M bench) (behind : bench.main = .freeing ∨ bench.main = .checking) (i : Fin n) :
    bench.pool.workers i = .exited := by
  have returned : bench.pool.waiter = .returned := by
    have waits := fed.waits
    rcases behind with here | here
    · rwa [here] at waits
    · rwa [here] at waits
  exact (Joined.of_reachable (Restrict.run ByClient fed.client)).2 returned i

end Bench

/-! ## What the tasks have counted -/

namespace CollatzPc

/-- The point lies between the lock and the unlock. -/
def holds : CollatzPc → Bool
  | .load | .store _ | .unlock => true
  | _ => false

def present : CollatzPc → Nat
  | .idle => 0
  | _ => 1

/-- `cn++` is done and the task is not. -/
def counted : CollatzPc → Nat
  | .unlock | .done => 1
  | _ => 0

theorem counted_le (pc : CollatzPc) : pc.counted ≤ pc.present := by
  cases pc <;> simp [counted, present]

end CollatzPc

section Task

variable {me : Fin n} {arg : Nat → Option Int} {cn cn' : Int} {cnm cnm' : Option (Fin n)} {pc pc' : CollatzPc}

theorem CollatzStep.mutex (step : CollatzStep me arg cn cnm pc cn' cnm' pc') :
    MutexLaw me cnm cnm' pc.holds pc'.holds := by
  cases step with
  | acquire free => exact .inr (.inl ⟨free, rfl⟩)
  | unlock => exact .inr (.inr ⟨rfl, rfl, rfl⟩)
  | _ => exact .inl ⟨rfl, rfl⟩

theorem CollatzStep.record (step : CollatzStep me arg cn cnm pc cn' cnm' pc') :
    RecordLaw me cnm cnm' pc.holds pc'.holds := by
  cases step with
  | acquire free => exact .inr (.inl ⟨rfl, rfl⟩)
  | unlock => exact .inr (.inr rfl)
  | _ => exact .inl ⟨rfl, id⟩

/-- Only the write of `cn++` changes the counter; what it writes was read before. -/
theorem CollatzStep.counts (step : CollatzStep me arg cn cnm pc cn' cnm' pc') :
    (∃ read, pc = .store read ∧ pc' = .unlock ∧ cn' = int64 (read + 1)) ∨
      (cn' = cn ∧ pc'.counted = pc.counted) := by
  cases step with
  | store read => exact .inl ⟨read, rfl, rfl, rfl⟩
  | _ => exact .inr ⟨rfl, rfl⟩

theorem CollatzStep.stays (step : CollatzStep me arg cn cnm pc cn' cnm' pc') :
    pc.present = 1 ∧ pc'.present = 1 ∧ pc' ≠ .idle ∧ (∀ k, pc' ≠ .entry k) ∧
      ∀ read, pc' = .store read → read = cn' := by
  cases step with
  | load =>
      refine ⟨rfl, rfl, nofun, nofun, fun read same => ?_⟩
      cases same
      rfl
  | _ => exact ⟨rfl, rfl, nofun, nofun, nofun⟩

end Task

theorem int64_of_bounds {value : Int} (positive : 0 ≤ value) (small : value < 9223372036854775808) :
    int64 value = value :=
  Int.bmod_eq_of_le (by omega) (by omega)

/-- A step that no task of the pool is part of. -/
structure Apart (before after : State n Unit Nat) : Prop where
  runs : ∀ i job add, after.workers i = .run job add ↔ before.workers i = .run job add
  called : after.called = before.called
  completed : after.completed = before.completed

theorem AddStep.apart {k : Nat} {state after : State n Unit Nat} {pc pc' : AddPc Unit Nat}
    (step : AddStep (.adder k) state pc after pc') : Apart state (after.setAdder k pc') := by
  obtain ⟨_, _, _, _, called, completed, workers⟩ := step.frame
  exact ⟨fun i job add => workers_eq_iff nofun nofun workers, called, completed⟩

theorem WaitStep.apart {state after : State n Unit Nat} (step : WaitStep state after) : Apart state after := by
  obtain ⟨_, _, _, _, workers⟩ := step.frame
  refine ⟨fun i job add => workers_eq_iff nofun nofun workers, ?_, ?_⟩
  · cases step <;> rfl
  · cases step <;> rfl

theorem WorkerStep.apart {i : Fin n} {state after : State n Unit Nat} {pc pc' : WorkerPc Unit Nat}
    (step : WorkerStep i state pc after pc') (here : state.workers i = pc) (outside : pc.busy = false)
    (outside' : pc'.busy = false) : Apart state (after.setWorker i pc') := by
  obtain ⟨_, _, _, workers⟩ := step.frame
  have kept : after.called = state.called ∧ after.completed = state.completed := by
    cases step with
    | call => cases outside'
    | inAdd | «return» => cases outside
    | _ => exact ⟨rfl, rfl⟩
  refine ⟨fun j job add => ?_, kept.1, kept.2⟩
  by_cases same : j = i
  · subst same
    rw [State.setWorker_self, here]
    constructor
    · intro run
      rw [run] at outside'
      cases outside'
    · intro run
      rw [run] at outside
      cases outside
  · rw [State.setWorker_other same]
    exact workers_eq_iff nofun nofun workers

namespace Bench

/-- Each worker inside a task is at some point of `Collatz`, and `cn` is what the tasks that
are over and those behind `cn++` have counted. -/
structure Counts (bench : Bench n) : Prop where
  owned : Owned bench.cnm fun i => (bench.tasks i).holds
  recorded : Recorded bench.cnm fun i => (bench.tasks i).holds
  manned : ∀ i job add, bench.pool.workers i = .run job add → add = .idle ∧ bench.tasks i ≠ .idle
  outside : ∀ i, (∀ job, bench.pool.workers i ≠ .run job .idle) → bench.tasks i = .idle
  current : ∀ i read, bench.tasks i = .store read → read = bench.cn
  known : ∀ i k, bench.tasks i = .entry k → k < bench.pool.added.length
  called : bench.pool.called.length =
    bench.pool.completed.length + workload CollatzPc.present Finset.univ bench.tasks
  counted : bench.cn =
    (bench.pool.completed.length + workload CollatzPc.counted Finset.univ bench.tasks : Nat)

theorem Counts.initially : Counts (boot n) where
  owned i held := by cases held
  recorded i own := by cases own
  manned i job add run := by cases run
  outside i _ := rfl
  current i read here := by cases here
  known i k here := by cases here
  called := by simp [boot, tpool_init, workload, CollatzPc.present]
  counted := by simp [boot, tpool_init, workload, CollatzPc.counted]

theorem Counts.apart (counts : Counts before) (apart : Apart before.pool after.pool)
    (grows : before.pool.added.length ≤ after.pool.added.length) (cn : after.cn = before.cn)
    (cnm : after.cnm = before.cnm) (tasks : after.tasks = before.tasks) : Counts after := by
  constructor
  · rw [cnm, tasks]
    exact counts.owned
  · rw [cnm, tasks]
    exact counts.recorded
  · intro i job add run
    rw [tasks]
    exact counts.manned i job add ((apart.runs i job add).mp run)
  · intro i outside
    rw [tasks]
    exact counts.outside i fun job run => outside job ((apart.runs i job .idle).mpr run)
  · rw [cn, tasks]
    exact counts.current
  · intro i k here
    rw [tasks] at here
    exact Nat.lt_of_lt_of_le (counts.known i k here) grows
  · rw [apart.called, apart.completed, tasks]
    exact counts.called
  · rw [cn, apart.completed, tasks]
    exact counts.counted

/-- Fewer tasks have been counted than called while one of them has not been. -/
theorem Counts.fewer (counts : Counts bench) {i : Fin n} (open_ : (bench.tasks i).counted < (bench.tasks i).present) :
    bench.cn < bench.pool.called.length := by
  have less : workload CollatzPc.counted Finset.univ bench.tasks <
      workload CollatzPc.present Finset.univ bench.tasks :=
    Finset.sum_lt_sum (fun j _ => (bench.tasks j).counted_le) ⟨i, Finset.mem_univ i, open_⟩
  rw [counts.counted, counts.called]
  omega

theorem called_bounded {state : State n Unit Nat} (reachable : Reachable state) :
    state.called.length ≤ state.added.length := by
  obtain ⟨queue, consistent⟩ := Consistent.of_reachable reachable
  have inside : (state.called.map Called.ticket) ⊆ List.range state.added.length := by
    intro ticket member
    obtain ⟨call, recorded, rfl⟩ := List.mem_map.mp member
    exact List.mem_range.mpr (consistent.taken_ticket (consistent.called call recorded).1)
  have fewer := (consistent.calls.once.subperm inside).length_le
  rwa [List.length_map, List.length_range] at fewer

/-- Worker `i` moves in its task, enters it or leaves it. -/
theorem Counts.moves (counts : Counts before) (i : Fin n) (pc : CollatzPc)
    (tasks : after.tasks = Function.update before.tasks i pc)
    (mutex : MutexLaw i before.cnm after.cnm (before.tasks i).holds pc.holds)
    (record : RecordLaw i before.cnm after.cnm (before.tasks i).holds pc.holds)
    (workers : ∀ j, j ≠ i → after.pool.workers j = before.pool.workers j)
    (inside : (pc = .idle ∧ ∀ job add, after.pool.workers i ≠ .run job add) ∨
      pc ≠ .idle ∧ ∃ job, after.pool.workers i = .run job .idle)
    (added : after.pool.added = before.pool.added)
    (cn : after.cn = before.cn ∨ (before.tasks i).holds = true)
    (current : ∀ read, pc = .store read → read = after.cn)
    (known : ∀ k, pc = .entry k → k < before.pool.added.length)
    (called : after.pool.called.length + before.pool.completed.length + (before.tasks i).present =
      before.pool.called.length + after.pool.completed.length + pc.present)
    (counted : after.cn + before.pool.completed.length + (before.tasks i).counted =
      before.cn + after.pool.completed.length + pc.counted) : Counts after := by
  have mine : after.tasks i = pc := by rw [tasks, Function.update_self]
  have others {j : Fin n} (other : j ≠ i) : after.tasks j = before.tasks j := by
    rw [tasks, Function.update_of_ne other]
  have presents := @workload_update _ _ CollatzPc.present Finset.univ before.tasks _ i (Finset.mem_univ i) pc
  have counteds := @workload_update _ _ CollatzPc.counted Finset.univ before.tasks _ i (Finset.mem_univ i) pc
  rw [← tasks] at presents counteds
  constructor
  · exact counts.owned.step i (mine.symm ▸ mutex) fun j other => congrArg CollatzPc.holds (others other)
  · exact counts.recorded.step i (mine.symm ▸ record) fun j other => congrArg CollatzPc.holds (others other)
  · intro j job add run
    by_cases same : j = i
    · subst same
      rcases inside with ⟨_, away⟩ | ⟨busy, other, here⟩
      · exact absurd run (away job add)
      · cases here.symm.trans run
        exact ⟨rfl, mine ▸ busy⟩
    · rw [others same]
      exact counts.manned j job add ((workers j same).symm.trans run)
  · intro j outside
    by_cases same : j = i
    · subst same
      rcases inside with ⟨idle, _⟩ | ⟨_, job, run⟩
      · exact mine.trans idle
      · exact absurd run (outside job)
    · refine (others same).trans (counts.outside j fun job run => outside job ?_)
      exact (workers j same).trans run
  · intro j read at_
    by_cases same : j = i
    · subst same
      exact current read (mine.symm.trans at_)
    · have stood := (others same).symm.trans at_
      have value := counts.current j read stood
      rcases cn with kept | held
      · exact value.trans kept.symm
      · refine absurd (counts.owned.exclusive j i ?_ held) same
        simp only [stood, CollatzPc.holds]
  · intro j k at_
    rw [added]
    by_cases same : j = i
    · subst same
      exact known k (mine.symm.trans at_)
    · exact counts.known j k ((others same).symm.trans at_)
  · have sum := counts.called
    omega
  · have sum := counts.counted
    omega

/-- `cn++` runs into no other and into no overflow. -/
theorem Counts.collatz (counts : Counts before) (fed : Fed M before) (int : M < 2147483648) {i : Fin n}
    {job : Addr} {cn : Int} {cnm : Option (Fin n)} {pc : CollatzPc}
    (here : before.pool.workers i = .run job .idle)
    (step : CollatzStep i before.arg before.cn before.cnm (before.tasks i) cn cnm pc) :
    Counts { before with cn, cnm, tasks := Function.update before.tasks i pc } := by
  obtain ⟨was, stays, busy, entered, reads⟩ := step.stays
  refine counts.moves i pc rfl step.mutex step.record (fun _ _ => rfl) (.inr ⟨busy, job, here⟩) rfl ?_ reads
    (fun k at_ => absurd at_ (entered k)) (by rw [was, stays]) ?_
  · rcases step.counts with ⟨read, mine, _, _⟩ | ⟨kept, _⟩
    · exact .inr (by rw [mine]; rfl)
    · exact .inl kept
  · rcases step.counts with ⟨read, mine, next, wrote⟩ | ⟨kept, same⟩
    · obtain rfl := counts.current i read mine
      obtain ⟨count, feeds, all⟩ := fed.feeds
      have open_ : (before.tasks i).counted < (before.tasks i).present := by
        rw [mine]
        exact Nat.zero_lt_one
      have bound := counts.fewer open_
      have called := called_bounded (Restrict.run ByClient fed.client)
      rw [all, feed_length] at called
      have least := feeds.bounded
      have sum := counts.counted
      rw [int64_of_bounds (by omega) (by omega)] at wrote
      rw [mine, next, wrote]
      change before.cn + 1 + before.pool.completed.length + (0 : Nat) =
        before.cn + before.pool.completed.length + (1 : Nat)
      omega
    · rw [kept, same]

theorem Counts.call (counts : Counts before) (fed : Fed M before) {i : Fin n} {job : Addr}
    {task : Task Unit Nat} (here : before.pool.workers i = .call job)
    (found : before.pool.heap job = some task) :
    Counts { before with
      pool := (before.pool.recordCall i job task).setWorker i (.run job .idle)
      tasks := Function.update before.tasks i (.entry task.arg) } := by
  have idle : before.tasks i = .idle := counts.outside i fun job run => by cases here.symm.trans run
  refine counts.moves i (.entry task.arg) rfl (.inl ⟨rfl, by rw [idle]; rfl⟩)
    (.inl ⟨rfl, by rw [idle]; exact id⟩) (fun j other => State.setWorker_other other _)
    (.inr ⟨nofun, job, State.setWorker_self _ _⟩) rfl (.inl rfl) nofun ?_ ?_ (by rw [idle]; rfl)
  · intro k entered
    cases entered
    obtain ⟨queue, consistent⟩ := Consistent.of_reachable (Restrict.run ByClient fed.client)
    obtain ⟨call, stored, recorded⟩ := consistent.payload job (.inr ⟨i, .taken, by rw [here]; rfl⟩)
    obtain ⟨count, _, all⟩ := fed.feeds
    rw [payload, found] at stored
    cases stored
    rw [all] at recorded
    obtain ⟨inside, numbered⟩ := mem_feed recorded
    rw [all, feed_length, show task.arg = _ from numbered]
    exact inside
  · change (before.pool.called ++ [_]).length + _ + _ = _
    rw [idle, List.length_append, List.length_singleton]
    exact Nat.add_right_comm _ 1 _

theorem Counts.ends (counts : Counts before) {i : Fin n} {job : Addr} (done : before.tasks i = .done) :
    Counts { before with
      pool := (before.pool.recordReturn job).setWorker i (.free job)
      tasks := Function.update before.tasks i .idle } := by
  have longer : (before.pool.completed ++ [before.pool.ticket job]).length = before.pool.completed.length + 1 := by
    rw [List.length_append, List.length_singleton]
  refine counts.moves i .idle rfl (.inl ⟨rfl, by rw [done]; rfl⟩) (.inl ⟨rfl, by rw [done]; exact id⟩)
    (fun j other => State.setWorker_other other _) (.inl ⟨rfl, fun other add run => ?_⟩) rfl (.inl rfl) nofun
    nofun ?_ ?_
  · cases (State.setWorker_self _ _).symm.trans run
  · change before.pool.called.length + _ + _ = before.pool.called.length + (before.pool.completed ++ [_]).length + _
    rw [done, longer]
    exact Nat.add_assoc _ _ 1
  · change before.cn + _ + _ = before.cn + (before.pool.completed ++ [_]).length + _
    rw [done, longer]
    change before.cn + _ + (1 : Nat) = before.cn + _ + (0 : Nat)
    omega

theorem Counts.step (counts : Counts before) (fed : Fed M before) (int : M < 2147483648)
    (step : Step M before after) : Counts after := by
  cases step with
  | add i here more idle => exact counts.apart ⟨fun _ _ _ => .rfl, rfl, rfl⟩ (Nat.le_refl _) rfl rfl rfl
  | inAdd middle pc pc' here inner =>
      refine counts.apart inner.apart ?_ rfl rfl rfl
      change before.pool.added.length ≤ middle.added.length
      cases inner with
      | link _ job func arg fresh linked =>
          have more : middle.added = before.pool.added ++ [_] := (State.linkJob_frame linked).2.2.2.2.2.2.1
          rw [more, List.length_append]
          exact Nat.le_add_right _ _
      | _ => exact Nat.le_refl _
  | added | destroy | free => exact counts.apart ⟨fun _ _ _ => .rfl, rfl, rfl⟩ (Nat.le_refl _) rfl rfl rfl
  | wait middle here early inner | inWait middle here inner =>
      refine counts.apart inner.apart ?_ rfl rfl rfl
      change before.pool.added.length ≤ middle.added.length
      cases inner <;> exact Nat.le_refl _
  | work i middle pc pc' here inner out out' =>
      refine counts.apart (inner.apart here out out') ?_ rfl rfl rfl
      change before.pool.added.length ≤ middle.added.length
      rw [inner.added out]
  | call i job task here found => exact counts.call fed here found
  | collatz i job cn cnm pc here inner => exact counts.collatz fed int here inner
  | ends i job here done => exact counts.ends done

theorem Counts.of_reached (int : M < 2147483648) (reached : Reached n M bench) : Counts bench :=
  invariant_of_reached (fun _ _ reached taken counts => counts.step (Fed.of_reached reached) int taken) reached
    .initially

/-- A task reads its element after it has been written and before `arg` is freed. -/
theorem entry_written (int : M < 2147483648) (reached : Reached n M bench) {i : Fin n} {k : Nat}
    (entry : bench.tasks i = .entry k) : bench.arg k = some (268435456 + k) := by
  have fed := Fed.of_reached reached
  have counts := Counts.of_reached int reached
  have uses : bench.main ≠ .checking := by
    intro here
    have exited := fed.exited (.inr here) i
    have idle := counts.outside i fun job run => by cases exited.symm.trans run
    cases idle.symm.trans entry
  obtain ⟨count, feeds, all⟩ := fed.feeds
  have known := counts.known i k entry
  rw [all, feed_length] at known
  exact fed.written k (feeds.written uses known)

/-- The `assert` holds when the tasks have a worker. -/
theorem counted_all (int : M < 2147483648) (staffed : 0 < n ∨ M = 0) (reached : Reached n M bench)
    (here : bench.main = .checking) : bench.cn = M := by
  have fed := Fed.of_reached reached
  have counts := Counts.of_reached int reached
  have exited := fed.exited (.inr here)
  have reachable : Reachable bench.pool := Restrict.run ByClient fed.client
  have nobody : workload CollatzPc.counted Finset.univ bench.tasks = 0 := by
    refine Finset.sum_eq_zero fun i _ => ?_
    have idle := counts.outside i fun job run => by cases (exited i).symm.trans run
    rw [idle]
    rfl
  have all : bench.pool.added.length = M := by
    obtain ⟨count, feeds, all⟩ := fed.feeds
    rw [here] at feeds
    generalize bench.pool.adders 0 = pc at feeds
    cases feeds
    rw [all, feed_length]
  have completed : bench.pool.completed.length = M := by
    rcases staffed with positive | rfl
    · obtain ⟨queue, consistent⟩ := Consistent.of_reachable reachable
      have whole := (consistent.all_completed (Attended.of_run positive fed.client) exited).2.2.length_eq
      rw [whole, List.length_range, all]
    · have called := called_bounded reachable
      have sum := counts.called
      omega
  rw [counts.counted, nobody, completed]
  rfl

/-! ## With no worker -/

/-- Without workers `main` adds all its tasks and nobody takes them. -/
theorem adds_alone (i : Nat) (most : i ≤ M) : ∃ bench : Bench 0, Reached 0 M bench ∧ bench.main = .adding i ∧
    bench.pool.adders 0 = .idle ∧ bench.pool.mlock = none ∧ bench.pool.waiter = .notCalled ∧ bench.cn = 0 := by
  induction i with
  | zero => exact ⟨boot 0, .refl, rfl, rfl, rfl, rfl, rfl⟩
  | succ i ih =>
      obtain ⟨bench, reached, here, idle, free, early, zero⟩ := ih (Nat.le_of_succ_le most)
      have fed := Fed.of_reached reached
      obtain ⟨queue, stored, tidy⟩ := Tidy.of_reachable (Restrict.run ByClient fed.client)
      obtain ⟨job, unused⟩ := tidy.fresh
      let starting := { bench with
        pool := bench.pool.setAdder 0 (.lock () i)
        arg := Function.update bench.arg i (some (268435456 + i))
        main := .inside i }
      let locked := { starting with
        pool := { starting.pool with mlock := some (.adder 0) }.setAdder 0 (.link () i) }
      have isQueue : IsQueue locked.pool queue :=
        ⟨stored.isQueue.chain, stored.isQueue.nodup, stored.isQueue.tail⟩
      obtain ⟨linked, link, _⟩ := linkJob_isQueue () i isQueue unused
      obtain ⟨_, _, _, _, waiter, _⟩ := State.linkJob_frame link
      let linking := { locked with pool := linked.setAdder 0 .broadcast }
      let woken := { linking with pool := linking.pool.broadcast.setAdder 0 .unlock }
      let unlocked := { woken with pool := { woken.pool with mlock := none }.setAdder 0 .idle }
      have starts : Step M bench starting := .add _ i here most idle
      have locks : Step M starting locked :=
        .inAdd _ _ (.lock () i) _ (State.setAdder_self 0 _) (.acquire _ () i free)
      have links : Step M locked linking :=
        .inAdd _ _ (.link () i) _ (State.setAdder_self 0 _) (.link _ _ job () i unused link)
      have wakes : Step M linking woken := .inAdd _ _ .broadcast _ (State.setAdder_self 0 _) (.broadcast _)
      have unlocks : Step M woken unlocked := .inAdd _ _ .unlock _ (State.setAdder_self 0 _) (.unlock _)
      have back : Step M unlocked { unlocked with main := .adding (i + 1) } :=
        .added _ i rfl (State.setAdder_self 0 _)
      refine ⟨{ unlocked with main := .adding (i + 1) }, ?_, rfl, State.setAdder_self 0 _, rfl,
        waiter.trans early, zero⟩
      exact (((((reached.tail starts).tail locks).tail links).tail wakes).tail unlocks).tail back

/-- Without workers `tpool_wait` has nobody to join. -/
theorem unanswered (M : Nat) : ∃ bench : Bench 0, Reached 0 M bench ∧ bench.main = .checking ∧ bench.cn = 0 := by
  obtain ⟨bench, reached, here, _, _, early, zero⟩ := @adds_alone M M (Nat.le_refl M)
  let called := { bench with pool := { bench.pool with waiter := .setFinish }, main := .waiting }
  let set := { called with pool := { called.pool with finish := true, waiter := .broadcast } }
  let woken := { set with pool := { set.pool.broadcast with waiter := .join 0 } }
  let joined := { woken with pool := { woken.pool with waiter := .returned } }
  have calls : Step M bench called := .wait _ _ here early (.call _ early)
  have sets : Step M called set := .inWait _ _ rfl (.setFinish _ rfl)
  have wakes : Step M set woken := .inWait _ _ rfl (.broadcast _ rfl)
  have joins : Step M woken joined := .inWait _ _ rfl (.returned _ rfl)
  have destroys : Step M joined { joined with main := .freeing } := .destroy _ rfl rfl
  have frees : Step M { joined with main := .freeing } { joined with arg := fun _ => none, main := .checking } :=
    .free _ rfl
  refine ⟨{ joined with arg := fun _ => none, main := .checking }, ?_, rfl, zero⟩
  exact (((((reached.tail calls).tail sets).tail wakes).tail joins).tail destroys).tail frees

/-- Every task of the benchmark reads its element while it is there, no two are in the section
of `cnm`, and in every run that comes to the `assert` it holds, unless there is no worker for
the tasks. -/
theorem bench_asserts (n M : Nat) (int : M < 2147483648) :
    (∀ bench : Bench n, Reached n M bench →
      (∀ i k, bench.tasks i = .entry k → bench.arg k = some (268435456 + k)) ∧
      ∀ i j, (bench.tasks i).holds = true → (bench.tasks j).holds = true → i = j) ∧
    ((∀ bench : Bench n, Reached n M bench → bench.main = .checking → bench.cn = M) ↔ 0 < n ∨ M = 0) := by
  refine ⟨fun bench reached => ⟨fun i k entry => entry_written int reached entry, ?_⟩, ?_, ?_⟩
  · intro i j first second
    exact (Counts.of_reached int reached).owned.exclusive i j first second
  · intro always
    rcases Nat.eq_zero_or_pos n with none | positive
    · subst none
      obtain ⟨bench, reached, here, zero⟩ := unanswered M
      have counted := (always bench reached here).symm.trans zero
      exact .inr (Int.ofNat_eq_zero.mp counted)
    · exact .inl positive
  · intro staffed bench reached here
    exact counted_all int staffed reached here

theorem bench_asserts_three :
    (∀ bench : Bench 2, Reached 2 3 bench → bench.main = .checking → bench.cn = 3) ∧
      ∃ bench : Bench 0, Reached 0 3 bench ∧ bench.main = .checking ∧ bench.cn ≠ 3 := by
  refine ⟨(bench_asserts 2 3 (by decide)).2.mpr (.inl (by decide)), ?_⟩
  by_contra none
  have holds : ∀ bench : Bench 0, Reached 0 3 bench → bench.main = .checking → bench.cn = 3 :=
    fun bench reached here => by_contra fun other => none ⟨bench, reached, here, other⟩
  rcases (bench_asserts 0 3 (by decide)).2.mp holds with staffed | idle
  · exact absurd staffed (by decide)
  · exact absurd idle (by decide)

end Bench

end SysProg.Pool
