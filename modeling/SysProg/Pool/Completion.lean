import Mathlib.Data.Fintype.Card
import Mathlib.Data.Set.Finite.Basic
import Mathlib.Data.Set.Finite.Range
import SysProg.Data.Workload
import SysProg.Pool.Fifo
import SysProg.Pool.Wakeup
import SysProg.Transition.Until

namespace SysProg.Pool

open Relation SysProg.Transition SysProg.Data

/-! # `tpool_wait` returns

Every run of a client that makes finitely many calls ends with `tpool_wait` back and all the
tasks done, whatever the threads are scheduled to do. -/

variable {n : Nat} {Func Arg : Type} {state before after : State n Func Arg} {queue : List Addr}
  {cells next : Cells n Func Arg}

/-! ## No cell is lost -/

/-- Every allocated cell is in the queue or in the hands of a worker. -/
def Tidy (cells : Cells n Func Arg) (queue : List Addr) : Prop :=
  ∀ address, cells.state.heap address ≠ none → address ∈ queue ∨ address ∈ cells.loose

theorem Tidy.step (stored : Stored cells queue) (tidy : Tidy cells queue) (taken : QueueStep cells next) :
    ∃ queue', Stored next queue' ∧ Tidy next queue' := by
  cases taken with
  | other same =>
      refine ⟨queue, stored.congr same, fun address some => tidy address ?_⟩
      exact same.heap ▸ some
  | @add state linked after loose job func arg unused link same =>
      refine ⟨queue ++ [job], (stored.add unused link).congr same, fun address some => ?_⟩
      obtain ⟨other, link', _, _, kept⟩ := linkJob_isQueue func arg stored.isQueue unused
      obtain rfl : linked = other := Option.some.inj (link.symm.trans link')
      by_cases new : address = job
      · exact .inl (List.mem_append_right _ (List.mem_singleton.mpr new))
      · refine (tidy address fun gone => some ?_).imp (List.mem_append_left _) id
        have before : payload linked.heap address = none := by
          rw [kept address new, payload, show state.heap address = none from gone]
          rfl
        rw [show (Cells.mk after loose).state.heap = linked.heap from same.heap]
        exact Option.map_eq_none_iff.mp before
  | dequeue i job task head found same =>
      obtain ⟨rest, rfl, remains⟩ := stored.dequeue head found i
      refine ⟨rest, remains.congr same, fun address some => ?_⟩
      rcases tidy address (same.heap ▸ some) with member | loose
      · rcases List.mem_cons.mp member with first | behind
        · exact .inr (.inl first)
        · exact .inl behind
      · exact .inr (.inr loose)
  | @free state after loose job held same =>
      refine ⟨queue, (stored.free held).congr same, fun address some => ?_⟩
      have there : Function.update state.heap job none address ≠ none :=
        fun gone => some ((congrFun same.heap address).trans gone)
      have different : address ≠ job := by
        intro equal
        exact there (by rw [equal, Function.update_self])
      have older : state.heap address ≠ none := by
        rwa [Function.update_of_ne different] at there
      exact (tidy address older).imp id fun loose => ⟨loose, different⟩

theorem Tidy.of_reachable (reachable : Reachable state) :
    ∃ queue, Stored ⟨state, state.inHand⟩ queue ∧ Tidy ⟨state, state.inHand⟩ queue := by
  have kept : ∀ cells : Cells n Func Arg, ReflTransGen QueueStep ⟨tpool_init n Func Arg, ∅⟩ cells →
      ∃ queue, Stored cells queue ∧ Tidy cells queue := by
    intro cells run
    induction run with
    | refl => exact ⟨[], .initially, fun address some => absurd rfl some⟩
    | tail _ taken ih =>
        obtain ⟨queue, stored, tidy⟩ := ih
        exact tidy.step stored taken
  exact kept _ reachable.queueRun

/-- `malloc` finds an address. -/
theorem Tidy.fresh (tidy : Tidy ⟨state, state.inHand⟩ queue) : ∃ job, state.heap job = none := by
  have hands : state.inHand.Finite := by
    refine (Set.finite_range fun i => ((state.workers i).stage?.map Prod.fst).getD 0).subset ?_
    intro address takes
    obtain ⟨i, stage, held⟩ := takes
    exact ⟨i, by simp only [held, Option.map_some, Option.getD_some]⟩
  obtain ⟨job, outside⟩ := (queue.finite_toSet.union hands).exists_notMem
  refine ⟨job, by_contra fun some => outside ?_⟩
  exact tidy job some

/-! ## The owner of the mutex -/

theorem AddStep.record {me : Thread n} {pc pc' : AddPc Func Arg} (step : AddStep me state pc after pc') :
    RecordLaw me state.mlock after.mlock pc.holds pc'.holds := by
  cases step with
  | acquire func arg free => exact .inr (.inl ⟨rfl, rfl⟩)
  | link _ job func arg fresh linked => exact .inl ⟨(State.linkJob_frame linked).2.1, fun _ => rfl⟩
  | broadcast => exact .inl ⟨rfl, fun _ => rfl⟩
  | unlock => exact .inr (.inr rfl)

theorem WorkerStep.record {i : Fin n} {pc pc' : WorkerPc Func Arg}
    (decided : pc = .dequeue → ¬ (state.queue_head = none ∧ state.finish = false))
    (step : WorkerStep i state pc after pc') :
    RecordLaw (.worker i) state.mlock after.mlock pc.holds pc'.holds := by
  cases step with
  | acquire free => exact .inr (.inl ⟨rfl, rfl⟩)
  | reacquire free => exact .inr (.inl ⟨rfl, rfl⟩)
  | sleep => exact .inr (.inr rfl)
  | unlockJob => exact .inr (.inr rfl)
  | unlockExit => exact .inr (.inr rfl)
  | inAdd _ _ _ _ inner => exact inner.record
  | fallThrough empty running => exact absurd ⟨empty, running⟩ (decided rfl)
  | testSleep | testPass | dequeue | leave => exact .inl ⟨rfl, fun _ => rfl⟩
  | spurious | call | add | «return» | free | broadcastJob | broadcastExit => exact .inl ⟨rfl, id⟩

theorem recorded_step (exclusive : Exclusive before) (recorded : Recorded before.mlock before.holds)
    (step : Step before after) : Recorded after.mlock after.holds := by
  cases step with
  | worker i _ middle pc pc' here inner =>
      obtain ⟨_, adders, _, workers⟩ := inner.frame
      refine recorded.step (.worker i) ?_ fun thread => setWorker_holds_other adders workers
      have law := inner.record fun at_ => exclusive.decided i (here.trans at_)
      simpa [State.holds, here, State.setWorker] using law
  | startAdd k _ func arg idle =>
      refine recorded.step (.adder k) (.inl ⟨rfl, fun held => ?_⟩)
        fun thread => setAdder_holds_other rfl (.inl rfl)
      simp [State.holds, idle, AddPc.holds] at held
  | adder k _ middle pc pc' here inner =>
      obtain ⟨_, adders, _, _, _, _, workers⟩ := inner.frame
      refine recorded.step (.adder k) ?_ fun thread => setAdder_holds_other adders workers
      simpa [State.holds, here, State.setAdder] using inner.record
  | wait _ _ inner =>
      obtain ⟨mlock, adders, _, _, workers⟩ := inner.frame
      intro thread owns
      rw [mlock] at owns
      have held := recorded thread owns
      cases thread with
      | worker j => simpa [State.holds, holds_of_workers workers] using held
      | adder k => simpa [State.holds, adders] using held

theorem recorded_of_reachable (reachable : Reachable state) : Recorded state.mlock state.holds :=
  @invariant_of_reached _ _ _ _ (fun state => Recorded state.mlock state.holds)
    (fun _ _ reached taken recorded => recorded_step (Exclusive.of_reachable reached) recorded taken)
    reachable nofun

/-! ## The joins -/

theorem Step.stays_exited (step : Step before after) {i : Fin n} (exited : before.workers i = .exited) :
    after.workers i = .exited := by
  rcases step.worker_pc i with same | ⟨asleep, _⟩ | ⟨middle, inner⟩
  · exact same.trans exited
  · rw [exited] at asleep
    cases asleep
  · rw [exited] at inner
    cases inner

/-- Whom `tpool_wait` has joined has exited. -/
def Joined (state : State n Func Arg) : Prop :=
  (∀ count, state.waiter = .join count → count ≤ n ∧ ∀ i : Fin n, i < count → state.workers i = .exited) ∧
    (state.waiter = .returned → ∀ i, state.workers i = .exited)

theorem Joined.step (joined : Joined before) (step : Step before after) : Joined after := by
  obtain ⟨some, all⟩ := joined
  rcases step.waiter with same | inner
  · rw [Joined, same]
    refine ⟨fun count joins => ⟨(some count joins).1, fun i less => ?_⟩, fun back i => ?_⟩
    · exact step.stays_exited ((some count joins).2 i less)
    · exact step.stays_exited (all back i)
  · cases inner with
    | call | setFinish => exact ⟨nofun, nofun⟩
    | broadcast =>
        refine ⟨fun count joins => ?_, nofun⟩
        cases joins
        exact ⟨n.zero_le, fun i less => absurd less (Nat.not_lt_zero _)⟩
    | join i joins exited =>
        obtain ⟨_, earlier⟩ := some i joins
        refine ⟨fun count now => ?_, nofun⟩
        cases now
        refine ⟨i.isLt, fun j less => ?_⟩
        rcases Nat.lt_succ_iff_lt_or_eq.mp less with below | same
        · exact earlier j below
        · rw [Fin.ext same]
          exact exited
    | returned joins => exact ⟨nofun, fun _ i => (some n joins).2 i i.isLt⟩

theorem Joined.of_reachable (reachable : Reachable state) : Joined state :=
  invariant_of_run (fun _ _ taken joined => joined.step taken) reachable ⟨nofun, nofun⟩

/-! ## What is left to do -/

/-- What a broadcast may cost: each of the sleepers comes back to its test. -/
def wake (n : Nat) : Nat := n * 3

/-- What a task in the queue costs from its removal to the broadcast behind it. -/
def perTask (n : Nat) : Nat := wake n + 9

/-- What a call of `tpool_add` that has not begun costs. -/
def perCall (n : Nat) : Nat := perTask n + wake n + 5

def AddPc.cost (n : Nat) : AddPc Func Arg → Nat
  | .idle => 0
  | .lock _ _ => perTask n + wake n + 4
  | .link _ _ => perTask n + wake n + 3
  | .broadcast => wake n + 2
  | .unlock => 1

def WorkerPc.cost (n : Nat) : WorkerPc Func Arg → Nat
  | .exited => 0
  | .broadcastExit => wake n + 1
  | .unlockExit => wake n + 2
  | .dequeue | .asleep => wake n + 3
  | .wait => wake n + 4
  | .test => wake n + 5
  | .lock | .woken => wake n + 6
  | .broadcastJob => 2 * wake n + 7
  | .free _ => 2 * wake n + 8
  | .run _ add => 2 * wake n + 9 + add.cost n
  | .call _ => 2 * wake n + 10
  | .unlockJob _ => 2 * wake n + 11

def WaitPc.cost (n : Nat) : WaitPc → Nat
  | .returned => 0
  | .join i => n - i + 1
  | .broadcast => wake n + n + 2
  | .setFinish => wake n + n + 3
  | .notCalled => wake n + n + 4

namespace State

def queued (state : State n Func Arg) : Nat := state.added.length - state.taken.length

/-- What the queue and the workers cost. -/
def load (state : State n Func Arg) : Nat :=
  perTask n * state.queued + workload (WorkerPc.cost n) Finset.univ state.workers

/-- What the threads cost when the client has `clients` of its own. -/
def cost (clients : Nat) (state : State n Func Arg) : Nat :=
  state.load + workload (AddPc.cost n) (Finset.range clients) state.adders + state.waiter.cost n

theorem load_setWorker (i : Fin n) (pc : WorkerPc Func Arg) :
    (state.setWorker i pc).load + (state.workers i).cost n = state.load + pc.cost n := by
  have moved := @workload_update _ _ (WorkerPc.cost n) Finset.univ state.workers _ i (Finset.mem_univ i) pc
  rw [load, load]
  change perTask n * state.queued + workload (WorkerPc.cost n) Finset.univ (Function.update state.workers i pc) +
    (state.workers i).cost n = _
  omega

theorem load_broadcast : state.broadcast.load ≤ state.load + wake n := by
  have woken : workload (WorkerPc.cost n) Finset.univ state.broadcast.workers ≤
      workload (WorkerPc.cost n) Finset.univ state.workers + (Finset.univ : Finset (Fin n)).card * 3 := by
    refine workload_le fun i => ?_
    rcases state.broadcast_workers i with same | ⟨asleep, woken⟩
    · rw [same]
      omega
    · rw [asleep, woken, WorkerPc.cost, WorkerPc.cost]
  rw [Finset.card_fin] at woken
  rw [load, load, wake]
  change perTask n * state.queued + _ ≤ _
  omega

end State

/-- A step inside `tpool_add` leaves less to do; the task it links is paid for. -/
theorem AddStep.lowers {me : Thread n} {pc pc' : AddPc Func Arg} (step : AddStep me state pc after pc')
    (order : state.taken.length ≤ state.added.length) :
    after.load + pc'.cost n < state.load + pc.cost n := by
  cases step with
  | acquire func arg free =>
      change state.load + (AddPc.link func arg).cost n < _
      rw [AddPc.cost, AddPc.cost]
      omega
  | link _ job func arg fresh linked =>
      obtain ⟨_, _, workers, _, _, _, added, _, taken, _⟩ := State.linkJob_frame linked
      have more : after.queued = state.queued + 1 := by
        rw [State.queued, State.queued, added, taken]
        change (state.added ++ [_]).length - state.taken.length = _
        rw [List.length_append, List.length_singleton]
        omega
      have load : after.load = state.load + perTask n := by
        rw [State.load, State.load, more, workers, Nat.mul_succ]
        change _ + workload (WorkerPc.cost n) Finset.univ state.workers = _
        omega
      rw [load, AddPc.cost, AddPc.cost]
      omega
  | broadcast =>
      have woken := @State.load_broadcast _ _ _ state
      rw [AddPc.cost, AddPc.cost]
      omega
  | unlock =>
      change state.load + AddPc.idle.cost n < _
      rw [AddPc.cost, AddPc.cost]
      omega

theorem Stored.lengths (stored : Stored cells queue) :
    cells.state.taken.length + queue.length = cells.state.added.length := by
  have lengths := congrArg List.length stored.order
  rwa [List.length_append, List.length_map, List.length_map, List.length_range] at lengths

theorem lowers_of {i : Fin n} {pc pc' : WorkerPc Func Arg} (there : after.workers i = pc)
    (less : after.load + pc'.cost n < before.load + pc.cost n) :
    (after.setWorker i pc').load < before.load := by
  have moved := @State.load_setWorker _ _ _ after i pc'
  rw [there] at moved
  omega

/-- A step of a worker leaves less to do, but for a wake-up that nobody has sent and for a
task that calls `tpool_add`. -/
theorem WorkerStep.lowers {i : Fin n} {pc pc' : WorkerPc Func Arg} (step : WorkerStep i before pc after pc')
    (here : before.workers i = pc) (decided : Decided before)
    (stored : Stored ⟨before, before.inHand⟩ queue) :
    (pc = .asleep ∧ pc' = .woken ∧ after = before) ∨
      (∃ job func arg, pc = .run job .idle ∧ pc' = .run job (.lock func arg) ∧ after = before) ∨
      (after.setWorker i pc').load < before.load := by
  have order := stored.lengths
  have woken := @State.load_broadcast _ _ _ before
  have stays (awake : pc ≠ .asleep) : before.broadcast.workers i = pc :=
    (before.broadcast_awake (here ▸ awake)).trans here
  cases step with
  | spurious => exact .inl ⟨rfl, rfl, rfl⟩
  | add job func arg => exact .inr (.inl ⟨job, func, arg, rfl, rfl, rfl⟩)
  | fallThrough empty running => exact absurd ⟨empty, running⟩ (decided i here)
  | inAdd _ job add add' inner =>
      have there : after.workers i = .run job add := by
        rcases inner.frame.2.2.2.2.2.2 with same | woken
        · exact (congrFun same i).trans here
        · exact (congrFun woken i).trans (stays nofun)
      have less := inner.lowers (Nat.le.intro order)
      refine .inr (.inr (lowers_of there ?_))
      rw [WorkerPc.cost, WorkerPc.cost]
      omega
  | dequeue job task head found =>
      obtain ⟨rest, rfl, _⟩ := stored.dequeue head found i
      have fewer : before.queued = (before.dequeueJob i job task).queued + 1 := by
        rw [State.queued, State.queued]
        change _ = before.added.length - (before.taken ++ [_]).length + 1
        rw [List.length_append, List.length_singleton]
        rw [List.length_cons] at order
        change before.taken.length + _ = before.added.length at order
        omega
      have load : before.load = (before.dequeueJob i job task).load + perTask n := by
        rw [State.load, State.load, fewer, Nat.mul_succ]
        change _ = _ + workload (WorkerPc.cost n) Finset.univ before.workers + _
        omega
      refine .inr (.inr (lowers_of here ?_))
      rw [load, WorkerPc.cost, WorkerPc.cost, perTask]
      omega
  | broadcastJob =>
      refine .inr (.inr (lowers_of (stays nofun) ?_))
      rw [WorkerPc.cost, WorkerPc.cost]
      omega
  | broadcastExit =>
      refine .inr (.inr (lowers_of (stays nofun) ?_))
      rw [WorkerPc.cost, WorkerPc.cost]
      omega
  | call job task found =>
      refine .inr (.inr (lowers_of here ?_))
      change before.load + _ < _
      rw [WorkerPc.cost, WorkerPc.cost, AddPc.cost]
      omega
  | «return» job =>
      refine .inr (.inr (lowers_of here ?_))
      change before.load + _ < _
      rw [WorkerPc.cost, WorkerPc.cost, AddPc.cost]
      omega
  | acquire | testSleep | testPass | sleep | reacquire | unlockJob | free | leave | unlockExit =>
      refine .inr (.inr (lowers_of here ?_))
      change before.load + _ < _
      rw [WorkerPc.cost, WorkerPc.cost]
      omega

theorem WaitStep.lowers (step : WaitStep before after) :
    after.load + after.waiter.cost n < before.load + before.waiter.cost n := by
  have woken := @State.load_broadcast _ _ _ before
  cases step with
  | call here =>
      change before.load + WaitPc.setFinish.cost n < _
      rw [here, WaitPc.cost, WaitPc.cost]
      omega
  | setFinish here =>
      change before.load + WaitPc.broadcast.cost n < _
      rw [here, WaitPc.cost, WaitPc.cost]
      omega
  | broadcast here =>
      change before.broadcast.load + (WaitPc.join 0).cost n < _
      rw [here, WaitPc.cost, WaitPc.cost]
      omega
  | join i here exited =>
      change before.load + (WaitPc.join (i + 1)).cost n < _
      rw [here, WaitPc.cost, WaitPc.cost]
      omega
  | returned here =>
      change before.load + WaitPc.returned.cost n < _
      rw [here, WaitPc.cost, WaitPc.cost]
      omega

/-! ## A client that makes finitely many calls -/

/-- A wake-up that nobody has sent. -/
def Spurious (before after : State n Func Arg) : Prop :=
  ∃ i, before.workers i = .asleep ∧ after = before.setWorker i .woken

/-- A call of `tpool_add` begins. -/
def Starts (before after : State n Func Arg) : Prop :=
  (∃ k func arg, before.adders k = .idle ∧ after.adders k = .lock func arg) ∨
    ∃ i job func arg, before.workers i = .run job .idle ∧ after.workers i = .run job (.lock func arg)

/-- A step of a client with `clients` threads of its own; the number beside the state says
how many calls of `tpool_add` are still to come. -/
structure Orderly (clients : Nat) (before after : State n Func Arg × Nat) : Prop where
  step : Step before.1 after.1
  client : ByClient before.1 after.1
  timely : Timely before.1 after.1
  sent : ¬ Spurious before.1 after.1
  few : ∀ k, clients ≤ k → after.1.adders k = .idle
  calls : (Starts before.1 after.1 ∧ after.2 + 1 = before.2) ∨
    (¬ Starts before.1 after.1 ∧ after.2 = before.2)

/-- What holds in the run of such a client. -/
structure Course (clients : Nat) (state : State n Func Arg) : Prop where
  client : ClientRun state
  timely : ReflTransGen (Restrict Step Timely) (tpool_init n Func Arg) state
  few : ∀ k, clients ≤ k → state.adders k = .idle

variable {clients : Nat} {now later : State n Func Arg × Nat}

theorem Course.initially : Course clients (tpool_init n Func Arg) := ⟨.refl, .refl, fun _ _ => rfl⟩

theorem Course.reachable (course : Course clients state) : Reachable state :=
  Restrict.run ByClient course.client

theorem Course.step (course : Course clients now.1) (orderly : Orderly clients now later) :
    Course clients later.1 where
  client := course.client.tail ⟨orderly.step, orderly.client⟩
  timely := course.timely.tail ⟨orderly.step, orderly.timely⟩
  few := orderly.few

theorem own_thread {k : Nat} (few : ∀ k, clients ≤ k → state.adders k = .idle)
    (inside : state.adders k ≠ .idle) : k ∈ Finset.range clients := by
  rw [Finset.mem_range]
  by_contra beyond
  exact inside (few k (Nat.le_of_not_lt beyond))

/-- A step leaves less to do, but for a wake-up that nobody has sent and the beginning of a call. -/
theorem Step.lowers (step : Step before after) (decided : Decided before)
    (stored : Stored ⟨before, before.inHand⟩ queue) (few : ∀ k, clients ≤ k → before.adders k = .idle)
    (few' : ∀ k, clients ≤ k → after.adders k = .idle) :
    Spurious before after ∨ (Starts before after ∧ after.cost clients < before.cost clients + perCall n) ∨
      after.cost clients < before.cost clients := by
  have order : before.taken.length ≤ before.added.length := Nat.le.intro stored.lengths
  cases step with
  | worker i _ middle pc pc' here inner =>
      obtain ⟨_, adders, waiter, _⟩ := inner.frame
      have total : (middle.setWorker i pc').cost clients = (middle.setWorker i pc').load +
          workload (AddPc.cost n) (Finset.range clients) before.adders + before.waiter.cost n := by
        rw [← adders, ← waiter]
        rfl
      rw [total, State.cost]
      rcases inner.lowers here decided stored with ⟨asleep, rfl, rfl⟩ | ⟨job, func, arg, rfl, rfl, rfl⟩ | less
      · exact .inl ⟨i, here.trans asleep, rfl⟩
      · have moved := @State.load_setWorker _ _ _ middle i (.run job (.lock func arg))
        rw [here, WorkerPc.cost, WorkerPc.cost, AddPc.cost, AddPc.cost] at moved
        refine .inr (.inl ⟨.inr ⟨i, job, func, arg, here, State.setWorker_self i _⟩, ?_⟩)
        rw [perCall]
        omega
      · exact .inr (.inr (by omega))
  | startAdd k _ func arg idle =>
      have own := own_thread few' (by rw [State.setAdder_self]; nofun)
      have moved := @workload_update _ _ (AddPc.cost n) (Finset.range clients) before.adders _ k own (.lock func arg)
      rw [idle, AddPc.cost, AddPc.cost] at moved
      refine .inr (.inl ⟨.inl ⟨k, func, arg, idle, State.setAdder_self k _⟩, ?_⟩)
      rw [perCall]
      change before.load + workload (AddPc.cost n) (Finset.range clients)
        (Function.update before.adders k (.lock func arg)) + before.waiter.cost n < before.load + _ + _ + _
      omega
  | adder k _ middle pc pc' here inner =>
      obtain ⟨_, adders, waiter, _⟩ := inner.frame
      have own := own_thread few (k := k) (by rw [here]; intro idle; subst idle; cases inner)
      have moved := @workload_update _ _ (AddPc.cost n) (Finset.range clients) before.adders _ k own pc'
      rw [here] at moved
      have less := inner.lowers order
      have total : (middle.setAdder k pc').cost clients = middle.load +
          workload (AddPc.cost n) (Finset.range clients) (Function.update before.adders k pc') +
            before.waiter.cost n := by
        rw [← adders, ← waiter]
        rfl
      rw [total, State.cost]
      exact .inr (.inr (by omega))
  | wait _ _ inner =>
      have less := inner.lowers
      rw [State.cost, State.cost, inner.frame.2.1]
      exact .inr (.inr (by omega))

/-- Every step of the client leaves less to do. -/
theorem Orderly.lowers (course : Course clients now.1) (orderly : Orderly clients now later) :
    later.1.cost clients + perCall n * later.2 < now.1.cost clients + perCall n * now.2 := by
  obtain ⟨queue, stored, _⟩ := Tidy.of_reachable course.reachable
  have decided := (Exclusive.of_reachable course.reachable).decided
  have paid : perCall n * later.2 + perCall n = perCall n * now.2 ∨
      ¬ Starts now.1 later.1 ∧ later.2 = now.2 := by
    rcases orderly.calls with ⟨_, fewer⟩ | none
    · rw [← Nat.mul_succ]
      exact .inl (congrArg _ fewer)
    · exact .inr none
  rcases orderly.step.lowers decided stored course.few orderly.few with spurious | ⟨starts, less⟩ | less
  · exact absurd spurious orderly.sent
  · rcases paid with unit | ⟨none, _⟩
    · omega
    · exact absurd starts none
  · rcases paid with unit | ⟨_, same⟩
    · omega
    · rw [same]
      omega

/-! ## Nobody waits for ever -/

/-- A thread inside `tpool_add` goes on, unless it waits for the mutex. -/
theorem AddStep.goes {me : Thread n} {pc : AddPc Func Arg} (busy : pc ≠ .idle)
    (free : pc.holds = false → state.mlock = none) (stored : Stored ⟨state, state.inHand⟩ queue)
    (tidy : Tidy ⟨state, state.inHand⟩ queue) :
    ∃ after pc', AddStep me state pc after pc' ∧ pc' ≠ pc := by
  cases pc with
  | idle => exact absurd rfl busy
  | lock func arg => exact ⟨_, _, .acquire _ func arg (free rfl), nofun⟩
  | link func arg =>
      obtain ⟨job, unused⟩ := tidy.fresh
      obtain ⟨linked, link, _⟩ := linkJob_isQueue func arg stored.isQueue unused
      exact ⟨_, _, .link _ linked job func arg unused link, nofun⟩
  | broadcast => exact ⟨_, _, .broadcast _, nofun⟩
  | unlock => exact ⟨_, _, .unlock _, nofun⟩

/-- So does a worker that neither sleeps nor has exited. -/
theorem WorkerStep.goes {i : Fin n} {pc : WorkerPc Func Arg} (here : state.workers i = pc)
    (awake : pc ≠ .asleep) (stays : pc ≠ .exited) (free : pc.holds = false → state.mlock = none)
    (stored : Stored ⟨state, state.inHand⟩ queue) (tidy : Tidy ⟨state, state.inHand⟩ queue) :
    ∃ after pc', WorkerStep i state pc after pc' ∧ pc' ≠ pc ∧
      ∀ job func arg, pc = .run job .idle → pc' ≠ .run job (.lock func arg) := by
  cases pc with
  | asleep => exact absurd rfl awake
  | exited => exact absurd rfl stays
  | lock => exact ⟨_, _, .acquire _ (free rfl), nofun, nofun⟩
  | woken => exact ⟨_, _, .reacquire _ (free rfl), nofun, nofun⟩
  | test =>
      by_cases sleeps : state.queue_head = none ∧ state.finish = false
      · exact ⟨_, _, .testSleep _ sleeps.1 sleeps.2, nofun, nofun⟩
      · exact ⟨_, _, .testPass _ sleeps, nofun, nofun⟩
  | wait => exact ⟨_, _, .sleep _, nofun, nofun⟩
  | dequeue =>
      cases head : state.queue_head with
      | none =>
          cases set : state.finish with
          | true => exact ⟨_, _, .leave _ head set, nofun, nofun⟩
          | false => exact ⟨_, _, .fallThrough _ head set, nofun, nofun⟩
      | some job =>
          have member : job ∈ queue := by
            cases queue with
            | nil => exact nomatch stored.isQueue.chain.symm.trans head
            | cons first rest =>
                obtain ⟨start, _⟩ := stored.isQueue.chain
                exact List.mem_cons.mpr (.inl (Option.some.inj (head.symm.trans start)))
          obtain ⟨task, found⟩ := stored.isQueue.chain.stored member
          exact ⟨_, _, .dequeue _ job task head found, nofun, nofun⟩
  | unlockJob job => exact ⟨_, _, .unlockJob _ job, nofun, nofun⟩
  | call job =>
      have held : state.heap job ≠ none := stored.held job ⟨i, .taken, by rw [here]; rfl⟩
      obtain ⟨task, found⟩ := Option.ne_none_iff_exists'.mp held
      exact ⟨_, _, .call _ job task found, nofun, nofun⟩
  | run job add =>
      by_cases idle : add = .idle
      · subst idle
        exact ⟨_, _, .return _ job, nofun, fun _ _ _ _ => nofun⟩
      · obtain ⟨after, add', inner, moves⟩ := @AddStep.goes _ _ _ _ _ (.worker i) _ idle free stored tidy
        exact ⟨after, _, .inAdd _ _ job _ _ inner, fun same => moves (WorkerPc.run.inj same).2,
          fun _ _ _ same => absurd (WorkerPc.run.inj same).2 idle⟩
  | free job => exact ⟨_, _, .free _ job, nofun, nofun⟩
  | broadcastJob => exact ⟨_, _, .broadcastJob _, nofun, nofun⟩
  | unlockExit => exact ⟨_, _, .unlockExit _, nofun, nofun⟩
  | broadcastExit => exact ⟨_, _, .broadcastExit _, nofun, nofun⟩

variable {left : Nat}

theorem ByClient.of_same (waiter : after.waiter = before.waiter)
    (adders : ∀ k, before.adders k = .idle → after.adders k = .idle) : ByClient before after :=
  ⟨fun k idle busy => absurd (adders k idle) busy, fun open_ called => absurd (waiter.trans open_) called⟩

theorem Timely.of_same (waiter : after.waiter = before.waiter) : Timely before after :=
  fun here moved => absurd (waiter.trans here) moved

theorem Orderly.of_worker {i : Fin n} {pc pc' : WorkerPc Func Arg} (course : Course clients before)
    (here : before.workers i = pc) (inner : WorkerStep i before pc after pc') (awake : pc ≠ .asleep)
    (moves : pc' ≠ pc) (quiet : ∀ job func arg, pc = .run job .idle → pc' ≠ .run job (.lock func arg)) :
    Orderly clients (before, left) (after.setWorker i pc', left) := by
  obtain ⟨_, adders, waiter, workers⟩ := inner.frame
  refine ⟨.worker i _ _ _ _ here inner, .of_same waiter fun k idle => (congrFun adders k).trans idle,
    .of_same waiter, ?_, fun k beyond => (congrFun adders k).trans (course.few k beyond), .inr ⟨?_, rfl⟩⟩
  · intro spurious
    obtain ⟨j, asleep, same⟩ := spurious
    have mine : pc' = (before.setWorker j .woken).workers i := by
      rw [← show _ = before.setWorker j .woken from same, State.setWorker_self]
    by_cases equal : j = i
    · subst equal
      exact awake (here.symm.trans asleep)
    · rw [State.setWorker_other (Ne.symm equal)] at mine
      exact moves (mine.trans here)
  · intro starts
    rcases starts with ⟨k, func, arg, idle, locks⟩ | ⟨j, job, func, arg, runs, locks⟩
    · cases ((congrFun adders k).trans idle).symm.trans locks
    · by_cases equal : j = i
      · subst equal
        exact quiet job func arg (here.symm.trans runs) ((State.setWorker_self _ _).symm.trans locks)
      · have still : (after.setWorker i pc').workers j = .run job .idle := by
          rw [State.setWorker_other equal]
          exact (workers_eq_iff (by simp) (by simp) workers).mpr runs
        cases still.symm.trans locks

theorem Orderly.of_adder {k : Nat} {pc pc' : AddPc Func Arg} (course : Course clients before)
    (here : before.adders k = pc) (inner : AddStep (.adder k) before pc after pc') (moves : pc' ≠ pc) :
    Orderly clients (before, left) (after.setAdder k pc', left) := by
  obtain ⟨_, adders, waiter, _, _, _, workers⟩ := inner.frame
  have busy : pc ≠ .idle := by
    intro idle
    subst idle
    cases inner
  have still (l : Nat) (idle : before.adders l = .idle) : (after.setAdder k pc').adders l = .idle := by
    have other : l ≠ k := by
      intro same
      subst same
      exact busy (here.symm.trans idle)
    rw [State.setAdder_other other]
    exact (congrFun adders l).trans idle
  refine ⟨.adder k _ _ _ _ here inner, .of_same waiter still, .of_same waiter, ?_,
    fun l beyond => still l (course.few l beyond), .inr ⟨?_, rfl⟩⟩
  · intro spurious
    obtain ⟨j, _, same⟩ := spurious
    have mine : pc' = (before.setWorker j .woken).adders k := by
      rw [← show _ = before.setWorker j .woken from same, State.setAdder_self]
    exact moves (mine.trans here)
  · intro starts
    rcases starts with ⟨l, func, arg, idle, locks⟩ | ⟨j, job, func, arg, runs, locks⟩
    · cases (still l idle).symm.trans locks
    · have stays : (after.setAdder k pc').workers j = .run job .idle :=
        (workers_eq_iff (by simp) (by simp) workers).mpr runs
      cases stays.symm.trans locks

theorem Orderly.of_wait (course : Course clients before) (inner : WaitStep before after)
    (moves : after.waiter ≠ before.waiter) (client : ByClient before after) (timely : Timely before after) :
    Orderly clients (before, left) (after, left) := by
  obtain ⟨_, adders, _, _, workers⟩ := inner.frame
  refine ⟨.wait _ _ inner, client, timely, ?_, fun k beyond => (congrFun adders k).trans (course.few k beyond),
    .inr ⟨?_, rfl⟩⟩
  · intro spurious
    obtain ⟨j, _, same⟩ := spurious
    exact moves (by rw [show after = before.setWorker j .woken from same]; rfl)
  · intro starts
    rcases starts with ⟨k, func, arg, idle, locks⟩ | ⟨j, job, func, arg, runs, locks⟩
    · cases ((congrFun adders k).trans idle).symm.trans locks
    · cases ((workers_eq_iff (by simp) (by simp) workers).mpr runs).symm.trans locks

/-- While somebody owns the mutex, the owner goes on. -/
theorem Course.owner_goes (course : Course clients state) {thread : Thread n} (owned : state.mlock = some thread) :
    ∃ later, Orderly clients (state, left) later := by
  obtain ⟨queue, stored, tidy⟩ := Tidy.of_reachable course.reachable
  have held := recorded_of_reachable course.reachable thread owned
  cases thread with
  | worker i =>
      have inside : (state.workers i).holds = true := held
      have awake : state.workers i ≠ .asleep := fun same => by simp [same, WorkerPc.holds] at inside
      have stays : state.workers i ≠ .exited := fun same => by simp [same, WorkerPc.holds] at inside
      obtain ⟨after, pc', inner, moves, quiet⟩ := WorkerStep.goes rfl awake stays
        (fun outside => by simp [inside] at outside) stored tidy
      exact ⟨_, .of_worker course rfl inner awake moves quiet⟩
  | adder k =>
      have inside : (state.adders k).holds = true := held
      have busy : state.adders k ≠ .idle := fun same => by simp [same, AddPc.holds] at inside
      obtain ⟨after, pc', inner, moves⟩ := @AddStep.goes _ _ _ _ _ (.adder k) _ busy
        (fun outside => by simp [inside] at outside) stored tidy
      exact ⟨_, .of_adder course rfl inner moves⟩

/-- With the mutex free and all other threads at rest, `tpool_wait` goes on. -/
theorem Course.waiter_goes (course : Course clients state) (free : state.mlock = none)
    (idle : ∀ k, state.adders k = .idle) (rests : ∀ i, state.workers i = .asleep ∨ state.workers i = .exited) :
    state.waiter = .returned ∨ ∃ later, Orderly clients (state, left) later := by
  have called {after : State n Func Arg} (adders : after.adders = state.adders) : ByClient state after :=
    ⟨fun k idle busy => absurd ((congrFun adders k).trans idle) busy, fun _ _ => idle⟩
  cases here : state.waiter with
  | returned => exact .inl rfl
  | notCalled =>
      exact .inr ⟨_, .of_wait course (.call _ here) (by rw [here]; nofun) (called rfl)
        fun at_ => by rw [here] at at_; cases at_⟩
  | setFinish =>
      exact .inr ⟨_, .of_wait course (.setFinish _ here) (by rw [here]; nofun) (called rfl)
        fun at_ => by rw [here] at at_; cases at_⟩
  | broadcast =>
      refine .inr ⟨_, .of_wait course (.broadcast _ here) (by rw [here]; nofun) (called rfl)
        fun _ _ => .inr fun i waits => ?_⟩
      rcases rests i with asleep | exited
      · cases waits.symm.trans asleep
      · cases waits.symm.trans exited
  | join count =>
      obtain ⟨atMost, _⟩ := (Joined.of_reachable course.reachable).1 count here
      have apart {after : State n Func Arg} : Timely state after :=
        fun at_ => by rw [here] at at_; cases at_
      rcases Nat.eq_or_lt_of_le atMost with last | more
      · subst last
        exact .inr ⟨_, .of_wait course (.returned _ here) (by rw [here]; nofun) (called rfl) apart⟩
      · rcases rests ⟨count, more⟩ with asleep | exited
        · have announced : state.waiter.announced = true := by rw [here]; rfl
          have set := (Announced.of_reachable course.reachable).set (finishSet_of_announced announced)
          have empty : state.queue_head = none := by
            rcases (Notified.of_reachable course.reachable).asleep _ asleep with empty | ⟨thread, about⟩
            · exact empty
            · have owner := (Exclusive.of_reachable course.reachable).owned thread
                (State.holds_of_broadcasting about)
              cases free.symm.trans owner
          exact absurd ⟨announced, set, empty, ⟨_, asleep⟩, rests⟩ (not_stranded_of_timely course.timely)
        · refine .inr ⟨_, .of_wait course (.join _ ⟨count, more⟩ here exited) ?_ (called rfl) apart⟩
          rw [here]
          exact fun same => Nat.succ_ne_self count (WaitPc.join.inj same)

/-- Until `tpool_wait` has returned, some step can be taken. -/
theorem Course.goes (course : Course clients state) :
    state.waiter = .returned ∨ ∃ later, Orderly clients (state, left) later := by
  cases owned : state.mlock with
  | some thread => exact .inr (course.owner_goes owned)
  | none =>
      obtain ⟨queue, stored, tidy⟩ := Tidy.of_reachable course.reachable
      by_cases worker : ∃ i, state.workers i ≠ .asleep ∧ state.workers i ≠ .exited
      · obtain ⟨i, awake, stays⟩ := worker
        obtain ⟨after, pc', inner, moves, quiet⟩ := WorkerStep.goes rfl awake stays (fun _ => owned) stored tidy
        exact .inr ⟨_, .of_worker course rfl inner awake moves quiet⟩
      · by_cases adder : ∃ k, state.adders k ≠ .idle
        · obtain ⟨k, busy⟩ := adder
          obtain ⟨after, pc', inner, moves⟩ :=
            @AddStep.goes _ _ _ _ _ (.adder k) _ busy (fun _ => owned) stored tidy
          exact .inr ⟨_, .of_adder course rfl inner moves⟩
        · refine course.waiter_goes owned (fun k => by_contra fun busy => adder ⟨k, busy⟩) fun i => ?_
          by_contra other
          rw [not_or] at other
          exact worker ⟨i, other.1, other.2⟩

/-! ## What `tpool_destroy` finds -/

/-- A pool that nobody uses: no thread is inside its functions or sleeps on its condition, the
mutex is free, and no cell is left. -/
structure Unused (state : State n Func Arg) : Prop where
  exited : ∀ i, state.workers i = .exited
  outside : ∀ k, state.adders k = .idle
  free : state.mlock = none
  empty : state.queue_head = none
  freed : ∀ address, state.heap address = none

theorem Course.unused (positive : 0 < n) (course : Course clients state) (returned : state.waiter = .returned) :
    Unused state := by
  have exited := (Joined.of_reachable course.reachable).2 returned
  have attended := Attended.of_run positive course.client
  have outside := attended.stopped (by rw [returned]; nofun)
  have empty : state.queue_head = none := by
    by_contra queued
    obtain ⟨i, staffed⟩ := attended.staffed queued
    simp [exited i, WorkerPc.leaving] at staffed
  refine ⟨exited, outside, ?_, empty, fun address => ?_⟩
  · cases owned : state.mlock with
    | none => rfl
    | some thread =>
        have held := recorded_of_reachable course.reachable thread owned
        cases thread with
        | worker i => simp [State.holds, exited i, WorkerPc.holds] at held
        | adder k => simp [State.holds, outside k, AddPc.holds] at held
  · obtain ⟨queue, stored, tidy⟩ := Tidy.of_reachable course.reachable
    obtain rfl : queue = [] := stored.isQueue.chain.head_none_iff.mp empty
    by_contra some
    rcases tidy address some with member | ⟨i, stage, held⟩
    · cases member
    · have none : (state.workers i).stage? = .none := by rw [exited i]; rfl
      cases none.symm.trans held

/-- Nobody comes back to such a pool. -/
theorem Unused.stays (unused : Unused state) (returned : state.waiter = .returned) (later : State n Func Arg × Nat) :
    ¬ Orderly clients (state, left) later := by
  intro orderly
  obtain ⟨after, left'⟩ := later
  have client : ByClient state after := orderly.client
  have step : Step state after := orderly.step
  cases step with
  | worker i _ middle pc pc' here inner =>
      obtain rfl := here.symm.trans (unused.exited i)
      cases inner
  | startAdd k _ func arg idle =>
      have open_ := client.1 k idle (by rw [State.setAdder_self]; nofun)
      cases returned.symm.trans open_
  | adder k _ middle pc pc' here inner =>
      obtain rfl := here.symm.trans (unused.outside k)
      cases inner
  | wait _ _ inner =>
      cases inner with
      | call here | setFinish here | broadcast here | join _ here | returned here =>
          cases returned.symm.trans here

/-- A client that keeps to `ByClient`, with any number of threads that call `tpool_add` any finite
number of times, itself or from its tasks, and whose tasks return, gets `tpool_wait` back in every
run: each task has returned exactly once, nothing is left of the queue, and nobody uses the pool
that is destroyed next. -/
theorem wait_returns (n : Nat) (Func Arg : Type) (positive : 0 < n) (clients calls : Nat) :
    Until (Orderly clients) (fun _ => True)
      (fun now => now.1.waiter = .returned ∧ Unused now.1 ∧
        now.1.completed.Perm (List.range now.1.added.length) ∧ ∀ later, ¬ Orderly clients now later)
      (tpool_init n Func Arg, calls) := by
  have goal : Until (Orderly clients) (fun now => Course clients now.1)
      (fun now => Course clients now.1 ∧ now.1.waiter = .returned) (tpool_init n Func Arg, calls) :=
    .of_potential (fun now => now.1.cost clients + perCall n * now.2)
      (fun _ _ course orderly => course.step orderly) (fun _ _ course orderly => orderly.lowers course)
      (fun _ course => course.goes) .initially
  refine goal.mono (fun _ _ => trivial) ?_
  intro now ended
  obtain ⟨course, returned⟩ := ended
  have unused := course.unused positive returned
  obtain ⟨queue, consistent⟩ := Consistent.of_reachable course.reachable
  have completed := (consistent.all_completed (Attended.of_run positive course.client) unused.exited).2.2
  exact ⟨returned, unused, completed, unused.stays returned⟩

theorem wait_returns_three :
    ∃ now : State 2 Unit Unit × Nat, ReflTransGen (Orderly 1) (tpool_init 2 Unit Unit, 3) now ∧
      now.1.waiter = .returned ∧ Unused now.1 := by
  obtain ⟨now, ⟨returned, unused, _⟩, run⟩ := (wait_returns 2 Unit Unit (by decide) 1 3).reaches
  exact ⟨now, run, returned, unused⟩

end SysProg.Pool
