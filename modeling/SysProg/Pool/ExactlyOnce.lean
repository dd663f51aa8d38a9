import SysProg.Pool.Moves
import SysProg.Pool.Shutdown
import SysProg.Pool.Tasks

namespace SysProg.Pool

open Relation SysProg.Transition SysProg.Data

variable {n : Nat} {Func Arg : Type} {state before after : State n Func Arg}
  {queue : List Addr}

namespace State

/-- The ticket of the task that worker `i` has taken and not called yet. -/
def uncalled (state : State n Func Arg) (i : Fin n) : Option Nat :=
  match (state.workers i).stage? with
  | some (job, .taken) => some (state.ticket job)
  | _ => none

/-- The ticket of the task that worker `i` has taken and whose function has not
returned yet. -/
def unfinished (state : State n Func Arg) (i : Fin n) : Option Nat :=
  match (state.workers i).stage? with
  | some (job, .taken) | some (job, .running) => some (state.ticket job)
  | _ => none

/-- A cell that the pool still needs: in the queue or in the hands of a worker. -/
def Live (state : State n Func Arg) (queue : List Addr) (address : Addr) : Prop :=
  address ∈ queue ∨ ∃ i stage, (state.workers i).stage? = some (address, stage)

end State

/-- The tasks of a state: which cells are queued, which are in whose hands, and
that the history accounts for every addition. -/
structure Consistent (state : State n Func Arg) (queue : List Addr) : Prop where
  isQueue : IsQueue state queue
  payload : ∀ address, state.Live queue address →
    ∃ call, payload state.heap address = some call ∧
      state.added[state.ticket address]? = some call
  apart : ∀ i job stage, (state.workers i).stage? = some (job, stage) → job ∉ queue
  distinct : ∀ i j job stage stage', (state.workers i).stage? = some (job, stage) →
    (state.workers j).stage? = some (job, stage') → i = j
  order : state.taken.map Prod.snd ++ queue.map state.ticket = List.range state.added.length
  calls : Ledger state.taken (state.called.map Called.ticket) state.uncalled
  runs : Ledger state.taken state.completed state.unfinished
  called : ∀ call ∈ state.called, (call.worker, call.ticket) ∈ state.taken ∧
    state.added[call.ticket]? = some ⟨call.func, call.arg⟩

theorem Consistent.initially : Consistent (tpool_init n Func Arg) [] where
  isQueue := ⟨rfl, by simp, by simp⟩
  payload address live := by
    rcases live with member | ⟨i, stage, held⟩
    · cases member
    · cases held
  apart i job stage held := by cases held
  distinct i j job stage stage' held := by cases held
  order := rfl
  calls := Ledger.empty
  runs := Ledger.empty
  called call member := by cases member

theorem Consistent.taken_nodup (consistent : Consistent state queue) :
    (state.taken.map Prod.snd).Nodup := by
  have all : (state.taken.map Prod.snd ++ queue.map state.ticket).Nodup := by
    rw [consistent.order]
    exact List.nodup_range
  exact (List.nodup_append.mp all).1

theorem Consistent.quiet (consistent : Consistent before queue)
    (same : SameTasks before after) : Consistent after queue := by
  have uncalled : after.uncalled = before.uncalled := by
    funext i
    simp only [State.uncalled, same.stage i, same.ticket]
  have unfinished : after.unfinished = before.unfinished := by
    funext i
    simp only [State.unfinished, same.stage i, same.ticket]
  constructor
  · have isQueue := consistent.isQueue
    exact ⟨by rw [same.heap, same.queue_head]; exact isQueue.chain, isQueue.nodup,
      by rw [same.queue_tail]; exact isQueue.tail⟩
  · intro address live
    rw [same.heap, same.ticket, same.added]
    apply consistent.payload address
    simpa only [State.Live, same.stage] using live
  · intro i job stage held
    exact consistent.apart i job stage (same.stage i ▸ held)
  · intro i j job stage stage' first second
    exact consistent.distinct i j job stage stage' (same.stage i ▸ first) (same.stage j ▸ second)
  · rw [same.taken, same.ticket, same.added]
    exact consistent.order
  · rw [same.taken, same.called, uncalled]
    exact consistent.calls
  · rw [same.taken, same.completed, unfinished]
    exact consistent.runs
  · rw [same.taken, same.called, same.added]
    exact consistent.called

theorem Consistent.stored (consistent : Consistent state queue) {address : Addr}
    (live : state.Live queue address) : state.heap address ≠ none := by
  obtain ⟨call, stored, _⟩ := consistent.payload address live
  intro unused
  simp [SysProg.Pool.payload, unused] at stored

theorem stage_setWorker_other {i j : Fin n} {pc : WorkerPc Func Arg} (different : j ≠ i) :
    ((state.setWorker i pc).workers j).stage? = (state.workers j).stage? := by
  rw [State.setWorker_other different]

theorem Consistent.link (consistent : Consistent before queue) {job : Addr} {func : Func}
    {arg : Arg} (unused : before.heap job = none)
    (linked : (before.allocate job func arg).linkJob job = some after) :
    Consistent after (queue ++ [job]) := by
  obtain ⟨other, linked', isQueue, payloadNew, payloadOld⟩ :=
    linkJob_isQueue func arg consistent.isQueue unused
  obtain rfl : after = other := Option.some.inj (linked.symm.trans linked')
  obtain ⟨_, _, workers, _, _, _, added, ticket, taken, called, completed⟩ :=
    State.linkJob_frame linked
  have addedNow : after.added = before.added ++ [⟨func, arg⟩] := added
  have ticketNow : after.ticket = Function.update before.ticket job before.added.length := ticket
  have workersNow : after.workers = before.workers := workers
  have notJob {address : Addr} (live : before.Live queue address) : address ≠ job := by
    intro same
    obtain rfl := same
    exact consistent.stored live unused
  have keeps {ticket : Nat} {call : Added Func Arg} (found : before.added[ticket]? = some call) :
      after.added[ticket]? = some call := by
    rw [addedNow, List.getElem?_append_left]
    · exact found
    · exact (List.getElem?_eq_some_iff.mp found).1
  have inHand {i : Fin n} {address : Addr} {stage : Stage}
      (held : (after.workers i).stage? = some (address, stage)) : before.Live queue address := by
    rw [workersNow] at held
    exact .inr ⟨i, stage, held⟩
  constructor
  · exact isQueue
  · intro address live
    by_cases same : address = job
    · subst same
      refine ⟨_, payloadNew, ?_⟩
      rw [ticketNow, addedNow, Function.update_self, List.getElem?_concat_length]
    · have old : before.Live queue address := by
        rcases live with member | ⟨i, stage, held⟩
        · exact .inl (by simpa [same] using member)
        · exact inHand held
      obtain ⟨call, stored, recorded⟩ := consistent.payload address old
      refine ⟨call, (payloadOld address same).trans stored, ?_⟩
      rw [ticketNow, Function.update_of_ne same]
      exact keeps recorded
  · intro i address stage held member
    have live := inHand held
    rw [workersNow] at held
    rcases List.mem_append.mp member with old | new
    · exact consistent.apart i address stage held old
    · exact notJob live (List.mem_singleton.mp new)
  · rw [workersNow]
    exact consistent.distinct
  · have kept : queue.map after.ticket = queue.map before.ticket := by
      apply List.map_congr_left
      intro address member
      rw [ticketNow, Function.update_of_ne (notJob (.inl member))]
    rw [show after.taken = before.taken from taken, List.map_append, kept, ← List.append_assoc,
      consistent.order, addedNow, ticketNow]
    simp [List.range_succ]
  · have same : after.uncalled = before.uncalled := by
      funext i
      simp only [State.uncalled, workersNow]
      split
      · rename_i address held
        rw [ticketNow, Function.update_of_ne (notJob (.inr ⟨i, .taken, held⟩))]
      · rfl
    rw [show after.taken = before.taken from taken, show after.called = before.called from called,
      same]
    exact consistent.calls
  · have same : after.unfinished = before.unfinished := by
      funext i
      simp only [State.unfinished, workersNow]
      split
      · rename_i address held
        rw [ticketNow, Function.update_of_ne (notJob (.inr ⟨i, .taken, held⟩))]
      · rename_i address held
        rw [ticketNow, Function.update_of_ne (notJob (.inr ⟨i, .running, held⟩))]
      · rfl
    rw [show after.taken = before.taken from taken,
      show after.completed = before.completed from completed, same]
    exact consistent.runs
  · intro call member
    rw [show after.called = before.called from called] at member
    obtain ⟨inTaken, recorded⟩ := consistent.called call member
    exact ⟨by rw [show after.taken = before.taken from taken]; exact inTaken, keeps recorded⟩

/-- What moving worker `i` to another stage does to the two pending functions. -/
theorem uncalled_setWorker_other {i j : Fin n} {pc : WorkerPc Func Arg} (different : j ≠ i) :
    (state.setWorker i pc).uncalled j = state.uncalled j := by
  simp only [State.uncalled, stage_setWorker_other different]
  rfl

theorem unfinished_setWorker_other {i j : Fin n} {pc : WorkerPc Func Arg} (different : j ≠ i) :
    (state.setWorker i pc).unfinished j = state.unfinished j := by
  simp only [State.unfinished, stage_setWorker_other different]
  rfl

theorem Consistent.dequeue (consistent : Consistent before queue) {i : Fin n} {job : Addr}
    {task : Task Func Arg} (idle : before.workers i = .dequeue)
    (head : before.queue_head = some job) (stored : before.heap job = some task) :
    ∃ rest, queue = job :: rest ∧
      Consistent ((before.dequeueJob i job task).setWorker i (.unlockJob job)) rest := by
  obtain ⟨rest, rfl, isQueue⟩ := consistent.isQueue.dequeue head stored
  refine ⟨rest, rfl, ?_⟩
  have notHeld {j : Fin n} {stage : Stage}
      (held : (before.workers j).stage? = some (job, stage)) : False :=
    consistent.apart j job stage held (by simp)
  have noStage : (before.workers i).stage? = none := by rw [idle]; rfl
  have fresh : before.ticket job ∉ before.taken.map Prod.snd := by
    have all : (before.taken.map Prod.snd ++ (job :: rest).map before.ticket).Nodup := by
      rw [consistent.order]
      exact List.nodup_range
    exact fun member => (List.nodup_append.mp all).2.2 _ member _ (by simp) rfl
  have others {j : Fin n} (different : j ≠ i) :
      (((before.dequeueJob i job task).setWorker i (.unlockJob job)).workers j).stage? =
        (before.workers j).stage? := by
    rw [State.setWorker_other different]
    rfl
  constructor
  · exact ⟨(isQueue i).chain, (isQueue i).nodup, (isQueue i).tail⟩
  · intro address live
    apply consistent.payload address
    rcases live with member | ⟨j, stage, held⟩
    · exact .inl (by simp [member])
    · by_cases same : j = i
      · subst same
        rw [State.setWorker_self] at held
        cases held
        exact .inl (by simp)
      · rw [others same] at held
        exact .inr ⟨j, stage, held⟩
  · intro j address stage held member
    by_cases same : j = i
    · subst same
      rw [State.setWorker_self] at held
      cases held
      exact (List.nodup_cons.mp consistent.isQueue.nodup).1 member
    · rw [others same] at held
      exact consistent.apart j address stage held (by simp [member])
  · intro j k address stage stage' first second
    by_cases firstSame : j = i <;> by_cases secondSame : k = i
    · rw [firstSame, secondSame]
    · subst firstSame
      rw [State.setWorker_self] at first
      cases first
      rw [others secondSame] at second
      exact (notHeld second).elim
    · subst secondSame
      rw [State.setWorker_self] at second
      cases second
      rw [others firstSame] at first
      exact (notHeld first).elim
    · rw [others firstSame] at first
      rw [others secondSame] at second
      exact consistent.distinct j k address stage stage' first second
  · have order := consistent.order
    simp only [State.setWorker, State.dequeueJob, List.map_append, List.map_cons,
      List.map_nil] at order ⊢
    rw [← order]
    simp
  · refine consistent.calls.take fresh ?_ ?_ ?_
    · simp [State.uncalled, noStage]
    · simp [State.uncalled, State.setWorker, State.dequeueJob, WorkerPc.stage?]
    · exact fun j different => uncalled_setWorker_other different
  · refine consistent.runs.take fresh ?_ ?_ ?_
    · simp [State.unfinished, noStage]
    · simp [State.unfinished, State.setWorker, State.dequeueJob, WorkerPc.stage?]
    · exact fun j different => unfinished_setWorker_other different
  · intro call member
    obtain ⟨inTaken, recorded⟩ := consistent.called call member
    exact ⟨List.mem_append_left _ inTaken, recorded⟩

/-- A worker that goes on with its task, or drops it, takes nothing new in hand. -/
theorem hand_before (after : State n Func Arg) (i : Fin n) (pc : WorkerPc Func Arg)
    (keeps : ∀ job stage, pc.stage? = some (job, stage) →
      ∃ stage', (before.workers i).stage? = some (job, stage'))
    (workers : after.workers = before.workers) (j : Fin n) (job : Addr) (stage : Stage)
    (held : ((after.setWorker i pc).workers j).stage? = some (job, stage)) :
    ∃ stage', (before.workers j).stage? = some (job, stage') := by
  by_cases same : j = i
  · subst same
    rw [State.setWorker_self] at held
    exact keeps job stage held
  · rw [State.setWorker_other same, workers] at held
    exact ⟨stage, held⟩

/-- The fields that only depend on which cells are in whose hands. -/
theorem Consistent.hands (consistent : Consistent before queue)
    (hand : ∀ j job stage, (after.workers j).stage? = some (job, stage) →
      ∃ stage', (before.workers j).stage? = some (job, stage')) :
    (∀ i job stage, (after.workers i).stage? = some (job, stage) → job ∉ queue) ∧
      (∀ i j job stage stage', (after.workers i).stage? = some (job, stage) →
        (after.workers j).stage? = some (job, stage') → i = j) ∧
      ∀ address, after.Live queue address → before.Live queue address := by
  refine ⟨fun i job stage held => ?_, fun i j job stage stage' first second => ?_,
    fun address live => ?_⟩
  · obtain ⟨earlier, heldBefore⟩ := hand i job stage held
    exact consistent.apart i job earlier heldBefore
  · obtain ⟨_, firstBefore⟩ := hand i job stage first
    obtain ⟨_, secondBefore⟩ := hand j job stage' second
    exact consistent.distinct i j job _ _ firstBefore secondBefore
  · rcases live with member | ⟨i, stage, held⟩
    · exact .inl member
    · obtain ⟨earlier, heldBefore⟩ := hand i address stage held
      exact .inr ⟨i, earlier, heldBefore⟩

theorem Consistent.call (consistent : Consistent before queue) {i : Fin n} {job : Addr}
    {task : Task Func Arg} (here : before.workers i = .call job)
    (stored : before.heap job = some task) :
    Consistent ((before.recordCall i job task).setWorker i (.run job .idle)) queue := by
  have stage : (before.workers i).stage? = some (job, .taken) := by rw [here]; rfl
  have pending : before.uncalled i = some (before.ticket job) := by simp [State.uncalled, stage]
  obtain ⟨inTaken, _⟩ := consistent.calls.waiting i _ pending
  have hand := hand_before (before.recordCall i job task) i (.run job .idle)
    (fun _ _ equal => by cases equal; exact ⟨.taken, stage⟩) rfl
  obtain ⟨apart, distinct, live⟩ := consistent.hands hand
  constructor
  · exact ⟨consistent.isQueue.chain, consistent.isQueue.nodup, consistent.isQueue.tail⟩
  · exact fun address now => consistent.payload address (live address now)
  · exact apart
  · exact distinct
  · exact consistent.order
  · rw [show ((before.recordCall i job task).setWorker i (.run job .idle)).called.map
      Called.ticket = before.called.map Called.ticket ++ [before.ticket job] by
        simp [State.recordCall, State.setWorker]]
    apply consistent.calls.settle consistent.taken_nodup pending
    · simp [State.uncalled, State.setWorker, WorkerPc.stage?]
    · exact fun j different => uncalled_setWorker_other different
  · have same : ((before.recordCall i job task).setWorker i (.run job .idle)).unfinished =
        before.unfinished := by
      funext j
      by_cases equal : j = i
      · subst equal
        simp [State.unfinished, State.setWorker, State.recordCall, WorkerPc.stage?, here]
      · exact unfinished_setWorker_other equal
    rw [same]
    exact consistent.runs
  · intro call member
    rcases List.mem_append.mp member with old | new
    · exact consistent.called call old
    · rw [List.mem_singleton.mp new]
      refine ⟨inTaken, ?_⟩
      obtain ⟨added, payload, recorded⟩ := consistent.payload job (.inr ⟨i, .taken, stage⟩)
      simp only [SysProg.Pool.payload, stored, Option.map_some, Option.some.injEq] at payload
      rw [← payload] at recorded
      exact recorded

theorem Consistent.return (consistent : Consistent before queue) {i : Fin n} {job : Addr}
    (here : before.workers i = .run job .idle) :
    Consistent ((before.recordReturn job).setWorker i (.free job)) queue := by
  have stage : (before.workers i).stage? = some (job, .running) := by rw [here]; rfl
  have pending : before.unfinished i = some (before.ticket job) := by
    simp [State.unfinished, stage]
  have hand := hand_before (before.recordReturn job) i (.free job)
    (fun _ _ equal => by cases equal; exact ⟨.running, stage⟩) rfl
  obtain ⟨apart, distinct, live⟩ := consistent.hands hand
  constructor
  · exact ⟨consistent.isQueue.chain, consistent.isQueue.nodup, consistent.isQueue.tail⟩
  · exact fun address now => consistent.payload address (live address now)
  · exact apart
  · exact distinct
  · exact consistent.order
  · have same : ((before.recordReturn job).setWorker i (.free job)).uncalled =
        before.uncalled := by
      funext j
      by_cases equal : j = i
      · subst equal
        simp [State.uncalled, State.setWorker, State.recordReturn, WorkerPc.stage?, here]
      · exact uncalled_setWorker_other equal
    rw [same]
    exact consistent.calls
  · apply consistent.runs.settle consistent.taken_nodup pending
    · simp [State.unfinished, State.setWorker, WorkerPc.stage?]
    · exact fun j different => unfinished_setWorker_other different
  · exact consistent.called

theorem Consistent.free (consistent : Consistent before queue) {i : Fin n} {job : Addr}
    (here : before.workers i = .free job) :
    Consistent ((before.freeJob job).setWorker i .broadcastJob) queue := by
  have stage : (before.workers i).stage? = some (job, .ended) := by rw [here]; rfl
  have hand := hand_before (before.freeJob job) i .broadcastJob
    (fun _ _ equal => by cases equal) rfl
  obtain ⟨apart, distinct, live⟩ := consistent.hands hand
  have isQueue := consistent.isQueue.free (consistent.apart i job .ended stage)
  constructor
  · exact ⟨isQueue.chain, isQueue.nodup, isQueue.tail⟩
  · intro address now
    have different : address ≠ job := by
      intro same
      obtain rfl := same
      rcases now with member | ⟨j, other, held⟩
      · exact consistent.apart i address .ended stage member
      · obtain ⟨earlier, heldBefore⟩ := hand j address other held
        have same := consistent.distinct i j address .ended earlier stage heldBefore
        subst same
        rw [State.setWorker_self] at held
        cases held
    obtain ⟨call, payload, recorded⟩ := consistent.payload address (live address now)
    refine ⟨call, ?_, recorded⟩
    simpa [SysProg.Pool.payload, State.setWorker, State.freeJob,
      Function.update_of_ne different] using payload
  · exact apart
  · exact distinct
  · exact consistent.order
  · have same : ((before.freeJob job).setWorker i .broadcastJob).uncalled = before.uncalled := by
      funext j
      by_cases equal : j = i
      · subst equal
        simp [State.uncalled, State.setWorker, WorkerPc.stage?, here]
      · exact uncalled_setWorker_other equal
    rw [same]
    exact consistent.calls
  · have same : ((before.freeJob job).setWorker i .broadcastJob).unfinished =
        before.unfinished := by
      funext j
      by_cases equal : j = i
      · subst equal
        simp [State.unfinished, State.setWorker, WorkerPc.stage?, here]
      · exact unfinished_setWorker_other equal
    rw [same]
    exact consistent.runs
  · exact consistent.called

/-- Every step keeps the tasks consistent, for the queue it leaves behind. -/
theorem Consistent.step (consistent : Consistent before queue) (step : Step before after) :
    ∃ queue', Consistent after queue' := by
  cases step.tasks with
  | quiet same => exact ⟨queue, consistent.quiet same⟩
  | link job func arg linked unused link same =>
      exact ⟨_, (consistent.link unused link).quiet same⟩
  | dequeue i job task idle head stored equal =>
      obtain ⟨rest, _, remains⟩ := consistent.dequeue idle head stored
      exact ⟨rest, equal ▸ remains⟩
  | call i job task here stored equal => exact ⟨queue, equal ▸ consistent.call here stored⟩
  | «return» i job here equal => exact ⟨queue, equal ▸ consistent.return here⟩
  | free i job here equal => exact ⟨queue, equal ▸ consistent.free here⟩

/-- Runs of well-behaved clients. -/
def ClientRun (state : State n Func Arg) : Prop :=
  ReflTransGen (Restrict Step ByClient) (tpool_init n Func Arg) state

/-- Until `tpool_wait` is called every client is well behaved. -/
theorem ClientRun.of_reachable (reachable : Reachable state) (early : state.waiter = .notCalled) :
    ClientRun state := by
  induction reachable with
  | refl => exact .refl
  | @tail before after _ step ih =>
      have earlier : before.waiter = .notCalled := by
        rcases step.waiter with same | inner
        · exact same.symm.trans early
        · cases inner <;> cases early
      exact (ih earlier).tail ⟨step, fun _ _ _ => earlier, fun _ called => absurd early called⟩

/-- Whoever may still add a task is outside the pool before `tpool_wait` is
called, and a queued task always finds a worker that has not decided to exit. -/
structure Attended (state : State n Func Arg) : Prop where
  stopped : state.waiter ≠ .notCalled → ∀ k, state.adders k = .idle
  called : state.finish = true → state.waiter ≠ .notCalled
  staffed : state.queue_head ≠ none → ∃ i, (state.workers i).leaving = false

theorem Attended.initially : Attended (tpool_init n Func Arg) := by
  constructor <;> simp [tpool_init]

theorem leaving_of_workers {i : Fin n}
    (woken : after.workers = before.workers ∨ after.workers = before.broadcast.workers) :
    (after.workers i).leaving = (before.workers i).leaving := by
  rcases woken with same | woken
  · rw [same]
  · rw [woken]
    rcases before.broadcast_workers i with same | ⟨asleep, awake⟩
    · rw [same]
    · rw [asleep, awake]
      rfl

theorem Attended.stopped_step (attended : Attended before) (step : Step before after)
    (client : ByClient before after) (called : after.waiter ≠ .notCalled) (k : Nat) :
    after.adders k = .idle := by
  by_cases already : before.waiter = .notCalled
  · have idle := client.2 already called k
    by_contra started
    cases step with
    | worker _ _ _ _ _ _ inner => exact started ((congrFun inner.frame.2.1 k).trans idle)
    | startAdd => exact called already
    | adder _ _ _ _ _ _ inner => exact called (inner.frame.2.2.1.trans already)
    | wait _ _ inner => exact started ((congrFun inner.frame.2.1 k).trans idle)
  · by_contra started
    exact already (client.1 k (attended.stopped already k) started)

/-- Worker `i` moves: it stays, it was already leaving, or the queue is empty. -/
theorem staffed_worker {i : Fin n} {pc pc' : WorkerPc Func Arg}
    (here : before.workers i = pc) (inner : WorkerStep i before pc after pc') :
    pc'.leaving = false ∨ after.queue_head = none ∨
      (pc.leaving = true ∧ after.queue_head = before.queue_head) := by
  cases inner with
  | leave empty _ => exact .inr (.inl empty)
  | unlockExit => exact .inr (.inr ⟨rfl, rfl⟩)
  | broadcastExit => exact .inr (.inr ⟨rfl, rfl⟩)
  | _ => exact .inl rfl

theorem Attended.step (positive : 0 < n) (departing : Departing before)
    (attended : Attended before) (step : Step before after) (client : ByClient before after) :
    Attended after := by
  refine ⟨attended.stopped_step step client, ?_, ?_⟩
  · intro set
    cases step with
    | worker _ _ _ _ _ _ inner =>
        obtain ⟨finish, _, waiter, _⟩ := inner.frame
        exact fun equal => attended.called (finish.symm.trans set) (waiter.symm.trans equal)
    | startAdd => exact attended.called set
    | adder _ _ _ _ _ _ inner =>
        obtain ⟨finish, _, waiter, _⟩ := inner.frame
        exact fun equal => attended.called (finish.symm.trans set) (waiter.symm.trans equal)
    | wait _ _ inner => cases inner <;> simp
  · intro queued
    cases step with
    | worker i _ middle pc pc' here inner =>
        rcases staffed_worker here inner with stays | empty | ⟨leaving, head⟩
        · exact ⟨i, by rw [State.setWorker_self]; exact stays⟩
        · exact absurd empty queued
        · obtain ⟨j, staffed⟩ := attended.staffed (head ▸ queued)
          have different : j ≠ i := by
            intro same
            obtain rfl := same
            rw [here, leaving] at staffed
            cases staffed
          refine ⟨j, ?_⟩
          rw [State.setWorker_other different, leaving_of_workers inner.frame.2.2.2]
          exact staffed
    | startAdd => exact attended.staffed queued
    | adder k _ middle pc pc' here inner =>
        -- the adder is inside `tpool_add`, so nobody can have seen `finish` yet
        have early : before.waiter = .notCalled := by
          by_contra called
          have idle := attended.stopped called k
          rw [here] at idle
          subst idle
          cases inner
        have unset : before.finish ≠ true := fun set => attended.called set early
        refine ⟨⟨0, positive⟩, ?_⟩
        rw [State.setAdder, leaving_of_workers inner.frame.2.2.2.2.2.2]
        by_contra leaving
        exact unset (departing.finished _ (by simpa using leaving))
    | wait _ _ inner =>
        obtain ⟨_, _, head, _, workers⟩ := inner.frame
        obtain ⟨j, staffed⟩ := attended.staffed (head ▸ queued)
        exact ⟨j, (leaving_of_workers workers).trans staffed⟩

theorem Attended.of_run (positive : 0 < n) (run : ClientRun state) : Attended state :=
  invariant_of_reached
    (fun _ _ reached taken attended => attended.step positive
      (Departing.of_reachable (Restrict.run ByClient reached)) taken.1 taken.2)
    run Attended.initially

theorem Consistent.of_reachable (reachable : Reachable state) :
    ∃ queue, Consistent state queue :=
  @invariant_of_run _ _ _ _ (fun state => ∃ queue, Consistent state queue)
    (fun _ _ taken ⟨_, consistent⟩ => consistent.step taken) reachable
    ⟨[], Consistent.initially⟩

theorem Consistent.taken_ticket (consistent : Consistent state queue) {i : Fin n} {ticket : Nat}
    (member : (i, ticket) ∈ state.taken) : ticket < state.added.length := by
  have inRange : ticket ∈ List.range state.added.length := by
    rw [← consistent.order]
    exact List.mem_append_left _ (List.mem_map_of_mem member)
  exact List.mem_range.mp inRange

/-- A taken task has been called once, by the worker that took it and with its
own function and argument, or that worker is about to call it. -/
theorem Consistent.called_once (consistent : Consistent state queue) {i : Fin n} {ticket : Nat}
    (member : (i, ticket) ∈ state.taken) :
    ∃ call, state.added[ticket]? = some call ∧
      (state.called.filter (fun done => done.ticket = ticket) =
          [⟨i, ticket, call.func, call.arg⟩] ∨
        state.called.filter (fun done => done.ticket = ticket) = [] ∧
          state.uncalled i = some ticket) := by
  have bound := consistent.taken_ticket member
  refine ⟨state.added[ticket], List.getElem?_eq_getElem bound, ?_⟩
  rcases consistent.calls.accounted i ticket member with done | pending
  · left
    obtain ⟨call, inCalled, rfl⟩ := List.mem_map.mp done
    obtain ⟨inTaken, recorded⟩ := consistent.called call inCalled
    have sameWorker : call.worker = i := taker_unique consistent.taken_nodup inTaken member
    rw [List.getElem?_eq_getElem bound, Option.some.injEq] at recorded
    have alone : ∀ other ∈ state.called, other.ticket = call.ticket → other = call :=
      fun other inOther equal =>
        List.inj_on_of_nodup_map consistent.calls.once inOther inCalled equal
    have exactly : state.called.filter (fun done => done.ticket = call.ticket) = [call] := by
      apply List.perm_singleton.mp
      rw [List.perm_ext_iff_of_nodup (consistent.calls.once.of_map.filter _) (by simp)]
      intro other
      simp only [List.mem_filter, decide_eq_true_eq, List.mem_singleton]
      constructor
      · exact fun both => alone other both.1 both.2
      · intro same
        obtain rfl := same
        exact ⟨inCalled, rfl⟩
    rw [exactly, recorded, ← sameWorker]
  · right
    refine ⟨?_, pending⟩
    obtain ⟨_, open_⟩ := consistent.calls.waiting i ticket pending
    rw [List.filter_eq_nil_iff]
    intro call inCalled
    simp only [decide_eq_true_eq]
    intro same
    obtain rfl := same
    exact open_ (List.mem_map_of_mem inCalled)

/-- When every worker has exited the queue is empty and every task that was ever
added has been called and has returned. -/
theorem Consistent.all_completed (consistent : Consistent state queue)
    (attended : Attended state) (exited : ∀ i, state.workers i = .exited) :
    queue = [] ∧ (state.called.map Called.ticket).Perm (List.range state.added.length) ∧
      state.completed.Perm (List.range state.added.length) := by
  have empty : state.queue_head = none := by
    by_contra queued
    obtain ⟨i, staffed⟩ := attended.staffed queued
    simp [exited i, WorkerPc.leaving] at staffed
  obtain rfl : queue = [] := consistent.isQueue.chain.head_none_iff.mp empty
  have order := consistent.order
  rw [List.map_nil, List.append_nil] at order
  refine ⟨rfl, ?_, ?_⟩
  · rw [← order]
    apply consistent.calls.settled consistent.taken_nodup
    intro i
    simp [State.uncalled, exited i, WorkerPc.stage?]
  · rw [← order]
    apply consistent.runs.settled consistent.taken_nodup
    intro i
    simp [State.unfinished, exited i, WorkerPc.stage?]

/-- Where the threads outside the pool are done with `tpool_add` when `tpool_wait` is called
(`ByClient`; tasks may go on adding), tasks leave the queue in the order of their additions, no
ticket is taken twice, every taken task is called once with its own argument, and when all
workers have exited every added task has run to completion. -/
theorem tasks_run_exactly_once (n : Nat) (Func Arg : Type) (positive : 0 < n)
    (state : State n Func Arg) (run : ClientRun state) :
    ∃ queue, IsQueue state queue ∧
      state.taken.map Prod.snd ++ queue.map state.ticket = List.range state.added.length ∧
      (∀ i ticket, (i, ticket) ∈ state.taken → ∃ call, state.added[ticket]? = some call ∧
        (state.called.filter (fun done => done.ticket = ticket) =
            [⟨i, ticket, call.func, call.arg⟩] ∨
          state.called.filter (fun done => done.ticket = ticket) = [] ∧
            state.uncalled i = some ticket)) ∧
      (∀ call ∈ state.called, (call.worker, call.ticket) ∈ state.taken) ∧
      ((∀ i, state.workers i = .exited) → queue = [] ∧
        (state.called.map Called.ticket).Perm (List.range state.added.length) ∧
        state.completed.Perm (List.range state.added.length)) := by
  obtain ⟨queue, consistent⟩ := Consistent.of_reachable (Restrict.run ByClient run)
  refine ⟨queue, consistent.isQueue, consistent.order, ?_, ?_, ?_⟩
  · exact fun i ticket member => consistent.called_once member
  · exact fun call member => (consistent.called call member).1
  · exact consistent.all_completed (Attended.of_run positive run)

/-- A task is added, and worker `i` takes and calls it. -/
def oneTask (i : Fin n) : List (Move n Nat Nat) := Move.adds 0 7 3 5 ++ Move.works i 5

theorem tasks_run_exactly_once_one :
    ∃ state : State 1 Nat Nat, state.called = [⟨0, 0, 7, 3⟩] ∧ ClientRun state ∧
      ∃ queue, IsQueue state queue ∧ [0] ++ queue.map state.ticket = List.range 1 := by
  have completes : ((oneTask 0).foldlM State.perform (tpool_init 1 Nat Nat)).map
      (fun state => (state.called, state.taken, state.added.length, state.waiter)) =
        some ([⟨0, 0, 7, 3⟩], [(0, 0)], 1, .notCalled) := rfl
  obtain ⟨state, performed, facts⟩ := Option.map_eq_some_iff.mp completes
  simp only [Prod.mk.injEq] at facts
  obtain ⟨called, taken, added, early⟩ := facts
  have run := ClientRun.of_reachable (reachable_iff_perform.mpr ⟨oneTask 0, performed⟩) early
  obtain ⟨queue, isQueue, order, _⟩ := tasks_run_exactly_once 1 Nat Nat (by decide) state run
  rw [taken, added] at order
  exact ⟨state, called, run, queue, isQueue, order⟩

end SysProg.Pool
