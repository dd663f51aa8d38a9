import Mathlib.Data.Set.Insert
import SysProg.Pool.ExactlyOnce

namespace SysProg.Pool

open Relation SysProg.Transition SysProg.Data

/-! # The queue of the pool alone

Additions and removals in any order, and cells that are freed at any time after their
removal, so that a later addition may get their addresses again. -/

variable {n : Nat} {Func Arg : Type} {state before after : State n Func Arg} {queue : List Addr}

/-- Two states with the same cells, queue and history of additions and removals. -/
structure SameCells (before after : State n Func Arg) : Prop where
  heap : after.heap = before.heap
  queue_head : after.queue_head = before.queue_head
  queue_tail : after.queue_tail = before.queue_tail
  added : after.added = before.added
  ticket : after.ticket = before.ticket
  taken : after.taken = before.taken

theorem SameCells.refl : SameCells state state := ⟨rfl, rfl, rfl, rfl, rfl, rfl⟩

/-- The cells of a pool; `loose` are those taken out of the queue and not freed. -/
structure Cells (n : Nat) (Func Arg : Type) where
  state : State n Func Arg
  loose : Set Addr

inductive QueueStep : Cells n Func Arg → Cells n Func Arg → Prop where
  | other {state after : State n Func Arg} {loose : Set Addr} (same : SameCells state after) :
      QueueStep ⟨state, loose⟩ ⟨after, loose⟩
  | add {state linked after : State n Func Arg} {loose : Set Addr} (job : Addr) (func : Func) (arg : Arg)
      (unused : state.heap job = none) (link : (state.allocate job func arg).linkJob job = some linked)
      (same : SameCells linked after) : QueueStep ⟨state, loose⟩ ⟨after, loose⟩
  | dequeue {state after : State n Func Arg} {loose : Set Addr} (i : Fin n) (job : Addr)
      (task : Task Func Arg) (head : state.queue_head = some job) (stored : state.heap job = some task)
      (same : SameCells (state.dequeueJob i job task) after) :
      QueueStep ⟨state, loose⟩ ⟨after, insert job loose⟩
  | free {state after : State n Func Arg} {loose : Set Addr} (job : Addr) (held : job ∈ loose)
      (same : SameCells (state.freeJob job) after) : QueueStep ⟨state, loose⟩ ⟨after, loose \ {job}⟩

/-- The additions that no removal has taken, in their order. -/
def State.waiting (state : State n Func Arg) : List Nat :=
  (List.range state.added.length).filter fun ticket => ticket ∉ state.taken.map Prod.snd

/-- `tpool_add` is about to store through `queue_tail`. -/
def State.usesTail (state : State n Func Arg) : Prop :=
  ∃ head first, state.queue_head = some head ∧ state.heap head = some first ∧ first.next.isSome

/-- What a pool keeps of its cells, apart from who works on them. -/
structure Stored (cells : Cells n Func Arg) (queue : List Addr) : Prop where
  isQueue : IsQueue cells.state queue
  queued : ∀ address ∈ queue, ∃ call, payload cells.state.heap address = some call ∧
    cells.state.added[cells.state.ticket address]? = some call
  apart : ∀ address ∈ queue, address ∉ cells.loose
  held : ∀ address ∈ cells.loose, cells.state.heap address ≠ none
  order : cells.state.taken.map Prod.snd ++ queue.map cells.state.ticket =
    List.range cells.state.added.length

namespace Stored

variable {loose : Set Addr}

theorem initially : Stored (⟨tpool_init n Func Arg, ∅⟩ : Cells n Func Arg) [] where
  isQueue := ⟨rfl, List.nodup_nil, nofun⟩
  queued := nofun
  apart := nofun
  held := nofun
  order := rfl

theorem congr (stored : Stored ⟨before, loose⟩ queue) (same : SameCells before after) :
    Stored ⟨after, loose⟩ queue := by
  obtain ⟨isQueue, queued, apart, held, order⟩ := stored
  constructor
  · exact ⟨by rw [same.heap, same.queue_head]; exact isQueue.chain, isQueue.nodup,
      by rw [same.queue_tail]; exact isQueue.tail⟩
  · rw [same.heap, same.added, same.ticket]
    exact queued
  · exact apart
  · rw [same.heap]
    exact held
  · rw [same.taken, same.ticket, same.added]
    exact order

theorem add (stored : Stored ⟨state, loose⟩ queue) {job : Addr} {func : Func} {arg : Arg}
    (unused : state.heap job = none) (link : (state.allocate job func arg).linkJob job = some after) :
    Stored ⟨after, loose⟩ (queue ++ [job]) := by
  obtain ⟨isQueue, queued, apart, held, order⟩ := stored
  obtain ⟨other, link', isQueue', payloadNew, payloadOld⟩ := linkJob_isQueue func arg isQueue unused
  obtain rfl : after = other := Option.some.inj (link.symm.trans link')
  obtain ⟨_, _, _, _, _, _, added, ticket, taken, _⟩ := State.linkJob_frame link
  have addedNow : after.added = state.added ++ [⟨func, arg⟩] := added
  have ticketNow : after.ticket = Function.update state.ticket job state.added.length := ticket
  have takenNow : after.taken = state.taken := taken
  have fresh : ∀ address ∈ queue, address ≠ job := by
    intro address member same
    obtain rfl := same
    exact isQueue.fresh unused member
  constructor
  · exact isQueue'
  · intro address member
    rw [addedNow, ticketNow]
    rcases List.mem_append.mp member with old | new
    · obtain ⟨call, payload, recorded⟩ := queued address old
      refine ⟨call, (payloadOld address (fresh address old)).trans payload, ?_⟩
      rw [Function.update_of_ne (fresh address old),
        List.getElem?_append_left (List.getElem?_eq_some_iff.mp recorded).1]
      exact recorded
    · obtain rfl := List.mem_singleton.mp new
      exact ⟨_, payloadNew, by simp⟩
  · intro address member
    rcases List.mem_append.mp member with old | new
    · exact apart address old
    · rw [List.mem_singleton.mp new]
      exact fun inside => held job inside unused
  · intro address inside
    have different : address ≠ job := by
      intro same
      obtain rfl := same
      exact held address inside unused
    have kept : payload after.heap address = payload state.heap address := payloadOld address different
    intro gone
    have gone' : after.heap address = none := gone
    cases there : state.heap address with
    | none => exact held address inside there
    | some cell => simp [payload, there, gone'] at kept
  · rw [takenNow, ticketNow, addedNow, List.map_append, ← List.append_assoc]
    have kept : queue.map (Function.update state.ticket job state.added.length) = queue.map state.ticket :=
      List.map_congr_left fun address member => Function.update_of_ne (fresh address member) _ _
    rw [kept, order]
    simp [List.range_succ]

theorem dequeue (stored : Stored ⟨state, loose⟩ queue) {job : Addr} {task : Task Func Arg}
    (head : state.queue_head = some job) (found : state.heap job = some task) (i : Fin n) :
    ∃ rest, queue = job :: rest ∧ Stored ⟨state.dequeueJob i job task, insert job loose⟩ rest := by
  obtain ⟨isQueue, queued, apart, held, order⟩ := stored
  obtain ⟨rest, rfl, remains⟩ := isQueue.dequeue head found
  refine ⟨rest, rfl, ⟨remains i, ?_, ?_, ?_, ?_⟩⟩
  · exact fun address member => queued address (List.mem_cons_of_mem _ member)
  · intro address member inside
    rcases Set.mem_insert_iff.mp inside with same | older
    · exact (List.nodup_cons.mp isQueue.nodup).1 (same ▸ member)
    · exact apart address (List.mem_cons_of_mem _ member) older
  · intro address inside
    rcases Set.mem_insert_iff.mp inside with same | older
    · show state.heap address ≠ none
      rw [same, found]
      nofun
    · exact held address older
  · show (state.taken ++ [(i, state.ticket job)]).map Prod.snd ++ rest.map state.ticket = _
    rw [List.map_append, List.append_assoc]
    exact order

theorem free (stored : Stored ⟨state, loose⟩ queue) {job : Addr} (inside : job ∈ loose) :
    Stored ⟨state.freeJob job, loose \ {job}⟩ queue := by
  obtain ⟨isQueue, queued, apart, held, order⟩ := stored
  have outside : job ∉ queue := fun member => apart job member inside
  have others : ∀ address, address ≠ job → (state.freeJob job).heap address = state.heap address :=
    fun address different => Function.update_of_ne different _ _
  constructor
  · exact isQueue.free outside
  · intro address member
    have different : address ≠ job := fun same => outside (same ▸ member)
    have kept : payload (state.freeJob job).heap address = payload state.heap address := by
      rw [payload, payload, others address different]
    obtain ⟨call, here, recorded⟩ := queued address member
    exact ⟨call, kept.trans here, recorded⟩
  · exact fun address member there => apart address member there.1
  · intro address there
    show (state.freeJob job).heap address ≠ none
    rw [others address there.2]
    exact held address there.1
  · exact order

theorem step {cells next : Cells n Func Arg} (stored : Stored cells queue) (taken : QueueStep cells next) :
    ∃ queue', Stored next queue' := by
  cases taken with
  | other same => exact ⟨queue, stored.congr same⟩
  | add job func arg unused link same => exact ⟨_, (stored.add unused link).congr same⟩
  | dequeue i job task head found same =>
      obtain ⟨rest, _, remains⟩ := stored.dequeue head found i
      exact ⟨rest, remains.congr same⟩
  | free job held same => exact ⟨queue, (stored.free held).congr same⟩

theorem of_run {cells : Cells n Func Arg} (run : ReflTransGen QueueStep ⟨tpool_init n Func Arg, ∅⟩ cells) :
    ∃ queue, Stored cells queue := by
  induction run with
  | refl => exact ⟨[], initially⟩
  | tail _ taken ih =>
      obtain ⟨queue, stored⟩ := ih
      exact stored.step taken

theorem waiting {cells : Cells n Func Arg} (stored : Stored cells queue) :
    cells.state.waiting = queue.map cells.state.ticket := by
  have distinct : (cells.state.taken.map Prod.snd ++ queue.map cells.state.ticket).Nodup := by
    rw [stored.order]
    exact List.nodup_range
  obtain ⟨_, _, disjoint⟩ := List.nodup_append.mp distinct
  rw [State.waiting, ← stored.order, List.filter_append]
  have none : (cells.state.taken.map Prod.snd).filter
      (fun ticket => ticket ∉ cells.state.taken.map Prod.snd) = [] := by
    rw [List.filter_eq_nil_iff]
    intro ticket member
    simpa using member
  have all : (queue.map cells.state.ticket).filter
      (fun ticket => ticket ∉ cells.state.taken.map Prod.snd) = queue.map cells.state.ticket := by
    rw [List.filter_eq_self]
    intro ticket member
    rw [decide_eq_true_eq]
    exact fun taken => disjoint ticket taken ticket member rfl
  rw [none, all, List.nil_append]

end Stored

theorem State.linkJob_tail (other : Option Addr) (job : Addr) (spared : ¬ state.usesTail) :
    ({ state with queue_tail := other } : State n Func Arg).linkJob job = state.linkJob job := by
  unfold linkJob
  cases head : state.queue_head with
  | none => rfl
  | some address =>
      cases found : state.heap address with
      | none => simp only [found]
      | some first =>
          have last : ¬ first.next.isSome = true := fun more => spared ⟨address, first, head, found, more⟩
          simp only [found, if_neg last]

/-- The tail that `tpool_add` stores through is the last cell of the queue. -/
theorem IsQueue.usesTail (isQueue : IsQueue state queue) {job : Addr} {func : Func} {arg : Arg}
    (uses : (state.allocate job func arg).usesTail) :
    ∃ final, state.queue_tail = some final ∧ queue.getLast? = some final := by
  obtain ⟨address, first, head, _, _⟩ := uses
  have start : state.queue_head = some address := head
  cases last : queue.getLast? with
  | none =>
      rw [List.getLast?_eq_none_iff.mp last] at isQueue
      exact nomatch isQueue.chain.symm.trans start
  | some final => exact ⟨final, isQueue.tail final last, rfl⟩

/-- The queue as a list, and what `tpool_add` makes of `queue_tail`. -/
structure IsFifo (cells : Cells n Func Arg) (queue : List Addr) : Prop where
  chain : Chain Task.next cells.state.heap cells.state.queue_head queue
  order : queue.map (payload cells.state.heap) = cells.state.waiting.map (cells.state.added[·]?)
  links : ∀ job func arg, cells.state.heap job = none →
    ((cells.state.allocate job func arg).linkJob job).isSome
  tail : ∀ job func arg, cells.state.heap job = none → (cells.state.allocate job func arg).usesTail →
    ∃ final, cells.state.queue_tail = some final ∧ queue.getLast? = some final ∧ final ∉ cells.loose ∧
      (cells.state.heap final).isSome
  spared : ∀ job func arg other, ¬ (cells.state.allocate job func arg).usesTail →
    ({ cells.state.allocate job func arg with queue_tail := other } : State n Func Arg).linkJob job =
      (cells.state.allocate job func arg).linkJob job

/-- Whatever is added, taken out and freed: following `next` from `queue_head` meets the tasks
that are added and not taken out, in order, and `tpool_add` stores through `queue_tail` only
if that is the last of them. -/
theorem queue_is_fifo (n : Nat) (Func Arg : Type) (cells : Cells n Func Arg)
    (run : ReflTransGen QueueStep ⟨tpool_init n Func Arg, ∅⟩ cells) : ∃ queue, IsFifo cells queue := by
  obtain ⟨queue, stored⟩ := Stored.of_run run
  refine ⟨queue, stored.isQueue.chain, ?_, ?_, ?_, ?_⟩
  · rw [stored.waiting, List.map_map]
    apply List.map_congr_left
    intro address member
    obtain ⟨call, here, recorded⟩ := stored.queued address member
    exact here.trans recorded.symm
  · intro job func arg unused
    obtain ⟨linked, link, _⟩ := linkJob_isQueue func arg stored.isQueue unused
    rw [link]
    rfl
  · intro job func arg _ uses
    obtain ⟨final, tail, last⟩ := stored.isQueue.usesTail uses
    have member : final ∈ queue := List.mem_of_getLast? last
    refine ⟨final, tail, last, stored.apart final member, ?_⟩
    obtain ⟨cell, found⟩ := stored.isQueue.chain.stored member
    rw [found]
    rfl
  · exact fun job func arg other spared => State.linkJob_tail other job spared

/-- One task is added at address 0, taken out and freed, and the next one gets its address. -/
theorem queue_is_fifo_reused :
    ∃ (cells : Cells 1 Unit Unit) (queue : List Addr), cells.state.taken = [(0, 0)] ∧
      cells.state.queue_head = some 0 ∧ IsFifo cells queue := by
  let first : State 1 Unit Unit := ((tpool_init 1 Unit Unit).allocate 0 () ())
  let one : State 1 Unit Unit := { first with queue_head := some 0, queue_tail := some 0 }
  have adds : QueueStep ⟨tpool_init 1 Unit Unit, ∅⟩ ⟨one, ∅⟩ := .add 0 () () rfl rfl .refl
  have takes : QueueStep ⟨one, ∅⟩ ⟨one.dequeueJob 0 0 ⟨(), (), none⟩, insert 0 ∅⟩ :=
    .dequeue 0 0 ⟨(), (), none⟩ rfl rfl .refl
  have frees : QueueStep ⟨one.dequeueJob 0 0 ⟨(), (), none⟩, insert 0 ∅⟩ _ :=
    .free 0 (Set.mem_insert 0 ∅) .refl
  let empty : State 1 Unit Unit := (one.dequeueJob 0 0 ⟨(), (), none⟩).freeJob 0
  let next : State 1 Unit Unit := { empty.allocate 0 () () with queue_head := some 0, queue_tail := some 0 }
  have reuses : QueueStep ⟨empty, insert 0 ∅ \ {0}⟩ ⟨next, _⟩ := .add 0 () () rfl rfl .refl
  obtain ⟨queue, fifo⟩ := queue_is_fifo 1 Unit Unit _ ((((ReflTransGen.refl.tail adds).tail takes).tail frees).tail reuses)
  exact ⟨_, queue, rfl, rfl, fifo⟩

/-! ## The runs of the pool are such runs -/

/-- The cells in the hands of the workers. -/
def State.inHand (state : State n Func Arg) : Set Addr :=
  { address | ∃ i stage, (state.workers i).stage? = some (address, stage) }

theorem SameTasks.cells (same : SameTasks before after) : SameCells before after :=
  ⟨same.heap, same.queue_head, same.queue_tail, same.added, same.ticket, same.taken⟩

theorem inHand_congr (same : ∀ i, (after.workers i).stage? = (before.workers i).stage?) :
    after.inHand = before.inHand := by
  simp only [State.inHand, same]

/-- What worker `i` has in hand, beside the others. -/
theorem mem_inHand_setWorker {i : Fin n} {pc : WorkerPc Func Arg} {address : Addr} :
    address ∈ (state.setWorker i pc).inHand ↔
      (∃ stage, pc.stage? = some (address, stage)) ∨
        ∃ j stage, j ≠ i ∧ (state.workers j).stage? = some (address, stage) := by
  constructor
  · intro takes
    obtain ⟨j, stage, held⟩ := takes
    by_cases here : j = i
    · subst here
      rw [State.setWorker_self] at held
      exact .inl ⟨stage, held⟩
    · rw [State.setWorker_other here] at held
      exact .inr ⟨j, stage, here, held⟩
  · intro either
    obtain ⟨stage, held⟩ | ⟨j, stage, other, held⟩ := either
    · exact ⟨i, stage, by rw [State.setWorker_self]; exact held⟩
    · exact ⟨j, stage, by rw [State.setWorker_other other]; exact held⟩

theorem mem_inHand {i : Fin n} {address : Addr} :
    address ∈ state.inHand ↔
      (∃ stage, (state.workers i).stage? = some (address, stage)) ∨
        ∃ j stage, j ≠ i ∧ (state.workers j).stage? = some (address, stage) := by
  constructor
  · intro takes
    obtain ⟨j, stage, held⟩ := takes
    by_cases here : j = i
    · exact .inl ⟨stage, here ▸ held⟩
    · exact .inr ⟨j, stage, here, held⟩
  · intro either
    obtain ⟨stage, held⟩ | ⟨j, stage, _, held⟩ := either
    · exact ⟨i, stage, held⟩
    · exact ⟨j, stage, held⟩

/-- A worker that goes on with the cell it has. -/
theorem inHand_goes_on {i : Fin n} {pc : WorkerPc Func Arg} {job : Addr} {stage stage' : Stage}
    (here : (state.workers i).stage? = some (job, stage)) (there : pc.stage? = some (job, stage')) :
    (state.setWorker i pc).inHand = state.inHand := by
  ext address
  rw [mem_inHand_setWorker, mem_inHand (i := i), here, there]
  simp

theorem inHand_takes {i : Fin n} {pc : WorkerPc Func Arg} {job : Addr} {stage : Stage}
    (here : (state.workers i).stage? = none) (there : pc.stage? = some (job, stage)) :
    (state.setWorker i pc).inHand = insert job state.inHand := by
  ext address
  rw [mem_inHand_setWorker, Set.mem_insert_iff, mem_inHand (i := i), here, there]
  simp [eq_comm]

theorem inHand_drops {i : Fin n} {pc : WorkerPc Func Arg} {job : Addr} {stage : Stage}
    (here : (state.workers i).stage? = some (job, stage)) (there : pc.stage? = none)
    (alone : ∀ j stage', (state.workers j).stage? = some (job, stage') → j = i) :
    (state.setWorker i pc).inHand = state.inHand \ {job} := by
  ext address
  rw [mem_inHand_setWorker, Set.mem_sdiff, mem_inHand (i := i), here, there]
  constructor
  · intro either
    obtain ⟨_, none⟩ | ⟨j, stage', other, held⟩ := either
    · cases none
    · exact ⟨.inr ⟨j, stage', other, held⟩, fun same => other (alone j stage' (same ▸ held))⟩
  · intro either
    obtain ⟨⟨_, mine⟩ | others, different⟩ := either
    · cases mine
      exact absurd rfl different
    · exact .inr others

/-- A step of the pool is a step of its queue. -/
theorem Step.queueStep (consistent : Consistent before queue) (step : Step before after) :
    QueueStep ⟨before, before.inHand⟩ ⟨after, after.inHand⟩ := by
  cases step.tasks with
  | quiet same =>
      rw [inHand_congr same.stage]
      exact .other same.cells
  | link job func arg linked unused link same =>
      have kept : after.inHand = before.inHand := by
        rw [inHand_congr same.stage]
        refine inHand_congr fun i => ?_
        rw [linkJob_workers link]
      rw [kept]
      exact .add job func arg unused link same.cells
  | dequeue i job task here head found equal =>
      subst equal
      have idle : (before.workers i).stage? = none := by rw [here]; rfl
      have taken : ((before.dequeueJob i job task).setWorker i (.unlockJob job)).inHand =
          insert job before.inHand := inHand_takes idle rfl
      rw [taken]
      exact .dequeue i job task head found ⟨rfl, rfl, rfl, rfl, rfl, rfl⟩
  | call i job task here found equal =>
      subst equal
      have has : (before.workers i).stage? = some (job, .taken) := by rw [here]; rfl
      have kept : ((before.recordCall i job task).setWorker i (.run job .idle)).inHand = before.inHand :=
        inHand_goes_on has rfl
      rw [kept]
      exact .other ⟨rfl, rfl, rfl, rfl, rfl, rfl⟩
  | «return» i job here equal =>
      subst equal
      have has : (before.workers i).stage? = some (job, .running) := by rw [here]; rfl
      have kept : ((before.recordReturn job).setWorker i (.free job)).inHand = before.inHand :=
        inHand_goes_on has rfl
      rw [kept]
      exact .other ⟨rfl, rfl, rfl, rfl, rfl, rfl⟩
  | free i job here equal =>
      subst equal
      have has : (before.workers i).stage? = some (job, .ended) := by rw [here]; rfl
      have alone : ∀ j stage, (before.workers j).stage? = some (job, stage) → j = i :=
        fun j stage held => consistent.distinct j i job stage .ended held has
      have dropped : ((before.freeJob job).setWorker i .broadcastJob).inHand = before.inHand \ {job} :=
        inHand_drops has rfl alone
      rw [dropped]
      exact .free job ⟨i, .ended, has⟩ ⟨rfl, rfl, rfl, rfl, rfl, rfl⟩

theorem inHand_initially : (tpool_init n Func Arg).inHand = ∅ := by
  ext address
  constructor
  · intro takes
    obtain ⟨i, stage, held⟩ := takes
    cases held
  · exact False.elim

/-- Every run of the pool is a run of its queue. -/
theorem Reachable.queueRun (reachable : Reachable state) :
    ReflTransGen QueueStep ⟨tpool_init n Func Arg, ∅⟩ ⟨state, state.inHand⟩ := by
  induction reachable with
  | refl => rw [inHand_initially]
  | tail run taken ih =>
      obtain ⟨queue, consistent⟩ := Consistent.of_reachable run
      exact ih.tail (taken.queueStep consistent)

end SysProg.Pool
