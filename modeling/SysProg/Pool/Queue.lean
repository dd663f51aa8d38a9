import SysProg.Data.LinkedQueue
import SysProg.Pool.Exclusion

namespace SysProg.Pool

open SysProg.Data

variable {n : Nat} {Func Arg : Type} {state after : State n Func Arg} {queue : List Addr}

/-- The cells from `queue_head` on are `queue`.  `queue_tail` is only trusted
while the queue is not empty: `work` never updates it. -/
structure IsQueue (state : State n Func Arg) (queue : List Addr) : Prop where
  chain : Chain Task.next state.heap state.queue_head queue
  nodup : queue.Nodup
  tail : ∀ final ∈ queue.getLast?, state.queue_tail = some final

/-- What `tpool_add` stored in a cell, without the link. -/
def payload (heap : Addr → Option (Task Func Arg)) (address : Addr) : Option (Added Func Arg) :=
  (heap address).map fun task => ⟨task.func, task.arg⟩

theorem IsQueue.fresh (isQueue : IsQueue state queue) {job : Addr}
    (unused : state.heap job = none) : job ∉ queue := by
  intro member
  obtain ⟨cell, stored⟩ := isQueue.chain.stored member
  rw [unused] at stored
  cases stored

/-- Storing through the last cell of the queue appends the new cell. -/
theorem storeNext_final {front : List Addr} {final job : Addr} (func : Func) (arg : Arg)
    (isQueue : IsQueue state (front ++ [final])) (unused : state.heap job = none) :
    ∃ heap, State.storeNext (state.allocate job func arg).heap final (some job) = some heap ∧
      Chain Task.next heap state.queue_head (front ++ [final, job]) ∧
      payload heap job = some ⟨func, arg⟩ ∧
      ∀ address, address ≠ job → payload heap address = payload state.heap address := by
  have new := isQueue.fresh unused
  have different : final ≠ job := fun same => new (by simp [same])
  obtain ⟨cell, stored⟩ := isQueue.chain.stored (List.mem_append_right front (List.mem_singleton_self final))
  have found : (state.allocate job func arg).heap final = some cell := by
    simp [State.allocate, Function.update_of_ne different, stored]
  refine ⟨_, by rw [State.storeNext, found, Option.map_some], ?_, ?_, ?_⟩
  · exact isQueue.chain.link isQueue.nodup new rfl rfl
  · simp [payload, State.allocate, Function.update_of_ne different.symm]
  · intro address other
    by_cases same : address = final
    · subst same
      simp [payload, stored]
    · simp [payload, State.allocate, Function.update_of_ne same, Function.update_of_ne other]

/-- Whichever of the two branches for a non-empty queue is taken, it stores
through the last cell: the tail is used only when it is that cell. -/
theorem linkJob_nonempty {front : List Addr} {final job : Addr} {func : Func} {arg : Arg}
    (isQueue : IsQueue state (front ++ [final])) (unused : state.heap job = none) :
    (state.allocate job func arg).linkJob job =
      (State.storeNext (state.allocate job func arg).heap final (some job)).map fun heap =>
        { state.allocate job func arg with heap, queue_tail := some job } := by
  have kept {address : Addr} {cell : Task Func Arg} (stored : state.heap address = some cell) :
      (state.allocate job func arg).heap address = some cell := by
    have different : address ≠ job := by
      intro same
      rw [same, unused] at stored
      cases stored
    simp [State.allocate, Function.update_of_ne different, stored]
  have chain := isQueue.chain
  cases front with
  | nil =>
      obtain ⟨start, cell, stored, ends⟩ := chain
      have noNext : cell.next = none := ends
      have head : (state.allocate job func arg).queue_head = some final := start
      simp [State.linkJob, head, kept stored, noNext]
  | cons first rest =>
      obtain ⟨start, cell, stored, more⟩ := chain
      have hasNext : cell.next.isSome = true := by
        rw [more.head_eq]
        cases rest <;> simp
      have head : (state.allocate job func arg).queue_head = some first := start
      have tail : (state.allocate job func arg).queue_tail = some final :=
        isQueue.tail final (by rw [List.getLast?_append]; rfl)
      simp [State.linkJob, head, kept stored, hasNext, tail]

/-- `tpool_add` never meets an invalid pointer, and what it links is the old
queue followed by the new cell. -/
theorem linkJob_isQueue {job : Addr} (func : Func) (arg : Arg)
    (isQueue : IsQueue state queue) (unused : state.heap job = none) :
    ∃ linked, (state.allocate job func arg).linkJob job = some linked ∧
      IsQueue linked (queue ++ [job]) ∧ payload linked.heap job = some ⟨func, arg⟩ ∧
      ∀ address, address ≠ job → payload linked.heap address = payload state.heap address := by
  have new := isQueue.fresh unused
  have distinct : (queue ++ [job]).Nodup := by
    simpa [List.nodup_append] using ⟨isQueue.nodup, fun address member same => new (same ▸ member)⟩
  rcases List.eq_nil_or_concat queue with rfl | ⟨front, final, rfl⟩
  · have empty : (state.allocate job func arg).queue_head = none := isQueue.chain
    refine ⟨{ state.allocate job func arg with queue_head := some job, queue_tail := some job },
      by simp [State.linkJob, empty], ⟨?_, distinct, ?_⟩, ?_, ?_⟩
    · exact ⟨rfl, ⟨func, arg, none⟩, by simp [State.allocate], rfl⟩
    · simp
    · simp [payload, State.allocate]
    · intro address other
      simp [payload, State.allocate, Function.update_of_ne other]
  · rw [List.concat_eq_append] at isQueue distinct ⊢
    obtain ⟨heap, stored, chain, payloadNew, payloadOld⟩ :=
      storeNext_final func arg isQueue unused
    refine ⟨{ state.allocate job func arg with heap, queue_tail := some job },
      by rw [linkJob_nonempty isQueue unused, stored, Option.map_some],
      ⟨?_, distinct, ?_⟩, payloadNew, payloadOld⟩
    · rw [List.append_assoc]
      exact chain
    · simp

theorem IsQueue.dequeue {job : Addr} {task : Task Func Arg} (isQueue : IsQueue state queue)
    (head : state.queue_head = some job) (stored : state.heap job = some task) :
    ∃ rest, queue = job :: rest ∧ ∀ i, IsQueue (state.dequeueJob i job task) rest := by
  have chain := isQueue.chain
  cases queue with
  | nil =>
      rw [head] at chain
      cases chain
  | cons first rest =>
      obtain ⟨start, cell, found, more⟩ := chain
      obtain rfl : job = first := Option.some.inj (head.symm.trans start)
      obtain rfl : task = cell := Option.some.inj (stored.symm.trans found)
      refine ⟨rest, rfl, fun i => ⟨more, (List.nodup_cons.mp isQueue.nodup).2, ?_⟩⟩
      intro final isLast
      apply isQueue.tail final
      cases rest with
      | nil => cases isLast
      | cons second others => simpa using isLast

theorem IsQueue.free {job : Addr} (isQueue : IsQueue state queue) (outside : job ∉ queue) :
    IsQueue (state.freeJob job) queue where
  chain := isQueue.chain.congr fun address member =>
    Function.update_of_ne (fun same : address = job => outside (same ▸ member)) _ _
  nodup := isQueue.nodup
  tail := isQueue.tail

end SysProg.Pool
