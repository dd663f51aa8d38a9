import SysProg.Data.SwapRemove
import SysProg.Threads.Scheduler

namespace SysProg.Threads

open SysProg.Data

/-! # The two queues as lists

`Arranged state ready waiting` says which lists the arrays of `state` hold.  Each
operation of the scheduler gets one lemma here: the lists it leaves, and that no
access of it is out of bounds. -/

variable {queue : Queue} {items ready waiting : List Ptr} {ptr : Ptr} {state : State}

@[simp] theorem ok_bind {α β : Type} (value : α) (rest : α → Except Fault β) :
    (Except.ok value >>= rest) = rest value := rfl

theorem of_bind_ok {α β : Type} {first : Except Fault α} {rest : α → Except Fault β} {result : β}
    (computed : (first >>= rest) = .ok result) :
    ∃ value, first = .ok value ∧ rest value = .ok result := by
  cases first with
  | error fault => cases computed
  | ok value => exact ⟨value, rfl, computed⟩

theorem prefix_length (held : items <+: queue.toList) : items.length ≤ THREAD_MAX := by
  have bound := held.length_le
  rwa [Vector.length_toList] at bound

theorem load_prefix {i : Nat} (held : items <+: queue.toList) (found : items[i]? = some ptr) :
    load queue i = .ok ptr := by
  obtain ⟨bound, _⟩ := List.getElem?_eq_some_iff.mp found
  have stored : queue.toList[i]? = some ptr := by
    obtain ⟨rest, whole⟩ := held
    rw [← whole, List.getElem?_append_left bound, found]
  rw [Vector.getElem?_toList] at stored
  simp only [load, stored]

theorem store_bound {i : Nat} (bound : i < THREAD_MAX) :
    store queue i ptr = .ok (queue.set i ptr bound) := by
  simp only [store, dif_pos bound]

theorem store_prefix {i : Nat} (ptr : Ptr) (held : items <+: queue.toList) (inside : i < items.length) :
    ∃ stored, store queue i ptr = .ok stored ∧ items.set i ptr <+: stored.toList := by
  have bound : i < THREAD_MAX := Nat.lt_of_lt_of_le inside (prefix_length held)
  refine ⟨_, store_bound bound, ?_⟩
  obtain ⟨rest, whole⟩ := held
  rw [Vector.toList_set, ← whole, List.set_append_left _ _ inside]
  exact List.prefix_append _ _

theorem store_end (ptr : Ptr) (held : items <+: queue.toList) (room : items.length < THREAD_MAX) :
    ∃ stored, store queue items.length ptr = .ok stored ∧ items ++ [ptr] <+: stored.toList := by
  refine ⟨_, store_bound room, ?_⟩
  obtain ⟨rest, whole⟩ := held
  have length : (items ++ rest).length = THREAD_MAX := by rw [whole, Vector.length_toList]
  cases rest with
  | nil =>
      rw [List.append_nil] at length
      omega
  | cons next rest =>
      rw [Vector.toList_set, ← whole, List.set_append_right _ _ (Nat.le_refl _), Nat.sub_self,
        List.set_cons_zero]
      exact ⟨rest, by simp⟩

/-- The loop of the hand-off closes the gap behind `done`. -/
theorem shift_prefix (done : List Ptr) (held : done ++ ptr :: items <+: queue.toList) :
    ∃ shifted, shift queue done.length items.length = .ok shifted ∧
      done ++ items <+: shifted.toList := by
  induction items generalizing queue done ptr with
  | nil =>
      refine ⟨queue, rfl, ?_⟩
      rw [List.append_nil]
      exact (List.prefix_append done [ptr]).trans held
  | cons next items ih =>
      have loaded : load queue (done.length + 1) = .ok next :=
        load_prefix held (by simp)
      obtain ⟨stored, wrote, kept⟩ := store_prefix next held (i := done.length) (by simp)
      have kept : (done ++ [next]) ++ next :: items <+: stored.toList := by
        simpa [List.set_append_right] using kept
      obtain ⟨shifted, looped, rest⟩ := ih (done ++ [next]) kept
      refine ⟨shifted, ?_, ?_⟩
      · simp only [List.length_cons, shift, loaded, wrote, ok_bind]
        rwa [List.length_append, List.length_singleton] at looped
      · rwa [List.append_assoc, List.singleton_append] at rest

/-- The arrays and sizes of `state` hold `ready` and `waiting`. -/
structure Arranged (state : State) (ready waiting : List Ptr) : Prop where
  ready_queue : ready <+: state.ready_queue.toList
  rq_size : state.rq_size = ready.length
  waiting_queue : waiting <+: state.waiting_queue.toList
  wq_size : state.wq_size = waiting.length

namespace Arranged

theorem ready_eq (arranged : Arranged state ready waiting) : state.ready = ready := by
  rw [State.ready, arranged.rq_size, ← List.prefix_iff_eq_take.mp arranged.ready_queue]

theorem waiting_eq (arranged : Arranged state ready waiting) : state.waiting = waiting := by
  rw [State.waiting, arranged.wq_size, ← List.prefix_iff_eq_take.mp arranged.waiting_queue]

theorem empty_iff (arranged : Arranged state ready waiting) :
    (state.rq_size = 0 ∧ state.wq_size = 0) ↔ (ready = [] ∧ waiting = []) := by
  rw [arranged.rq_size, arranged.wq_size, List.length_eq_zero_iff, List.length_eq_zero_iff]

theorem running {tcb : Tcb} (arranged : Arranged state ready waiting)
    (current : ready[state.rq_current]? = some ptr) (block : state.tcbs ptr = some tcb) :
    RUNNING state = .ok (ptr, tcb) := by
  simp [RUNNING, deref, load_prefix arranged.ready_queue current, block, pure,
    Except.pure]

theorem handOff {tcb : Tcb} (arranged : Arranged state ready (ptr :: waiting))
    (block : state.tcbs ptr = some tcb) (room : ready.length < THREAD_MAX) :
    ∃ ready_queue waiting_queue,
      let after := { state with
        ready_queue, waiting_queue
        wq_size := state.wq_size - 1
        rq_size := state.rq_size + 1
        lock_owner := tcb.id
        acquisitions := state.acquisitions ++ [tcb.id] }
      handOff state = .ok after ∧ Arranged after (ready ++ [ptr]) waiting := by
  obtain ⟨ready_queue, pushed, holds⟩ := store_end ptr arranged.ready_queue room
  obtain ⟨waiting_queue, shifted, rest⟩ := shift_prefix [] arranged.waiting_queue
  have first : load state.waiting_queue 0 = .ok ptr := load_prefix arranged.waiting_queue rfl
  have last : load ready_queue ready.length = .ok ptr := load_prefix holds (by simp)
  have size : state.wq_size - 1 = waiting.length := by
    rw [arranged.wq_size, List.length_cons]
    omega
  refine ⟨ready_queue, waiting_queue, ?_, ⟨holds, ?_, rest, size⟩⟩
  · rw [← size, List.length_nil] at shifted
    simp [Threads.handOff, first, arranged.rq_size, pushed, last, deref, block, shifted, pure,
      Except.pure]
  · simp [arranged.rq_size]

theorem fillWithLast (arranged : Arranged state ready waiting)
    (current : ready[state.rq_current]? = some ptr) :
    ∃ ready_queue,
      let after := { state with ready_queue, rq_size := state.rq_size - 1 }
      fillWithLast state = .ok after ∧
        Arranged after (swapRemove state.rq_current ready) waiting := by
  obtain ⟨inside, _⟩ := List.getElem?_eq_some_iff.mp current
  cases ready.eq_nil_or_concat' with
  | inl empty =>
      subst empty
      simp at inside
  | inr ends =>
      obtain ⟨items, last, rfl⟩ := ends
      have size : state.rq_size = items.length + 1 := by simp [arranged.rq_size]
      have loaded : load state.ready_queue items.length = .ok last :=
        load_prefix arranged.ready_queue (by simp)
      obtain ⟨ready_queue, stored, holds⟩ :=
        store_prefix last arranged.ready_queue inside
      refine ⟨ready_queue, ?_, ⟨?_, ?_, arranged.waiting_queue, arranged.wq_size⟩⟩
      · simp only [Threads.fillWithLast, size, loaded, stored, ok_bind, pure, Except.pure,
          Nat.add_sub_cancel]
      · rw [swapRemove_append]
        refine List.IsPrefix.trans ?_ holds
        cases Nat.lt_or_ge state.rq_current items.length with
        | inl before =>
            rw [List.set_append_left _ _ before]
            exact List.prefix_append _ _
        | inr beyond =>
            rw [List.set_eq_of_length_le beyond, List.set_append_right _ _ beyond]
            exact List.prefix_append _ _
      · rw [length_swapRemove, ← arranged.rq_size]

theorem moveToWaiting (arranged : Arranged state ready waiting)
    (current : ready[state.rq_current]? = some ptr) (room : waiting.length < THREAD_MAX) :
    ∃ ready_queue waiting_queue,
      let after := { state with
        ready_queue, waiting_queue
        rq_size := state.rq_size - 1
        wq_size := state.wq_size + 1 }
      moveToWaiting state = .ok after ∧
        Arranged after (swapRemove state.rq_current ready) (waiting ++ [ptr]) := by
  obtain ⟨waiting_queue, pushed, holds⟩ := store_end ptr arranged.waiting_queue room
  have moved : Arranged { state with waiting_queue, wq_size := state.wq_size + 1 } ready
      (waiting ++ [ptr]) :=
    ⟨arranged.ready_queue, arranged.rq_size, holds, by simp [arranged.wq_size]⟩
  obtain ⟨ready_queue, filled, after⟩ := moved.fillWithLast current
  refine ⟨ready_queue, waiting_queue, ?_, after⟩
  rw [← arranged.wq_size] at pushed
  simp only [Threads.moveToWaiting, load_prefix arranged.ready_queue current, pushed, ok_bind]
  exact filled

theorem freeRunning {tcb : Tcb} (arranged : Arranged state ready waiting)
    (current : ready[state.rq_current]? = some ptr) (block : state.tcbs ptr = some tcb) :
    ∃ ready_queue,
      let after := { state with
        ready_queue
        tcbs := Function.update state.tcbs ptr none
        rq_size := state.rq_size - 1 }
      freeRunning state = .ok after ∧
        Arranged after (swapRemove state.rq_current ready) waiting := by
  have freed : Arranged { state with tcbs := Function.update state.tcbs ptr none } ready waiting :=
    ⟨arranged.ready_queue, arranged.rq_size, arranged.waiting_queue, arranged.wq_size⟩
  obtain ⟨ready_queue, filled, after⟩ := freed.fillWithLast current
  refine ⟨ready_queue, ?_, after⟩
  simp only [Threads.freeRunning, arranged.running current block, ok_bind]
  exact filled

end Arranged

end SysProg.Threads
