import Mathlib.Data.List.Nodup
import SysProg.Transition.Steps
import SysProg.Threads.Dispatch

namespace SysProg.Threads

open Relation SysProg.Transition

variable {specs : List Spec} {state after : State} {ready waiting : List Ptr} {ptr : Ptr}
  {tcb new : Tcb} {environment : Environment}

/-- A running thread writes its own block and leaves the queues alone. -/
structure Touches (state after : State) (ptr : Ptr) (new : Tcb) : Prop where
  ready_queue : after.ready_queue = state.ready_queue
  waiting_queue : after.waiting_queue = state.waiting_queue
  rq_size : after.rq_size = state.rq_size
  rq_current : after.rq_current = state.rq_current
  wq_size : after.wq_size = state.wq_size
  tcbs : after.tcbs = Function.update state.tcbs ptr (some new)

/-- The threads `tcb` and `new` are the same one at different points. -/
def Tcb.Same (tcb new : Tcb) : Prop :=
  new.id = tcb.id ∧ new.arg = tcb.arg ∧ new.environment.func = tcb.environment.func

namespace Touches

theorem arranged (touches : Touches state after ptr new) (arranged : Arranged state ready waiting) :
    Arranged after ready waiting where
  ready_queue := by rw [touches.ready_queue]; exact arranged.ready_queue
  rq_size := by rw [touches.rq_size]; exact arranged.rq_size
  waiting_queue := by rw [touches.waiting_queue]; exact arranged.waiting_queue
  wq_size := by rw [touches.wq_size]; exact arranged.wq_size

theorem current (touches : Touches state after ptr new) (current : Current state ready ptr tcb) :
    Current after ready ptr new :=
  ⟨by rw [touches.rq_current]; exact current.1, by rw [touches.tcbs, Function.update_self]⟩

theorem threaded (touches : Touches state after ptr new) (same : tcb.Same new)
    (threaded : Threaded specs state ready waiting) (current : Current state ready ptr tcb)
    (exited : ∀ ptr ∈ state.exited, ptr ∈ after.exited) : Threaded specs after ready waiting := by
  refine threaded.write current (touches.arranged threaded.arranged) ?_ touches.tcbs exited
  intro spec runs
  obtain ⟨id, arg, func⟩ := same
  exact ⟨id.trans runs.1, arg.trans runs.2.1, func.trans runs.2.2⟩

theorem held (touches : Touches state after ptr new) (same : tcb.Same new)
    (current : Current state ready ptr tcb) {items : List Ptr} (held : Held state items)
    (lock : after.lock_owner = state.lock_owner) : Held after items := by
  cases held with
  | inl free => exact .inl (lock.trans free)
  | inr owned =>
      obtain ⟨owner, member, block, found, id, bank⟩ := owned
      refine .inr ⟨owner, member, ?_⟩
      rw [touches.tcbs, lock]
      cases eq_or_ne owner ptr with
      | inl equal =>
          subst equal
          obtain rfl : block = tcb := Option.some.inj (found.symm.trans current.2)
          exact ⟨new, Function.update_self .., same.1.trans id, same.2.2.trans bank⟩
      | inr different => exact ⟨block, by rw [Function.update_of_ne different, found], id, bank⟩

end Touches

/-- The end that the rounds of both loops share. -/
def endRound (environment : Environment) (ptr : Ptr) (tcb : Tcb) (state : State) : State :=
  if tcb.i = tcb.arg then thread_exit ptr ((state.setTcb ptr tcb).print (.value tcb.id tcb.y))
  else thread_yield environment ptr tcb ((state.setTcb ptr tcb).print (.value tcb.id tcb.y))

theorem fibonacciRound_eq (i : Int) (ptr : Ptr) (tcb : Tcb) (state : State) :
    ∃ x y, fibonacciRound i ptr tcb state =
      endRound .fibonacciYield ptr { tcb with i, x, y } state := by
  unfold fibonacciRound
  split
  · exact ⟨1, 1, rfl⟩
  · exact ⟨tcb.y, int32 (tcb.x + tcb.y), rfl⟩

theorem factorialRound_eq (i : Int) (ptr : Ptr) (tcb : Tcb) (state : State) :
    ∃ x y, factorialRound i ptr tcb state =
      endRound .factorialYield ptr { tcb with i, x, y } state := by
  unfold factorialRound
  split
  · exact ⟨tcb.x, 1, rfl⟩
  · exact ⟨tcb.x, int32 (tcb.y * i), rfl⟩

/-- The transaction writes the balance and prints one line, whichever branch it takes. -/
theorem bankUpdate_eq (ptr : Ptr) (tcb : Tcb) (state : State) :
    ∃ balance line, bankUpdate ptr tcb state =
      thread_yield .updated ptr tcb ({ state with balance }.print line) := by
  unfold bankUpdate
  split
  · exact ⟨_, _, rfl⟩
  · exact ⟨state.balance, _, rfl⟩

theorem bankRelease_eq (ptr : Ptr) (tcb : Tcb) (state : State) :
    bankRelease ptr tcb state = thread_exit ptr
      ({ state with
        lock_owner := if state.lock_owner = tcb.id then -1 else state.lock_owner }.print
          (.released tcb.id)) := by
  unfold bankRelease
  split <;> rfl

/-- What the turn of a thread that goes on behind `environment` comes to. -/
inductive Resumes (environment : Environment) (ptr : Ptr) (tcb : Tcb) (state : State) : Prop
  | round (loop : Environment) (i x y : Int) (counts : environment.func ≠ .bank_operation)
      (func : loop.func = environment.func)
      (computed : resume environment ptr tcb state = endRound loop ptr { tcb with i, x, y } state)
  | lock (point : environment = .setup .bank_operation)
      (computed : resume environment ptr tcb state = bankLock ptr tcb state)
  | update (point : environment = .acquired)
      (computed : resume environment ptr tcb state = bankUpdate ptr tcb state)
  | release (point : environment = .updated)
      (computed : resume environment ptr tcb state = bankRelease ptr tcb state)

theorem resume_cases (environment : Environment) (ptr : Ptr) (tcb : Tcb) (state : State) :
    Resumes environment ptr tcb state := by
  have fibonacci : ∀ i, environment.func = .fibonacci →
      resume environment ptr tcb state = fibonacciRound i ptr tcb state →
      Resumes environment ptr tcb state := by
    intro i func enters
    obtain ⟨x, y, computed⟩ := fibonacciRound_eq i ptr tcb state
    exact .round .fibonacciYield i x y (by simp [func]) func.symm (enters.trans computed)
  have factorial : ∀ i, environment.func = .factorial →
      resume environment ptr tcb state = factorialRound i ptr tcb state →
      Resumes environment ptr tcb state := by
    intro i func enters
    obtain ⟨x, y, computed⟩ := factorialRound_eq i ptr tcb state
    exact .round .factorialYield i x y (by simp [func]) func.symm (enters.trans computed)
  cases environment with
  | setup func =>
      cases func with
      | fibonacci => exact fibonacci 1 rfl rfl
      | factorial => exact factorial 1 rfl rfl
      | bank_operation => exact .lock rfl rfl
  | fibonacciYield => exact fibonacci (int32 (tcb.i + 1)) rfl rfl
  | factorialYield => exact factorial (int32 (tcb.i + 1)) rfl rfl
  | acquired => exact .update rfl rfl
  | updated => exact .release rfl rfl

theorem endRound_balance (environment : Environment) (ptr : Ptr) (tcb : Tcb) (state : State) :
    (endRound environment ptr tcb state).balance = state.balance := by
  unfold endRound
  split <;> rfl

/-- The balance moves in a transaction only. -/
theorem resume_balance (elsewhere : tcb.environment ≠ .acquired) :
    (resume tcb.environment ptr tcb state).balance = state.balance := by
  cases resume_cases tcb.environment ptr tcb state with
  | round loop i x y counts func computed => rw [computed, endRound_balance]
  | lock point computed =>
      rw [computed]
      unfold bankLock
      split <;> rfl
  | update point computed => exact absurd point elsewhere
  | release point computed =>
      rw [computed, bankRelease_eq]
      rfl

/-- Queues in order make the invariant at every place they allow. -/
theorem Threaded.settle (threaded : Threaded specs state ready waiting) (held : Held state ready)
    (freed : ∀ ptr ∈ state.exited, state.tcbs ptr = none) {out : List Line} {control : Control}
    (placed : Placed state ready waiting control) :
    Invariant specs { state with out, control } ready waiting where
  toThreaded := threaded.rearrange
    ⟨threaded.arranged.ready_queue, threaded.arranged.rq_size,
      threaded.arranged.waiting_queue, threaded.arranged.wq_size⟩ (.refl _) rfl rfl
    threaded.atLock
  held := held
  placed := by
    change Placed _ _ _ control
    cases control with
    | running environment => exact placed
    | yielding environment => exact placed
    | scheduling val =>
        match val with
        | 0 | 1 | 2 | 3 => exact placed
        | _ + 4 => exact placed
    | finished => exact placed
    | crashed fault => exact placed
  leaving ptr member := .inl (freed ptr member)

namespace Invariant

/-- No thread has exited that still has a block, unless one is just leaving. -/
theorem freed (invariant : Invariant specs state ready waiting)
    (stays : state.control ≠ .scheduling 3) : ∀ ptr ∈ state.exited, state.tcbs ptr = none := by
  intro ptr member
  cases invariant.leaving ptr member with
  | inl gone => exact gone
  | inr leaving => exact absurd leaving.1 stays

theorem not_exited (invariant : Invariant specs state ready waiting)
    (current : Current state ready ptr tcb) (stays : state.control ≠ .scheduling 3) :
    ptr ∉ state.exited := by
  intro member
  have gone := invariant.freed stays ptr member
  rw [current.2] at gone
  cases gone

/-- The running thread goes on to a point where it keeps the processor or asks for
the lock in vain. -/
theorem stays (invariant : Invariant specs state ready waiting)
    (current : Current state ready ptr tcb) (awake : state.control ≠ .scheduling 3)
    (touches : Touches state after ptr new) (same : tcb.Same new)
    (exited : after.exited = state.exited) (held : Held after ready)
    (placed : Placed after ready waiting after.control) : Invariant specs after ready waiting where
  toThreaded := touches.threaded same invariant.toThreaded current (by simp [exited])
  held := held
  placed := placed
  leaving other member := by
    rw [exited] at member
    have different : other ≠ ptr := by
      intro equal
      subst equal
      exact invariant.not_exited current awake member
    rw [touches.tcbs, Function.update_of_ne different]
    exact .inl (invariant.freed awake other member)

theorem yields (invariant : Invariant specs state ready waiting)
    (current : Current state ready ptr tcb) (awake : state.control ≠ .scheduling 3)
    (touches : Touches state after ptr new) (same : tcb.Same new)
    (exited : after.exited = state.exited) (held : Held after ready)
    (control : after.control = .yielding new.environment) :
    Invariant specs after ready waiting := by
  refine invariant.stays current awake touches same exited held ?_
  rw [control]
  exact ⟨ptr, new, touches.current current, rfl⟩

theorem exits (invariant : Invariant specs state ready waiting)
    (current : Current state ready ptr tcb) (awake : state.control ≠ .scheduling 3)
    (touches : Touches state after ptr new) (same : tcb.Same new)
    (exited : after.exited = state.exited ++ [ptr]) (held : Held after ready)
    (differs : after.lock_owner = -1 ∨ after.lock_owner ≠ tcb.id)
    (control : after.control = .scheduling 3) : Invariant specs after ready waiting where
  toThreaded := touches.threaded same invariant.toThreaded current (by
    intro other member
    simp [exited, member])
  held := held
  placed := by
    rw [control]
    exact ⟨ptr, new, touches.current current, by simp [exited], by rwa [same.1]⟩
  leaving other member := by
    rw [exited, List.mem_append, List.mem_singleton] at member
    cases member with
    | inl earlier =>
        have different : other ≠ ptr := by
          intro equal
          subst equal
          exact invariant.not_exited current awake earlier
        rw [touches.tcbs, Function.update_of_ne different]
        exact .inl (invariant.freed awake other earlier)
    | inr last => exact .inr ⟨control, last ▸ (touches.current current).1⟩

theorem round (invariant : Invariant specs state ready waiting)
    (distinct : (specs.map Spec.id).Nodup) (current : Current state ready ptr tcb)
    (control : state.control = .running tcb.environment)
    (counts : tcb.environment.func ≠ .bank_operation) (same : tcb.Same new)
    (func : environment.func = tcb.environment.func) :
    Invariant specs (endRound environment ptr new state) ready waiting := by
  have awake : state.control ≠ .scheduling 3 := by simp [control]
  unfold endRound
  split
  · have touches : Touches state
        (thread_exit ptr ((state.setTcb ptr new).print (.value new.id new.y))) ptr new :=
      ⟨rfl, rfl, rfl, rfl, rfl, rfl⟩
    refine invariant.exits current awake touches same rfl
      (touches.held same current invariant.held rfl) ?_ rfl
    cases invariant.held with
    | inl free => exact .inl free
    | inr owned =>
        obtain ⟨owner, member, block, found, id, bank⟩ := owned
        refine .inr ?_
        intro equal
        have same_ptr : owner = ptr :=
          invariant.toThreaded.same_id distinct found current.2 (id.trans equal)
        subst same_ptr
        obtain rfl : block = tcb := Option.some.inj (found.symm.trans current.2)
        exact counts bank
  · have touches : Touches state
        (thread_yield environment ptr new
          ((state.setTcb ptr new).print (.value new.id new.y))) ptr
        { new with environment } :=
      ⟨rfl, rfl, rfl, rfl, rfl, Function.update_idem ..⟩
    have same' : tcb.Same { new with environment } := ⟨same.1, same.2.1, func⟩
    exact invariant.yields current awake touches same' rfl
      (touches.held same' current invariant.held rfl) rfl

theorem bankLock (invariant : Invariant specs state ready waiting)
    (current : Current state ready ptr tcb)
    (control : state.control = .running (.setup .bank_operation))
    (environment : tcb.environment = .setup .bank_operation) :
    Invariant specs (bankLock ptr tcb state) ready waiting := by
  have awake : state.control ≠ .scheduling 3 := by simp [control]
  unfold Threads.bankLock
  split
  · have same : tcb.Same { tcb with environment := .acquired } :=
      ⟨rfl, rfl, by rw [environment]; rfl⟩
    refine invariant.yields current awake ⟨rfl, rfl, rfl, rfl, rfl, rfl⟩ same rfl ?_ rfl
    exact .inr ⟨ptr, List.mem_of_getElem? current.1, { tcb with environment := .acquired },
      Function.update_self .., rfl, rfl⟩
  · rename_i taken
    rw [not_or] at taken
    have unchanged : Function.update state.tcbs ptr (some tcb) = state.tcbs := by
      rw [← current.2, Function.update_eq_self]
    refine invariant.stays current awake ⟨rfl, rfl, rfl, rfl, rfl, unchanged.symm⟩
      ⟨rfl, rfl, rfl⟩ rfl invariant.held ?_
    exact ⟨ptr, tcb, current, environment, taken⟩

theorem bankUpdate (invariant : Invariant specs state ready waiting)
    (current : Current state ready ptr tcb) (control : state.control = .running .acquired)
    (environment : tcb.environment = .acquired) :
    Invariant specs (bankUpdate ptr tcb state) ready waiting := by
  have awake : state.control ≠ .scheduling 3 := by simp [control]
  obtain ⟨balance, line, computed⟩ := bankUpdate_eq ptr tcb state
  rw [computed]
  have same : tcb.Same { tcb with environment := .updated } :=
    ⟨rfl, rfl, by rw [environment]; rfl⟩
  have touches : Touches state
      (thread_yield .updated ptr tcb ({ state with balance }.print line)) ptr
      { tcb with environment := .updated } :=
    ⟨rfl, rfl, rfl, rfl, rfl, rfl⟩
  exact invariant.yields current awake touches same rfl
    (touches.held same current invariant.held rfl) rfl

theorem bankRelease (invariant : Invariant specs state ready waiting)
    (current : Current state ready ptr tcb) (control : state.control = .running .updated) :
    Invariant specs (bankRelease ptr tcb state) ready waiting := by
  have awake : state.control ≠ .scheduling 3 := by simp [control]
  have unchanged : Function.update state.tcbs ptr (some tcb) = state.tcbs := by
    rw [← current.2, Function.update_eq_self]
  rw [bankRelease_eq]
  refine invariant.exits current awake ⟨rfl, rfl, rfl, rfl, rfl, unchanged.symm⟩
    ⟨rfl, rfl, rfl⟩ rfl ?_ ?_ rfl
  · change Held { state with lock_owner := _, out := _, control := _, exited := _ } ready
    by_cases owner : state.lock_owner = tcb.id
    · exact .inl (if_pos owner)
    · rw [if_neg owner]
      exact invariant.held
  · change (if _ then _ else _) = _ ∨ (if _ then _ else _) ≠ _
    by_cases owner : state.lock_owner = tcb.id
    · exact .inl (if_pos owner)
    · rw [if_neg owner]
      exact .inr owner

theorem resume (invariant : Invariant specs state ready waiting)
    (distinct : (specs.map Spec.id).Nodup) (current : Current state ready ptr tcb)
    (control : state.control = .running tcb.environment) :
    Invariant specs (resume tcb.environment ptr tcb state) ready waiting := by
  cases resume_cases tcb.environment ptr tcb state with
  | round loop i x y counts func computed =>
      rw [computed]
      exact invariant.round distinct current control counts ⟨rfl, rfl, rfl⟩ func
  | lock point computed =>
      rw [computed]
      exact invariant.bankLock current (point ▸ control) point
  | update point computed =>
      rw [computed]
      exact invariant.bankUpdate current (point ▸ control) point
  | release point computed =>
      rw [computed]
      exact invariant.bankRelease current (point ▸ control)

theorem next (few : specs.length ≤ THREAD_MAX) (distinct : (specs.map Spec.id).Nodup)
    (invariant : Invariant specs state ready waiting) (signal : Option Signal) :
    ∃ ready' waiting', Invariant specs (next signal state) ready' waiting' := by
  have placed := invariant.placed
  unfold Threads.next
  cases control : state.control with
  | running environment =>
      rw [control] at placed
      obtain ⟨ptr, tcb, current, rfl⟩ := placed
      simp only [invariant.arranged.running current.1 current.2]
      exact ⟨ready, waiting, invariant.resume distinct current control⟩
  | yielding environment =>
      rw [control] at placed
      have freed := invariant.freed (by simp [control])
      cases signal with
      | none => exact ⟨ready, waiting, invariant.toThreaded.settle invariant.held freed placed⟩
      | some signal =>
          obtain ⟨ptr, tcb, current, _⟩ := placed
          have placed' : Placed state ready waiting (.scheduling 1) := ⟨ptr, tcb, current⟩
          exact ⟨ready, waiting, invariant.toThreaded.settle invariant.held freed placed'⟩
  | scheduling val =>
      obtain ⟨outcome, ready', waiting', scheduled, threaded, held, kept, ended, freed⟩ :=
        invariant.schedules few control
      rw [← kept.exited] at freed
      simp only [scheduled]
      cases outcome with
      | returned after => exact ⟨ready', waiting', threaded.settle held freed ended⟩
      | dispatch environment after => exact ⟨ready', waiting', threaded.settle held freed ended⟩
  | finished => exact ⟨ready, waiting, invariant⟩
  | crashed fault =>
      rw [control] at placed
      exact placed.elim

end Invariant

/-- The state while `init_threads` creates the threads: `done` is created. -/
structure Built (done : List Spec) (state : State) : Prop where
  arranged : Arranged state (List.range' 1 done.length) []
  blocks : ∀ ptr tcb, state.tcbs ptr = some tcb ↔ ∃ spec, Created done ptr spec ∧ tcb = spec.tcb
  out : state.out = done.map fun spec => .setup spec.id spec.func
  lock_owner : state.lock_owner = -1
  balance : state.balance = 500
  control : state.control = .scheduling 0
  exited : state.exited = []
  acquisitions : state.acquisitions = []

theorem created_append {done : List Spec} {spec other : Spec} :
    Created (done ++ [spec]) ptr other ↔
      Created done ptr other ∨ (ptr = done.length + 1 ∧ other = spec) := by
  refine ⟨?_, ?_⟩
  · intro created
    obtain ⟨k, rfl, found⟩ := created
    rw [List.getElem?_append] at found
    split at found
    · exact .inl ⟨k, rfl, found⟩
    · obtain ⟨bound, same⟩ := List.getElem?_eq_some_iff.mp found
      have last : k = done.length := by
        rw [List.length_singleton] at bound
        omega
      subst last
      exact .inr ⟨rfl, by simpa using same.symm⟩
  · intro either
    cases either with
    | inl earlier =>
        obtain ⟨k, rfl, found⟩ := earlier
        exact ⟨k, rfl, by
          rw [List.getElem?_append_left (List.getElem?_eq_some_iff.mp found).1, found]⟩
    | inr last =>
        obtain ⟨rfl, rfl⟩ := last
        exact ⟨done.length, rfl, by simp⟩

theorem Built.create {done : List Spec} (built : Built done state) (spec : Spec)
    (room : done.length < THREAD_MAX) :
    ∃ after, thread_create (done.length + 1) spec state = .ok after ∧
      Built (done ++ [spec]) after := by
  have length : (List.range' 1 done.length).length = done.length := List.length_range'
  obtain ⟨ready_queue, stored, holds⟩ := store_end (done.length + 1)
    built.arranged.ready_queue (by rwa [length])
  rw [← built.arranged.rq_size] at stored
  have computed : thread_create (done.length + 1) spec state = .ok { state with
      tcbs := Function.update state.tcbs (done.length + 1) (some spec.tcb)
      out := state.out ++ [.setup spec.id spec.func]
      ready_queue
      rq_size := state.rq_size + 1 } := by
    rw [thread_create, stored, ok_bind]
    rfl
  have longer : List.range' 1 (done ++ [spec]).length =
      List.range' 1 done.length ++ [done.length + 1] := by
    rw [List.length_append, List.length_singleton, List.range'_concat, Nat.add_comm 1, Nat.one_mul]
  refine ⟨_, computed, ⟨longer ▸ holds, ?_, built.arranged.waiting_queue, built.arranged.wq_size⟩,
    ?_, ?_, built.lock_owner, built.balance, built.control, built.exited, built.acquisitions⟩
  · simp [built.arranged.rq_size]
  · intro ptr tcb
    simp only [created_append]
    cases eq_or_ne ptr (done.length + 1) with
    | inl last =>
        subst last
        rw [Function.update_self]
        refine ⟨fun found => ⟨spec, .inr ⟨rfl, rfl⟩, (Option.some.inj found).symm⟩, ?_⟩
        intro existing
        obtain ⟨other, either, rfl⟩ := existing
        cases either with
        | inl earlier =>
            obtain ⟨k, equal, found⟩ := earlier
            obtain ⟨bound, _⟩ := List.getElem?_eq_some_iff.mp found
            exact absurd equal (by omega)
        | inr equal => rw [equal.2]
    | inr different =>
        rw [Function.update_of_ne different, built.blocks]
        simp [different]
  · simp [built.out]

theorem createAll_built {rest done : List Spec} (built : Built done state)
    (few : (done ++ rest).length ≤ THREAD_MAX) :
    ∃ after, createAll (done.length + 1) rest state = .ok after ∧ Built (done ++ rest) after := by
  induction rest generalizing done state with
  | nil => exact ⟨state, rfl, by simpa using built⟩
  | cons spec rest ih =>
      have room : done.length < THREAD_MAX := by
        rw [List.length_append, List.length_cons] at few
        omega
      obtain ⟨created, first, built'⟩ := built.create spec room
      obtain ⟨after, others, built''⟩ := ih built' (by simpa using few)
      rw [List.length_append, List.length_singleton] at others
      refine ⟨after, ?_, by simpa using built''⟩
      rw [createAll, first, ok_bind, others]

theorem start_built (few : specs.length ≤ THREAD_MAX) : Built specs (start specs) := by
  have initial : Built [] globals := by
    refine ⟨⟨by simp, rfl, by simp, rfl⟩, ?_, rfl, rfl, rfl, rfl, rfl, rfl⟩
    intro ptr tcb
    simp [globals, Created]
  obtain ⟨after, created, built⟩ := createAll_built initial few
  rw [List.length_nil] at created
  simp only [start, created]
  exact built

theorem Built.invariant (built : Built specs state) :
    Invariant specs state (List.range' 1 specs.length) [] where
  arranged := built.arranged
  nodup := by simpa using List.nodup_range'
  live ptr := by
    simp only [List.append_nil, List.mem_range'_1, built.blocks]
    refine ⟨?_, ?_⟩
    · intro inside
      obtain ⟨positive, below⟩ := inside
      obtain ⟨k, rfl⟩ := Nat.exists_eq_succ_of_ne_zero (Nat.ne_of_gt positive)
      have bound : k < specs.length := by omega
      exact ⟨specs[k].tcb, specs[k], ⟨k, rfl, List.getElem?_eq_getElem bound⟩, rfl⟩
    · intro existing
      obtain ⟨_, spec, ⟨k, rfl, found⟩, _⟩ := existing
      obtain ⟨bound, _⟩ := List.getElem?_eq_some_iff.mp found
      omega
  made ptr tcb found := by
    obtain ⟨spec, created, rfl⟩ := (built.blocks ptr tcb).mp found
    exact ⟨spec, created, rfl, rfl, rfl⟩
  kept ptr spec created _ := ⟨spec.tcb, (built.blocks ptr spec.tcb).mpr ⟨spec, created, rfl⟩⟩
  atLock := by simp
  held := .inl built.lock_owner
  placed := by
    rw [built.control]
    rfl
  leaving := by simp [built.exited]

theorem reachable_invariant (few : specs.length ≤ THREAD_MAX)
    (distinct : (specs.map Spec.id).Nodup) (reached : Reachable specs state) :
    ∃ ready waiting, Invariant specs state ready waiting := by
  have initially : ∃ ready waiting, Invariant specs (start specs) ready waiting :=
    ⟨_, _, (start_built few).invariant⟩
  refine @invariant_of_run _ _ _ _
    (fun state => ∃ ready waiting, Invariant specs state ready waiting) ?_ reached initially
  intro before after step existing
  obtain ⟨signal, rfl⟩ := step
  obtain ⟨ready, waiting, invariant⟩ := existing
  exact invariant.next few distinct signal

/-- No thread is lost, duplicated or resumed after its exit. -/
structure Accounted (specs : List Spec) (state : State) : Prop where
  once : ∀ ptr spec, Created specs ptr spec → ptr ∉ state.exited →
    (state.ready ++ state.waiting).count ptr = 1
  allocated : ∀ ptr ∈ state.ready ++ state.waiting, ∃ tcb, state.tcbs ptr = some tcb
  leaving : ∀ ptr ∈ state.exited, ptr ∈ state.ready ++ state.waiting →
    state.control = .scheduling 3 ∧ state.ready[state.rq_current]? = some ptr
  resumed : ∀ environment, state.control = .running environment →
    ∃ ptr tcb, RUNNING state = .ok (ptr, tcb) ∧ ptr ∉ state.exited
  inBounds : ∀ fault, state.control ≠ .crashed fault
  schedules : ∀ val, state.control = .scheduling val → ∃ outcome,
    scheduler val state = .ok outcome ∧
    ∀ environment after, outcome = .dispatch environment after → after.rq_current < after.rq_size

theorem threads_accounted (few : specs.length ≤ THREAD_MAX)
    (distinct : (specs.map Spec.id).Nodup) (reached : Reachable specs state) :
    Accounted specs state := by
  obtain ⟨ready, waiting, invariant⟩ := reachable_invariant few distinct reached
  have ready_eq := invariant.arranged.ready_eq
  have waiting_eq := invariant.arranged.waiting_eq
  have placed := invariant.placed
  refine ⟨?_, ?_, ?_, ?_, ?_, ?_⟩
  · intro ptr spec created alive
    rw [ready_eq, waiting_eq]
    exact List.count_eq_one_of_mem invariant.nodup
      ((invariant.live ptr).mpr (invariant.kept ptr spec created alive))
  · intro ptr member
    rw [ready_eq, waiting_eq] at member
    exact (invariant.live ptr).mp member
  · intro ptr gone member
    rw [ready_eq, waiting_eq] at member
    rw [ready_eq]
    obtain ⟨tcb, block⟩ := (invariant.live ptr).mp member
    cases invariant.leaving ptr gone with
    | inl freed =>
        rw [block] at freed
        cases freed
    | inr leaving => exact leaving
  · intro environment control
    rw [control] at placed
    obtain ⟨ptr, tcb, current, _⟩ := placed
    exact ⟨ptr, tcb, invariant.arranged.running current.1 current.2,
      invariant.not_exited current (by simp [control])⟩
  · intro fault control
    rw [control] at placed
    exact placed
  · intro val control
    obtain ⟨outcome, ready', waiting', scheduled, threaded, _, _, ended, _⟩ :=
      invariant.schedules few control
    refine ⟨outcome, scheduled, ?_⟩
    intro environment after dispatched
    subst dispatched
    obtain ⟨ptr, tcb, current, _⟩ := ended
    have size : after.rq_size = ready'.length := threaded.arranged.rq_size
    rw [size]
    exact current.inside

/-- Two loops and two transactions. -/
def loops_and_transactions : List Spec := init_threads 1 3 (-200) 300 0

/-- A quantum ends at every yield. -/
def alarms : Nat → Option Signal := fun _ => some .SIGALRM

/-- The fibonacci thread has returned, and thread 2 waits for the lock that thread 3 holds. -/
theorem threads_accounted_waiting :
    ((run loops_and_transactions alarms 11).exited = [1] ∧
      (run loops_and_transactions alarms 11).waiting = [3] ∧
      (run loops_and_transactions alarms 11).lock_owner = 3) ∧
    Accounted loops_and_transactions (run loops_and_transactions alarms 11) :=
  ⟨⟨by decide +kernel, by decide +kernel, by decide +kernel⟩,
    threads_accounted (by decide) (by decide) (run_reachable ..)⟩

end SysProg.Threads
