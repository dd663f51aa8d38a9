import SysProg.Threads.Queues
import SysProg.Threads.Body

namespace SysProg.Threads

open SysProg.Data

variable {specs : List Spec} {state after : State} {ready waiting : List Ptr} {ptr : Ptr}
  {old tcb : Tcb} {environment : Environment}

/-- `thread_create` number `k` allocates the block at `k + 1`. -/
def Created (specs : List Spec) (ptr : Ptr) (spec : Spec) : Prop :=
  ∃ k : Nat, k + 1 = ptr ∧ specs[k]? = some spec

/-- What of a thread never changes. -/
def Tcb.runs (tcb : Tcb) (spec : Spec) : Prop :=
  tcb.id = spec.id ∧ tcb.arg = spec.arg ∧ tcb.environment.func = spec.func

/-- The blocks in the queues are those of the threads that have not been freed. -/
structure Threaded (specs : List Spec) (state : State) (ready waiting : List Ptr) : Prop where
  arranged : Arranged state ready waiting
  nodup : (ready ++ waiting).Nodup
  live : ∀ ptr, ptr ∈ ready ++ waiting ↔ ∃ tcb, state.tcbs ptr = some tcb
  made : ∀ ptr tcb, state.tcbs ptr = some tcb → ∃ spec, Created specs ptr spec ∧ tcb.runs spec
  kept : ∀ ptr spec, Created specs ptr spec → ptr ∉ state.exited →
    ∃ tcb, state.tcbs ptr = some tcb
  atLock : ∀ ptr ∈ waiting, ∃ tcb, state.tcbs ptr = some tcb ∧
    tcb.environment = .setup .bank_operation

def Current (state : State) (ready : List Ptr) (ptr : Ptr) (tcb : Tcb) : Prop :=
  ready[state.rq_current]? = some ptr ∧ state.tcbs ptr = some tcb

/-- A lock that is not free belongs to a bank thread among `items`. -/
def Held (state : State) (items : List Ptr) : Prop :=
  state.lock_owner = -1 ∨ ∃ ptr ∈ items, ∃ tcb, state.tcbs ptr = some tcb ∧
    tcb.id = state.lock_owner ∧ tcb.environment.func = .bank_operation

/-- What holds where control stands. -/
def Placed (state : State) (ready waiting : List Ptr) : Control → Prop
  | .running environment | .yielding environment =>
      ∃ ptr tcb, Current state ready ptr tcb ∧ tcb.environment = environment
  | .scheduling 0 => waiting = []
  | .scheduling 1 => ∃ ptr tcb, Current state ready ptr tcb
  | .scheduling 2 => ∃ ptr tcb, Current state ready ptr tcb ∧
      tcb.environment = .setup .bank_operation ∧
      state.lock_owner ≠ -1 ∧ state.lock_owner ≠ tcb.id
  | .scheduling 3 => ∃ ptr tcb, Current state ready ptr tcb ∧ ptr ∈ state.exited ∧
      (state.lock_owner = -1 ∨ state.lock_owner ≠ tcb.id)
  | .scheduling (_ + 4) => False
  | .finished => ready = [] ∧ waiting = []
  | .crashed _ => False

structure Invariant (specs : List Spec) (state : State) (ready waiting : List Ptr) : Prop
    extends Threaded specs state ready waiting where
  held : Held state ready
  placed : Placed state ready waiting state.control
  leaving : ∀ ptr ∈ state.exited, state.tcbs ptr = none ∨
    (state.control = .scheduling 3 ∧ ready[state.rq_current]? = some ptr)

theorem Created.unique {spec other : Spec} (left : Created specs ptr spec)
    (right : Created specs ptr other) : spec = other := by
  obtain ⟨k, rfl, found⟩ := left
  obtain ⟨l, same, found'⟩ := right
  obtain rfl : k = l := Nat.succ.inj same.symm
  exact Option.some.inj (found.symm.trans found')

theorem Created.mem {spec : Spec} (created : Created specs ptr spec) : spec ∈ specs := by
  obtain ⟨k, _, found⟩ := created
  exact List.mem_of_getElem? found

theorem Created.same_id {p q : Ptr} {spec other : Spec} (distinct : (specs.map Spec.id).Nodup)
    (left : Created specs p spec) (right : Created specs q other) (same : spec.id = other.id) :
    p = q := by
  obtain ⟨k, rfl, found⟩ := left
  obtain ⟨l, rfl, found'⟩ := right
  have bound : k < (specs.map Spec.id).length := by
    rw [List.length_map]
    exact (List.getElem?_eq_some_iff.mp found).1
  have equal : (specs.map Spec.id)[k]? = (specs.map Spec.id)[l]? := by
    rw [List.getElem?_map, List.getElem?_map, found, found']
    simp [same]
  rw [(List.getElem?_inj bound distinct).mp equal]

theorem Created.count {items : List Ptr} (nodup : items.Nodup)
    (created : ∀ ptr ∈ items, ∃ spec, Created specs ptr spec) : items.length ≤ specs.length := by
  have inside : items ⊆ List.range' 1 specs.length := by
    intro ptr member
    obtain ⟨spec, k, rfl, found⟩ := created ptr member
    obtain ⟨bound, _⟩ := List.getElem?_eq_some_iff.mp found
    rw [List.mem_range'_1]
    exact ⟨Nat.le_add_left _ _, by omega⟩
  have fits := (List.subperm_of_subset nodup inside).length_le
  rwa [List.length_range'] at fits

namespace Threaded

theorem size (threaded : Threaded specs state ready waiting) :
    ready.length + waiting.length ≤ specs.length := by
  rw [← List.length_append]
  refine Created.count threaded.nodup ?_
  intro ptr member
  obtain ⟨tcb, block⟩ := (threaded.live ptr).mp member
  obtain ⟨spec, created, _⟩ := threaded.made ptr tcb block
  exact ⟨spec, created⟩

theorem same_id {p q : Ptr} {left right : Tcb} (threaded : Threaded specs state ready waiting)
    (distinct : (specs.map Spec.id).Nodup) (block : state.tcbs p = some left)
    (block' : state.tcbs q = some right) (same : left.id = right.id) : p = q := by
  obtain ⟨spec, created, id, _⟩ := threaded.made p left block
  obtain ⟨spec', created', id', _⟩ := threaded.made q right block'
  exact created.same_id distinct created' (by rw [← id, same, id'])

theorem not_waiting (threaded : Threaded specs state ready waiting)
    (current : Current state ready ptr tcb) : ptr ∉ waiting :=
  fun member => (List.nodup_append.mp threaded.nodup).2.2 ptr
    (List.mem_of_getElem? current.1) ptr member rfl

theorem rearrange {ready' waiting' : List Ptr} (threaded : Threaded specs state ready waiting)
    (arranged : Arranged after ready' waiting')
    (same : (ready' ++ waiting').Perm (ready ++ waiting))
    (tcbs : after.tcbs = state.tcbs) (exited : after.exited = state.exited)
    (atLock : ∀ ptr ∈ waiting', ∃ tcb, state.tcbs ptr = some tcb ∧
      tcb.environment = .setup .bank_operation) : Threaded specs after ready' waiting' where
  arranged := arranged
  nodup := same.nodup_iff.mpr threaded.nodup
  live ptr := by rw [tcbs, ← threaded.live, same.mem_iff]
  made := by rw [tcbs]; exact threaded.made
  kept := by rw [tcbs, exited]; exact threaded.kept
  atLock := by rw [tcbs]; exact atLock

theorem write (threaded : Threaded specs state ready waiting)
    (current : Current state ready ptr old) (arranged : Arranged after ready waiting)
    (same : ∀ spec, old.runs spec → tcb.runs spec)
    (tcbs : after.tcbs = Function.update state.tcbs ptr (some tcb))
    (exited : ∀ ptr ∈ state.exited, ptr ∈ after.exited) :
    Threaded specs after ready waiting where
  arranged := arranged
  nodup := threaded.nodup
  live other := by
    rw [threaded.live, tcbs]
    cases eq_or_ne other ptr with
    | inl equal => simp [equal, current.2]
    | inr different => rw [Function.update_of_ne different]
  made other block found := by
    rw [tcbs] at found
    cases eq_or_ne other ptr with
    | inl equal =>
        subst equal
        rw [Function.update_self] at found
        cases found
        obtain ⟨spec, created, runs⟩ := threaded.made other old current.2
        exact ⟨spec, created, same spec runs⟩
    | inr different =>
        rw [Function.update_of_ne different] at found
        exact threaded.made other block found
  kept other spec created alive := by
    rw [tcbs]
    cases eq_or_ne other ptr with
    | inl equal => simp [equal]
    | inr different =>
        rw [Function.update_of_ne different]
        exact threaded.kept other spec created (fun member => alive (exited other member))
  atLock other member := by
    have different : other ≠ ptr := by
      intro equal
      exact threaded.not_waiting current (equal ▸ member)
    rw [tcbs, Function.update_of_ne different]
    exact threaded.atLock other member

theorem free {ready' : List Ptr} (threaded : Threaded specs state ready waiting)
    (arranged : Arranged after ready' waiting)
    (same : (ptr :: ready').Perm ready) (tcbs : after.tcbs = Function.update state.tcbs ptr none)
    (exited : after.exited = state.exited) (gone : ptr ∈ state.exited) :
    Threaded specs after ready' waiting := by
  have whole : (ptr :: (ready' ++ waiting)).Perm (ready ++ waiting) := same.append_right waiting
  have nodup : (ptr :: (ready' ++ waiting)).Nodup := whole.nodup_iff.mpr threaded.nodup
  have others : ∀ other ∈ ready' ++ waiting, other ≠ ptr := by
    intro other member equal
    exact (List.nodup_cons.mp nodup).1 (equal ▸ member)
  refine ⟨arranged, (List.nodup_cons.mp nodup).2, ?_, ?_, ?_, ?_⟩
  · intro other
    rw [tcbs]
    cases eq_or_ne other ptr with
    | inl equal =>
        rw [equal, Function.update_self]
        simpa using (List.nodup_cons.mp nodup).1
    | inr different =>
        rw [Function.update_of_ne different, ← threaded.live, ← whole.mem_iff, List.mem_cons]
        simp [different]
  · intro other block found
    rw [tcbs] at found
    cases eq_or_ne other ptr with
    | inl equal => simp [equal] at found
    | inr different =>
        rw [Function.update_of_ne different] at found
        exact threaded.made other block found
  · intro other spec created alive
    rw [exited] at alive
    have different : other ≠ ptr := fun equal => alive (equal ▸ gone)
    rw [tcbs, Function.update_of_ne different]
    exact threaded.kept other spec created alive
  · intro other member
    rw [tcbs, Function.update_of_ne (others other (by simp [member]))]
    exact threaded.atLock other member

end Threaded

end SysProg.Threads
