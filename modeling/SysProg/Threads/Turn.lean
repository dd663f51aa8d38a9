import Mathlib.Algebra.BigOperators.Group.Finset.Basic
import SysProg.Threads.Bank

namespace SysProg.Threads

/-! # One turn of a thread, seen from the thread

What a running thread does between two jumps depends on its own block only,
apart from the lock and the balance.  `Turn` says what it writes into the block,
what it prints and whether it exits. -/

variable {specs : List Spec} {state after : State} {ready waiting : List Ptr} {ptr : Ptr}
  {tcb new : Tcb} {lines : List Line} {leaves : Bool} {spec : Spec}
  {weight : Tcb → Nat}

/-- `x` and `y` after round `i` of the loop of `func`. -/
def registers (func : Func) (i x y : Int) : Int × Int :=
  match func with
  | .fibonacci => if i ≤ 2 then (1, 1) else (y, int32 (x + y))
  | .factorial => if i ≤ 1 then (x, 1) else (x, int32 (y * i))
  | .bank_operation => (x, y)

/-- The block of a thread after round `i` of its loop. -/
def Tcb.round (tcb : Tcb) (i : Int) : Tcb :=
  let values := registers tcb.environment.func i tcb.x tcb.y
  { tcb with i, x := values.1, y := values.2 }

/-- The point inside the loop of `func`. -/
def Func.looping : Func → Environment
  | .fibonacci => .fibonacciYield
  | .factorial => .factorialYield
  | .bank_operation => .setup .bank_operation

/-- The number of the round that starts behind the `setjmp` of the block. -/
def Tcb.next (tcb : Tcb) : Int :=
  match tcb.environment with
  | .fibonacciYield | .factorialYield => int32 (tcb.i + 1)
  | _ => 1

inductive Turn (tcb : Tcb) : Tcb → List Line → Bool → Prop
  | last (counts : tcb.environment.func ≠ .bank_operation) (done : tcb.next = tcb.arg) :
      Turn tcb (tcb.round tcb.next) [.value tcb.id (tcb.round tcb.next).y] true
  | round (counts : tcb.environment.func ≠ .bank_operation) (more : tcb.next ≠ tcb.arg) :
      Turn tcb { tcb.round tcb.next with environment := tcb.environment.func.looping }
        [.value tcb.id (tcb.round tcb.next).y] false
  | refused (point : tcb.environment = .setup .bank_operation) : Turn tcb tcb [] false
  | locks (point : tcb.environment = .setup .bank_operation) :
      Turn tcb { tcb with environment := .acquired } [.acquired tcb.id] false
  | transacts (point : tcb.environment = .acquired) (before balance : Int) :
      Turn tcb { tcb with environment := .updated } [.transaction tcb.id before balance] false
  | releases (point : tcb.environment = .updated) : Turn tcb tcb [.released tcb.id] true

/-- What a turn does to the shared state, apart from the lock and the balance. -/
structure Acts (state after : State) (ptr : Ptr) (new : Tcb) (lines : List Line)
    (leaves : Bool) : Prop where
  tcbs : after.tcbs = Function.update state.tcbs ptr (some new)
  out : after.out = state.out ++ lines
  exited : after.exited = if leaves then state.exited ++ [ptr] else state.exited
  rq_size : after.rq_size = state.rq_size
  refused : lines = [] → after.control = .scheduling 2

theorem fibonacciRound_round (func : tcb.environment.func = .fibonacci) (i : Int) :
    fibonacciRound i ptr tcb state = endRound .fibonacciYield ptr (tcb.round i) state := by
  unfold fibonacciRound
  split
  · rename_i early
    simp only [Tcb.round, registers, func, if_pos early]
    rfl
  · rename_i late
    simp only [Tcb.round, registers, func, if_neg late]
    rfl

theorem factorialRound_round (func : tcb.environment.func = .factorial) (i : Int) :
    factorialRound i ptr tcb state = endRound .factorialYield ptr (tcb.round i) state := by
  unfold factorialRound
  split
  · rename_i early
    simp only [Tcb.round, registers, func, if_pos early]
    rfl
  · rename_i late
    simp only [Tcb.round, registers, func, if_neg late]
    rfl

theorem endRound_turn (counts : tcb.environment.func ≠ .bank_operation) :
    ∃ new lines leaves, Turn tcb new lines leaves ∧
      Acts state (endRound tcb.environment.func.looping ptr (tcb.round tcb.next) state) ptr new
        lines leaves := by
  unfold endRound
  by_cases done : tcb.next = tcb.arg
  · have here : (tcb.round tcb.next).i = (tcb.round tcb.next).arg := done
    rw [if_pos here]
    exact ⟨_, _, _, .last counts done, rfl, rfl, rfl, rfl, nofun⟩
  · have here : (tcb.round tcb.next).i ≠ (tcb.round tcb.next).arg := done
    rw [if_neg here]
    exact ⟨_, _, _, .round counts done, Function.update_idem .., rfl, rfl, rfl, nofun⟩

theorem fibonacciRound_turn (func : tcb.environment.func = .fibonacci) :
    ∃ new lines leaves, Turn tcb new lines leaves ∧
      Acts state (fibonacciRound tcb.next ptr tcb state) ptr new lines leaves := by
  have turn := @endRound_turn state ptr tcb (by simp [func])
  rw [fibonacciRound_round func]
  rwa [func] at turn

theorem factorialRound_turn (func : tcb.environment.func = .factorial) :
    ∃ new lines leaves, Turn tcb new lines leaves ∧
      Acts state (factorialRound tcb.next ptr tcb state) ptr new lines leaves := by
  have turn := @endRound_turn state ptr tcb (by simp [func])
  rw [factorialRound_round func]
  rwa [func] at turn

theorem bankLock_turn (block : state.tcbs ptr = some tcb)
    (point : tcb.environment = .setup .bank_operation) :
    ∃ new lines leaves, Turn tcb new lines leaves ∧
      Acts state (bankLock ptr tcb state) ptr new lines leaves := by
  unfold bankLock
  split
  · exact ⟨_, _, _, .locks point, rfl, rfl, rfl, rfl, nofun⟩
  · have unchanged : Function.update state.tcbs ptr (some tcb) = state.tcbs := by
      rw [← block, Function.update_eq_self]
    exact ⟨_, _, _, .refused point, unchanged.symm, (List.append_nil _).symm, rfl, rfl, fun _ => rfl⟩

theorem bankUpdate_turn (point : tcb.environment = .acquired) :
    ∃ new lines leaves, Turn tcb new lines leaves ∧
      Acts state (bankUpdate ptr tcb state) ptr new lines leaves := by
  unfold bankUpdate
  split
  · exact ⟨_, _, _, .transacts point _ _, rfl, rfl, rfl, rfl, nofun⟩
  · exact ⟨_, _, _, .transacts point _ _, rfl, rfl, rfl, rfl, nofun⟩

theorem bankRelease_turn (block : state.tcbs ptr = some tcb)
    (point : tcb.environment = .updated) :
    ∃ new lines leaves, Turn tcb new lines leaves ∧
      Acts state (bankRelease ptr tcb state) ptr new lines leaves := by
  have unchanged : Function.update state.tcbs ptr (some tcb) = state.tcbs := by
    rw [← block, Function.update_eq_self]
  rw [bankRelease_eq]
  exact ⟨_, _, _, .releases point, unchanged.symm, rfl, rfl, rfl, nofun⟩

theorem resume_turn (block : state.tcbs ptr = some tcb) :
    ∃ new lines leaves, Turn tcb new lines leaves ∧
      Acts state (resume tcb.environment ptr tcb state) ptr new lines leaves := by
  have fibonacci : tcb.environment.func = .fibonacci → ∀ i, tcb.next = i →
      ∃ new lines leaves, Turn tcb new lines leaves ∧
        Acts state (fibonacciRound i ptr tcb state) ptr new lines leaves := by
    intro func i same
    obtain rfl := same
    exact fibonacciRound_turn func
  have factorial : tcb.environment.func = .factorial → ∀ i, tcb.next = i →
      ∃ new lines leaves, Turn tcb new lines leaves ∧
        Acts state (factorialRound i ptr tcb state) ptr new lines leaves := by
    intro func i same
    obtain rfl := same
    exact factorialRound_turn func
  cases point : tcb.environment with
  | setup func =>
      cases func with
      | fibonacci => exact fibonacci (by rw [point]; rfl) 1 (by simp only [Tcb.next, point])
      | factorial => exact factorial (by rw [point]; rfl) 1 (by simp only [Tcb.next, point])
      | bank_operation => exact bankLock_turn block point
  | fibonacciYield => exact fibonacci (by rw [point]; rfl) _ (by simp only [Tcb.next, point])
  | factorialYield => exact factorial (by rw [point]; rfl) _ (by simp only [Tcb.next, point])
  | acquired => exact bankUpdate_turn point
  | updated => exact bankRelease_turn block point

/-- What a step that is no turn of a thread leaves alone. -/
structure Pauses (state after : State) : Prop where
  blocks : ∀ ptr, ptr ∉ state.exited → after.tcbs ptr = state.tcbs ptr
  freed : ∀ ptr ∈ state.exited, after.tcbs ptr = state.tcbs ptr ∨ after.tcbs ptr = none
  out : after.out = state.out ∨ ∃ signal, after.out = state.out ++ [.caught signal]
  exited : after.exited = state.exited
  balance : after.balance = state.balance

/-- A step is a turn of the running thread, or it is none of any thread. -/
theorem Invariant.turns (few : specs.length ≤ THREAD_MAX)
    (invariant : Invariant specs state ready waiting) (signal : Option Signal) :
    (∃ ptr tcb, Current state ready ptr tcb ∧ state.control = .running tcb.environment ∧
      Threads.next signal state = Threads.resume tcb.environment ptr tcb state) ∨
    (∀ environment, state.control ≠ .running environment) ∧
      Pauses state (Threads.next signal state) := by
  have placed := invariant.placed
  cases control : state.control with
  | running environment =>
      rw [control] at placed
      obtain ⟨ptr, tcb, current, rfl⟩ := placed
      refine .inl ⟨ptr, tcb, current, rfl, ?_⟩
      simp only [Threads.next, control, invariant.arranged.running current.1 current.2]
  | yielding environment =>
      refine .inr ⟨nofun, ?_⟩
      cases signal with
      | none =>
          simp only [Threads.next, control]
          exact ⟨fun _ _ => rfl, fun _ _ => .inl rfl, .inl rfl, rfl, rfl⟩
      | some signal =>
          simp only [Threads.next, control]
          exact ⟨fun _ _ => rfl, fun _ _ => .inl rfl, .inr ⟨signal, rfl⟩, rfl, rfl⟩
  | scheduling val =>
      obtain ⟨outcome, _, _, computed, _, _, kept, _, freed⟩ := invariant.schedules few control
      refine .inr ⟨nofun, ?_⟩
      simp only [Threads.next, control, computed]
      have final : Pauses state outcome.final :=
        ⟨kept.blocks, fun ptr gone => .inr (freed ptr gone), .inl kept.out, kept.exited,
          kept.balance⟩
      cases outcome with
      | returned after => exact ⟨final.1, final.2, final.3, final.4, final.5⟩
      | dispatch environment after => exact ⟨final.1, final.2, final.3, final.4, final.5⟩
  | finished =>
      refine .inr ⟨nofun, ?_⟩
      simp only [Threads.next, control]
      exact ⟨fun _ _ => rfl, fun _ _ => .inl rfl, .inl rfl, rfl, rfl⟩
  | crashed fault =>
      rw [control] at placed
      exact placed.elim

def State.share (weight : Tcb → Nat) (state : State) (ptr : Ptr) : Nat :=
  if ptr ∈ state.exited then 0
  else match state.tcbs ptr with
    | some tcb => weight tcb
    | none => 0

def State.total (weight : Tcb → Nat) (specs : List Spec) (state : State) : Nat :=
  ∑ ptr ∈ Finset.range (specs.length + 1), state.share weight ptr

namespace State

theorem share_alive (alive : ptr ∉ state.exited) (block : state.tcbs ptr = some tcb) :
    state.share weight ptr = weight tcb := by
  rw [share, if_neg alive, block]

theorem share_gone (gone : ptr ∈ state.exited) : state.share weight ptr = 0 := by
  rw [share, if_pos gone]

end State

theorem Pauses.total (pauses : Pauses state after) :
    after.total weight specs = state.total weight specs := by
  refine Finset.sum_congr rfl fun ptr _ => ?_
  by_cases gone : ptr ∈ state.exited
  · rw [State.share_gone gone, State.share_gone (by rwa [pauses.exited])]
  · rw [State.share, State.share, if_neg gone, if_neg (by rwa [pauses.exited]),
      pauses.blocks ptr gone]

theorem Acts.share_other (acts : Acts state after ptr new lines leaves) {other : Ptr}
    (different : other ≠ ptr) : after.share weight other = state.share weight other := by
  have gone : other ∈ after.exited ↔ other ∈ state.exited := by
    rw [acts.exited]
    split
    · simp [different]
    · rfl
  simp only [State.share, gone, acts.tcbs, Function.update_of_ne different]

theorem Created.inside (created : Created specs ptr spec) :
    ptr ∈ Finset.range (specs.length + 1) := by
  obtain ⟨k, rfl, found⟩ := created
  have bound := (List.getElem?_eq_some_iff.mp found).1
  rw [Finset.mem_range]
  omega

/-- A turn moves the total by what it moves the share of its thread. -/
theorem Acts.total (acts : Acts state after ptr new lines leaves) (weight : Tcb → Nat)
    (created : Created specs ptr spec) :
    after.total weight specs + state.share weight ptr =
      state.total weight specs + after.share weight ptr := by
  have split : ∀ some : State, some.share weight ptr +
      ∑ other ∈ (Finset.range (specs.length + 1)).erase ptr, some.share weight other =
        some.total weight specs := fun some => Finset.add_sum_erase _ _ created.inside
  have others : ∑ other ∈ (Finset.range (specs.length + 1)).erase ptr, after.share weight other =
      ∑ other ∈ (Finset.range (specs.length + 1)).erase ptr, state.share weight other :=
    Finset.sum_congr rfl fun other member => acts.share_other (Finset.ne_of_mem_erase member)
  have before := split state
  have later := split after
  omega

end SysProg.Threads
