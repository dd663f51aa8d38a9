import SysProg.Transition.Steps
import SysProg.Pool.Step

namespace SysProg.Pool

open Relation SysProg.Transition

/-! # The pool as it is run

The threads decide little: which one moves next, which address `malloc` returns, and
what a task or a thread outside the pool adds.  A move says just that, and the rest of a step is
computed. -/

variable {n : Nat} {Func Arg : Type} {state before after : State n Func Arg}

/-- The next step of a thread.  `submit` is the beginning of a `tpool_add` inside a task, and
`address` is what `malloc` returns where the step calls it. -/
inductive Move (n : Nat) (Func Arg : Type) where
  | worker (i : Fin n) (address : Addr)
  | submit (i : Fin n) (func : Func) (arg : Arg)
  | startAdd (k : Nat) (func : Func) (arg : Arg)
  | adder (k : Nat) (address : Addr)
  | wait

def State.acquire (state : State n Func Arg) (me : Thread n) : Option (State n Func Arg) :=
  match state.mlock with
  | none => some { state with mlock := some me }
  | some _ => none

def AddPc.perform (me : Thread n) (address : Addr) (state : State n Func Arg) :
    AddPc Func Arg → Option (State n Func Arg × AddPc Func Arg)
  | .idle => none
  | .lock func arg => (state.acquire me).map (·, .link func arg)
  | .link func arg =>
      match state.heap address with
      | some _ => none
      | none => ((state.allocate address func arg).linkJob address).map (·, .broadcast)
  | .broadcast => some (state.broadcast, .unlock)
  | .unlock => some ({ state with mlock := none }, .idle)

def WorkerPc.perform (i : Fin n) (address : Addr) (state : State n Func Arg) :
    WorkerPc Func Arg → Option (State n Func Arg × WorkerPc Func Arg)
  | .lock | .woken => (state.acquire (.worker i)).map (·, .test)
  | .test => some (state, if state.queue_head = none ∧ state.finish = false then .wait else .dequeue)
  | .wait => some ({ state with mlock := none }, .asleep)
  -- a wake-up that nobody has sent; a broadcast moves the sleepers itself
  | .asleep => some (state, .woken)
  | .dequeue =>
      match state.queue_head with
      | some job => (state.heap job).map fun task => (state.dequeueJob i job task, .unlockJob job)
      | none => some (state, if state.finish = true then .unlockExit else .lock)
  | .unlockJob job => some ({ state with mlock := none }, .call job)
  | .call job => (state.heap job).map fun task => (state.recordCall i job task, .run job .idle)
  | .run job .idle => some (state.recordReturn job, .free job)
  | .run job add => (add.perform (.worker i) address state).map fun next => (next.1, .run job next.2)
  | .free job => some (state.freeJob job, .broadcastJob)
  | .broadcastJob => some (state.broadcast, .lock)
  | .unlockExit => some ({ state with mlock := none }, .broadcastExit)
  | .broadcastExit => some (state.broadcast, .exited)
  | .exited => none

namespace State

def performWait (state : State n Func Arg) : Option (State n Func Arg) :=
  match state.waiter with
  | .notCalled => some { state with waiter := .setFinish }
  | .setFinish => some { state with finish := true, waiter := .broadcast }
  | .broadcast => some { state.broadcast with waiter := .join 0 }
  | .join i =>
      if inside : i < n then
        match state.workers ⟨i, inside⟩ with
        | .exited => some { state with waiter := .join (i + 1) }
        | _ => none
      else if i = n then some { state with waiter := .returned } else none
  | .returned => none

def perform (state : State n Func Arg) : Move n Func Arg → Option (State n Func Arg)
  | .worker i address =>
      ((state.workers i).perform i address state).map fun next => next.1.setWorker i next.2
  | .submit i func arg =>
      match state.workers i with
      | .run job .idle => some (state.setWorker i (.run job (.lock func arg)))
      | _ => none
  | .startAdd k func arg =>
      match state.adders k with
      | .idle => some (state.setAdder k (.lock func arg))
      | _ => none
  | .adder k address =>
      ((state.adders k).perform (.adder k) address state).map fun next => next.1.setAdder k next.2
  | .wait => state.performWait

theorem acquire_eq_some {me : Thread n} :
    state.acquire me = some after ↔ state.mlock = none ∧ after = { state with mlock := some me } := by
  unfold acquire
  split
  · rename_i free
    exact ⟨fun taken => ⟨free, (Option.some.inj taken).symm⟩, fun both => congrArg some both.2.symm⟩
  · rename_i owner owned
    exact ⟨nofun, fun both => absurd (owned.symm.trans both.1) nofun⟩

end State

theorem AddStep.busy {me : Thread n} {pc pc' : AddPc Func Arg} (step : AddStep me state pc after pc') :
    pc ≠ .idle := by
  cases step <;> nofun

theorem WorkerPc.perform_run {i : Fin n} {address job : Addr} {add : AddPc Func Arg} (busy : add ≠ .idle) :
    (WorkerPc.run job add).perform i address state =
      (add.perform (.worker i) address state).map fun next => (next.1, .run job next.2) := by
  cases add with
  | idle => exact absurd rfl busy
  | lock | link | broadcast | unlock => rfl

theorem addStep_iff_perform {me : Thread n} {pc pc' : AddPc Func Arg} :
    AddStep me state pc after pc' ↔ ∃ address, pc.perform me address state = some (after, pc') := by
  constructor
  · intro step
    cases step with
    | acquire func arg free =>
        exact ⟨0, Option.map_eq_some_iff.mpr ⟨_, State.acquire_eq_some.mpr ⟨free, rfl⟩, rfl⟩⟩
    | link _ job func arg unused linked =>
        refine ⟨job, ?_⟩
        rw [AddPc.perform, unused]
        exact Option.map_eq_some_iff.mpr ⟨_, linked, rfl⟩
    | broadcast => exact ⟨0, rfl⟩
    | unlock => exact ⟨0, rfl⟩
  · rintro ⟨address, performed⟩
    cases pc with
    | idle => cases performed
    | lock func arg =>
        obtain ⟨locked, taken, same⟩ := Option.map_eq_some_iff.mp performed
        cases same
        obtain ⟨free, rfl⟩ := State.acquire_eq_some.mp taken
        exact .acquire state func arg free
    | link func arg =>
        rw [AddPc.perform] at performed
        split at performed
        · cases performed
        · rename_i unused
          obtain ⟨linked, linking, same⟩ := Option.map_eq_some_iff.mp performed
          cases same
          exact .link state _ address func arg unused linking
    | broadcast =>
        cases performed
        exact .broadcast state
    | unlock =>
        cases performed
        exact .unlock state

/-- A worker moves, or its task begins a `tpool_add`. -/
theorem workerStep_iff_perform {i : Fin n} {pc pc' : WorkerPc Func Arg} :
    WorkerStep i state pc after pc' ↔
      (∃ address, pc.perform i address state = some (after, pc')) ∨
      ∃ job func arg, pc = .run job .idle ∧ after = state ∧ pc' = .run job (.lock func arg) := by
  constructor
  · intro step
    cases step with
    | acquire free | reacquire free =>
        exact .inl ⟨0, Option.map_eq_some_iff.mpr ⟨_, State.acquire_eq_some.mpr ⟨free, rfl⟩, rfl⟩⟩
    | testSleep empty open_ =>
        refine .inl ⟨0, ?_⟩
        rw [WorkerPc.perform, if_pos ⟨empty, open_⟩]
    | testPass goes =>
        refine .inl ⟨0, ?_⟩
        rw [WorkerPc.perform, if_neg goes]
    | dequeue job task head stored =>
        refine .inl ⟨0, ?_⟩
        rw [WorkerPc.perform, head]
        exact Option.map_eq_some_iff.mpr ⟨task, stored, rfl⟩
    | call job task stored => exact .inl ⟨0, Option.map_eq_some_iff.mpr ⟨task, stored, rfl⟩⟩
    | add job func arg => exact .inr ⟨job, func, arg, rfl, rfl, rfl⟩
    | inAdd _ job add add' inner =>
        obtain ⟨address, performed⟩ := addStep_iff_perform.mp inner
        refine .inl ⟨address, ?_⟩
        rw [WorkerPc.perform_run inner.busy]
        exact Option.map_eq_some_iff.mpr ⟨_, performed, rfl⟩
    | leave empty finished =>
        refine .inl ⟨0, ?_⟩
        rw [WorkerPc.perform, empty]
        exact congrArg (fun pc => some (state, pc)) (if_pos finished)
    | fallThrough empty open_ =>
        refine .inl ⟨0, ?_⟩
        rw [WorkerPc.perform, empty]
        exact congrArg (fun pc => some (state, pc)) (if_neg (by rw [open_]; nofun))
    | sleep | spurious | unlockJob | «return» | free | broadcastJob | unlockExit | broadcastExit =>
        exact .inl ⟨0, rfl⟩
  · rintro (⟨address, performed⟩ | ⟨job, func, arg, rfl, rfl, rfl⟩)
    · cases pc with
      | lock | woken =>
          obtain ⟨locked, taken, same⟩ := Option.map_eq_some_iff.mp performed
          cases same
          obtain ⟨free, rfl⟩ := State.acquire_eq_some.mp taken
          constructor
          exact free
      | test =>
          by_cases drained : state.queue_head = none ∧ state.finish = false
          · rw [WorkerPc.perform, if_pos drained] at performed
            cases performed
            exact .testSleep state drained.1 drained.2
          · rw [WorkerPc.perform, if_neg drained] at performed
            cases performed
            exact .testPass state drained
      | dequeue =>
          rw [WorkerPc.perform] at performed
          split at performed
          · rename_i job head
            obtain ⟨task, stored, same⟩ := Option.map_eq_some_iff.mp performed
            cases same
            exact .dequeue state job task head stored
          · rename_i empty
            cases finish : state.finish with
            | true =>
                rw [finish, if_pos rfl] at performed
                cases performed
                exact .leave state empty finish
            | false =>
                rw [finish, if_neg nofun] at performed
                cases performed
                exact .fallThrough state empty finish
      | call job =>
          obtain ⟨task, stored, same⟩ := Option.map_eq_some_iff.mp performed
          cases same
          exact .call state job task stored
      | run job add =>
          by_cases busy : add = .idle
          · subst busy
            cases performed
            exact .return state job
          · rw [WorkerPc.perform_run busy] at performed
            obtain ⟨⟨next, add'⟩, inner, same⟩ := Option.map_eq_some_iff.mp performed
            cases same
            exact .inAdd state next job add add' (addStep_iff_perform.mpr ⟨address, inner⟩)
      | exited => cases performed
      | wait | asleep | unlockJob | free | broadcastJob | unlockExit | broadcastExit =>
          cases performed
          constructor
    · exact .add after job func arg

theorem waitStep_iff_perform : WaitStep state after ↔ state.performWait = some after := by
  constructor
  · intro step
    cases step with
    | call here | setFinish here | broadcast here => rw [State.performWait, here]
    | join i here exited =>
        rw [State.performWait, here]
        simp only [i.isLt, dite_true, exited]
    | returned here =>
        rw [State.performWait, here]
        simp only [Nat.lt_irrefl, dite_false, if_true]
  · intro performed
    unfold State.performWait at performed
    split at performed
    · rename_i here
      cases performed
      exact .call state here
    · rename_i here
      cases performed
      exact .setFinish state here
    · rename_i here
      cases performed
      exact .broadcast state here
    · rename_i i here
      split at performed
      · rename_i inside
        split at performed
        · rename_i exited
          cases performed
          exact .join state ⟨i, inside⟩ here exited
        · cases performed
      · split at performed
        · rename_i all
          subst all
          cases performed
          exact .returned state here
        · cases performed
    · cases performed

/-- The steps of the pool are the moves that can be performed. -/
theorem step_iff_perform : Step before after ↔ ∃ move, before.perform move = some after := by
  constructor
  · intro step
    cases step with
    | worker i _ next pc pc' here inner =>
        subst here
        rcases workerStep_iff_perform.mp inner with ⟨address, performed⟩ | ⟨job, func, arg, here, rfl, rfl⟩
        · exact ⟨.worker i address, Option.map_eq_some_iff.mpr ⟨_, performed, rfl⟩⟩
        · exact ⟨.submit i func arg, by rw [State.perform, here]⟩
    | startAdd k _ func arg idle => exact ⟨.startAdd k func arg, by rw [State.perform, idle]⟩
    | adder k _ next pc pc' here inner =>
        subst here
        obtain ⟨address, performed⟩ := addStep_iff_perform.mp inner
        exact ⟨.adder k address, Option.map_eq_some_iff.mpr ⟨_, performed, rfl⟩⟩
    | wait _ _ inner => exact ⟨.wait, waitStep_iff_perform.mp inner⟩
  · rintro ⟨move, performed⟩
    cases move with
    | worker i address =>
        obtain ⟨⟨next, pc'⟩, inner, rfl⟩ := Option.map_eq_some_iff.mp performed
        exact .worker i before next _ pc' rfl (workerStep_iff_perform.mpr (.inl ⟨address, inner⟩))
    | submit i func arg =>
        rw [State.perform] at performed
        split at performed
        · rename_i job here
          cases performed
          exact .worker i before before _ _ here (.add before job func arg)
        · cases performed
    | startAdd k func arg =>
        rw [State.perform] at performed
        split at performed
        · rename_i idle
          cases performed
          exact .startAdd k before func arg idle
        · cases performed
    | adder k address =>
        obtain ⟨⟨next, pc'⟩, inner, rfl⟩ := Option.map_eq_some_iff.mp performed
        exact .adder k before next _ pc' rfl (addStep_iff_perform.mpr ⟨address, inner⟩)
    | wait => exact .wait before after (waitStep_iff_perform.mpr performed)

/-- The reachable states are those that a list of moves leads to. -/
theorem reachable_iff_perform :
    Reachable state ↔ ∃ moves : List (Move n Func Arg),
      moves.foldlM State.perform (tpool_init n Func Arg) = some state :=
  run_iff_moves fun _ _ => step_iff_perform

/-- A thread outside calls `tpool_add` and gets the cell `job`. -/
def Move.adds (k : Nat) (func : Func) (arg : Arg) (job : Addr) : List (Move n Func Arg) :=
  [.startAdd k func arg, .adder k 0, .adder k job, .adder k 0, .adder k 0]

def Move.works (i : Fin n) (moves : Nat) : List (Move n Func Arg) :=
  List.replicate moves (.worker i 0)

end SysProg.Pool
