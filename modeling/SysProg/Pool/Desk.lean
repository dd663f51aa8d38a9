import SysProg.Pool.Fifo
import SysProg.Transition.Desk
import SysProg.Transition.Simulation

namespace SysProg.Pool

open Relation SysProg.Transition SysProg.Data

/-! # The pool as a queue with `n` servers

Each step of the pool adds a task, takes the oldest one, ends one or is no step of the queue. -/

variable {n : Nat} {Func Arg : Type} {state before after : State n Func Arg} {queue : List Addr}

/-- The workers behind one queue. -/
def State.desk (state : State n Func Arg) : Desk (Fin n) (Added Func Arg) where
  arrived := state.added
  begun := state.taken.map Prod.fst
  ended := state.completed

theorem SameTasks.desk (same : SameTasks before after) : after.desk = before.desk := by
  rw [State.desk, State.desk, same.added, same.taken, same.completed]

/-- The tickets are taken in their order. -/
theorem Consistent.taken_range (consistent : Consistent state queue) :
    state.taken.map Prod.snd = List.range state.taken.length := by
  have order := consistent.order
  have first : state.taken.map Prod.snd <+: List.range state.added.length := ⟨_, order⟩
  have whole := congrArg List.length order
  rw [List.length_append, List.length_map, List.length_map, List.length_range] at whole
  rw [List.prefix_iff_eq_take.mp first, List.take_range, List.length_map,
    Nat.min_eq_left (by omega)]

theorem Consistent.taken_at (consistent : Consistent state queue) {i : Fin n} {ticket k : Nat}
    (here : state.taken[k]? = some (i, ticket)) : ticket = k := by
  have inside := (List.getElem?_eq_some_iff.mp here).1
  have numbered : (state.taken.map Prod.snd)[k]? = some ticket := by
    rw [List.getElem?_map, here]
    rfl
  rw [consistent.taken_range, List.getElem?_range inside] at numbered
  exact (Option.some.inj numbered).symm

theorem Consistent.begun (consistent : Consistent state queue) {i : Fin n} {ticket : Nat} :
    state.desk.begun[ticket]? = some i ↔ (i, ticket) ∈ state.taken := by
  constructor
  · intro here
    rw [State.desk, List.getElem?_map, Option.map_eq_some_iff] at here
    obtain ⟨⟨j, number⟩, found, rfl⟩ := here
    obtain rfl := consistent.taken_at found
    exact List.mem_of_getElem? found
  · intro member
    obtain ⟨k, found⟩ := List.getElem?_of_mem member
    obtain rfl := consistent.taken_at found
    rw [State.desk, List.getElem?_map, found]
    rfl

/-- Every step of the pool is a step of the desk or none. -/
theorem Consistent.follows (consistent : Consistent before queue) (step : Step before after) :
    after.desk = before.desk ∨ Desk.Step before.desk after.desk := by
  cases step.tasks with
  | quiet same => exact .inl same.desk
  | link job func arg linked unused link same =>
      obtain ⟨_, _, _, _, _, _, added, _, taken, _, completed⟩ := State.linkJob_frame link
      have arrives : after.desk =
          { before.desk with arrived := before.desk.arrived ++ [⟨func, arg⟩] } := by
        rw [same.desk, State.desk, added, taken, completed]
        rfl
      rw [arrives]
      exact .inr (.arrive _ _)
  | dequeue i job task here head stored equal =>
      obtain ⟨rest, rfl, _⟩ := consistent.dequeue here head stored
      have begins : after.desk = { before.desk with begun := before.desk.begun ++ [i] } := by
        rw [equal, State.desk, State.desk]
        simp [State.setWorker, State.dequeueJob]
      rw [begins]
      refine .inr (.begin _ i ?_ ?_)
      · have whole := congrArg List.length consistent.order
        rw [List.length_append, List.length_map, List.length_map, List.length_cons,
          List.length_range] at whole
        change (before.taken.map Prod.fst).length < before.added.length
        rw [List.length_map]
        omega
      · intro ticket mine
        have idle : before.unfinished i = none := by simp [State.unfinished, here, WorkerPc.stage?]
        rcases consistent.runs.accounted i ticket (consistent.begun.mp mine) with done | waits
        · exact done
        · rw [idle] at waits
          cases waits
  | call i job task here stored equal =>
      left
      rw [equal]
      rfl
  | «return» i job here equal =>
      have ends : after.desk =
          { before.desk with ended := before.desk.ended ++ [before.ticket job] } := by
        rw [equal]
        rfl
      rw [ends]
      have has : before.unfinished i = some (before.ticket job) := by
        simp [State.unfinished, here, WorkerPc.stage?]
      obtain ⟨member, open_⟩ := consistent.runs.waiting i _ has
      refine .inr (.ends _ _ ?_ open_)
      exact (List.getElem?_eq_some_iff.mp (consistent.begun.mpr member)).1
  | free i job here equal =>
      left
      rw [equal]
      rfl

theorem desk_simulation (n : Nat) (Func Arg : Type) :
    Simulation Step Desk.Step (@State.desk n Func Arg) Reachable where
  kept _ _ step reachable := reachable.tail step
  follows before after step reachable := by
    obtain ⟨queue, consistent⟩ := Consistent.of_reachable reachable
    exact consistent.follows step

/-- Two tasks are added, worker `i` takes the first, and `j` runs the other to its end. -/
def overtaking (i j : Fin n) : List (Move n Nat Nat) :=
  Move.adds 0 7 3 5 ++ Move.adds 0 8 4 6 ++ Move.works i 5 ++ Move.works j 6

theorem reachable_overtaking : ∃ state : State 2 Nat Nat, Reachable state ∧ state.completed = [1] ∧
    state.called = [⟨0, 0, 7, 3⟩, ⟨1, 1, 8, 4⟩] := by
  have completes : ((overtaking 0 1).foldlM State.perform (tpool_init 2 Nat Nat)).map
      (fun state => (state.completed, state.called)) =
        some ([1], [⟨0, 0, 7, 3⟩, ⟨1, 1, 8, 4⟩]) := rfl
  obtain ⟨state, performed, facts⟩ := Option.map_eq_some_iff.mp completes
  simp only [Prod.mk.injEq] at facts
  exact ⟨state, reachable_iff_perform.mpr ⟨overtaking 0 1, performed⟩, facts⟩

/-- The pool is one queue with `n` servers: whatever the threads do, its additions, dequeues and
returns are arrivals, beginnings and ends there, and what a worker calls is the job it began. -/
theorem pool_refines (n : Nat) (Func Arg : Type) :
    Simulation Step Desk.Step (@State.desk n Func Arg) Reachable ∧
    ∀ state : State n Func Arg, Reachable state →
      ReflTransGen Desk.Step .empty state.desk ∧
      ∀ call ∈ state.called, state.desk.begun[call.ticket]? = some call.worker ∧
        state.desk.arrived[call.ticket]? = some ⟨call.func, call.arg⟩ := by
  refine ⟨desk_simulation n Func Arg, ?_⟩
  intro state reachable
  obtain ⟨queue, consistent⟩ := Consistent.of_reachable reachable
  refine ⟨(desk_simulation n Func Arg).run reachable .refl, ?_⟩
  intro call member
  obtain ⟨taken, recorded⟩ := consistent.called call member
  exact ⟨consistent.begun.mpr taken, recorded⟩

theorem pool_refines_two :
    ∃ state : State 2 Nat Nat, ReflTransGen Desk.Step .empty state.desk ∧ state.completed = [1] ∧
      (state.desk.begun[0]? = some 0 ∧ state.desk.arrived[0]? = some ⟨7, 3⟩) ∧
      (state.desk.begun[1]? = some 1 ∧ state.desk.arrived[1]? = some ⟨8, 4⟩) := by
  obtain ⟨state, reachable, completed, called⟩ := reachable_overtaking
  obtain ⟨run, calls⟩ := (pool_refines 2 Nat Nat).2 state reachable
  have first := calls ⟨0, 0, 7, 3⟩ (by simp [called])
  have other := calls ⟨1, 1, 8, 4⟩ (by simp [called])
  exact ⟨state, run, completed, first, other⟩

/-- When a task has returned, fewer than `n` of those added before it have not. -/
theorem tasks_overtaken (n : Nat) (Func Arg : Type) (state : State n Func Arg)
    (reachable : Reachable state) :
    ∀ ticket ∈ state.completed,
      ((Finset.range ticket).filter (· ∉ state.completed)).card < n := by
  have sound : state.desk.Sound := by
    refine (desk_simulation n Func Arg).transfer ?_ reachable .refl
    exact fun _ run => .of_run run
  intro ticket returned
  have fewer := sound.overtaken returned
  rwa [Fintype.card_fin] at fewer

theorem tasks_overtaken_two : ∃ state : State 2 Nat Nat, state.completed = [1] ∧
    ((Finset.range 1).filter (· ∉ state.completed)).card < 2 := by
  obtain ⟨state, reachable, completed, _⟩ := reachable_overtaking
  exact ⟨state, completed, tasks_overtaken 2 Nat Nat state reachable 1 (by simp [completed])⟩

end SysProg.Pool
