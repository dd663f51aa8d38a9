import SysProg.Threads.Termination

namespace SysProg.Threads

/-! # A thread among others behaves as it does alone

The stages of a thread mention no other thread, so the whole program and the
program with this thread only go through the same ones. -/

variable {specs : List Spec} {state : State} {ready waiting : List Ptr} {ptr : Ptr}
  {tcb new : Tcb} {lines : List Line} {spec : Spec}

/-- A step writes no block but that of the running thread. -/
theorem Invariant.block_next (few : specs.length ≤ THREAD_MAX)
    (invariant : Invariant specs state ready waiting) (signal : Option Signal)
    (before : state.tcbs ptr = some tcb) (after : (Threads.next signal state).tcbs ptr = some new) :
    new = tcb ∨ ((∃ environment, state.control = .running environment) ∧
      RUNNING state = .ok (ptr, tcb)) := by
  rcases invariant.turns few signal with ⟨own, block, current, control, computed⟩ | ⟨_, pauses⟩
  · rw [computed] at after
    obtain ⟨written, lines, leaves, _, acts⟩ := @resume_turn state own block current.2
    by_cases same : ptr = own
    · subst same
      obtain rfl : tcb = block := Option.some.inj (before.symm.trans current.2)
      exact .inr ⟨⟨_, control⟩, invariant.arranged.running current.1 current.2⟩
    · rw [acts.tcbs, Function.update_of_ne same, before] at after
      exact .inl (Option.some.inj after).symm
  · have unchanged : (Threads.next signal state).tcbs ptr = state.tcbs ptr := by
      by_cases gone : ptr ∈ state.exited
      · cases pauses.freed ptr gone with
        | inl kept => exact kept
        | inr none =>
            rw [none] at after
            cases after
      · exact pauses.blocks ptr gone
    rw [unchanged, before] at after
    exact .inl (Option.some.inj after).symm

theorem created_of_mem (member : spec ∈ specs) : ∃ ptr, Created specs ptr spec := by
  obtain ⟨k, found⟩ := List.getElem?_of_mem member
  exact ⟨k + 1, k, rfl, found⟩

theorem complete_of_finished (few : specs.length ≤ THREAD_MAX)
    (distinct : (specs.map Spec.id).Nodup) (accepted : ∀ spec ∈ specs, spec.Accepted)
    (reached : Reachable specs state) (finished : state.control = .finished)
    (member : spec ∈ specs) : Complete spec (linesOf spec.id state.out) := by
  obtain ⟨ready, waiting, invariant⟩ := reachable_invariant few distinct reached
  obtain ⟨ptr, created⟩ := created_of_mem member
  have recorded := reachable_recorded few distinct accepted reached
  exact recorded.gone ptr spec created (invariant.all_exited finished created)

theorem complete_alone (accepted : spec.Accepted) :
    ∃ k, (run [spec] (fun _ => none) k).control = .finished ∧
      Complete spec (linesOf spec.id (run [spec] (fun _ => none) k).out) := by
  have few : [spec].length ≤ THREAD_MAX := by simp [THREAD_MAX]
  have distinct : ([spec].map Spec.id).Nodup := List.nodup_singleton _
  have only : ∀ other ∈ [spec], other.Accepted := by
    intro other member
    rwa [List.mem_singleton.mp member]
  obtain ⟨k, finished⟩ := run_ends few distinct only fun _ => none
  exact ⟨k, finished, complete_of_finished few distinct only (run_reachable _ _ k) finished
    (List.mem_singleton_self spec)⟩

theorem Complete.counted_eq (complete : Complete spec lines)
    (counts : spec.func ≠ .bank_operation) :
    lines = .setup spec.id spec.func :: values spec spec.arg.toNat := by
  cases complete with
  | counted => rfl
  | banked bank => exact absurd bank counts

theorem Complete.banked_eq (complete : Complete spec lines)
    (bank : spec.func = .bank_operation) :
    ∃ before after, lines = [.setup spec.id spec.func, .acquired spec.id,
      .transaction spec.id before after, .released spec.id] := by
  cases complete with
  | counted counts => exact absurd bank counts
  | banked _ before after => exact ⟨before, after, rfl⟩

theorem threads_independent (few : specs.length ≤ THREAD_MAX)
    (distinct : (specs.map Spec.id).Nodup) (accepted : ∀ spec ∈ specs, spec.Accepted)
    (reached : Reachable specs state) :
    (∀ signal ptr tcb new, state.tcbs ptr = some tcb → (next signal state).tcbs ptr = some new →
      new = tcb ∨ ((∃ environment, state.control = .running environment) ∧
        RUNNING state = .ok (ptr, tcb))) ∧
    (state.control = .finished → ∀ spec ∈ specs,
      (spec.func ≠ .bank_operation →
        linesOf spec.id state.out = .setup spec.id spec.func :: values spec spec.arg.toNat ∧
        ∃ k, (run [spec] (fun _ => none) k).control = .finished ∧
          linesOf spec.id (run [spec] (fun _ => none) k).out = linesOf spec.id state.out) ∧
      (spec.func = .bank_operation → ∃ before after, linesOf spec.id state.out =
        [.setup spec.id spec.func, .acquired spec.id, .transaction spec.id before after,
          .released spec.id])) := by
  constructor
  · intro signal ptr tcb new before after
    obtain ⟨ready, waiting, invariant⟩ := reachable_invariant few distinct reached
    exact invariant.block_next few signal before after
  · intro finished spec member
    have complete := complete_of_finished few distinct accepted reached finished member
    constructor
    · intro counts
      have lines := complete.counted_eq counts
      obtain ⟨k, ended, alone⟩ := complete_alone (accepted spec member)
      exact ⟨lines, k, ended, (alone.counted_eq counts).trans lines.symm⟩
    · intro bank
      exact complete.banked_eq bank

theorem threads_independent_two :
    linesOf 1 (run (init_threads 0 3 (-200) 0 0) (fun _ => some .SIGALRM) 17).out =
      [.setup 1 .factorial, .value 1 1, .value 1 2, .value 1 6] := by
  have reached := run_reachable (init_threads 0 3 (-200) 0 0) (fun _ => some .SIGALRM) 17
  have ended := (threads_independent (by decide) (by decide) (by decide) reached).2 (by decide +kernel)
  exact ((ended _ (List.mem_cons_self ..)).1 (by decide)).1

end SysProg.Threads
