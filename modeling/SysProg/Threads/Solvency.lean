import Mathlib.Algebra.BigOperators.Fin
import SysProg.Threads.Serial
import SysProg.Threads.Termination

namespace SysProg.Threads

open Relation SysProg.Transition

/-! # When the balance stays non-negative

The balance and what the bank threads may still add to it stay within `int`. -/

variable {specs : List Spec} {state after : State} {ready waiting : List Ptr} {ptr : Ptr}
  {tcb new : Tcb} {lines : List Line} {leaves : Bool} {spec : Spec}

/-- The balance is not negative, and a step that changes it adds the argument of the
running thread exactly. -/
structure Solvent (state : State) : Prop where
  nonnegative : 0 ≤ state.balance
  exact : ∀ signal, (next signal state).balance ≠ state.balance →
    ∃ ptr tcb, RUNNING state = .ok (ptr, tcb) ∧ 0 ≤ state.balance + tcb.arg ∧
      InRange (state.balance + tcb.arg) ∧
      (next signal state).balance = state.balance + tcb.arg

/-- What a thread may still add to the balance. -/
def Tcb.credit (tcb : Tcb) : Nat :=
  match tcb.environment with
  | .setup .bank_operation | .acquired => tcb.arg.toNat
  | _ => 0

structure Funded (specs : List Spec) (state : State) : Prop where
  nonnegative : 0 ≤ state.balance
  covered : state.balance + state.total Tcb.credit specs ≤ 2147483647

theorem Turn.credit (turn : Turn tcb new lines leaves) (stays : leaves = false) :
    new.credit ≤ tcb.credit := by
  cases turn with
  | last => cases stays
  | round counts more =>
      have none : ({ tcb.round tcb.next with
          environment := tcb.environment.func.looping } : Tcb).credit = 0 := by
        unfold Tcb.credit
        cases func : tcb.environment.func with
        | fibonacci => rfl
        | factorial => rfl
        | bank_operation => exact absurd func counts
      rw [none]
      exact Nat.zero_le _
  | refused => exact Nat.le_refl _
  | locks point => exact Nat.le_of_eq (by simp only [Tcb.credit, point])
  | transacts => exact Nat.zero_le _
  | releases => cases stays

/-- A turn other than a transaction adds no credit, and a transaction uses its own up. -/
theorem Acts.credit (acts : Acts state after ptr new lines leaves)
    (created : Created specs ptr spec) (alive : ptr ∉ state.exited)
    (block : state.tcbs ptr = some tcb) (turn : Turn tcb new lines leaves) :
    after.total Tcb.credit specs ≤ state.total Tcb.credit specs ∧
      (tcb.environment = .acquired →
        after.total Tcb.credit specs + tcb.arg.toNat = state.total Tcb.credit specs) := by
  have total := acts.total Tcb.credit created
  have share : state.share Tcb.credit ptr = tcb.credit := State.share_alive alive block
  have now : leaves = false → after.share Tcb.credit ptr = new.credit := by
    intro same
    obtain rfl := same
    exact State.share_alive (by rwa [acts.exited]) (by rw [acts.tcbs, Function.update_self])
  have gone : leaves = true → after.share Tcb.credit ptr = 0 := by
    intro same
    obtain rfl := same
    exact State.share_gone (by simp [acts.exited])
  constructor
  · cases leaves with
    | true =>
        have none := gone rfl
        omega
    | false =>
        have same := now rfl
        have less := turn.credit rfl
        omega
  · intro point
    have own : tcb.credit = tcb.arg.toNat := by simp only [Tcb.credit, point]
    have none : after.share Tcb.credit ptr = 0 := by
      cases turn with
      | last counts => exact absurd (by rw [point]; rfl) counts
      | round counts => exact absurd (by rw [point]; rfl) counts
      | refused other =>
          rw [point] at other
          cases other
      | locks other =>
          rw [point] at other
          cases other
      | transacts => exact now rfl
      | releases => exact gone rfl
    omega

/-- A transaction that the balance and the credit cover. -/
theorem bankUpdate_balance (negatable : InRange (-tcb.arg)) (nonnegative : 0 ≤ state.balance)
    (covered : state.balance + tcb.arg.toNat ≤ 2147483647) :
    (bankUpdate ptr tcb state).balance = operate state.balance tcb.arg ∧
      0 ≤ operate state.balance tcb.arg ∧
      operate state.balance tcb.arg ≤ state.balance + tcb.arg.toNat := by
  have bounds : 0 ≤ operate state.balance tcb.arg ∧
      operate state.balance tcb.arg ≤ state.balance + tcb.arg.toNat := by
    unfold operate
    split <;> omega
  have fits : InRange (operate state.balance tcb.arg) := ⟨by omega, by omega⟩
  refine ⟨?_, bounds⟩
  rw [Serial.bankUpdate_exact negatable ⟨by omega, by omega⟩ fits]
  rfl

/-- The bank threads whose argument can be negated. -/
def Negatable (specs : List Spec) : Prop := ∀ spec ∈ bankSpecs specs, InRange (-spec.arg)

theorem Negatable.arg (negatable : Negatable specs) (threaded : Threaded specs state ready waiting)
    (block : state.tcbs ptr = some tcb) (point : tcb.environment = .acquired) :
    InRange (-tcb.arg) := by
  obtain ⟨spec, created, _, arg, func⟩ := threaded.made ptr tcb block
  rw [point] at func
  rw [arg]
  exact negatable spec (by simp [bankSpecs, created.mem, ← func, Environment.func])

namespace Funded

/-- What the transaction of a thread that leaves its critical section does. -/
theorem transaction (funded : Funded specs state) (negatable : InRange (-tcb.arg))
    (total : after.total Tcb.credit specs + tcb.arg.toNat = state.total Tcb.credit specs) :
    (Threads.bankUpdate ptr tcb state).balance = operate state.balance tcb.arg ∧
      0 ≤ operate state.balance tcb.arg ∧
      operate state.balance tcb.arg + after.total Tcb.credit specs ≤ 2147483647 := by
  have covered := funded.covered
  obtain ⟨exact, lower, upper⟩ :=
    @bankUpdate_balance state ptr tcb negatable funded.nonnegative (by omega)
  exact ⟨exact, lower, by omega⟩

theorem next (few : specs.length ≤ THREAD_MAX) (negatable : Negatable specs)
    (funded : Funded specs state) (invariant : Invariant specs state ready waiting)
    (signal : Option Signal) : Funded specs (next signal state) := by
  rcases invariant.turns few signal with ⟨ptr, tcb, current, control, computed⟩ | ⟨_, pauses⟩
  · rw [computed]
    obtain ⟨new, lines, leaves, turn, acts⟩ := resume_turn current.2
    obtain ⟨spec, created, _⟩ := invariant.made ptr tcb current.2
    have alive := invariant.not_exited current (by simp [control])
    obtain ⟨less, spent⟩ := acts.credit created alive current.2 turn
    by_cases point : tcb.environment = .acquired
    · have fits := negatable.arg invariant.toThreaded current.2 point
      obtain ⟨exact, lower, upper⟩ := @transaction _ _ _ ptr _ funded fits (spent point)
      rw [point] at upper ⊢
      exact ⟨lower.trans_eq exact.symm, (congrArg (· + _) exact).trans_le upper⟩
    · have same := @resume_balance state ptr tcb point
      have covered := funded.covered
      exact ⟨same ▸ funded.nonnegative, by rw [same]; omega⟩
  · constructor
    · rw [pauses.balance]
      exact funded.nonnegative
    · rw [pauses.balance, pauses.total]
      exact funded.covered

theorem solvent (few : specs.length ≤ THREAD_MAX) (negatable : Negatable specs)
    (funded : Funded specs state) (invariant : Invariant specs state ready waiting) :
    Solvent state := by
  refine ⟨funded.nonnegative, ?_⟩
  intro signal moved
  rcases invariant.turns few signal with ⟨ptr, tcb, current, control, computed⟩ | ⟨_, pauses⟩
  · have point : tcb.environment = .acquired := by
      by_contra elsewhere
      exact moved (computed ▸ resume_balance elsewhere)
    obtain ⟨new, lines, leaves, turn, acts⟩ := @resume_turn state ptr tcb current.2
    obtain ⟨spec, created, _⟩ := invariant.made ptr tcb current.2
    have alive := invariant.not_exited current (by simp [control])
    have spent := (acts.credit created alive current.2 turn).2 point
    have fits := negatable.arg invariant.toThreaded current.2 point
    obtain ⟨exact, lower, upper⟩ := @transaction _ _ _ ptr _ funded fits spent
    have result : (Threads.next signal state).balance = operate state.balance tcb.arg := by
      rw [computed, point]
      exact exact
    have goes : operate state.balance tcb.arg = state.balance + tcb.arg := by
      rw [result] at moved
      unfold operate at moved ⊢
      split
      · rfl
      · rename_i stays
        exact absurd (if_neg stays) moved
    rw [goes] at lower upper
    exact ⟨ptr, tcb, invariant.arranged.running current.1 current.2, lower,
      ⟨by omega, by omega⟩, result.trans goes⟩
  · exact absurd pauses.balance moved

end Funded

theorem Built.total (built : Built specs state) (weight : Tcb → Nat) :
    state.total weight specs = (specs.map fun spec => weight spec.tcb).sum := by
  have alive : ∀ ptr, ptr ∉ state.exited := by simp [built.exited]
  have empty : state.share weight 0 = 0 := by
    have none : state.tcbs 0 = none := by
      rw [Option.eq_none_iff_forall_not_mem]
      intro tcb block
      obtain ⟨spec, ⟨k, impossible, _⟩, _⟩ := (built.blocks 0 tcb).mp block
      cases impossible
    rw [State.share, if_neg (alive 0), none]
  have shares : ∀ i : Fin specs.length, state.share weight (i + 1) = weight specs[i.1].tcb := by
    intro i
    have block : state.tcbs (i + 1) = some specs[i.1].tcb :=
      (built.blocks _ _).mpr ⟨specs[i.1], ⟨i, rfl, List.getElem?_eq_getElem i.isLt⟩, rfl⟩
    rw [State.share_alive (alive _) block]
  rw [State.total, Finset.sum_range_succ', empty, Nat.add_zero, Finset.sum_range,
    Finset.sum_congr rfl fun i _ => shares i]
  exact Fin.sum_univ_fun_getElem specs fun spec => weight spec.tcb

theorem reachable_solvent (few : specs.length ≤ THREAD_MAX)
    (distinct : (specs.map Spec.id).Nodup) (negatable : Negatable specs)
    (covered : 500 + (specs.map fun spec => spec.tcb.credit).sum ≤ 2147483647)
    (reached : Reachable specs state) : Solvent state := by
  have built := start_built few
  have initially : Funded specs (start specs) := by
    refine ⟨?_, ?_⟩
    · rw [built.balance]
      decide
    · rw [built.balance, built.total]
      exact_mod_cast covered
  have funded : Funded specs state := by
    refine @invariant_of_reached _ _ _ _ (fun state => Funded specs state) ?_ reached initially
    intro before after reached step funded
    obtain ⟨signal, rfl⟩ := step
    obtain ⟨ready, waiting, invariant⟩ := reachable_invariant few distinct reached
    exact funded.next few negatable invariant signal
  obtain ⟨ready, waiting, invariant⟩ := reachable_invariant few distinct reached
  exact funded.solvent few negatable invariant

/-- The running thread `ptr` is about to do its transaction. -/
structure AtUpdate (state : State) (ptr : Ptr) (tcb : Tcb) (balance : Int) : Prop where
  control : state.control = .running .acquired
  running : RUNNING state = .ok (ptr, tcb)
  balance : state.balance = balance

/-- A transaction that does not go wrong is one that fits. -/
theorem Solvent.fits {balance : Int} (solvent : Solvent state)
    (ready : AtUpdate state ptr tcb balance) (arg : InRange tcb.arg) (nonzero : tcb.arg ≠ 0)
    (small : InRange balance) :
    tcb.arg ≠ -2147483648 ∧ balance + tcb.arg ≤ 2147483647 := by
  obtain ⟨low, high⟩ := arg
  obtain ⟨low', high'⟩ := small
  have computed : next none state = bankUpdate ptr tcb state := by
    simp only [next, ready.control, ready.running]
    rfl
  by_cases covered : tcb.arg > 0 ∨ (tcb.arg ≤ 0 ∧ state.balance ≥ int32 (-tcb.arg))
  · have result : (next none state).balance = int32 (balance + tcb.arg) := by
      rw [computed, bankUpdate, if_pos covered, ← ready.balance]
      rfl
    have moved : (next none state).balance ≠ state.balance := by
      rw [result, ready.balance, int32, Int.bmod_def]
      split <;> omega
    obtain ⟨own, block, running, lower, upper, _⟩ := solvent.exact none moved
    obtain ⟨rfl, rfl⟩ := Prod.mk.inj (Except.ok.inj (ready.running.symm.trans running))
    rw [ready.balance] at lower upper
    obtain ⟨_, upper⟩ := upper
    exact ⟨by omega, by omega⟩
  · rw [not_or, not_and] at covered
    constructor
    · intro least
      have wraps : int32 (-tcb.arg) = -2147483648 := by rw [least]; rfl
      rw [wraps, ready.balance] at covered
      exact covered.2 (by omega) low'
    · omega

theorem load_set {queue : Queue} {i : Nat} (j : Nat) (bound : i < THREAD_MAX) :
    load (queue.set i ptr bound) j = if i = j then .ok ptr else load queue j := by
  unfold load
  rw [Vector.getElem?_set]
  by_cases same : i = j
  · rw [if_pos same, if_pos same]
  · rw [if_neg same, if_neg same]

section Execution

/-! The first steps of some programs, executed symbolically. -/

theorem store_literal {queue : Queue} {i : Nat} (bound : i < 16) :
    store queue i ptr = .ok (queue.set i ptr bound) := store_bound bound

theorem load_literal {queue : Queue} {i : Nat} (j : Nat) (bound : i < 16) :
    load (queue.set i ptr bound) j = if i = j then .ok ptr else load queue j := load_set j bound

attribute [local simp] store_literal load_literal pure Except.pure run start createAll
  thread_create globals Spec.tcb State.print State.setTcb next scheduler giveLock takeOut
  freeRunning fillWithLast pickNext dispatch RUNNING deref resume fibonacciRound bankLock
  bankUpdate bankRelease thread_yield thread_exit

/-- A bank thread on its own gets to its transaction. -/
theorem alone_update (id arg : Int) :
    AtUpdate (run [⟨.bank_operation, id, arg, 0, 0, 0⟩] (fun _ => none) 3) 1
      ⟨id, .acquired, arg, 0, 0, 0⟩ 500 := by
  constructor <;> simp

theorem first_update (first second : Int) :
    AtUpdate (run [⟨.bank_operation, 2, first, 0, 0, 0⟩, ⟨.bank_operation, 3, second, 0, 0, 0⟩]
      (fun _ => none) 3) 1 ⟨2, .acquired, first, 0, 0, 0⟩ 500 := by
  constructor <;> simp

theorem second_update (first second : Int) (positive : 0 < first) :
    AtUpdate (run [⟨.bank_operation, 2, first, 0, 0, 0⟩, ⟨.bank_operation, 3, second, 0, 0, 0⟩]
      (fun _ => none) 9) 2 ⟨3, .acquired, second, 0, 0, 0⟩ (int32 (500 + first)) := by
  constructor <;> simp [positive]

/-- A loop of one round exits at once, and the last thread takes its place. -/
theorem swapped_update (first second : Int) :
    AtUpdate (run [⟨.fibonacci, 0, 1, 0, 0, 0⟩, ⟨.bank_operation, 2, first, 0, 0, 0⟩,
      ⟨.bank_operation, 3, second, 0, 0, 0⟩] (fun _ => none) 5) 3
      ⟨3, .acquired, second, 0, 0, 0⟩ 500 := by
  constructor <;> simp

end Execution

theorem init_threads_credit (fib_arg fact_arg bank1_arg bank2_arg junk : Int) :
    ((init_threads fib_arg fact_arg bank1_arg bank2_arg junk).map fun spec =>
      spec.tcb.credit).sum = bank1_arg.toNat + bank2_arg.toNat := by
  unfold init_threads
  split_ifs <;> simp_all [Spec.tcb, Tcb.credit]

theorem init_threads_few (fib_arg fact_arg bank1_arg bank2_arg junk : Int) :
    (init_threads fib_arg fact_arg bank1_arg bank2_arg junk).length ≤ THREAD_MAX := by
  unfold init_threads
  split_ifs <;> simp [THREAD_MAX]

theorem init_threads_distinct (fib_arg fact_arg bank1_arg bank2_arg junk : Int) :
    ((init_threads fib_arg fact_arg bank1_arg bank2_arg junk).map Spec.id).Nodup := by
  unfold init_threads
  split_ifs <;> simp

theorem init_threads_cases {fib_arg fact_arg bank1_arg bank2_arg junk : Int}
    (member : spec ∈ init_threads fib_arg fact_arg bank1_arg bank2_arg junk) :
    (0 < fib_arg ∧ spec = ⟨.fibonacci, 0, fib_arg, junk, junk, junk⟩) ∨
    (0 < fact_arg ∧ spec = ⟨.factorial, 1, fact_arg, junk, junk, junk⟩) ∨
    (spec.func = .bank_operation ∧ (spec.arg = bank1_arg ∨ spec.arg = bank2_arg)) := by
  simp only [init_threads, List.mem_append, List.mem_ite_nil_right, List.mem_singleton] at member
  obtain ((fibonacci | factorial) | ⟨_, rfl⟩) | ⟨_, rfl⟩ := member
  · exact .inl fibonacci
  · exact .inr (.inl factorial)
  · exact .inr (.inr ⟨rfl, .inl rfl⟩)
  · exact .inr (.inr ⟨rfl, .inr rfl⟩)

theorem init_threads_bank {fib_arg fact_arg bank1_arg bank2_arg junk : Int}
    (member : spec ∈ bankSpecs (init_threads fib_arg fact_arg bank1_arg bank2_arg junk)) :
    spec.arg = bank1_arg ∨ spec.arg = bank2_arg := by
  obtain ⟨created, bank⟩ := List.mem_filter.mp member
  obtain ⟨_, rfl⟩ | ⟨_, rfl⟩ | ⟨_, arg⟩ := init_threads_cases created
  · exact absurd bank (by simp)
  · exact absurd bank (by simp)
  · exact arg

/-- The amounts that the program handles in every order. -/
def Manageable (bank1_arg bank2_arg : Int) : Prop :=
  bank1_arg ≠ -2147483648 ∧ bank2_arg ≠ -2147483648 ∧
    500 + max bank1_arg 0 + max bank2_arg 0 ≤ 2147483647
deriving Decidable

theorem Manageable.solvent {bank1_arg bank2_arg : Int} (manageable : Manageable bank1_arg bank2_arg)
    (fits : InRange bank1_arg) (fits' : InRange bank2_arg) {fib_arg fact_arg junk : Int}
    (reached : Reachable (init_threads fib_arg fact_arg bank1_arg bank2_arg junk) state) :
    Solvent state := by
  obtain ⟨first, second, sum⟩ := manageable
  obtain ⟨low, high⟩ := fits
  obtain ⟨low', high'⟩ := fits'
  refine reachable_solvent (init_threads_few ..) (init_threads_distinct ..) ?_ ?_ reached
  · intro spec member
    cases init_threads_bank member with
    | inl same =>
        rw [same]
        exact ⟨by omega, by omega⟩
    | inr same =>
        rw [same]
        exact ⟨by omega, by omega⟩
  · rw [init_threads_credit]
    omega

/-- A run that goes wrong for each pair of amounts that is not manageable. -/
theorem manageable_of_solvent {bank1_arg bank2_arg : Int} (fits : InRange bank1_arg)
    (fits' : InRange bank2_arg)
    (solvent : ∀ fib_arg fact_arg junk state,
      Reachable (init_threads fib_arg fact_arg bank1_arg bank2_arg junk) state → Solvent state) :
    Manageable bank1_arg bank2_arg := by
  have small : InRange 500 := by decide
  have alone : ∀ id arg, InRange arg → arg ≠ 0 →
      (∀ state, Reachable [⟨.bank_operation, id, arg, 0, 0, 0⟩] state → Solvent state) →
      arg ≠ -2147483648 ∧ 500 + arg ≤ 2147483647 := by
    intro id arg fits nonzero solvent
    exact (solvent _ (run_reachable _ _ _)).fits (alone_update id arg) fits nonzero small
  have idle := solvent 0 0 0
  have busy := solvent 1 0 0
  obtain ⟨low, high⟩ := fits
  obtain ⟨low', high'⟩ := fits'
  by_cases first : bank1_arg = 0
  · subst first
    by_cases second : bank2_arg = 0
    · subst second
      decide
    · have last := alone 3 bank2_arg ⟨low', high'⟩ second (by
        simpa [init_threads, second] using idle)
      exact ⟨by decide, last.1, by omega⟩
  · by_cases second : bank2_arg = 0
    · subst second
      have only := alone 2 bank1_arg ⟨low, high⟩ first (by
        simpa [init_threads, first] using idle)
      exact ⟨only.1, by decide, by omega⟩
    · have both : ∀ state, Reachable [⟨.bank_operation, 2, bank1_arg, 0, 0, 0⟩,
          ⟨.bank_operation, 3, bank2_arg, 0, 0, 0⟩] state → Solvent state := by
        simpa [init_threads, first, second] using idle
      have swapped : ∀ state, Reachable [⟨.fibonacci, 0, 1, 0, 0, 0⟩,
          ⟨.bank_operation, 2, bank1_arg, 0, 0, 0⟩,
          ⟨.bank_operation, 3, bank2_arg, 0, 0, 0⟩] state → Solvent state := by
        simpa [init_threads, first, second] using busy
      have one := (both _ (run_reachable _ _ _)).fits (first_update bank1_arg bank2_arg)
        ⟨low, high⟩ first small
      have two := (swapped _ (run_reachable _ _ _)).fits (swapped_update bank1_arg bank2_arg)
        ⟨low', high'⟩ second small
      simp only at one two
      refine ⟨one.1, two.1, ?_⟩
      by_cases positive : 0 < bank1_arg
      · have exact : int32 (500 + bank1_arg) = 500 + bank1_arg := int32_eq ⟨by omega, by omega⟩
        have after := second_update bank1_arg bank2_arg positive
        rw [exact] at after
        have sum := (both _ (run_reachable _ _ _)).fits after ⟨low', high'⟩ second
          ⟨by omega, by omega⟩
        simp only at sum
        omega
      · omega

theorem balance_solvent_iff (bank1_arg bank2_arg : Int) (fits : InRange bank1_arg)
    (fits' : InRange bank2_arg) :
    (∀ fib_arg fact_arg junk state,
      Reachable (init_threads fib_arg fact_arg bank1_arg bank2_arg junk) state →
        Solvent state) ↔ Manageable bank1_arg bank2_arg :=
  ⟨manageable_of_solvent fits fits', fun manageable _ _ _ _ reached =>
    manageable.solvent fits fits' reached⟩

theorem balance_solvent_iff_usual :
    Manageable (-200) 300 ∧
      ∀ state, Reachable (init_threads 5 4 (-200) 300 0) state → 0 ≤ state.balance := by
  have manageable : Manageable (-200) 300 := by decide
  have solvent := (balance_solvent_iff (-200) 300 (by decide) (by decide)).mpr manageable
  exact ⟨manageable, fun state reached => (solvent 5 4 0 state reached).nonnegative⟩

/-- The least `int` is its own negation, so the guard lets it through. -/
theorem balance_negative_least :
    InRange (-2147483648) ∧ InRange 300 ∧
      ¬ ∀ state, Reachable (init_threads 5 4 (-2147483648) 300 0) state → Solvent state := by
  refine ⟨by decide, by decide, ?_⟩
  intro solvent
  have reached := run_reachable (init_threads 5 4 (-2147483648) 300 0)
    (fun _ => some .SIGALRM) 19
  exact absurd (solvent _ reached).nonnegative (by decide +kernel)

end SysProg.Threads
