import Mathlib.Data.Int.ConditionallyCompleteOrder
import Mathlib.Data.Nat.Factorial.Basic
import Mathlib.Data.Nat.Fib.Basic
import Mathlib.Tactic.NormNum.NatFactorial
import Mathlib.Tactic.NormNum.NatFib
import SysProg.Threads.Independence
import SysProg.Threads.Solvency

namespace SysProg.Threads

/-! # When the printed numbers are the true ones

The registers hold the exact numbers modulo 2³², and these fit into an `int` up to
the `capacity` of each loop. -/

variable {specs : List Spec} {state : State} {ptr : Ptr} {tcb : Tcb} {lines : List Line}
  {spec : Spec} {func : Func} {k : Nat}

/-- The number that round `k` of the loop of `func` is meant to print. -/
def number : Func → Nat → Int
  | .fibonacci, k => Nat.fib k
  | .factorial, k => Nat.factorial k
  | .bank_operation, _ => 0

def numbers (func : Func) (arg : Int) : List Int :=
  (List.range arg.toNat).map fun j => number func (j + 1)

/-- The last round whose number fits into an `int`. -/
def Func.capacity : Func → Nat
  | .fibonacci => 46
  | .factorial => 12
  | .bank_operation => 0

/-- The values that the thread `id` has printed. -/
def printed (id : Int) (out : List Line) : List Int :=
  out.filterMap fun
    | .value other y => if other = id then some y else none
    | _ => none

/-- The exact results of the sums and products on the way to the next `printf` of
a loop. -/
def Tcb.results (tcb : Tcb) : List Int :=
  match tcb.environment with
  | .fibonacciYield => (tcb.i + 1) :: if tcb.next ≤ 2 then [] else [tcb.x + tcb.y]
  | .factorialYield => (tcb.i + 1) :: if tcb.next ≤ 1 then [] else [tcb.y * tcb.next]
  | _ => []

/-- The thread `id` has printed a first part of its true numbers, and all of them
when the program is over. -/
structure Truthful (id : Int) (func : Func) (arg : Int) (state : State) : Prop where
  begun : printed id state.out <+: numbers func arg
  all : state.control = .finished → printed id state.out = numbers func arg

structure Exact (fib_arg fact_arg : Int) (state : State) : Prop where
  fibonacci : Truthful 0 .fibonacci fib_arg state
  factorial : Truthful 1 .factorial fact_arg state
  fits : ∀ environment ptr tcb, state.control = .running environment →
    RUNNING state = .ok (ptr, tcb) → ∀ result ∈ tcb.results, InRange result

theorem int32_range (value : Int) : InRange (int32 value) := by
  have lower := @Int.le_bmod value 4294967296 (by decide)
  have upper := @Int.bmod_lt value 4294967296 (by decide)
  exact ⟨by unfold int32; omega, by unfold int32; omega⟩

theorem int32_eq_iff (value : Int) : int32 value = value ↔ InRange value :=
  ⟨fun same => same ▸ int32_range value, int32_eq⟩

theorem int32_one : int32 1 = 1 := int32_eq (by decide)

theorem int32_add (left right : Int) : int32 (int32 left + int32 right) = int32 (left + right) := by
  simp [int32]

theorem int32_mul (left right : Int) : int32 (int32 left * right) = int32 (left * right) := by
  simp [int32]

theorem number_mono (counts : func ≠ .bank_operation) : Monotone (number func) := by
  intro k l less
  cases func with
  | fibonacci => exact Int.ofNat_le.mpr (Nat.fib_mono less)
  | factorial => exact Int.ofNat_le.mpr (Nat.factorial_le less)
  | bank_operation => exact absurd rfl counts

theorem number_fits (counts : func ≠ .bank_operation) (k : Nat) :
    InRange (number func k) ↔ k ≤ func.capacity := by
  have mono := number_mono counts
  have last : number func func.capacity < 2147483648 := by
    cases func <;> norm_num [number, Func.capacity]
  have beyond : 2147483648 ≤ number func (func.capacity + 1) := by
    cases func with
    | fibonacci => norm_num [number, Func.capacity]
    | factorial => norm_num [number, Func.capacity]
    | bank_operation => exact absurd rfl counts
  have nonnegative : 0 ≤ number func k := by
    cases func <;> exact Int.natCast_nonneg _
  constructor
  · intro fits
    by_contra more
    have later : number func (func.capacity + 1) ≤ number func k := mono (by omega)
    have upper := fits.2
    omega
  · intro inside
    have less := mono inside
    exact ⟨by omega, by omega⟩

/-- From the second round on the two registers hold two Fibonacci numbers in a row. -/
theorem series_fibonacci (loop : spec.func = .fibonacci) (k : Nat) :
    series spec (k + 2) = (int32 (Nat.fib (k + 1)), int32 (Nat.fib (k + 2))) := by
  induction k with
  | zero => simp [series, registers, loop, int32_one]
  | succ k ih =>
      have late : ¬ ((k + 1 + 1 : Nat) : Int) + 1 ≤ 2 := by omega
      have sum : ((Nat.fib (k + 1) : Int) + Nat.fib (k + 2)) = (Nat.fib (k + 3) : Nat) := by
        rw [← Nat.cast_add, ← Nat.fib_add_two]
      rw [series, ih, loop, registers, if_neg late, int32_add, sum]

theorem series_factorial (loop : spec.func = .factorial) (k : Nat) :
    (series spec (k + 1)).2 = int32 (Nat.factorial (k + 1)) := by
  induction k with
  | zero => simp [series, registers, loop, int32_one]
  | succ k ih =>
      have late : ¬ ((k + 1 : Nat) : Int) + 1 ≤ 1 := by omega
      have product : ((Nat.factorial (k + 1) : Int) * ((k + 1 : Nat) + 1)) =
          (Nat.factorial (k + 2) : Nat) := by
        rw [Nat.factorial_succ (k + 1)]
        push_cast
        ring
      rw [series, loop, registers, if_neg late, ih, int32_mul, product]

/-- The number printed in a round is the true one modulo 2³². -/
theorem series_number (counts : spec.func ≠ .bank_operation) (k : Nat) :
    (series spec (k + 1)).2 = int32 (number spec.func (k + 1)) := by
  cases loop : spec.func with
  | fibonacci =>
      cases k with
      | zero => simp [series, registers, loop, number, int32_one]
      | succ k => rw [series_fibonacci loop, number]
  | factorial => rw [series_factorial loop, number]
  | bank_operation => exact absurd loop counts

theorem printed_linesOf (id : Int) (out : List Line) : printed id (linesOf id out) = printed id out := by
  rw [printed, linesOf, List.filterMap_filter]
  apply List.filterMap_congr
  intro line _
  cases line <;> simp [Line.id?]

/-- The values of the first `k` rounds. -/
def counted (spec : Spec) (k : Nat) : List Int :=
  (List.range k).map fun j => (series spec (j + 1)).2

theorem printed_values (spec : Spec) (k : Nat) :
    printed spec.id (.setup spec.id spec.func :: values spec k) = counted spec k := by
  simp [printed, values, counted, List.filterMap_map]

theorem counted_prefix {l : Nat} (less : k ≤ l) : counted spec k <+: counted spec l := by
  obtain ⟨more, rfl⟩ := Nat.exists_eq_add_of_le less
  rw [counted, counted, List.range_add, List.map_append]
  exact List.prefix_append _ _

theorem counted_numbers (counts : spec.func ≠ .bank_operation) :
    counted spec spec.arg.toNat = numbers spec.func spec.arg ↔
      spec.arg ≤ spec.func.capacity := by
  have round : ∀ j, (series spec (j + 1)).2 = number spec.func (j + 1) ↔
      j + 1 ≤ spec.func.capacity := by
    intro j
    rw [series_number counts, int32_eq_iff, number_fits counts]
  rw [counted, numbers, List.map_inj_left]
  constructor
  · intro same
    by_contra more
    have wrong := (round spec.func.capacity).mp (same _ (List.mem_range.mpr (by omega)))
    omega
  · intro fits j member
    have less := List.mem_range.mp member
    exact (round j).mpr (by omega)

theorem Told.printed (counts : spec.func ≠ .bank_operation) (told : Told spec tcb lines) :
    Threads.printed spec.id lines <+: counted spec spec.arg.toNat := by
  cases told with
  | setup => exact List.nil_prefix
  | looping k counts started more =>
      rw [printed_values]
      exact counted_prefix (by omega)
  | acquired bank => exact absurd bank counts
  | updated bank => exact absurd bank counts

/-- What the thread of `spec` has printed, in rounds of its loop. -/
theorem reachable_printed (few : specs.length ≤ THREAD_MAX)
    (distinct : (specs.map Spec.id).Nodup) (accepted : ∀ spec ∈ specs, spec.Accepted)
    (reached : Reachable specs state) (member : spec ∈ specs)
    (counts : spec.func ≠ .bank_operation) :
    printed spec.id state.out <+: counted spec spec.arg.toNat ∧
      (state.control = .finished →
        printed spec.id state.out = counted spec spec.arg.toNat) := by
  obtain ⟨ptr, created⟩ := created_of_mem member
  have recorded := reachable_recorded few distinct accepted reached
  have whole : Complete spec (linesOf spec.id state.out) →
      printed spec.id state.out = counted spec spec.arg.toNat := by
    intro complete
    rw [← printed_linesOf, complete.counted_eq counts, printed_values]
  constructor
  · by_cases gone : ptr ∈ state.exited
    · rw [whole (recorded.gone ptr spec created gone)]
    · obtain ⟨tcb, _, told⟩ := recorded.alive ptr spec created gone
      rw [← printed_linesOf]
      exact told.printed counts
  · intro finished
    exact whole (complete_of_finished few distinct accepted reached finished member)

theorem fibonacci_sum (loop : spec.func = .fibonacci) (small : k + 2 ≤ 46) :
    (series spec (k + 2)).1 + (series spec (k + 2)).2 = number .fibonacci (k + 3) := by
  have exact : ∀ l ≤ 46, int32 (Nat.fib l) = (Nat.fib l : Int) := by
    intro l inside
    exact int32_eq ((@number_fits .fibonacci (by decide) l).mpr inside)
  have sum : Nat.fib (k + 3) = Nat.fib (k + 1) + Nat.fib (k + 2) := Nat.fib_add_two
  rw [series_fibonacci loop, exact _ (by omega), exact _ small, number, sum, Nat.cast_add]

theorem factorial_product (loop : spec.func = .factorial) (small : k + 1 ≤ 12) :
    (series spec (k + 1)).2 * ((k + 1 : Nat) + 1) = number .factorial (k + 2) := by
  have exact : int32 (Nat.factorial (k + 1)) = Nat.factorial (k + 1) :=
    int32_eq ((@number_fits .factorial (by decide) _).mpr small)
  rw [series_factorial loop, exact, number, Nat.factorial_succ (k + 1)]
  push_cast
  ring

/-- A loop computes the number of the next round and the next number that it prints. -/
theorem results_looping {result : Int} (counts : spec.func ≠ .bank_operation) (started : 0 < k)
    (index : InRange (k + 1)) (small : k + 1 ≤ spec.func.capacity)
    (member : result ∈ Tcb.results
      ⟨spec.id, spec.func.looping, spec.arg, k, (series spec k).1, (series spec k).2⟩) :
    result = k + 1 ∨ result = number spec.func (k + 1) := by
  cases loop : spec.func with
  | fibonacci =>
      rw [loop] at member small
      simp only [Tcb.results, Func.looping, Tcb.next, int32_eq index, List.mem_cons] at member
      refine member.imp id fun sum => ?_
      split at sum
      · cases sum
      · obtain ⟨l, rfl⟩ : ∃ l, k = l + 2 := Nat.exists_eq_add_of_le' (by omega)
        simp only [Func.capacity] at small
        rw [← fibonacci_sum loop (by omega)]
        exact List.mem_singleton.mp sum
  | factorial =>
      rw [loop] at member small
      simp only [Tcb.results, Func.looping, Tcb.next, int32_eq index, List.mem_cons] at member
      refine member.imp id fun product => ?_
      split at product
      · cases product
      · obtain ⟨l, rfl⟩ := Nat.exists_eq_add_of_le' started
        simp only [Func.capacity] at small
        rw [← factorial_product loop (by omega)]
        exact List.mem_singleton.mp product
  | bank_operation => exact absurd loop counts

/-- The sums and products of a thread whose argument is within its capacity. -/
theorem Told.results_fit (accepted : spec.Accepted) (told : Told spec tcb lines)
    (small : spec.func ≠ .bank_operation → spec.arg ≤ spec.func.capacity) :
    ∀ result ∈ tcb.results, InRange result := by
  cases told with
  | setup => simp [Tcb.results, Spec.tcb]
  | acquired => simp [Tcb.results]
  | updated => simp [Tcb.results]
  | looping k counts started more =>
      have upper := accepted.1.2
      have inside := small counts
      have index : InRange ((k : Int) + 1) := ⟨by omega, by omega⟩
      have below : k + 1 ≤ spec.func.capacity := by omega
      intro result member
      rcases results_looping counts started index below member with count | number
      · exact count ▸ index
      · exact number ▸ (number_fits counts _).mpr below

theorem init_threads_fibonacci {fib_arg fact_arg bank1_arg bank2_arg junk : Int}
    (positive : 0 < fib_arg) : ⟨.fibonacci, 0, fib_arg, junk, junk, junk⟩ ∈
      init_threads fib_arg fact_arg bank1_arg bank2_arg junk := by
  simp [init_threads, positive]

theorem init_threads_factorial {fib_arg fact_arg bank1_arg bank2_arg junk : Int}
    (positive : 0 < fact_arg) : ⟨.factorial, 1, fact_arg, junk, junk, junk⟩ ∈
      init_threads fib_arg fact_arg bank1_arg bank2_arg junk := by
  simp [init_threads, positive]

theorem init_threads_accepted {fib_arg fact_arg bank1_arg bank2_arg junk : Int}
    (fib_fits : InRange fib_arg) (fact_fits : InRange fact_arg) (bank1_fits : InRange bank1_arg)
    (bank2_fits : InRange bank2_arg) :
    ∀ spec ∈ init_threads fib_arg fact_arg bank1_arg bank2_arg junk, spec.Accepted := by
  intro spec member
  obtain ⟨positive, rfl⟩ | ⟨positive, rfl⟩ | ⟨bank, arg⟩ := init_threads_cases member
  · exact ⟨fib_fits, fun _ => positive⟩
  · exact ⟨fact_fits, fun _ => positive⟩
  · exact ⟨arg.elim (fun same => same ▸ bank1_fits) fun same => same ▸ bank2_fits,
      fun counts => absurd bank counts⟩

/-- The arguments whose numbers all fit into an `int`. -/
def Countable (fib_arg fact_arg : Int) : Prop := fib_arg ≤ 46 ∧ fact_arg ≤ 12
deriving Decidable

theorem init_threads_capacity {fib_arg fact_arg bank1_arg bank2_arg junk : Int}
    (countable : Countable fib_arg fact_arg) :
    ∀ spec ∈ init_threads fib_arg fact_arg bank1_arg bank2_arg junk,
      spec.func ≠ .bank_operation → spec.arg ≤ spec.func.capacity := by
  intro spec member counts
  obtain ⟨_, rfl⟩ | ⟨_, rfl⟩ | ⟨bank, _⟩ := init_threads_cases member
  · exact countable.1
  · exact countable.2
  · exact absurd bank counts

/-- What the running thread computes next fits. -/
theorem reachable_results (few : specs.length ≤ THREAD_MAX)
    (distinct : (specs.map Spec.id).Nodup) (accepted : ∀ spec ∈ specs, spec.Accepted)
    (small : ∀ spec ∈ specs, spec.func ≠ .bank_operation → spec.arg ≤ spec.func.capacity)
    (reached : Reachable specs state) {environment : Environment}
    (control : state.control = .running environment) (running : RUNNING state = .ok (ptr, tcb)) :
    ∀ result ∈ tcb.results, InRange result := by
  obtain ⟨ready, waiting, invariant⟩ := reachable_invariant few distinct reached
  have recorded := reachable_recorded few distinct accepted reached
  have placed := invariant.placed
  rw [control] at placed
  obtain ⟨own, block, current, _⟩ := placed
  have same := (invariant.arranged.running current.1 current.2).symm.trans running
  obtain ⟨rfl, rfl⟩ := Prod.mk.inj (Except.ok.inj same)
  obtain ⟨spec, created, _⟩ := invariant.made own block current.2
  have alive := invariant.not_exited current (by simp [control])
  obtain ⟨found, stored, told⟩ := recorded.alive own spec created alive
  obtain rfl : block = found := Option.some.inj (current.2.symm.trans stored)
  exact told.results_fit (accepted spec created.mem) (small spec created.mem)

section Program

variable {fib_arg fact_arg bank1_arg bank2_arg junk : Int}

theorem Countable.exact (countable : Countable fib_arg fact_arg) (fib_positive : 0 < fib_arg)
    (fact_positive : 0 < fact_arg)
    (accepted : ∀ spec ∈ init_threads fib_arg fact_arg bank1_arg bank2_arg junk, spec.Accepted)
    (reached : Reachable (init_threads fib_arg fact_arg bank1_arg bank2_arg junk) state) :
    Exact fib_arg fact_arg state := by
  have few := init_threads_few fib_arg fact_arg bank1_arg bank2_arg junk
  have distinct := init_threads_distinct fib_arg fact_arg bank1_arg bank2_arg junk
  have small := @init_threads_capacity _ _ bank1_arg bank2_arg junk countable
  have truthful : ∀ spec ∈ init_threads fib_arg fact_arg bank1_arg bank2_arg junk,
      spec.func ≠ .bank_operation → Truthful spec.id spec.func spec.arg state := by
    intro spec member counts
    have told := reachable_printed few distinct accepted reached member counts
    rw [(counted_numbers counts).mpr (small spec member counts)] at told
    exact ⟨told.1, told.2⟩
  refine ⟨?_, ?_, ?_⟩
  · exact truthful _ (init_threads_fibonacci fib_positive) (by simp)
  · exact truthful _ (init_threads_factorial fact_positive) (by simp)
  · intro environment ptr tcb
    exact reachable_results few distinct accepted small reached

theorem Exact.countable (exact : Exact fib_arg fact_arg state) (fib_positive : 0 < fib_arg)
    (fact_positive : 0 < fact_arg)
    (accepted : ∀ spec ∈ init_threads fib_arg fact_arg bank1_arg bank2_arg junk, spec.Accepted)
    (reached : Reachable (init_threads fib_arg fact_arg bank1_arg bank2_arg junk) state)
    (finished : state.control = .finished) : Countable fib_arg fact_arg := by
  have few := init_threads_few fib_arg fact_arg bank1_arg bank2_arg junk
  have distinct := init_threads_distinct fib_arg fact_arg bank1_arg bank2_arg junk
  have small : ∀ spec ∈ init_threads fib_arg fact_arg bank1_arg bank2_arg junk,
      spec.func ≠ .bank_operation → Truthful spec.id spec.func spec.arg state →
        spec.arg ≤ spec.func.capacity := by
    intro spec member counts truthful
    have told := (reachable_printed few distinct accepted reached member counts).2 finished
    exact (counted_numbers counts).mp (told.symm.trans (truthful.all finished))
  constructor
  · exact small _ (init_threads_fibonacci fib_positive) (by simp) exact.fibonacci
  · exact small _ (init_threads_factorial fact_positive) (by simp) exact.factorial

end Program

theorem numbers_exact_iff (fib_arg fact_arg bank1_arg bank2_arg junk : Int)
    (fib_positive : 0 < fib_arg) (fact_positive : 0 < fact_arg) (fib_fits : InRange fib_arg)
    (fact_fits : InRange fact_arg) (bank1_fits : InRange bank1_arg)
    (bank2_fits : InRange bank2_arg) (signals : Nat → Option Signal) :
    (∃ k, (run (init_threads fib_arg fact_arg bank1_arg bank2_arg junk) signals k).control =
      .finished) ∧
    ((∀ k, Exact fib_arg fact_arg
      (run (init_threads fib_arg fact_arg bank1_arg bank2_arg junk) signals k)) ↔
        Countable fib_arg fact_arg) := by
  have accepted := @init_threads_accepted _ _ _ _ junk fib_fits fact_fits bank1_fits bank2_fits
  obtain ⟨last, finished⟩ := run_ends (init_threads_few ..) (init_threads_distinct ..) accepted signals
  refine ⟨⟨last, finished⟩, ?_⟩
  constructor
  · intro exact
    exact (exact last).countable fib_positive fact_positive accepted (run_reachable ..) finished
  · intro countable k
    exact countable.exact fib_positive fact_positive accepted (run_reachable ..)

theorem numbers_exact_iff_largest :
    Countable 46 12 ∧
      ∀ k, Exact 46 12 (run (init_threads 46 12 (-200) 300 0) (fun _ => some .SIGALRM) k) := by
  have countable : Countable 46 12 := by decide
  have exact := numbers_exact_iff 46 12 (-200) 300 0 (by decide) (by decide) (by decide) (by decide)
    (by decide) (by decide) fun _ => some .SIGALRM
  exact ⟨countable, exact.2.mpr countable⟩

/-- The number of round 47 is 2971215073. -/
theorem numbers_wrap :
    InRange 47 ∧ ¬ ∀ k, Exact 47 1 (run (init_threads 47 1 0 0 0) (fun _ => none) k) := by
  have accepted : ∀ spec ∈ init_threads 47 1 0 0 0, spec.Accepted :=
    init_threads_accepted (by decide) (by decide) (by decide) (by decide)
  obtain ⟨last, finished⟩ := run_ends (init_threads_few ..) (init_threads_distinct ..) accepted
    fun _ => none
  refine ⟨by decide, ?_⟩
  intro exact
  have countable := (exact last).countable (by decide) (by decide) accepted (run_reachable ..)
    finished
  exact absurd countable (by decide)

end SysProg.Threads
