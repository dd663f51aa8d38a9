import SysProg.Threads.Turn

namespace SysProg.Threads

open Relation SysProg.Transition

/-! # How far each thread has come

The block of a thread and the lines it has printed determine each other, whatever
the other threads do in between. -/

variable {specs : List Spec} {state after : State} {ready waiting : List Ptr} {ptr : Ptr}
  {tcb new : Tcb} {lines more : List Line} {leaves : Bool} {spec : Spec}

def Line.id? : Line → Option Int
  | .setup id _ | .value id _ | .acquired id | .transaction id _ _ | .released id => some id
  | .caught _ => none

def linesOf (id : Int) (out : List Line) : List Line := out.filter fun line => line.id? = some id

def series (spec : Spec) : Nat → Int × Int
  | 0 => (spec.x, spec.y)
  | k + 1 => registers spec.func (k + 1) (series spec k).1 (series spec k).2

def values (spec : Spec) (k : Nat) : List Line :=
  (List.range k).map fun j => .value spec.id (series spec (j + 1)).2

/-- The arguments for which `init_threads` creates a thread. -/
def Spec.Accepted (spec : Spec) : Prop :=
  InRange spec.arg ∧ (spec.func ≠ .bank_operation → 0 < spec.arg)
deriving Decidable

/-- A thread with block `tcb` that has printed `lines` is somewhere before its end. -/
inductive Told (spec : Spec) : Tcb → List Line → Prop
  | setup : Told spec spec.tcb [.setup spec.id spec.func]
  | looping (k : Nat) (counts : spec.func ≠ .bank_operation) (started : 0 < k)
      (more : k < spec.arg) :
      Told spec ⟨spec.id, spec.func.looping, spec.arg, k, (series spec k).1, (series spec k).2⟩
        (.setup spec.id spec.func :: values spec k)
  | acquired (bank : spec.func = .bank_operation) :
      Told spec { spec.tcb with environment := .acquired }
        [.setup spec.id spec.func, .acquired spec.id]
  | updated (bank : spec.func = .bank_operation) (before balance : Int) :
      Told spec { spec.tcb with environment := .updated }
        [.setup spec.id spec.func, .acquired spec.id, .transaction spec.id before balance]

/-- All the lines of a thread that has exited. -/
inductive Complete (spec : Spec) : List Line → Prop
  | counted (counts : spec.func ≠ .bank_operation) :
      Complete spec (.setup spec.id spec.func :: values spec spec.arg.toNat)
  | banked (bank : spec.func = .bank_operation) (before balance : Int) :
      Complete spec [.setup spec.id spec.func, .acquired spec.id,
        .transaction spec.id before balance, .released spec.id]

theorem values_succ (spec : Spec) (k : Nat) :
    values spec (k + 1) = values spec k ++ [.value spec.id (series spec (k + 1)).2] := by
  simp [values, List.range_succ]

theorem looping_func (func : Func) : func.looping.func = func := by
  cases func <;> rfl

theorem Turn.lines_id (turn : Turn tcb new lines leaves) :
    ∀ line ∈ lines, line.id? = some tcb.id := by
  cases turn <;> simp [Line.id?]

theorem Told.id (told : Told spec tcb lines) : tcb.id = spec.id := by
  cases told <;> rfl

/-- Where a turn leaves a thread: at its end or further on. -/
def Left (spec : Spec) (new : Tcb) (lines : List Line) : Bool → Prop
  | true => Complete spec lines
  | false => Told spec new lines

/-- The round after `k` of them. -/
theorem Told.round {k : Nat} (counts : spec.func ≠ .bank_operation)
    (id : tcb.id = spec.id) (arg : tcb.arg = spec.arg) (func : tcb.environment.func = spec.func)
    (number : tcb.next = k + 1) (x : tcb.x = (series spec k).1) (y : tcb.y = (series spec k).2)
    (below : k < spec.arg) (turn : Turn tcb new more leaves) :
    Left spec new (.setup spec.id spec.func :: values spec k ++ more) leaves := by
  have bank : tcb.environment.func ≠ .bank_operation := func.symm ▸ counts
  have printed : (tcb.round tcb.next).y = (series spec (k + 1)).2 := by
    simp only [Tcb.round, number, func, x, y, series]
  have lines : .setup spec.id spec.func :: values spec k ++ [.value tcb.id (tcb.round tcb.next).y] =
      .setup spec.id spec.func :: values spec (k + 1) := by
    rw [printed, id, values_succ]
    rfl
  cases turn with
  | last _ done =>
      rw [lines]
      have count : k + 1 = spec.arg.toNat := by
        rw [number, arg] at done
        omega
      rw [count]
      exact .counted counts
  | round _ unfinished =>
      rw [lines]
      have further : ((k + 1 : Nat) : Int) < spec.arg := by
        rw [number, arg] at unfinished
        omega
      have block : { tcb.round tcb.next with environment := tcb.environment.func.looping } =
          (⟨spec.id, spec.func.looping, spec.arg, (k + 1 : Nat), (series spec (k + 1)).1,
            (series spec (k + 1)).2⟩ : Tcb) := by
        simp only [Tcb.round, number, func, x, y, series, id, arg, Nat.cast_add, Nat.cast_one]
      rw [block]
      exact .looping (k + 1) counts (by omega) further
  | refused point => exact absurd (by rw [point]; rfl) bank
  | locks point => exact absurd (by rw [point]; rfl) bank
  | transacts point => exact absurd (by rw [point]; rfl) bank
  | releases point => exact absurd (by rw [point]; rfl) bank

theorem Told.turn (accepted : spec.Accepted) (told : Told spec tcb lines)
    (turn : Turn tcb new more leaves) : Left spec new (lines ++ more) leaves := by
  cases told with
  | setup =>
      by_cases bank : spec.func = .bank_operation
      · cases turn with
        | last counts => exact absurd (by rw [Spec.tcb, Environment.func, bank]) counts
        | round counts => exact absurd (by rw [Spec.tcb, Environment.func, bank]) counts
        | refused => exact .setup
        | locks => exact .acquired bank
        | transacts point => cases point
        | releases point => cases point
      · have positive := accepted.2 bank
        exact @Told.round _ _ _ _ _ 0 bank rfl rfl rfl rfl rfl rfl positive turn
  | looping k counts started below =>
      have func := looping_func spec.func
      have bound := accepted.1.2
      have wraps : int32 ((k : Int) + 1) = (k : Int) + 1 := int32_eq ⟨by omega, by omega⟩
      refine Told.round counts rfl rfl func ?_ rfl rfl below turn
      simp only [Tcb.next]
      cases point : spec.func with
      | fibonacci => exact wraps
      | factorial => exact wraps
      | bank_operation => exact absurd point counts
  | acquired bank =>
      cases turn with
      | last counts => exact absurd rfl counts
      | round counts => exact absurd rfl counts
      | refused point => cases point
      | locks point => cases point
      | transacts _ before balance => exact .updated bank before balance
      | releases point => cases point
  | updated bank before balance =>
      cases turn with
      | last counts => exact absurd rfl counts
      | round counts => exact absurd rfl counts
      | refused point => cases point
      | locks point => cases point
      | transacts point => cases point
      | releases => exact .banked bank before balance

/-- Every thread that has not exited is somewhere before its end, and the others
have printed all their lines. -/
structure Recorded (specs : List Spec) (state : State) : Prop where
  alive : ∀ ptr spec, Created specs ptr spec → ptr ∉ state.exited →
    ∃ tcb, state.tcbs ptr = some tcb ∧ Told spec tcb (linesOf spec.id state.out)
  gone : ∀ ptr spec, Created specs ptr spec → ptr ∈ state.exited →
    Complete spec (linesOf spec.id state.out)

theorem linesOf_append (id : Int) (out more : List Line) :
    linesOf id (out ++ more) = linesOf id out ++ linesOf id more := List.filter_append ..

theorem linesOf_own {id : Int} (own : ∀ line ∈ lines, line.id? = some id) :
    linesOf id lines = lines := List.filter_eq_self.mpr (by simpa using own)

theorem linesOf_other {id other : Int} (own : ∀ line ∈ lines, line.id? = some id)
    (different : other ≠ id) : linesOf other lines = [] := by
  refine List.filter_eq_nil_iff.mpr fun line member => ?_
  simp [own line member, different.symm]

theorem Pauses.printed (pauses : Pauses state after) (id : Int) :
    linesOf id after.out = linesOf id state.out := by
  rcases pauses.out with same | ⟨signal, reported⟩
  · rw [same]
  · rw [reported, linesOf_append]
    exact List.append_nil _

namespace Recorded

theorem pause (recorded : Recorded specs state) (pauses : Pauses state after) :
    Recorded specs after where
  alive ptr spec created alive := by
    rw [pauses.exited] at alive
    rw [pauses.printed, pauses.blocks ptr alive]
    exact recorded.alive ptr spec created alive
  gone ptr spec created gone := by
    rw [pauses.exited] at gone
    rw [pauses.printed]
    exact recorded.gone ptr spec created gone

theorem act (recorded : Recorded specs state) (distinct : (specs.map Spec.id).Nodup)
    (accepted : ∀ spec ∈ specs, spec.Accepted) {own : Spec} (mine : Created specs ptr own)
    (alive : ptr ∉ state.exited) (block : state.tcbs ptr = some tcb)
    (turn : Turn tcb new lines leaves) (acts : Acts state after ptr new lines leaves) :
    Recorded specs after := by
  obtain ⟨found, stored, told⟩ := recorded.alive ptr own mine alive
  obtain rfl : tcb = found := Option.some.inj (block.symm.trans stored)
  have id := told.id
  have printed := turn.lines_id
  have left := told.turn (accepted own mine.mem) turn
  have total : linesOf own.id after.out = linesOf own.id state.out ++ lines := by
    have whole : linesOf own.id lines = lines := linesOf_own (id ▸ printed)
    rw [acts.out, linesOf_append, whole]
  have others : ∀ other spec, Created specs other spec → other ≠ ptr →
      linesOf spec.id after.out = linesOf spec.id state.out := by
    intro other spec created different
    have differs : spec.id ≠ tcb.id := by
      intro same
      exact different (created.same_id distinct mine (same.trans id))
    rw [acts.out, linesOf_append, linesOf_other printed differs, List.append_nil]
  constructor
  · intro other spec created remains
    by_cases same : other = ptr
    · subst same
      obtain rfl := created.unique mine
      refine ⟨new, by rw [acts.tcbs, Function.update_self], ?_⟩
      rw [total]
      cases leaves with
      | true =>
          rw [acts.exited] at remains
          simp at remains
      | false => exact left
    · rw [others other spec created same, acts.tcbs, Function.update_of_ne same]
      refine recorded.alive other spec created fun gone => remains ?_
      rw [acts.exited]
      split
      · exact List.mem_append_left _ gone
      · exact gone
  · intro other spec created gone
    by_cases same : other = ptr
    · subst same
      obtain rfl := created.unique mine
      rw [total]
      cases leaves with
      | true => exact left
      | false =>
          rw [acts.exited] at gone
          exact absurd gone alive
    · rw [others other spec created same]
      refine recorded.gone other spec created ?_
      rw [acts.exited] at gone
      split at gone
      · simpa [same] using gone
      · exact gone

theorem next (few : specs.length ≤ THREAD_MAX) (distinct : (specs.map Spec.id).Nodup)
    (accepted : ∀ spec ∈ specs, spec.Accepted) (recorded : Recorded specs state)
    (invariant : Invariant specs state ready waiting) (signal : Option Signal) :
    Recorded specs (next signal state) := by
  rcases invariant.turns few signal with ⟨ptr, tcb, current, control, computed⟩ | ⟨_, pauses⟩
  · rw [computed]
    obtain ⟨new, lines, leaves, turn, acts⟩ := resume_turn current.2
    obtain ⟨spec, created, _⟩ := invariant.made ptr tcb current.2
    exact recorded.act distinct accepted created (invariant.not_exited current (by simp [control]))
      current.2 turn acts
  · exact recorded.pause pauses

end Recorded

theorem linesOf_setups (distinct : (specs.map Spec.id).Nodup) (created : spec ∈ specs) :
    linesOf spec.id (specs.map fun spec => .setup spec.id spec.func) =
      [.setup spec.id spec.func] := by
  induction specs with
  | nil => cases created
  | cons first rest ih =>
      rw [List.map_cons, List.nodup_cons] at distinct
      have none : ∀ other, (∀ spec ∈ rest, spec.id ≠ other) →
          linesOf other (rest.map fun spec => .setup spec.id spec.func) = [] := by
        intro other missing
        simpa [linesOf, Line.id?] using missing
      rw [List.map_cons, ← List.singleton_append, linesOf_append]
      cases List.mem_cons.mp created with
      | inl same =>
          subst same
          rw [none]
          · simp [linesOf, Line.id?]
          · intro other member same
            exact distinct.1 (same ▸ List.mem_map_of_mem member)
      | inr later =>
          have different : first.id ≠ spec.id := by
            intro same
            exact distinct.1 (same ▸ List.mem_map_of_mem later)
          rw [ih distinct.2 later]
          simp [linesOf, Line.id?, different]

theorem Built.recorded (distinct : (specs.map Spec.id).Nodup) (built : Built specs state) :
    Recorded specs state where
  alive ptr spec created _ := by
    refine ⟨spec.tcb, (built.blocks ptr spec.tcb).mpr ⟨spec, created, rfl⟩, ?_⟩
    rw [built.out, linesOf_setups distinct created.mem]
    exact .setup
  gone ptr spec created gone := by
    rw [built.exited] at gone
    cases gone

theorem reachable_recorded (few : specs.length ≤ THREAD_MAX)
    (distinct : (specs.map Spec.id).Nodup) (accepted : ∀ spec ∈ specs, spec.Accepted)
    (reached : Reachable specs state) : Recorded specs state := by
  refine @invariant_of_reached _ _ _ _ (fun state => Recorded specs state) ?_ reached
    ((start_built few).recorded distinct)
  intro before after reached step recorded
  obtain ⟨signal, rfl⟩ := step
  obtain ⟨ready, waiting, invariant⟩ := reachable_invariant few distinct reached
  exact recorded.next few distinct accepted invariant signal

end SysProg.Threads
