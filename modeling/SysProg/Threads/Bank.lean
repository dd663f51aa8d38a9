import Mathlib.Algebra.BigOperators.Group.List.Basic
import Mathlib.Algebra.Order.Ring.Int
import Mathlib.Data.List.Induction
import Mathlib.Data.List.Perm.Subperm
import Mathlib.Data.List.Sublists
import SysProg.Threads.Safety

namespace SysProg.Threads

/-! # The bank as it is meant

`operate` is the transaction on exact integers and `serial` the lines that a
serial execution prints; the projections read the bank's lines off the output. -/

def acquiredIds (out : List Line) : List Int :=
  out.filterMap fun
    | .acquired id => some id
    | _ => none

def transactions (out : List Line) : List (Int × Int × Int) :=
  out.filterMap fun
    | .transaction id before after => some (id, before, after)
    | _ => none

def releasedIds (out : List Line) : List Int :=
  out.filterMap fun
    | .released id => some id
    | _ => none

/-- The thread `id` is between its `acquired the lock` and its `released the lock`. -/
def Critical (out : List Line) (id : Int) : Prop :=
  id ∈ acquiredIds out ∧ id ∉ releasedIds out
deriving Decidable

/-- Add `arg` if it is positive or the balance covers it. -/
def operate (balance arg : Int) : Int :=
  if arg > 0 ∨ balance ≥ -arg then balance + arg else balance

def argOf (specs : List Spec) (id : Int) : Int :=
  match specs.find? fun spec => spec.id = id with
  | some spec => spec.arg
  | none => 0

/-- The balance after the transactions of `ids` in order. -/
def settle (specs : List Spec) (balance : Int) (ids : List Int) : Int :=
  ids.foldl (fun balance id => operate balance (argOf specs id)) balance

/-- The lines of the transactions of `ids` in order. -/
def serial (specs : List Spec) : Int → List Int → List (Int × Int × Int)
  | _, [] => []
  | balance, id :: rest =>
      (id, balance, operate balance (argOf specs id)) ::
        serial specs (operate balance (argOf specs id)) rest

/-- Each `before` is the `after` of the line in front of it. -/
def Chained : Int → List (Int × Int × Int) → Prop
  | _, [] => True
  | balance, (_, before, after) :: rest => before = balance ∧ Chained after rest

def bankSpecs (specs : List Spec) : List Spec :=
  specs.filter fun spec => spec.func = .bank_operation

def InRange (value : Int) : Prop := -2147483648 ≤ value ∧ value < 2147483648
deriving Decidable

/-- The arguments of the bank threads stay within `int`. -/
structure Bounded (specs : List Spec) : Prop where
  negation : ∀ spec ∈ bankSpecs specs, InRange (-spec.arg)
  sums : ∀ chosen : List Int, chosen.Subperm ((bankSpecs specs).map Spec.arg) →
    InRange (500 + chosen.sum)

theorem bounded_iff (specs : List Spec) : Bounded specs ↔
    (∀ spec ∈ bankSpecs specs, InRange (-spec.arg)) ∧
    ∀ chosen ∈ ((bankSpecs specs).map Spec.arg).sublists, InRange (500 + chosen.sum) := by
  refine ⟨?_, ?_⟩
  · intro bounded
    exact ⟨bounded.negation, fun chosen member =>
      bounded.sums chosen (List.mem_sublists.mp member).subperm⟩
  · intro checks
    refine ⟨checks.1, ?_⟩
    intro chosen inside
    obtain ⟨listed, same, sub⟩ := inside
    rw [← same.sum_eq]
    exact checks.2 listed (List.mem_sublists.mpr sub)

instance (specs : List Spec) : Decidable (Bounded specs) :=
  decidable_of_iff' _ (bounded_iff specs)

variable {specs : List Spec} {balance arg : Int} {ids : List Int}

theorem int32_eq {value : Int} (fits : InRange value) : int32 value = value := by
  obtain ⟨lower, upper⟩ := fits
  exact Int.bmod_eq_of_le (by omega) (by omega)

theorem settle_append (ids : List Int) (id : Int) :
    settle specs balance (ids ++ [id]) =
      operate (settle specs balance ids) (argOf specs id) := by
  rw [settle, List.foldl_append]
  rfl

theorem serial_append (ids : List Int) (id : Int) :
    serial specs balance (ids ++ [id]) = serial specs balance ids ++
      [(id, settle specs balance ids, settle specs balance (ids ++ [id]))] := by
  induction ids generalizing balance with
  | nil => rfl
  | cons first rest ih =>
      rw [List.cons_append, serial, ih]
      rfl

theorem serial_chained : Chained balance (serial specs balance ids) := by
  induction ids generalizing balance with
  | nil => trivial
  | cons first rest ih => exact ⟨rfl, ih⟩

/-- A balance is the start plus the arguments of the transactions that went through. -/
theorem settle_sum (ids : List Int) :
    ∃ chosen : List Int, chosen.Sublist (ids.map (argOf specs)) ∧
      settle specs balance ids = balance + chosen.sum := by
  induction ids using List.reverseRecOn generalizing balance with
  | nil => exact ⟨[], .refl _, by simp [settle]⟩
  | append_singleton ids id ih =>
      obtain ⟨chosen, inside, total⟩ := @ih balance
      rw [settle_append, operate, total, List.map_append, List.map_singleton]
      split
      · refine ⟨chosen ++ [argOf specs id], inside.append (.refl _), ?_⟩
        rw [List.sum_append, List.sum_singleton]
        omega
      · exact ⟨chosen, inside.trans (List.sublist_append_left _ _), rfl⟩

theorem argOf_eq (distinct : (specs.map Spec.id).Nodup) {spec : Spec} (member : spec ∈ specs) :
    argOf specs spec.id = spec.arg := by
  obtain ⟨found, same⟩ : ∃ found, specs.find? (fun other => other.id = spec.id) = some found := by
    rw [← Option.isSome_iff_exists, List.find?_isSome]
    exact ⟨spec, member, by simp⟩
  have id : found.id = spec.id := by simpa using List.find?_some same
  have equal : found = spec :=
    List.inj_on_of_nodup_map distinct (List.mem_of_find?_eq_some same) member id
  simp only [argOf, same, equal]

/-- Whatever the order of distinct bank threads, their balance fits. -/
theorem Bounded.settle_fits (bounded : Bounded specs) (distinct : (specs.map Spec.id).Nodup)
    (nodup : ids.Nodup) (inside : ids ⊆ (bankSpecs specs).map Spec.id) :
    InRange (settle specs 500 ids) := by
  obtain ⟨chosen, sublist, total⟩ := @settle_sum specs 500 ids
  have args : ((bankSpecs specs).map Spec.id).map (argOf specs) =
      (bankSpecs specs).map Spec.arg := by
    rw [List.map_map]
    exact List.map_congr_left fun spec member => argOf_eq distinct (List.mem_of_mem_filter member)
  have counted : (ids.map (argOf specs)).Subperm ((bankSpecs specs).map Spec.arg) := by
    obtain ⟨listed, same, sub⟩ := List.subperm_of_subset nodup inside
    rw [← args]
    exact ⟨_, same.map _, sub.map _⟩
  rw [total]
  exact bounded.sums chosen (sublist.subperm.trans counted)

end SysProg.Threads
