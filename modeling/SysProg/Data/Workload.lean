import Mathlib.Algebra.BigOperators.Group.Finset.Basic
import Mathlib.Algebra.Order.BigOperators.Group.Finset

namespace SysProg.Data

/-! What the members of a set still have to do.

Each member stands at some value and each value has a cost; a step moves one of them, and
may put the others back by a bounded amount. -/

variable {Index Value : Type*} {cost : Value → Nat} {members : Finset Index} {values values' : Index → Value}

def workload (cost : Value → Nat) (members : Finset Index) (values : Index → Value) : Nat :=
  ∑ index ∈ members, cost (values index)

theorem workload_update [DecidableEq Index] {index : Index} (inside : index ∈ members) (value : Value) :
    workload cost members (Function.update values index value) + cost (values index) =
      workload cost members values + cost value := by
  have others : ∑ other ∈ members.erase index, cost (Function.update values index value other) =
      ∑ other ∈ members.erase index, cost (values other) :=
    Finset.sum_congr rfl fun other among => by
      rw [Function.update_of_ne (Finset.ne_of_mem_erase among)]
  rw [workload, workload, ← Finset.sum_erase_add _ _ inside, ← Finset.sum_erase_add members _ inside,
    others, Function.update_self]
  omega

theorem workload_le {extra : Nat} (each : ∀ index, cost (values' index) ≤ cost (values index) + extra) :
    workload cost members values' ≤ workload cost members values + members.card * extra := by
  calc workload cost members values' ≤ ∑ index ∈ members, (cost (values index) + extra) :=
        Finset.sum_le_sum fun index _ => each index
    _ = workload cost members values + members.card * extra := by
        rw [Finset.sum_add_distrib, Finset.sum_const_nat fun _ _ => rfl]
        rfl

end SysProg.Data
