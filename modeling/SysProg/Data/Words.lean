import Mathlib.Data.List.Basic

namespace SysProg.Data

/-! Words that commute.

Two words give the same word in both orders exactly if both repeat one word. -/

variable {α : Type*} {u v w : List α} {m n : Nat}

/-- A word, a number of times. -/
def repeats (w : List α) (n : Nat) : List α := (List.replicate n w).flatten

@[simp] theorem repeats_zero : repeats w 0 = [] := rfl

@[simp] theorem repeats_one : repeats w 1 = w := by simp [repeats]

theorem repeats_add (w : List α) (m n : Nat) : repeats w (m + n) = repeats w m ++ repeats w n := by
  rw [repeats, ← List.replicate_append_replicate, List.flatten_append]
  rfl

/-- Two words that repeat one and the same word. -/
def Alike (u v : List α) : Prop := ∃ w m n, u = repeats w m ∧ v = repeats w n

theorem Alike.symm (alike : Alike u v) : Alike v u := by
  obtain ⟨w, m, n, left, right⟩ := alike
  exact ⟨w, n, m, right, left⟩

theorem Alike.commutes (alike : Alike u v) : u ++ v = v ++ u := by
  obtain ⟨w, m, n, rfl, rfl⟩ := alike
  rw [← repeats_add, ← repeats_add, Nat.add_comm]

theorem Alike.append (alike : Alike u v) : Alike u (u ++ v) := by
  obtain ⟨w, m, n, rfl, rfl⟩ := alike
  exact ⟨w, m, m + n, rfl, (repeats_add w m n).symm⟩

theorem alike_nil (v : List α) : Alike [] v := ⟨v, 0, 1, rfl, repeats_one.symm⟩

/-- The longer of two words that commute starts with the shorter, and what is left of it
commutes with the shorter again. -/
theorem alike_of_commutes (commutes : u ++ v = v ++ u) : Alike u v := by
  induction size : u.length + v.length using Nat.strongRecOn generalizing u v with
  | ind total ih =>
      by_cases empty : u = []
      · rw [empty]
        exact alike_nil v
      by_cases empty' : v = []
      · rw [empty']
        exact (alike_nil u).symm
      have some := List.length_pos_of_ne_nil empty
      have some' := List.length_pos_of_ne_nil empty'
      rcases List.append_eq_append_iff.mp commutes with ⟨t, longer, rest⟩ | ⟨t, longer, rest⟩
      · have shorter : u ++ t = t ++ u := longer.symm.trans rest
        have less : u.length + t.length < total := by
          rw [← size, longer, List.length_append]
          omega
        rw [longer]
        exact (ih _ less shorter rfl).append
      · have shorter : v ++ t = t ++ v := longer.symm.trans rest
        have less : v.length + t.length < total := by
          rw [← size, longer, List.length_append]
          omega
        rw [longer]
        exact (ih _ less shorter rfl).append.symm

theorem commutes_iff : u ++ v = v ++ u ↔ Alike u v := ⟨alike_of_commutes, Alike.commutes⟩

end SysProg.Data
