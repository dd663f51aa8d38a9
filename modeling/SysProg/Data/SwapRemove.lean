import Mathlib.Data.List.Perm.Basic

namespace SysProg.Data

/-! Removing an entry of an unordered sequence by moving the last entry into its
place. -/

variable {α : Type*}

def swapRemove (i : Nat) (items : List α) : List α :=
  match items.getLast? with
  | none => []
  | some last => items.dropLast.set i last

theorem swapRemove_append (i : Nat) (items : List α) (last : α) :
    swapRemove i (items ++ [last]) = items.set i last := by
  simp [swapRemove]

/-- Only the entry at `i` is lost, also when it is the last one. -/
theorem swapRemove_perm {i : Nat} {items : List α} {item : α} (found : items[i]? = some item) :
    (item :: swapRemove i items).Perm items := by
  cases items.eq_nil_or_concat' with
  | inl empty => simp [empty] at found
  | inr ends =>
      obtain ⟨items, last, rfl⟩ := ends
      rw [swapRemove_append]
      have bound : i < (items ++ [last]).length := (List.getElem?_eq_some_iff.mp found).1
      have cases : i < items.length ∨ i = items.length := by
        rw [List.length_append, List.length_singleton] at bound
        omega
      cases cases with
      | inl inside =>
          rw [List.getElem?_append_left inside] at found
          obtain ⟨_, rfl⟩ := List.getElem?_eq_some_iff.mp found
          calc items[i] :: items.set i last
            _ |>.Perm (items[i] :: last :: items.eraseIdx i) :=
                (List.set_perm_cons_eraseIdx inside last).cons _
            _ |>.Perm (last :: items[i] :: items.eraseIdx i) := .swap ..
            _ |>.Perm (last :: items) := (List.getElem_cons_eraseIdx_perm inside).cons _
            _ |>.Perm (items ++ [last]) := (List.perm_append_singleton last items).symm
      | inr atEnd =>
          subst atEnd
          rw [List.getElem?_concat_length] at found
          cases found
          rw [List.set_eq_of_length_le (Nat.le_refl _)]
          exact (List.perm_append_singleton item items).symm

theorem swapRemove_between (front behind : List α) (item last : α) :
    swapRemove front.length (front ++ item :: (behind ++ [last])) = front ++ last :: behind := by
  rw [← List.cons_append, ← List.append_assoc, swapRemove_append, List.set_append_right _ _ (Nat.le_refl _),
    Nat.sub_self, List.set_cons_zero]

theorem swapRemove_last (front : List α) (item : α) : swapRemove front.length (front ++ [item]) = front := by
  rw [swapRemove_append, List.set_eq_of_length_le (Nat.le_refl _)]

theorem length_swapRemove (i : Nat) (items : List α) :
    (swapRemove i items).length = items.length - 1 := by
  cases items.eq_nil_or_concat' with
  | inl empty => rw [empty]; rfl
  | inr ends =>
      obtain ⟨items, last, rfl⟩ := ends
      rw [swapRemove_append]
      simp

theorem map_swapRemove {β : Type*} (f : α → β) (i : Nat) (items : List α) :
    (swapRemove i items).map f = swapRemove i (items.map f) := by
  rcases items.eq_nil_or_concat' with rfl | ⟨items, last, rfl⟩
  · rfl
  · rw [swapRemove_append, List.map_append, List.map_singleton, swapRemove_append, List.map_set]

/-- The order in which the entries go when the first one always does. -/
def drained : List α → List α
  | [] => []
  | first :: rest => first :: rest.reverse

theorem drained_cons (first : α) (rest : List α) :
    drained (first :: rest) = first :: drained (swapRemove 0 (first :: rest)) := by
  rcases rest.eq_nil_or_concat' with rfl | ⟨items, last, rfl⟩
  · rfl
  · rw [← List.cons_append, swapRemove_append, List.set_cons_zero]
    simp [drained]

end SysProg.Data
