import Mathlib.Data.List.TakeDrop
import Mathlib.Data.List.TakeWhile

namespace SysProg.Data

/-! Memory as a list.

What is left of a memory behind a write, and the string that a reader takes from it up to
the first terminator. -/

variable {α : Type*} {offset i : Nat} {chunk memory front behind : List α}

/-- A memory with a chunk written over it from `offset` on. -/
def overwrite (offset : Nat) (chunk memory : List α) : List α :=
  memory.take offset ++ (chunk ++ memory.drop (offset + chunk.length))

theorem length_overwrite (inside : offset + chunk.length ≤ memory.length) :
    (overwrite offset chunk memory).length = memory.length := by
  simp only [overwrite, List.length_append, List.length_take, List.length_drop]
  omega

theorem take_overwrite (before : i ≤ offset) (inside : offset ≤ memory.length) :
    (overwrite offset chunk memory).take i = memory.take i := by
  have long : i ≤ (memory.take offset).length := by
    rw [List.length_take]
    omega
  rw [overwrite, List.take_append_of_le_length long, List.take_take, Nat.min_eq_left before]

theorem drop_overwrite (inside : offset ≤ memory.length) :
    (overwrite offset chunk memory).drop offset = chunk ++ memory.drop (offset + chunk.length) := by
  rw [overwrite, List.drop_left' (by rw [List.length_take, Nat.min_eq_left inside])]

theorem overwrite_behind (behind : offset + chunk.length ≤ i) (inside : offset ≤ memory.length) :
    (overwrite offset chunk memory)[i]? = memory[i]? := by
  have size : (memory.take offset).length = offset := by rw [List.length_take, Nat.min_eq_left inside]
  rw [overwrite, List.getElem?_append_right (by omega), List.getElem?_append_right (by omega),
    List.getElem?_drop]
  congr 1
  omega

theorem drop_overwrite_behind (behind : offset + chunk.length ≤ i) (inside : offset ≤ memory.length) :
    (overwrite offset chunk memory).drop i = memory.drop i := by
  apply List.ext_getElem?
  intro j
  rw [List.getElem?_drop, List.getElem?_drop, overwrite_behind (by omega) inside]

variable [DecidableEq α] {stop : α}

/-- A memory up to the first `stop`. -/
def string (stop : α) (memory : List α) : List α := memory.takeWhile fun byte => byte ≠ stop

theorem string_stopped (clean : stop ∉ front) : string stop (front ++ stop :: behind) = front := by
  have ahead : ∀ byte ∈ front, decide (byte ≠ stop) = true := by
    intro byte listed
    exact decide_eq_true fun same => clean (same ▸ listed)
  rw [string, List.takeWhile_append_of_pos ahead, List.takeWhile_cons_of_neg (by simp), List.append_nil]

theorem string_append (clean : stop ∉ front) : string stop (front ++ behind) = front ++ string stop behind := by
  have ahead : ∀ byte ∈ front, decide (byte ≠ stop) = true := by
    intro byte listed
    exact decide_eq_true fun same => clean (same ▸ listed)
  rw [string, List.takeWhile_append_of_pos ahead, string]

/-- A string that ends inside an array. -/
theorem string_short {size : Nat} (clean : stop ∉ front) (short : front.length < size) :
    string stop ((front ++ stop :: memory).take size ++ behind) = front := by
  obtain ⟨rest, rfl⟩ : ∃ rest, size = front.length + (rest + 1) := ⟨size - front.length - 1, by omega⟩
  rw [List.take_length_add_append, List.take_succ_cons, List.append_assoc, List.cons_append,
    string_stopped clean]

/-- A string that fills an array goes on behind it. -/
theorem string_long {size : Nat} (clean : stop ∉ front) (long : size ≤ front.length) :
    string stop ((front ++ memory).take size ++ behind) = front.take size ++ string stop behind := by
  rw [List.take_append_of_le_length long, string_append fun listed => clean (List.mem_of_mem_take listed)]

theorem notMem_string (stop : α) (memory : List α) : stop ∉ string stop memory := by
  intro listed
  have kept := List.mem_takeWhile_imp listed
  simp at kept

end SysProg.Data
