import Mathlib.Data.List.Perm.Basic

namespace SysProg.Data

/-! Sweeps over an unordered sequence.

A cursor serves the items of a sequence one after the other.  New items join behind all
others, and an item that leaves where the cursor stands is replaced by the last one, which is
served there. -/

variable {α : Type*}

/-- A sweep over `first`: what stands in front of the cursor, at it and behind it, what has
been served, and what has joined on the way. -/
inductive Sweep (first : List α) : List α → α → List α → List α → List α → Prop
  | start {item : α} {behind : List α} (whole : first = item :: behind) :
      Sweep first [] item behind [item] []
  | join {front behind served joined : List α} {item : α} (new : α)
      (sweep : Sweep first front item behind served joined) :
      Sweep first front item (behind ++ [new]) served (joined ++ [new])
  | advance {front behind served joined : List α} {item next : α}
      (sweep : Sweep first front item (next :: behind) served joined) :
      Sweep first (front ++ [item]) next behind (served ++ [next]) joined
  | replace {front behind served joined : List α} {item last : α}
      (sweep : Sweep first front item (behind ++ [last]) served joined) :
      Sweep first front last behind (served ++ [last]) joined

namespace Sweep

variable {first front behind served joined : List α} {item : α}

/-- What has been served and what is still to come is what was there and what has joined. -/
theorem balance (sweep : Sweep first front item behind served joined) :
    (served ++ behind).Perm (first ++ joined) := by
  induction sweep with
  | start whole =>
      rw [whole, List.append_nil]
      rfl
  | join new _ ih =>
      rw [← List.append_assoc, ← List.append_assoc]
      exact ih.append_right [new]
  | @advance _ behind served _ _ next _ ih =>
      rwa [List.append_assoc, List.singleton_append]
  | @replace _ behind served _ _ last _ ih =>
      have moved : ([last] ++ behind).Perm (behind ++ [last]) := List.perm_append_comm
      rw [List.append_assoc]
      exact (moved.append_left served).trans ih

theorem finished (sweep : Sweep first front item [] served joined) : served.Perm (first ++ joined) := by
  have balance := sweep.balance
  rwa [List.append_nil] at balance

theorem join_all (new : List α) (sweep : Sweep first front item behind served joined) :
    Sweep first front item (behind ++ new) served (joined ++ new) := by
  induction new generalizing behind joined with
  | nil => rwa [List.append_nil, List.append_nil]
  | cons one more ih =>
      have longer := ih (sweep.join one)
      rwa [List.append_assoc, List.append_assoc] at longer

end Sweep

end SysProg.Data
