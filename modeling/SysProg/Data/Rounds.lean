import Mathlib.Data.List.Induction
import Mathlib.Order.Basic

namespace SysProg.Data

/-! A cursor that goes round a ring.

The places of a ring of `size` are the numbers modulo `size`.  A search starts behind the
last place that was granted, passes places one after the other and may grant the next; if it
does not, the next search starts where this one has. -/

inductive Mark where
  | passed (place : Nat)
  | granted (place : Nat)
deriving DecidableEq, Repr

def Mark.place : Mark → Nat
  | .passed place | .granted place => place

/-- Searches, with the place granted last, the place a search has come to, and what it has
done on the way; places are not reduced. -/
inductive Rounds (size start : Nat) : Nat → Nat → List Mark → Prop
  | start : Rounds size start start start []
  | again {last now : Nat} {marks : List Mark} (rounds : Rounds size start last now marks) :
      Rounds size start last last marks
  | pass {last now : Nat} {marks : List Mark} (rounds : Rounds size start last now marks) :
      Rounds size start last (now + 1) (marks ++ [.passed ((now + 1) % size)])
  | grant {last now : Nat} {marks : List Mark} (rounds : Rounds size start last now marks) :
      Rounds size start (now + 1) (now + 1) (marks ++ [.granted ((now + 1) % size)])

namespace Rounds

variable {size start last now place : Nat} {marks : List Mark}

theorem last_le (rounds : Rounds size start last now marks) : last ≤ now := by
  induction rounds with
  | start | again _ _ | grant _ _ => exact Nat.le_refl _
  | pass _ ih => exact Nat.le_succ_of_le ih

/-- What has been marked since a place was granted covers all the way to where the search is. -/
def Covers (size last now place : Nat) (since : List Mark) : Prop :=
  ∃ first ≤ last, first % size = place ∧
    ∀ other, first < other → other ≤ now → ∃ mark ∈ since, mark.place = other % size

theorem Covers.again {since : List Mark} (covers : Covers size last now place since) (within : last ≤ now) :
    Covers size last last place since := by
  obtain ⟨first, before, same, marked⟩ := covers
  exact ⟨first, before, same, fun other behind upto => marked other behind (Nat.le_trans upto within)⟩

theorem Covers.mark {since : List Mark} {mark : Mark} {next : Nat} (covers : Covers size last now place since)
    (within : last ≤ next) (here : mark.place = (now + 1) % size) :
    Covers size next (now + 1) place (since ++ [mark]) := by
  obtain ⟨first, before, same, marked⟩ := covers
  refine ⟨first, Nat.le_trans before within, same, fun other behind upto => ?_⟩
  by_cases new : other = now + 1
  · exact ⟨mark, by simp, new ▸ here⟩
  · obtain ⟨old, listed, there⟩ := marked other behind (by omega)
    exact ⟨old, List.mem_append_left _ listed, there⟩

/-- The last mark of a list that has another one behind it. -/
theorem snoc_split {before since : List Mark} {mark new : Mark}
    (split : marks ++ [new] = before ++ mark :: since) :
    (since = [] ∧ before = marks ∧ mark = new) ∨
      ∃ since', since = since' ++ [new] ∧ marks = before ++ mark :: since' := by
  cases since using List.reverseRecOn with
  | nil =>
      obtain ⟨same, last⟩ := List.append_inj' split rfl
      exact .inl ⟨rfl, same.symm, (List.cons.inj last).1.symm⟩
  | append_singleton since' last =>
      have longer : marks ++ [new] = (before ++ mark :: since') ++ [last] := by
        rw [split, List.append_assoc, List.cons_append]
      obtain ⟨same, one⟩ := List.append_inj' longer rfl
      refine .inr ⟨since', ?_, same⟩
      rw [(List.cons.inj one).1]

theorem covers (rounds : Rounds size start last now marks) {before since : List Mark}
    (split : marks = before ++ .granted place :: since) : Covers size last now place since := by
  induction rounds generalizing before since with
  | start => simp at split
  | again rounds ih => exact (ih split).again rounds.last_le
  | pass rounds ih =>
      rcases snoc_split split with ⟨_, _, granted⟩ | ⟨since', rfl, earlier⟩
      · cases granted
      · exact (ih earlier).mark (Nat.le_refl _) rfl
  | grant rounds ih =>
      rcases snoc_split split with ⟨rfl, _, granted⟩ | ⟨since', rfl, earlier⟩
      · cases granted
        exact ⟨_, Nat.le_refl _, rfl, fun other behind upto => absurd behind (Nat.not_lt.mpr upto)⟩
      · exact (ih earlier).mark (Nat.le_succ_of_le rounds.last_le) rfl

/-- A way from a place to itself passes every other place. -/
theorem whole_round {first next other : Nat} (ahead : first < next) (same : first % size = next % size)
    (inside : other < size) (different : other ≠ next % size) :
    ∃ place, first < place ∧ place < next ∧ place % size = other := by
  have round : size ≤ next - first :=
    Nat.le_of_dvd (Nat.sub_pos_of_lt ahead) (Nat.dvd_of_mod_eq_zero (Nat.sub_mod_eq_zero_of_mod_eq same.symm))
  let way := (other + size - next % size) % size
  have short : way < size := Nat.mod_lt _ (Nat.zero_lt_of_lt inside)
  have there : (first + way) % size = other := by
    have bound : next % size < size := Nat.mod_lt _ (Nat.zero_lt_of_lt inside)
    calc
      (first + way) % size = (next % size + (other + size - next % size)) % size := by
        rw [Nat.add_mod_mod, ← Nat.mod_add_mod, same]
      _ = (other + size) % size := by
        congr 1
        omega
      _ = other := by rw [Nat.add_mod_right, Nat.mod_eq_of_lt inside]
  have some : way ≠ 0 := by
    intro none
    rw [none, Nat.add_zero] at there
    exact different (there.symm.trans same)
  exact ⟨first + way, by omega, by omega, there⟩

/-- Between two grants of a place every other place is marked. -/
theorem between (rounds : Rounds size start last now marks) {before since behind : List Mark}
    (split : marks = before ++ .granted place :: since ++ .granted place :: behind) {other : Nat}
    (inside : other < size) (different : other ≠ place) : ∃ mark ∈ since, mark.place = other := by
  induction rounds generalizing behind with
  | start => simp at split
  | again _ ih => exact ih split
  | pass rounds ih =>
      rcases snoc_split split with ⟨_, _, granted⟩ | ⟨behind', _, earlier⟩
      · cases granted
      · exact ih earlier
  | @grant last now marks rounds ih =>
      rcases snoc_split split with ⟨_, earlier, granted⟩ | ⟨behind', _, earlier⟩
      · cases granted
        obtain ⟨first, upto, same, marked⟩ := rounds.covers earlier.symm
        have within : first < now + 1 := Nat.lt_succ_of_le (Nat.le_trans upto rounds.last_le)
        obtain ⟨place', behind, before, here⟩ := whole_round within same inside different
        rw [← here]
        exact marked place' behind (Nat.le_of_lt_succ before)
      · exact ih earlier

end Rounds

end SysProg.Data
