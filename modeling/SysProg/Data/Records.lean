import Mathlib.Data.List.GetD
import SysProg.Data.Memory

namespace SysProg.Data

/-! A file of records.

A file reads as `blank` behind its end.  Records of one size lie one behind the other, and a
lock on a record is a lock on each of its cells. -/

section Cells

variable {α : Type*} {blank : α} {offset : Nat} {chunk buffer content : List α}

/-- A file behind a write from `offset` on; a gap that the write leaves is blank. -/
def writeAt (blank : α) (offset : Nat) (chunk content : List α) : List α :=
  overwrite offset chunk (content ++ List.replicate (offset - content.length) blank)

/-- A buffer into which a file has been read from its start, as much as there is and fits. -/
def readInto (content buffer : List α) : List α :=
  content.take buffer.length ++ buffer.drop content.length

theorem getD_padded (content : List α) (blank : α) (count i : Nat) :
    (content ++ List.replicate count blank).getD i blank = content.getD i blank := by
  by_cases inside : i < content.length
  · rw [List.getD_append _ _ _ _ inside]
  · rw [List.getD_append_right _ _ _ _ (Nat.le_of_not_lt inside),
      List.getD_eq_default _ _ (Nat.le_of_not_lt inside)]
    by_cases within : i - content.length < count
    · exact List.getD_replicate _ within
    · exact List.getD_eq_default _ _ (by rw [List.length_replicate]; omega)

theorem length_writeAt :
    (writeAt blank offset chunk content).length = max content.length (offset + chunk.length) := by
  simp only [writeAt, overwrite, List.length_append, List.length_take, List.length_drop,
    List.length_replicate]
  omega

theorem getD_writeAt (i : Nat) :
    (writeAt blank offset chunk content).getD i blank =
      if offset ≤ i ∧ i < offset + chunk.length then chunk.getD (i - offset) blank
      else content.getD i blank := by
  have reaches : offset ≤ (content ++ List.replicate (offset - content.length) blank).length := by
    rw [List.length_append, List.length_replicate]
    omega
  rw [← getD_padded content blank (offset - content.length) i, writeAt, overwrite]
  generalize content ++ List.replicate (offset - content.length) blank = padded at reaches ⊢
  have size : (padded.take offset).length = offset := by
    rw [List.length_take, Nat.min_eq_left reaches]
  by_cases before : i < offset
  · rw [if_neg (by omega), List.getD_append _ _ _ _ (by omega), List.getD_eq_getElem?_getD,
      List.getElem?_take_of_lt before, ← List.getD_eq_getElem?_getD]
  · rw [List.getD_append_right _ _ _ _ (by omega), size]
    by_cases inside : i < offset + chunk.length
    · rw [if_pos (by omega), List.getD_append _ _ _ _ (by omega)]
    · have place : offset + chunk.length + (i - offset - chunk.length) = i := by omega
      rw [if_neg (by omega), List.getD_append_right _ _ _ _ (by omega), List.getD_eq_getElem?_getD,
        List.getElem?_drop, place, ← List.getD_eq_getElem?_getD]

theorem drop_writeAt {i : Nat} (behind : offset + chunk.length ≤ i) :
    (writeAt blank offset chunk content).drop i = content.drop i := by
  have reaches : offset ≤ (content ++ List.replicate (offset - content.length) blank).length := by
    rw [List.length_append, List.length_replicate]
    omega
  have gap : (List.replicate (offset - content.length) blank).drop (i - content.length) = [] := by
    rw [List.drop_replicate, List.replicate_eq_nil_iff]
    omega
  rw [writeAt, drop_overwrite_behind behind reaches, List.drop_append, gap, List.append_nil]

theorem length_readInto : (readInto content buffer).length = buffer.length := by
  simp only [readInto, List.length_append, List.length_take, List.length_drop]
  omega

theorem getD_readInto (i : Nat) :
    (readInto content buffer).getD i blank =
      if i < content.length ∧ i < buffer.length then content.getD i blank
      else buffer.getD i blank := by
  rw [readInto]
  by_cases inside : i < content.length ∧ i < buffer.length
  · rw [if_pos inside, List.getD_append _ _ _ _ (by rw [List.length_take]; omega),
      List.getD_eq_getElem?_getD, List.getElem?_take_of_lt inside.2, ← List.getD_eq_getElem?_getD]
  · rw [if_neg inside, List.getD_append_right _ _ _ _ (by rw [List.length_take]; omega),
      List.getD_eq_getElem?_getD, List.getElem?_drop, ← List.getD_eq_getElem?_getD,
      List.length_take]
    by_cases short : content.length ≤ i
    · by_cases behind : i < buffer.length
      · have place : content.length + (i - min buffer.length content.length) = i := by omega
        rw [place]
      · have far : buffer.length ≤ content.length + (i - min buffer.length content.length) := by omega
        rw [List.getD_eq_default _ _ far, List.getD_eq_default _ _ (Nat.le_of_not_lt behind)]
    · have behind : buffer.length ≤ i := by omega
      have far : buffer.length ≤ content.length + (i - min buffer.length content.length) := by omega
      rw [List.getD_eq_default _ _ far, List.getD_eq_default _ _ behind]

end Cells

section Locks

variable {Owner : Type*} {me : Owner} {offset size record other i : Nat} {owner : Nat → Option Owner}

/-- A cell of a record lies in no other record. -/
theorem within_record (inside : i < size) :
    (record * size ≤ other * size + i ∧ other * size + i < record * size + size) ↔ other = record := by
  constructor
  · intro within
    rcases Nat.lt_trichotomy other record with less | same | more
    · have next : (other + 1) * size ≤ record * size := Nat.mul_le_mul_right size less
      rw [Nat.succ_mul] at next
      omega
    · exact same
    · have next : (record + 1) * size ≤ other * size := Nat.mul_le_mul_right size more
      rw [Nat.succ_mul] at next
      omega
  · intro same
    subst same
    omega

/-- Each record has one owner. -/
def Whole (size : Nat) (owner : Nat → Option Owner) : Prop :=
  ∀ record i, i < size → owner (record * size + i) = owner (record * size)

/-- The cells of a range get an owner. -/
def lockRange (me : Owner) (offset size : Nat) (owner : Nat → Option Owner) : Nat → Option Owner :=
  fun i => if offset ≤ i ∧ i < offset + size then some me else owner i

theorem lockRange_record (inside : i < size) :
    lockRange me (record * size) size owner (other * size + i) =
      if other = record then some me else owner (other * size + i) := by
  rw [lockRange]
  exact if_congr (within_record inside) rfl rfl

theorem Whole.lockRange (whole : Whole size owner) (record : Nat) :
    Whole size (lockRange me (record * size) size owner) := by
  intro other i inside
  have first := @lockRange_record _ me size record other 0 owner (Nat.zero_lt_of_lt inside)
  rw [Nat.add_zero] at first
  rw [lockRange_record inside, first, whole other i inside]

variable [DecidableEq Owner]

/-- No cell of a range has another owner. -/
def mayLock (me : Owner) (offset size : Nat) (owner : Nat → Option Owner) : Bool :=
  (List.range size).all fun i => owner (offset + i) = none ∨ owner (offset + i) = some me

/-- An owner gives up the cells of a range. -/
def unlockRange (me : Owner) (offset size : Nat) (owner : Nat → Option Owner) : Nat → Option Owner :=
  fun i => if (offset ≤ i ∧ i < offset + size) ∧ owner i = some me then none else owner i

theorem unlockRange_record (inside : i < size) :
    unlockRange me (record * size) size owner (other * size + i) =
      if other = record ∧ owner (other * size + i) = some me then none
      else owner (other * size + i) := by
  rw [unlockRange]
  exact if_congr (and_congr_left' (within_record inside)) rfl rfl

namespace Whole

theorem mayLock (whole : Whole size owner) (some : 0 < size) :
    Data.mayLock me (record * size) size owner = true ↔
      owner (record * size) = none ∨ owner (record * size) = .some me := by
  rw [Data.mayLock, List.all_eq_true]
  constructor
  · intro all
    have first := of_decide_eq_true (all 0 (List.mem_range.mpr some))
    rwa [Nat.add_zero] at first
  · intro free i listed
    rw [whole record i (List.mem_range.mp listed)]
    exact decide_eq_true free

theorem unlockRange (whole : Whole size owner) (record : Nat) :
    Whole size (Data.unlockRange me (record * size) size owner) := by
  intro other i inside
  have first := @unlockRange_record _ me size record other 0 owner _ (Nat.zero_lt_of_lt inside)
  rw [Nat.add_zero] at first
  rw [unlockRange_record inside, first, whole other i inside]

end Whole

end Locks

end SysProg.Data
