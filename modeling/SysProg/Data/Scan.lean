import Mathlib.Data.List.Basic
import Mathlib.Data.List.TakeWhile

namespace SysProg.Data

/-! Words between blanks, and a scanner that takes one at a time. -/

variable {α : Type*} {blank : α → Bool} {front text word rest : List α} {letter : α}

noncomputable def words (blank : α → Bool) (text : List α) : List (List α) :=
  (text.splitOnP blank).filter fun word => !word.isEmpty

/-- Skips the blanks and reads up to the next one. -/
def scan (blank : α → Bool) (text : List α) : Option (List α × List α) :=
  match text.dropWhile blank with
  | [] => none
  | letter :: rest =>
      some (letter :: rest.takeWhile fun letter => !blank letter, rest.dropWhile fun letter => !blank letter)

@[simp] theorem words_nil : words blank [] = [] := rfl

theorem words_append (separates : blank letter = true) :
    words blank (front ++ letter :: text) = words blank front ++ words blank text := by
  rw [words, List.splitOnP_append_cons _ _ separates, List.filter_append]
  rfl

theorem words_single (solid : ∀ letter ∈ word, blank letter = false) (some : word ≠ []) :
    words blank word = [word] := by
  rw [words, List.splitOnP_eq_singleton solid, List.filter_cons_of_pos, List.filter_nil]
  rwa [Bool.not_eq_true', List.isEmpty_eq_false_iff]

theorem words_blank (separates : blank letter = true) : words blank (letter :: text) = words blank text :=
  @words_append _ blank [] text letter separates

theorem words_solid (solid : ∀ letter ∈ word, blank letter = false) (some : word ≠ [])
    (ends : ∀ letter ∈ rest.head?, blank letter = true) :
    words blank (word ++ rest) = word :: words blank rest := by
  cases rest with
  | nil => rw [List.append_nil, words_single solid some, words_nil]
  | cons letter rest =>
      have separates := ends letter rfl
      rw [words_append separates, words_single solid some, words_blank separates]
      rfl

theorem words_dropWhile (text : List α) : words blank (text.dropWhile blank) = words blank text := by
  induction text with
  | nil => rfl
  | cons letter text ih =>
      cases here : blank letter with
      | true => rw [List.dropWhile_cons_of_pos here, ih, words_blank here]
      | false => rw [List.dropWhile_cons_of_neg (by rw [here]; exact Bool.false_ne_true)]

/-- What a scan takes is the first word, and the rest has the others. -/
structure Scanned (blank : α → Bool) (text word rest : List α) : Prop where
  some : word ≠ []
  solid : ∀ letter ∈ word, blank letter = false
  words : words blank text = word :: words blank rest
  word_subset : word ⊆ text
  rest_subset : rest ⊆ text
  shorter : rest.length < text.length

theorem scan_spec (read : scan blank text = some (word, rest)) : Scanned blank text word rest := by
  rw [scan] at read
  have first := List.head?_dropWhile_not blank text
  have same := @words_dropWhile _ blank text
  have inside := @List.dropWhile_subset _ text blank
  have length := List.length_dropWhile_le blank text
  cases tail : text.dropWhile blank with
  | nil =>
      rw [tail] at read
      cases read
  | cons letter tail' =>
      rw [tail] at read first same inside length
      obtain ⟨rfl, rfl⟩ := Prod.mk.inj (Option.some.inj read)
      have starts : blank letter = false := by simpa using first
      have solid : ∀ other ∈ letter :: tail'.takeWhile fun letter => !blank letter, blank other = false := by
        intro other member
        rcases List.mem_cons.mp member with rfl | later
        · exact starts
        · simpa using List.mem_takeWhile_imp later
      have ends : ∀ other ∈ (tail'.dropWhile fun letter => !blank letter).head?, blank other = true := by
        intro other member
        have stops := List.head?_dropWhile_not (fun letter => !blank letter) tail'
        rw [Option.mem_def.mp member] at stops
        simpa using stops
      have whole : letter :: tail' = (letter :: tail'.takeWhile fun letter => !blank letter) ++
          tail'.dropWhile fun letter => !blank letter := by
        rw [List.cons_append, List.takeWhile_append_dropWhile]
      refine ⟨nofun, solid, ?_, ?_, ?_, ?_⟩
      · rw [← same, whole]
        exact words_solid solid nofun ends
      · exact fun other member => inside (whole ▸ List.mem_append_left _ member)
      · exact fun other member => inside (whole ▸ List.mem_append_right _ member)
      · have fewer := List.length_dropWhile_le (fun letter => !blank letter) tail'
        rw [List.length_cons] at length
        omega

end SysProg.Data
