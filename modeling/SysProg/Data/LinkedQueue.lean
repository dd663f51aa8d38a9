import Mathlib.Logic.Function.Basic
import Mathlib.Data.List.Nodup

namespace SysProg.Data

/-! Singly linked lists in an explicit heap.

`Chain heap head addresses` says that following `next` from `head` visits exactly
`addresses` and then meets the null pointer.  Nothing is said about a tail
pointer: a client that keeps one states for itself when it may be trusted. -/

variable {Addr Cell : Type*} {next : Cell → Option Addr}

/-- The cells met by following `next` from `head` to the null pointer. -/
def Chain (next : Cell → Option Addr) (heap : Addr → Option Cell) :
    Option Addr → List Addr → Prop
  | head, [] => head = none
  | head, address :: rest =>
      head = some address ∧ ∃ cell, heap address = some cell ∧ Chain next heap (next cell) rest

variable {heap heap' : Addr → Option Cell} {head : Option Addr} {addresses : List Addr}

theorem Chain.head_eq (chain : Chain next heap head addresses) : head = addresses.head? := by
  cases addresses with
  | nil => exact chain
  | cons address rest => exact chain.1

theorem Chain.head_none_iff (chain : Chain next heap head addresses) :
    head = none ↔ addresses = [] := by
  rw [chain.head_eq, List.head?_eq_none_iff]

/-- A chain depends only on the cells it visits. -/
theorem Chain.congr (chain : Chain next heap head addresses)
    (same : ∀ address ∈ addresses, heap' address = heap address) :
    Chain next heap' head addresses := by
  induction addresses generalizing head with
  | nil => exact chain
  | cons address rest ih =>
      obtain ⟨start, cell, stored, tail⟩ := chain
      refine ⟨start, cell, ?_, ih tail ?_⟩
      · rw [same address (by simp), stored]
      · exact fun other member => same other (by simp [member])

theorem Chain.stored (chain : Chain next heap head addresses) {address : Addr}
    (member : address ∈ addresses) : ∃ cell, heap address = some cell := by
  induction addresses generalizing head with
  | nil => cases member
  | cons first rest ih =>
      obtain ⟨_, cell, stored, tail⟩ := chain
      rcases List.mem_cons.mp member with same | later
      · exact ⟨cell, same ▸ stored⟩
      · exact ih tail later

variable [DecidableEq Addr]

/-- Linking a fresh cell behind the last one extends the walk by that cell. -/
theorem Chain.link {front : List Addr} {final fresh : Addr} {linked added : Cell}
    (chain : Chain next heap head (front ++ [final]))
    (distinct : (front ++ [final]).Nodup) (new : fresh ∉ front ++ [final])
    (pointsToNew : next linked = some fresh)
    (endsThere : next added = none) :
    Chain next (Function.update (Function.update heap fresh (some added)) final (some linked))
      head (front ++ [final, fresh]) := by
  have different : final ≠ fresh := fun same => new (by simp [same])
  induction front generalizing head with
  | nil =>
      obtain ⟨start, _, _, _⟩ := chain
      exact ⟨start, linked, by simp, pointsToNew, added,
        by simp [Function.update_of_ne different.symm], endsThere⟩
  | cons address rest ih =>
      obtain ⟨start, here, stored, tail⟩ := chain
      simp only [List.cons_append, List.nodup_cons, List.mem_append, List.mem_cons,
        List.not_mem_nil, or_false, not_or] at distinct new
      obtain ⟨⟨_, notFinal⟩, restDistinct⟩ := distinct
      refine ⟨start, here, ?_, ih tail restDistinct ?_⟩
      · rw [Function.update_of_ne notFinal, Function.update_of_ne (Ne.symm new.1), stored]
      · simpa using ⟨new.2.1, new.2.2⟩

end SysProg.Data
