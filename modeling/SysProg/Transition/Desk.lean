import Mathlib.Data.Fintype.Card
import Mathlib.Data.List.Nodup
import SysProg.Transition.Steps

namespace SysProg.Transition

open Relation

/-! One queue and several servers.

A server that has nothing to do takes the job that has waited longest.  Jobs are known by
their number in the order of arrival, so the jobs that have been taken are the first ones, and
`begun` says by whom. -/

structure Desk (Server Job : Type*) where
  arrived : List Job
  begun : List Server
  ended : List Nat

namespace Desk

variable {Server Job : Type*} {desk before after : Desk Server Job} {server : Server} {k : Nat}

def empty : Desk Server Job := ⟨[], [], []⟩

/-- A server that has ended all it took. -/
def Idle (desk : Desk Server Job) (server : Server) : Prop :=
  ∀ k, desk.begun[k]? = some server → k ∈ desk.ended

inductive Step : Desk Server Job → Desk Server Job → Prop where
  | arrive (desk : Desk Server Job) (job : Job) :
      Step desk { desk with arrived := desk.arrived ++ [job] }
  | begin (desk : Desk Server Job) (server : Server) :
      desk.begun.length < desk.arrived.length → desk.Idle server →
      Step desk { desk with begun := desk.begun ++ [server] }
  | ends (desk : Desk Server Job) (k : Nat) :
      k < desk.begun.length → k ∉ desk.ended → Step desk { desk with ended := desk.ended ++ [k] }

/-- Each job is taken after it came and ended once after it was taken, and a server has ended
all that it took before its last job. -/
structure Sound (desk : Desk Server Job) : Prop where
  taken : desk.begun.length ≤ desk.arrived.length
  known : ∀ k ∈ desk.ended, k < desk.begun.length
  once : desk.ended.Nodup
  single : ∀ server j k, desk.begun[j]? = some server → desk.begun[k]? = some server → j < k →
    j ∈ desk.ended

namespace Sound

theorem initially : Sound (empty : Desk Server Job) where
  taken := Nat.le_refl _
  known k member := by cases member
  once := List.nodup_nil
  single server j k here := by cases here

theorem step (sound : before.Sound) (taken : Step before after) : after.Sound := by
  cases taken with
  | arrive job =>
      refine ⟨?_, sound.known, sound.once, sound.single⟩
      rw [List.length_append]
      exact Nat.le_add_right_of_le sound.taken
  | begin server waits idle =>
      refine ⟨?_, ?_, sound.once, ?_⟩
      · rw [List.length_append, List.length_singleton]
        exact waits
      · intro k member
        rw [List.length_append]
        exact Nat.lt_add_right _ (sound.known k member)
      · intro other j k first second earlier
        have inside : j < before.begun.length := by
          have bound := (List.getElem?_eq_some_iff.mp second).1
          rw [List.length_append, List.length_singleton] at bound
          omega
        rw [List.getElem?_append_left inside] at first
        by_cases old : k < before.begun.length
        · rw [List.getElem?_append_left old] at second
          exact sound.single other j k first second earlier
        · have same : other = server := by
            rw [List.getElem?_append_right (Nat.le_of_not_lt old)] at second
            exact (List.mem_singleton.mp (List.mem_of_getElem? second))
          exact idle j (same ▸ first)
  | ends k inside open_ =>
      refine ⟨sound.taken, ?_, ?_, ?_⟩
      · intro l member
        rcases List.mem_append.mp member with old | new
        · exact sound.known l old
        · rw [List.mem_singleton.mp new]
          exact inside
      · exact List.nodup_append.mpr ⟨sound.once, List.nodup_singleton k, by
          intro l old m new same
          rw [List.mem_singleton.mp new] at same
          exact open_ (same ▸ old)⟩
      · intro other j l first second earlier
        exact List.mem_append_left _ (sound.single other j l first second earlier)

theorem of_run (run : ReflTransGen Step (empty : Desk Server Job) desk) : desk.Sound :=
  invariant_of_run (fun _ _ taken sound => sound.step taken) run initially

/-- When a job has ended, the jobs before it that have not are in the hands of the other
servers, so they are fewer than the servers. -/
theorem overtaken [Fintype Server] (sound : desk.Sound) (ended : k ∈ desk.ended) :
    ((Finset.range k).filter (· ∉ desk.ended)).card < Fintype.card Server := by
  classical
  have inside := sound.known k ended
  have mine : desk.begun[k]? = some desk.begun[k] := List.getElem?_eq_getElem inside
  have taker : ∀ j ∈ (Finset.range k).filter (· ∉ desk.ended),
      j < k ∧ j ∉ desk.ended ∧ desk.begun[j]? = some (desk.begun.getD j desk.begun[k]) := by
    intro j member
    obtain ⟨below, open_⟩ := Finset.mem_filter.mp member
    have less := Finset.mem_range.mp below
    have bound := Nat.lt_trans less inside
    refine ⟨less, open_, ?_⟩
    rw [List.getD_eq_getElem?_getD, List.getElem?_eq_getElem bound, Option.getD_some]
  have others : ((Finset.range k).filter (· ∉ desk.ended)).card ≤
      (Finset.univ.erase desk.begun[k]).card := by
    refine Finset.card_le_card_of_injOn (fun j => desk.begun.getD j desk.begun[k]) ?_ ?_
    · intro j member
      obtain ⟨less, open_, here⟩ := taker j member
      refine Finset.mem_erase.mpr ⟨?_, Finset.mem_univ _⟩
      intro same
      have server : desk.begun.getD j desk.begun[k] = desk.begun[k] := same
      rw [server] at here
      exact open_ (sound.single _ j k here mine less)
    · intro i first j second same
      obtain ⟨_, open_, here⟩ := taker i first
      obtain ⟨_, open', there⟩ := taker j second
      have alike : desk.begun.getD i desk.begun[k] = desk.begun.getD j desk.begun[k] := same
      rw [← alike] at there
      rcases Nat.lt_trichotomy i j with less | equal | less
      · exact absurd (sound.single _ i j here there less) open_
      · exact equal
      · exact absurd (sound.single _ j i there here less) open'
  exact Nat.lt_of_le_of_lt others (Finset.card_erase_lt_of_mem (Finset.mem_univ _))

end Sound

end Desk

end SysProg.Transition
