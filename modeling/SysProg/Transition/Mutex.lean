import Mathlib.Tactic.Common

namespace SysProg.Transition

/-! Mutual exclusion from the program points of the threads.

`holds thread` says that the program point of `thread` lies in a critical
section.  A mutex is `Owned` when every such thread is the recorded owner; the
steps that lock, unlock or leave the mutex alone preserve this, whatever the
threads and their programs are. -/

variable {Thread : Type*} {owner owner' : Option Thread} {holds holds' : Thread → Bool}

/-- Every thread inside a critical section is the recorded owner. -/
def Owned (owner : Option Thread) (holds : Thread → Bool) : Prop :=
  ∀ thread, holds thread = true → owner = some thread

/-- What one step of `me` may do to the mutex: nothing, lock it, or unlock it. -/
def MutexLaw (me : Thread) (owner owner' : Option Thread) (held holding : Bool) : Prop :=
  (owner' = owner ∧ holding = held) ∨
  (owner = none ∧ owner' = some me) ∨
  (held = true ∧ owner' = none ∧ holding = false)

theorem Owned.exclusive (left right : Thread) (owned : Owned owner holds) (first : holds left = true)
    (second : holds right = true) : left = right := by
  have both := (owned left first).symm.trans (owned right second)
  exact Option.some.inj both

theorem Owned.step (me : Thread) (owned : Owned owner holds)
    (law : MutexLaw me owner owner' (holds me) (holds' me))
    (others : ∀ thread, thread ≠ me → holds' thread = holds thread) : Owned owner' holds' := by
  intro thread inside
  by_cases same : thread = me
  · subst same
    rcases law with ⟨kept, unchanged⟩ | ⟨_, locked⟩ | ⟨_, _, left⟩
    · rw [kept]
      exact owned thread (unchanged ▸ inside)
    · exact locked
    · rw [left] at inside
      cases inside
  · have before : holds thread = true := by rw [← others thread same, inside]
    have recorded := owned thread before
    rcases law with ⟨kept, _⟩ | ⟨free, _⟩ | ⟨held, _, _⟩
    · rw [kept, recorded]
    · rw [free] at recorded
      cases recorded
    · exact absurd (owned.exclusive _ _ before held) same

/-- The recorded owner is inside a critical section. -/
def Recorded (owner : Option Thread) (holds : Thread → Bool) : Prop :=
  ∀ thread, owner = some thread → holds thread = true

/-- What one step of `me` may do for the owner to stay recorded. -/
def RecordLaw (me : Thread) (owner owner' : Option Thread) (held holding : Bool) : Prop :=
  (owner' = owner ∧ (held = true → holding = true)) ∨ (owner' = some me ∧ holding = true) ∨ owner' = none

theorem Recorded.step (me : Thread) (recorded : Recorded owner holds)
    (law : RecordLaw me owner owner' (holds me) (holds' me))
    (others : ∀ thread, thread ≠ me → holds' thread = holds thread) : Recorded owner' holds' := by
  intro thread owns
  rcases law with ⟨kept, stays⟩ | ⟨mine, inside⟩ | free
  · have before := recorded thread (kept ▸ owns)
    by_cases same : thread = me
    · subst same
      exact stays before
    · rw [others thread same, before]
  · obtain rfl : thread = me := Option.some.inj (owns.symm.trans mine)
    exact inside
  · rw [free] at owns
    cases owns

end SysProg.Transition
