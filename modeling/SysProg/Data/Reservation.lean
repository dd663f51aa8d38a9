import Mathlib.Logic.Function.Basic

namespace SysProg.Data

/-! A table of reserved items and the holders of the reservations.

`Matched reserved holding member` says that the items marked in `reserved` are those
held by somebody among `member`, each by one holder. -/

variable {Item Holder : Type*}

structure Matched (reserved : Item → Bool) (holding : Holder → Option Item)
    (member : Holder → Prop) : Prop where
  held : ∀ item, reserved item = true ↔ ∃ holder, member holder ∧ holding holder = some item
  single : ∀ left right item, member left → member right → holding left = some item →
    holding right = some item → left = right

namespace Matched

variable {reserved : Item → Bool} {holding holding' : Holder → Option Item}
  {member : Holder → Prop} {holder : Holder} {item : Item}

theorem of_empty (none : ∀ holder, holding holder = none) :
    Matched (fun _ => false) holding member where
  held item := by simp [none]
  single left right item _ _ heldLeft := by simp [none] at heldLeft

theorem congr (matched : Matched reserved holding member)
    (same : ∀ holder, member holder → holding' holder = holding holder) :
    Matched reserved holding' member where
  held item := by
    rw [matched.held]
    exact exists_congr fun holder => and_congr_right fun inside => by rw [same holder inside]
  single left right item insideLeft insideRight heldLeft heldRight := by
    rw [same left insideLeft] at heldLeft
    rw [same right insideRight] at heldRight
    exact matched.single left right item insideLeft insideRight heldLeft heldRight

variable [DecidableEq Item] [DecidableEq Holder]

theorem take (matched : Matched reserved holding member) (inside : member holder)
    (free : reserved item = false) (empty : holding holder = none) :
    Matched (Function.update reserved item true) (Function.update holding holder (some item))
      member := by
  have unheld : ∀ other, member other → holding other ≠ some item := by
    intro other insideOther heldOther
    have taken := (matched.held item).mpr ⟨other, insideOther, heldOther⟩
    rw [free] at taken
    cases taken
  refine ⟨?_, ?_⟩
  · intro other
    cases eq_or_ne other item with
    | inl equal =>
        subst equal
        rw [Function.update_self]
        exact ⟨fun _ => ⟨holder, inside, Function.update_self ..⟩, fun _ => rfl⟩
    | inr different =>
        rw [Function.update_of_ne different, matched.held]
        refine exists_congr fun someone => and_congr_right fun _ => ?_
        cases eq_or_ne someone holder with
        | inl equal => simp [equal, empty, different.symm]
        | inr apart => rw [Function.update_of_ne apart]
  · intro left right other insideLeft insideRight heldLeft heldRight
    cases eq_or_ne left holder with
    | inl equal =>
        subst equal
        rw [Function.update_self] at heldLeft
        cases heldLeft
        by_contra apart
        rw [Function.update_of_ne (Ne.symm apart)] at heldRight
        exact unheld right insideRight heldRight
    | inr leftApart =>
        rw [Function.update_of_ne leftApart] at heldLeft
        cases eq_or_ne right holder with
        | inl equal =>
            subst equal
            rw [Function.update_self] at heldRight
            cases heldRight
            exact absurd heldLeft (unheld left insideLeft)
        | inr rightApart =>
            rw [Function.update_of_ne rightApart] at heldRight
            exact matched.single left right other insideLeft insideRight heldLeft heldRight

theorem release (matched : Matched reserved holding member) (inside : member holder)
    (held : holding holder = some item) :
    Matched (Function.update reserved item false) (Function.update holding holder none)
      member := by
  refine ⟨?_, ?_⟩
  · intro other
    cases eq_or_ne other item with
    | inl equal =>
        subst equal
        rw [Function.update_self]
        refine ⟨fun taken => absurd taken Bool.false_ne_true, ?_⟩
        intro existing
        obtain ⟨someone, insideSome, heldSome⟩ := existing
        cases eq_or_ne someone holder with
        | inl equal => simp [equal] at heldSome
        | inr apart =>
            rw [Function.update_of_ne apart] at heldSome
            exact absurd (matched.single _ _ _ insideSome inside heldSome held) apart
    | inr different =>
        rw [Function.update_of_ne different, matched.held]
        refine exists_congr fun someone => and_congr_right fun _ => ?_
        cases eq_or_ne someone holder with
        | inl equal => simp [equal, held, different.symm]
        | inr apart => rw [Function.update_of_ne apart]
  · intro left right other insideLeft insideRight heldLeft heldRight
    have back : ∀ someone, Function.update holding holder none someone = some other →
        holding someone = some other := by
      intro someone heldSome
      cases eq_or_ne someone holder with
      | inl equal => simp [equal] at heldSome
      | inr apart => rwa [Function.update_of_ne apart] at heldSome
    exact matched.single left right other insideLeft insideRight (back left heldLeft)
      (back right heldRight)

end Matched

end SysProg.Data
