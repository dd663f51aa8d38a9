import Mathlib.Data.List.Basic

namespace SysProg.Data

/-! Ordered trees with labelled nodes.

A value of `Branches` is a list of trees.  The preorder of the nodes is that of their
labels; `attach` and `prune` change the first node that meets a test. -/

inductive Branches (α : Type*) where
  | nil
  | cons (label : α) (kids rest : Branches α)
deriving DecidableEq

namespace Branches

variable {α : Type*}

/-- The labels in preorder. -/
def labels : Branches α → List α
  | .nil => []
  | .cons label kids rest => label :: (kids.labels ++ rest.labels)

def width : Branches α → Nat
  | .nil => 0
  | .cons _ _ rest => rest.width + 1

def append : Branches α → Branches α → Branches α
  | .nil, last => last
  | .cons label kids rest, last => .cons label kids (rest.append last)

/-- No node has more than `bound` children. -/
def Narrow (bound : Nat) : Branches α → Prop
  | .nil => True
  | .cons _ kids rest => kids.width ≤ bound ∧ kids.Narrow bound ∧ rest.Narrow bound

/-- The first node that meets the test gets one more child, its last, without children. -/
def attach (test : α → Bool) (new : α) : Branches α → Branches α
  | .nil => .nil
  | .cons label kids rest =>
      if test label then .cons label (kids.append (.cons new .nil .nil)) rest
      else if kids.labels.any test then .cons label (kids.attach test new) rest
      else .cons label kids (rest.attach test new)

/-- The tree of the first node that meets the test goes. -/
def prune (test : α → Bool) : Branches α → Branches α
  | .nil => .nil
  | .cons label kids rest =>
      if test label then rest
      else if kids.labels.any test then .cons label (kids.prune test) rest
      else .cons label kids (rest.prune test)

/-- The nodes of the tree of the first node that meets the test. -/
def branch (test : α → Bool) : Branches α → List α
  | .nil => []
  | .cons label kids rest =>
      if test label then label :: kids.labels
      else if kids.labels.any test then kids.branch test
      else rest.branch test

def map {β : Type*} (f : α → β) : Branches α → Branches β
  | .nil => .nil
  | .cons label kids rest => .cons (f label) (kids.map f) (rest.map f)

/-- The labels of a list up to the first that meets the test. -/
def upTo (test : α → Bool) : List α → List α
  | [] => []
  | label :: rest => if test label then [label] else label :: upTo test rest

/-- The labels of a list up to the one that is the last of so many to meet the test. -/
def upToNth (test : α → Bool) : Nat → List α → List α
  | 0, _ => []
  | _ + 1, [] => []
  | left + 1, label :: rest =>
      label :: if test label then upToNth test left rest else upToNth test (left + 1) rest

/-- The longer of two lists, the second if they are of one length. -/
def longer (first second : List α) : List α := if first.length ≤ second.length then second else first

variable {β : Type*} {test : α → Bool} {new : α} {first last : Branches α}

@[simp] theorem labels_append : (first.append last).labels = first.labels ++ last.labels := by
  induction first with
  | nil => rfl
  | cons label kids rest _ ih => simp [append, labels, ih]

@[simp] theorem width_append : (first.append last).width = first.width + last.width := by
  induction first with
  | nil => simp [append, width]
  | cons label kids rest _ ih =>
      simp only [append, width, ih]
      omega

@[simp] theorem labels_single (label : α) (kids : Branches α) :
    (cons label kids .nil).labels = label :: kids.labels := by
  rw [labels, labels, List.append_nil]

@[simp] theorem map_append (f : α → β) : (first.append last).map f = (first.map f).append (last.map f) := by
  induction first with
  | nil => rfl
  | cons label kids rest _ ih => simp only [append, map, ih]

theorem labels_map (f : α → β) (branches : Branches α) :
    (branches.map f).labels = branches.labels.map f := by
  induction branches with
  | nil => rfl
  | cons label kids rest kids_ih rest_ih => simp [map, labels, kids_ih, rest_ih]

theorem map_fixed {f : α → α} {branches : Branches α} (fixed : ∀ label ∈ branches.labels, f label = label) :
    branches.map f = branches := by
  induction branches with
  | nil => rfl
  | cons label kids rest kids_ih rest_ih =>
      simp only [labels, List.mem_cons, List.mem_append] at fixed
      rw [map, fixed label (.inl rfl), kids_ih fun other inside => fixed other (.inr (.inl inside)),
        rest_ih fun other inside => fixed other (.inr (.inr inside))]

theorem upTo_append (first second : List α) :
    upTo test (first ++ second) =
      if first.any test then upTo test first else first ++ upTo test second := by
  induction first with
  | nil => rfl
  | cons label rest ih =>
      by_cases meets : test label
      · simp [upTo, meets]
      · by_cases behind : rest.any test
        · simp only [List.cons_append, upTo, List.any_cons, if_neg meets, ih, behind, Bool.or_true,
            if_true]
        · simp only [List.cons_append, upTo, List.any_cons, ih, Bool.eq_false_iff.mpr meets,
            Bool.eq_false_iff.mpr behind, Bool.or_false, if_false, Bool.false_eq_true]

theorem upTo_absent {labels : List α} (absent : ¬ labels.any test) : upTo test labels = labels := by
  induction labels with
  | nil => rfl
  | cons label rest ih =>
      simp only [List.any_cons, Bool.or_eq_true, not_or] at absent
      rw [upTo, if_neg absent.1, ih absent.2]

theorem upTo_prefix (labels : List α) : upTo test labels <+: labels := by
  induction labels with
  | nil => exact List.prefix_rfl
  | cons label rest ih =>
      rw [upTo]
      split
      · exact List.prefix_append [label] rest
      · exact (List.prefix_cons_inj label).mpr ih

theorem upTo_congr {other : α → Bool} {labels : List α} (same : ∀ label ∈ labels, test label = other label) :
    upTo test labels = upTo other labels := by
  induction labels with
  | nil => rfl
  | cons label rest ih =>
      rw [upTo, upTo, same label List.mem_cons_self, ih fun other inside => same other (List.mem_cons_of_mem _ inside)]

@[simp] theorem upToNth_zero (labels : List α) : upToNth test 0 labels = [] := by
  cases labels <;> rfl

theorem upToNth_append (left : Nat) (first second : List α) :
    upToNth test left (first ++ second) =
      upToNth test left first ++ upToNth test (left - first.countP test) second := by
  induction first generalizing left with
  | nil => cases left <;> simp [upToNth]
  | cons label rest ih =>
      cases left with
      | zero => simp [upToNth]
      | succ left =>
          by_cases meets : test label
          · simp [upToNth, meets, ih]
          · simp [upToNth, meets, ih]

theorem upToNth_one (labels : List α) : upToNth test 1 labels = upTo test labels := by
  induction labels with
  | nil => rfl
  | cons label rest ih =>
      rw [upToNth, upTo, ih, upToNth_zero]
      split <;> rfl

theorem longer_cons (label : α) (first second : List α) :
    longer (label :: first) (label :: second) = label :: longer first second := by
  simp only [longer, List.length_cons, Nat.add_le_add_iff_right]
  split <;> rfl

/-- The second of two labels that are there once is the later of them. -/
theorem upToNth_two {one two : α → Bool} {labels : List α} (once : labels.countP one ≤ 1)
    (once' : labels.countP two ≤ 1) (apart : ∀ label, one label → ¬ two label) :
    upToNth (fun label => one label || two label) 2 labels = longer (upTo one labels) (upTo two labels) := by
  induction labels with
  | nil => rfl
  | cons label rest ih =>
      rw [List.countP_cons] at once once'
      by_cases first : one label
      · have second := apart label first
        have none : ∀ other ∈ rest, ¬ one other := by
          rw [if_pos first] at once
          exact List.countP_eq_zero.mp (Nat.le_zero.mp (Nat.le_of_succ_le_succ once))
        have behind : upTo (fun label => one label || two label) rest = upTo two rest :=
          upTo_congr fun other inside => by rw [Bool.eq_false_iff.mpr (none other inside), Bool.false_or]
        rw [upToNth, if_pos (by rw [first, Bool.true_or]), upToNth_one, behind, upTo, if_pos first, upTo,
          if_neg second, longer, if_pos (by simp)]
      by_cases second : two label
      · have none : ∀ other ∈ rest, ¬ two other := by
          rw [if_pos second] at once'
          exact List.countP_eq_zero.mp (Nat.le_zero.mp (Nat.le_of_succ_le_succ once'))
        have behind : upTo (fun label => one label || two label) rest = upTo one rest :=
          upTo_congr fun other inside => by rw [Bool.eq_false_iff.mpr (none other inside), Bool.or_false]
        rw [upToNth, if_pos (by rw [second, Bool.or_true]), upToNth_one, behind, upTo, if_neg first, upTo,
          if_pos second]
        cases upTo one rest with
        | nil => rfl
        | cons other more => rfl
      · have neither : ¬ (one label || two label) := by simp [first, second]
        rw [upToNth, if_neg neither, upTo, if_neg first, upTo, if_neg second, longer_cons,
          ih (by omega) (by omega)]

theorem attach_absent (absent : ¬ first.labels.any test) : first.attach test new = first := by
  induction first with
  | nil => rfl
  | cons label kids rest _ ih =>
      simp only [labels, List.any_cons, List.any_append, Bool.or_eq_true, not_or] at absent
      rw [attach, if_neg absent.1, if_neg absent.2.1, ih absent.2.2]

theorem prune_absent (absent : ¬ first.labels.any test) : first.prune test = first := by
  induction first with
  | nil => rfl
  | cons label kids rest _ ih =>
      simp only [labels, List.any_cons, List.any_append, Bool.or_eq_true, not_or] at absent
      rw [prune, if_neg absent.1, if_neg absent.2.1, ih absent.2.2]

theorem width_attach : (first.attach test new).width = first.width := by
  induction first with
  | nil => rfl
  | cons label kids rest _ ih =>
      rw [attach]
      split
      · rfl
      · split
        · rfl
        · rw [width, width, ih]

theorem Narrow.mono {bound more : Nat} (narrow : first.Narrow bound) (le : bound ≤ more) :
    first.Narrow more := by
  induction first with
  | nil => trivial
  | cons label kids rest kids_ih rest_ih =>
      obtain ⟨here, inner, outer⟩ := narrow
      exact ⟨Nat.le_trans here le, kids_ih inner, rest_ih outer⟩

theorem Narrow.append {bound : Nat} (narrow : first.Narrow bound) (behind : last.Narrow bound) :
    (first.append last).Narrow bound := by
  induction first with
  | nil => exact behind
  | cons label kids rest _ ih =>
      obtain ⟨here, inner, outer⟩ := narrow
      exact ⟨here, inner, ih outer⟩

/-- One more child makes no node wider by more than one. -/
theorem Narrow.attach {bound : Nat} (narrow : first.Narrow bound) :
    (first.attach test new).Narrow (bound + 1) := by
  induction first with
  | nil => trivial
  | cons label kids rest kids_ih rest_ih =>
      obtain ⟨here, inner, outer⟩ := narrow
      have wider := inner.mono bound.le_succ
      have wider' := outer.mono bound.le_succ
      rw [Branches.attach]
      split
      · refine ⟨?_, wider.append ⟨Nat.zero_le _, trivial, trivial⟩, wider'⟩
        rw [width_append]
        exact Nat.succ_le_succ here
      · split
        · refine ⟨?_, kids_ih inner, wider'⟩
          rw [width_attach]
          exact Nat.le_trans here bound.le_succ
        · exact ⟨Nat.le_trans here bound.le_succ, wider, rest_ih outer⟩

theorem attach_append : (first.append last).attach test new =
    if first.labels.any test then (first.attach test new).append last
    else first.append (last.attach test new) := by
  induction first with
  | nil => rfl
  | cons label kids rest _ ih =>
      by_cases meets : test label
      · simp [append, attach, labels, meets]
      · by_cases below : kids.labels.any test
        · rw [append, attach, if_neg meets, if_pos below, attach, if_neg meets, if_pos below,
            if_pos (by rw [labels, List.any_cons, List.any_append, below, Bool.true_or, Bool.or_true]),
            append]
        · have same : (cons label kids rest).labels.any test = rest.labels.any test := by
            rw [labels, List.any_cons, List.any_append, Bool.eq_false_iff.mpr meets,
              Bool.eq_false_iff.mpr below, Bool.false_or, Bool.false_or]
          rw [append, attach, if_neg meets, if_neg below, attach, if_neg meets, if_neg below, ih,
            same]
          split <;> rfl

/-! ## The same tree with other labels -/

section Map

variable (f : α → β) {branches : Branches α} {meets : β → Bool}

theorem map_map {γ : Type*} (g : β → γ) : (branches.map f).map g = branches.map (g ∘ f) := by
  induction branches with
  | nil => rfl
  | cons label kids rest kids_ih rest_ih => simp only [map, kids_ih, rest_ih, Function.comp]

theorem any_map : (branches.map f).labels.any meets = branches.labels.any (meets ∘ f) := by
  rw [labels_map, List.any_map]

theorem attach_map (new : α) : (branches.map f).attach meets (f new) = (branches.attach (meets ∘ f) new).map f := by
  induction branches with
  | nil => rfl
  | cons label kids rest kids_ih rest_ih =>
      rw [map, attach, attach, any_map]
      by_cases here : meets (f label)
      · rw [if_pos here, if_pos (show (meets ∘ f) label from here), map, map_append]
        rfl
      · rw [if_neg here, if_neg (show ¬ (meets ∘ f) label from here)]
        split
        · rw [kids_ih, map]
        · rw [rest_ih, map]

theorem prune_map : (branches.map f).prune meets = (branches.prune (meets ∘ f)).map f := by
  induction branches with
  | nil => rfl
  | cons label kids rest kids_ih rest_ih =>
      rw [map, prune, prune, any_map]
      by_cases here : meets (f label)
      · rw [if_pos here, if_pos (show (meets ∘ f) label from here)]
      · rw [if_neg here, if_neg (show ¬ (meets ∘ f) label from here)]
        split
        · rw [kids_ih, map]
        · rw [rest_ih, map]

theorem width_map : (branches.map f).width = branches.width := by
  induction branches with
  | nil => rfl
  | cons label kids rest _ ih => rw [map, width, width, ih]

theorem narrow_map {bound : Nat} : (branches.map f).Narrow bound ↔ branches.Narrow bound := by
  induction branches with
  | nil => exact .rfl
  | cons label kids rest kids_ih rest_ih => rw [map, Narrow, Narrow, width_map, kids_ih, rest_ih]

end Map

/-! ## The labels -/

theorem labels_attach (there : first.labels.any test) :
    (first.attach test new).labels.Perm (new :: first.labels) := by
  induction first with
  | nil => cases there
  | cons label kids rest kids_ih rest_ih =>
      rw [attach]
      by_cases meets : test label
      · rw [if_pos meets, labels, labels, labels_append, labels_single, List.append_assoc]
        show ((label :: kids.labels) ++ new :: rest.labels).Perm
          (new :: ((label :: kids.labels) ++ rest.labels))
        exact List.perm_middle
      · rw [if_neg meets]
        by_cases below : kids.labels.any test
        · rw [if_pos below, labels, labels]
          exact (((kids_ih below).append_right rest.labels).cons label).trans (.swap new label _)
        · have beside : rest.labels.any test := by
            simpa [labels, Bool.eq_false_iff.mpr meets, Bool.eq_false_iff.mpr below] using there
          rw [if_neg below, labels, labels]
          have moved := ((rest_ih beside).append_left kids.labels).trans List.perm_middle
          exact (moved.cons label).trans (.swap new label _)

theorem nodup_attach (distinct : first.labels.Nodup) (fresh : new ∉ first.labels) :
    (first.attach test new).labels.Nodup := by
  by_cases there : first.labels.any test
  · exact (labels_attach there).nodup_iff.mpr (List.nodup_cons.mpr ⟨fresh, distinct⟩)
  · rw [attach_absent there]
    exact distinct

theorem labels_prune : (first.prune test).labels.Sublist first.labels := by
  induction first with
  | nil => exact .slnil
  | cons label kids rest kids_ih rest_ih =>
      rw [prune]
      split
      · exact (List.sublist_append_right kids.labels rest.labels).cons label
      · split
        · exact (kids_ih.append_right rest.labels).cons_cons label
        · exact (rest_ih.append_left kids.labels).cons_cons label

/-- What is pruned and what stays make up the tree. -/
theorem perm_prune : (first.branch test ++ (first.prune test).labels).Perm first.labels := by
  induction first with
  | nil => exact .nil
  | cons label kids rest kids_ih rest_ih =>
      rw [branch, prune]
      by_cases meets : test label
      · rw [if_pos meets, if_pos meets, labels, List.cons_append]
      · rw [if_neg meets, if_neg meets]
        by_cases below : kids.labels.any test
        · rw [if_pos below, if_pos below, labels, labels]
          refine List.perm_middle.trans (.cons label ?_)
          rw [← List.append_assoc]
          exact kids_ih.append_right rest.labels
        · rw [if_neg below, if_neg below, labels, labels]
          refine List.perm_middle.trans (.cons label ?_)
          rw [← List.append_assoc]
          refine (List.perm_append_comm.append_right _).trans ?_
          rw [List.append_assoc]
          exact rest_ih.append_left kids.labels

theorem length_prune : (first.prune test).labels.length + (first.branch test).length = first.labels.length := by
  rw [Nat.add_comm, ← List.length_append]
  exact perm_prune.length_eq

/-! ## Nodes that are the only ones to meet a test -/

section Once

variable {other : α → Bool} {label : α} {kids rest : Branches α}

/-- At most one node meets the test. -/
def Once (test : α → Bool) (branches : Branches α) : Prop := branches.labels.countP test ≤ 1

theorem countP_cons : (cons label kids rest).labels.countP test =
    kids.labels.countP test + rest.labels.countP test + if test label then 1 else 0 := by
  rw [labels, List.countP_cons, List.countP_append]

theorem Once.below (once : (cons label kids rest).Once test) : kids.Once test := by
  rw [Once, countP_cons] at once
  exact Nat.le_trans (by omega) once

theorem Once.beside (once : (cons label kids rest).Once test) : rest.Once test := by
  rw [Once, countP_cons] at once
  exact Nat.le_trans (by omega) once

theorem Once.prune (once : first.Once test) : (first.prune other).Once test :=
  Nat.le_trans labels_prune.countP_le once

theorem countP_pos {labels : List α} : labels.any test ↔ 0 < labels.countP test := by
  rw [List.countP_pos_iff, List.any_eq_true]

/-- A node that is the only one may be looked for in all parts of the tree. -/
theorem Once.prune_cons (once : (cons label kids rest).Once test) (stranger : ¬ test label) :
    (cons label kids rest).prune test = cons label (kids.prune test) (rest.prune test) := by
  rw [Branches.prune, if_neg stranger]
  by_cases below : kids.labels.any test
  · have beside : ¬ rest.labels.any test := by
      rw [Once, countP_cons] at once
      have some := countP_pos.mp below
      rw [countP_pos]
      omega
    rw [if_pos below, prune_absent beside]
  · rw [if_neg below, prune_absent below]

/-- Two nodes may be taken out in either order, also when one is below the other. -/
theorem prune_comm (once : first.Once test) (once' : first.Once other)
    (apart : ∀ label, test label → ¬ other label) :
    (first.prune test).prune other = (first.prune other).prune test := by
  induction first with
  | nil => rfl
  | cons label kids rest kids_ih rest_ih =>
      by_cases here : test label
      · have stranger := apart label here
        rw [once'.prune_cons stranger, prune, if_pos here, prune, if_pos here]
      by_cases there : other label
      · rw [once.prune_cons here, prune, if_pos there, prune, if_pos there]
      · have pruned : (cons label (kids.prune test) (rest.prune test)).Once other := by
          rw [← once.prune_cons here]
          exact once'.prune
        have pruned' : (cons label (kids.prune other) (rest.prune other)).Once test := by
          rw [← once'.prune_cons there]
          exact once.prune
        rw [once.prune_cons here, once'.prune_cons there, pruned.prune_cons there,
          pruned'.prune_cons here, kids_ih once.below once'.below, rest_ih once.beside once'.beside]

end Once

end Branches

end SysProg.Data
