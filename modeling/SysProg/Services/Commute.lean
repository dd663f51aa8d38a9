import Mathlib.Algebra.Ring.Int.Defs
import SysProg.Services.Kill
import SysProg.Services.Search

namespace SysProg.Services

/-! # Two `kill` commands in either order

Pairwise distinct names make the target of a `kill` the only service of its name, and
services that are the only ones may be taken out of a tree in either order. -/

open Process Data Transition

/-- What a line counts of services killed: the target, and the children reported. -/
def Line.toll : Line → Int
  | .killed _ decendents_num => decendents_num + 1
  | _ => 0

def toll (lines : List Line) : Int := (lines.map Line.toll).sum

variable {memory : Memory} {kids : Grove Memory}

@[simp] theorem toll_append (first second : List Line) :
    toll (first ++ second) = toll first + toll second := by
  rw [toll, List.map_append, List.sum_append, toll, toll]

theorem Heard.toll {lines : List Line} (heard : Heard lines) : toll lines = 0 := by
  induction lines with
  | nil => rfl
  | cons line rest ih =>
      obtain ⟨command, label, rfl⟩ := heard line List.mem_cons_self
      have behind := ih fun other inside => heard other (List.mem_cons_of_mem _ inside)
      show 0 + Services.toll rest = 0
      rw [behind, Int.add_zero]

/-- The report of a `kill` counts the services that are gone. -/
theorem killReport_toll {target : Name} (branches : Branches Label) :
    (killReport (read_and_split (.kill target)) (branches.labels.any (Named target))
      (branches.branch (Named target)).length).toll =
        branches.labels.length - (branches.prune (Named target)).labels.length := by
  by_cases found : branches.labels.any (Named target)
  · have parts := @Branches.length_prune _ (Named target) branches
    rw [killReport, if_pos found]
    show ((branches.branch (Named target)).length - 1 + 1 : Int) = _
    omega
  · rw [killReport, if_neg found, Branches.prune_absent found, Int.sub_self]
    rfl

/-- Two `kill` commands, one after the other. -/
theorem kills_until (world : World) (link : Link) (later : List Command) (manages : Manages memory kids)
    {first second : Name} (other : first ≠ .Manager) (other' : second ≠ .Manager) :
    let start := (world, waiting link memory kids
      (read_and_split (.kill first) :: read_and_split (.kill second) :: later))
    let final := ((whole memory kids).prune (Named first)).prune (Named second)
    Until (Moves machine) (fun _ => True)
      (fun state => ∃ memory' kids' lines, state.2 = waiting link memory' kids' later ∧
        Manages memory' kids' ∧ whole memory' kids' = final ∧ state.1.out = world.out ++ lines ∧
        toll lines = (whole memory kids).labels.length - final.labels.length)
      start := by
  intro start final
  obtain ⟨middle, below, lines, manages', _, _, heard, pruned, goal⟩ :=
    kill_until world link (read_and_split (.kill second) :: later) manages other
  refine (goal.mono (fun _ _ => trivial) fun _ => id).trans ?_
  intro _ same
  obtain rfl := same
  let report := killReport (read_and_split (.kill first))
    ((whole memory kids).labels.any (Named first)) ((whole memory kids).branch (Named first)).length
  obtain ⟨memory', kids', lines', manages'', _, _, heard', pruned', goal'⟩ :=
    kill_until (world.say (lines ++ [report])) link later manages' other'
  refine goal'.mono (fun _ _ => trivial) ?_
  intro _ same
  obtain rfl := same
  let report' := killReport (read_and_split (.kill second))
    ((whole middle below).labels.any (Named second)) ((whole middle below).branch (Named second)).length
  refine ⟨memory', kids', (lines ++ [report]) ++ (lines' ++ [report']), rfl, manages'', ?_, ?_, ?_⟩
  · rw [pruned', pruned]
  · show (world.out ++ _) ++ _ = _
    rw [List.append_assoc]
  · have one : report.toll = _ := killReport_toll (whole memory kids)
    have two : report'.toll = _ := killReport_toll (whole middle below)
    have single : ∀ line : Line, toll [line] = line.toll := fun line => Int.add_zero _
    rw [pruned] at two
    rw [toll_append, toll_append, toll_append, heard.toll, heard'.toll, single, single, one, two]
    show _ = ((whole memory kids).labels.length : Int) -
      (((whole memory kids).prune (Named first)).prune (Named second)).labels.length
    omega

/-- Two `kill` commands come to the same services in either order, and their reports count
the services that are gone. -/
theorem kills_commute (world : World) (link : Link) (later : List Command)
    (manages : Manages memory kids) (unique : Unique (whole memory kids).labels)
    (target target' : Name) (differ : target ≠ target') (survives : target ≠ .Manager)
    (survives' : target' ≠ .Manager) :
    ∃ final : Branches Label, ∀ first second,
      (first, second) = (target, target') ∨ (first, second) = (target', target) →
      let start := (world, waiting link memory kids
        (read_and_split (.kill first) :: read_and_split (.kill second) :: later))
      Until (Moves machine) (fun _ => True)
        (fun state => ∃ memory' kids' lines, state.2 = waiting link memory' kids' later ∧
          Manages memory' kids' ∧ whole memory' kids' = final ∧ state.1.out = world.out ++ lines ∧
          toll lines = (whole memory kids).labels.length - final.labels.length)
        start := by
  refine ⟨((whole memory kids).prune (Named target)).prune (Named target'), ?_⟩
  intro first second either
  obtain same | same := either
  · cases same
    exact kills_until world link later manages survives survives'
  · cases same
    have apart : ∀ label : Label, Named target label → ¬ Named target' label := by
      intro label named named'
      exact differ ((Named_iff.mp named).symm.trans (Named_iff.mp named'))
    rw [Branches.prune_comm (unique.at_most_once target) (unique.at_most_once target') apart]
    exact kills_until world link later manages survives' survives

theorem kills_commute_below :
    ∃ final : Branches Label, ∀ first second,
      (first, second) = (Name.A, Name.B) ∨ (first, second) = (Name.B, Name.A) →
      let start := (World.blank, waiting ⟨0, 1⟩ .root leaf
        [read_and_split (.kill first), read_and_split (.kill second)])
      Until (Moves machine) (fun _ => True)
        (fun state => ∃ memory' kids' lines, state.2 = waiting ⟨0, 1⟩ memory' kids' [] ∧
          whole memory' kids' = final ∧ state.1.out = lines ∧ toll lines = 2 - final.labels.length)
        start := by
  have unique : Unique (whole .root leaf).labels := by
    rw [Unique]
    decide
  obtain ⟨final, each⟩ := kills_commute .blank ⟨0, 1⟩ [] .small unique .A .B (by decide) (by decide)
    (by decide)
  refine ⟨final, fun first second order => (each first second order).mono (fun _ => id) ?_⟩
  intro state reached
  obtain ⟨memory', kids', lines, waits, _, same, out, count⟩ := reached
  exact ⟨memory', kids', lines, waits, same, out, count⟩

end SysProg.Services
