import SysProg.Data.Branches
import SysProg.Process.Sequence
import SysProg.Services.Main

namespace SysProg.Services

/-! # The tree that the services form

A tree of idle processes is `Sound` when every `child` array lists the children that the
process has, under their names and descriptors.  `tree` forgets all but the names and
the secrets. -/

open Process Data

abbrev Label := Name × UInt64

def Memory.label (memory : Memory) : Label := (memory.service_name, memory.secret)

def tree : Grove Memory → Branches Label
  | .nil => .nil
  | .cons _ memory kids rest => .cons memory.label (tree kids) (tree rest)

/-- What `child` should list. -/
def entries : Grove Memory → List Service
  | .nil => []
  | .cons link memory _ rest => ⟨memory.service_name, link⟩ :: entries rest

def Named (name : Name) (label : Label) : Bool := label.1 = name

/-- The children of a process are those of its `child`. -/
structure Governs (child : List Service) (kids : Grove Memory) : Prop where
  listed : child = entries kids
  readers : (child.map fun service => service.link.read_fd).Nodup
  writers : (child.map fun service => service.link.write_fd).Nodup
  readable : ∀ service ∈ child, 0 ≤ service.link.read_fd

/-- A list of trees of services, none of them the Manager. -/
def Sound : Grove Memory → Prop
  | .nil => True
  | .cons _ memory kids rest =>
      memory.service_name ≠ .Manager ∧ Governs memory.child kids ∧ Sound kids ∧ Sound rest

variable {first last kids : Grove Memory} {child : List Service} {link : Link} {memory : Memory}

@[simp] theorem tree_append : tree (first.append last) = (tree first).append (tree last) := by
  induction first with
  | nil => rfl
  | cons link memory kids rest _ ih => simp only [Grove.append, tree, ih, Branches.append]

@[simp] theorem entries_append : entries (first.append last) = entries first ++ entries last := by
  induction first with
  | nil => rfl
  | cons link memory kids rest _ ih => simp only [Grove.append, entries, ih, List.cons_append]

theorem entries_length (kids : Grove Memory) : (entries kids).length = (tree kids).width := by
  induction kids with
  | nil => rfl
  | cons link memory kids rest _ ih => simp only [entries, tree, Branches.width, List.length_cons, ih]

theorem Sound.append (before : Sound first) (behind : Sound last) : Sound (first.append last) := by
  induction first with
  | nil => exact behind
  | cons link memory kids rest _ ih =>
      obtain ⟨other, governs, inner, more⟩ := before
      exact ⟨other, governs, inner, ih more⟩

theorem crew_readers (Lane : Type) (kids : Grove Memory) :
    ((kids.crew : Crew Command Memory Lane).map fun post => post.1.read_fd) =
      (entries kids).map fun service => service.link.read_fd := by
  induction kids with
  | nil => rfl
  | cons link memory kids rest _ ih => simp only [Grove.crew, entries, List.map_cons, ih]

theorem crew_writers (Lane : Type) (kids : Grove Memory) :
    ((kids.crew : Crew Command Memory Lane).map fun post => post.1.write_fd) =
      (entries kids).map fun service => service.link.write_fd := by
  induction kids with
  | nil => rfl
  | cons link memory kids rest _ ih => simp only [Grove.crew, entries, List.map_cons, ih]

theorem mem_descriptors (Lane : Type) {service : Service} (inside : service ∈ entries kids) :
    service.link.read_fd ∈ (kids.crew : Crew Command Memory Lane).descriptors ∧
      service.link.write_fd ∈ (kids.crew : Crew Command Memory Lane).descriptors := by
  induction kids with
  | nil => cases inside
  | cons link memory kids rest _ ih =>
      cases List.mem_cons.mp inside with
      | inl same => subst same; simp [Grove.crew, Crew.descriptors]
      | inr later =>
          obtain ⟨read, write⟩ := ih later
          simp [Grove.crew, Crew.descriptors, read, write]

theorem Governs.distinct {Lane : Type} (governs : Governs child kids) :
    (kids.crew : Crew Command Memory Lane).Distinct := by
  obtain ⟨rfl, readers, writers, _⟩ := governs
  exact ⟨crew_readers Lane kids ▸ readers, crew_writers Lane kids ▸ writers⟩

theorem Governs.congr (governs : Governs child first) (same : entries last = entries first) :
    Governs child last :=
  ⟨governs.listed.trans same.symm, governs.readers, governs.writers, governs.readable⟩

theorem Governs.sublist (governs : Governs child first)
    (kept : (entries last).Sublist (entries first)) : Governs (entries last) last := by
  obtain ⟨rfl, readers, writers, readable⟩ := governs
  exact ⟨rfl, readers.sublist (kept.map _), writers.sublist (kept.map _),
    fun service inside => readable service (kept.subset inside)⟩

theorem Governs.adopt (Lane : Type) (governs : Governs child kids) (memory : Memory)
    (own : List Int) :
    let fresh := Link.fresh (own ++ (kids.crew : Crew Command Memory Lane).descriptors)
    Governs (child ++ [⟨memory.service_name, fresh⟩])
      (kids.append (.cons fresh memory .nil .nil)) := by
  intro fresh
  obtain ⟨rfl, readers, writers, readable⟩ := governs
  have new_read : ∀ service ∈ entries kids, service.link.read_fd ≠ fresh.read_fd := by
    intro service inside same
    have used := (mem_descriptors Lane inside).1
    exact Link.fresh_read _ (List.mem_append_right own (same ▸ used))
  have new_write : ∀ service ∈ entries kids, service.link.write_fd ≠ fresh.write_fd := by
    intro service inside same
    have used := (mem_descriptors Lane inside).2
    exact Link.fresh_write _ (List.mem_append_right own (same ▸ used))
  constructor
  · rw [entries_append]
    rfl
  · rw [List.map_append]
    refine List.nodup_append.mpr ⟨readers, by simp, ?_⟩
    simpa using new_read
  · rw [List.map_append]
    refine List.nodup_append.mpr ⟨writers, by simp, ?_⟩
    simpa using new_write
  · intro service inside
    cases List.mem_append.mp inside with
    | inl old => exact readable service old
    | inr new =>
        obtain rfl := List.mem_singleton.mp new
        exact Link.fresh_read_nonneg _

def Memory.Clear (memory : Memory) : Prop :=
  (∀ index, memory.pipe_read index = -1) ∧ ∀ index, memory.pipe_write index = -1

def Clear : Grove Memory → Prop
  | .nil => True
  | .cons _ memory kids rest => memory.Clear ∧ Clear kids ∧ Clear rest

theorem Clear.append (before : Clear first) (behind : Clear last) : Clear (first.append last) := by
  induction first with
  | nil => exact behind
  | cons link memory kids rest _ ih =>
      obtain ⟨here, inner, more⟩ := before
      exact ⟨here, inner, ih more⟩

end SysProg.Services
