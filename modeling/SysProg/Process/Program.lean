import Mathlib.Data.List.Nodup
import Mathlib.Data.List.Perm.Subperm

namespace SysProg.Process

/-! Programs of processes that talk to their children and their parent by pipes.

A program is a tree of system calls; between two calls it only computes.  What
is called beside pipes, `fork`, `wait` and `exit` is a parameter `Op`. -/

/-- The two descriptors that a process keeps of a child: the end it reads the
child's messages from and the end it writes to. -/
structure Link where
  read_fd : Int
  write_fd : Int
deriving DecidableEq, Repr

inductive Prog (Msg Op Val Seed α : Type) where
  | pure (value : α)
  | write (fd : Int) (msg : Msg) (next : Prog Msg Op Val Seed α)
  | read (fd : Int) (next : Option Msg → Prog Msg Op Val Seed α)
  | reply (msg : Msg) (next : Prog Msg Op Val Seed α)
  | fork (own : List Int) (seed : Seed) (next : Link → Prog Msg Op Val Seed α)
  | wait (next : Prog Msg Op Val Seed α)
  | close (link : Link) (next : Prog Msg Op Val Seed α)
  | call (op : Op) (next : Val → Prog Msg Op Val Seed α)
  | exit

namespace Prog

variable {Msg Op Val Seed α β γ : Type}

def bind (prog : Prog Msg Op Val Seed α) (after : α → Prog Msg Op Val Seed β) :
    Prog Msg Op Val Seed β :=
  match prog with
  | .pure value => after value
  | .write fd msg next => .write fd msg (next.bind after)
  | .read fd next => .read fd fun msg => (next msg).bind after
  | .reply msg next => .reply msg (next.bind after)
  | .fork own seed next => .fork own seed fun link => (next link).bind after
  | .wait next => .wait (next.bind after)
  | .close link next => .close link (next.bind after)
  | .call op next => .call op fun val => (next val).bind after
  | .exit => .exit

instance : Monad (Prog Msg Op Val Seed) where
  pure := .pure
  bind := bind

@[simp] theorem pure_bind (value : α) (after : α → Prog Msg Op Val Seed β) :
    (Prog.pure value : Prog Msg Op Val Seed α).bind after = after value := rfl

theorem bind_assoc (prog : Prog Msg Op Val Seed α) (first : α → Prog Msg Op Val Seed β)
    (second : β → Prog Msg Op Val Seed γ) :
    (prog.bind first).bind second = prog.bind fun value => (first value).bind second := by
  induction prog with
  | pure value => rfl
  | write fd msg next ih => simp only [bind, ih]
  | read fd next ih => simp only [bind, ih]
  | reply msg next ih => simp only [bind, ih]
  | fork own seed next ih => simp only [bind, ih]
  | wait next ih => simp only [bind, ih]
  | close link next ih => simp only [bind, ih]
  | call op next ih => simp only [bind, ih]
  | exit => rfl

end Prog

/-! ## Descriptors

A new pipe takes the two lowest descriptors that are free. -/

def candidates (used : List Int) : List Int := (List.range (used.length + 1)).map Int.ofNat

def lowest (used : List Int) : Int :=
  ((candidates used).find? fun fd => fd ∉ used).getD 0

theorem lowest_found (used : List Int) :
    (candidates used).find? (fun fd => fd ∉ used) = some (lowest used) := by
  cases found : (candidates used).find? fun fd => fd ∉ used with
  | some fd =>
      rw [lowest, found]
      rfl
  | none =>
      exfalso
      have covered : candidates used ⊆ used := by
        intro fd inside
        simpa using List.find?_eq_none.mp found fd inside
      have distinct : (candidates used).Nodup :=
        List.nodup_range.map fun _ _ same => Int.ofNat.inj same
      have short := (distinct.subperm covered).length_le
      simp only [candidates, List.length_map, List.length_range] at short
      omega

theorem lowest_nonneg (used : List Int) : 0 ≤ lowest used := by
  have listed := List.mem_of_find?_eq_some (lowest_found used)
  obtain ⟨number, _, same⟩ := List.mem_map.mp listed
  rw [← same]
  exact Int.natCast_nonneg number

theorem lowest_free (used : List Int) : lowest used ∉ used := by
  simpa using List.find?_some (lowest_found used)

/-- What is left to the parent of the pipe to it and the pipe to the child, made
in this order: one descriptor of each pipe is closed after the `fork`. -/
def Link.fresh (used : List Int) : Link :=
  let first := lowest used
  let second := lowest (first :: used)
  let third := lowest (second :: first :: used)
  let fourth := lowest (third :: second :: first :: used)
  ⟨first, fourth⟩

theorem Link.fresh_read_nonneg (used : List Int) : 0 ≤ (Link.fresh used).read_fd :=
  lowest_nonneg used

theorem Link.fresh_read (used : List Int) : (Link.fresh used).read_fd ∉ used := lowest_free used

theorem Link.fresh_write (used : List Int) : (Link.fresh used).write_fd ∉ used := by
  intro taken
  exact lowest_free _ (List.mem_cons_of_mem _ (List.mem_cons_of_mem _ (List.mem_cons_of_mem _ taken)))

end SysProg.Process
