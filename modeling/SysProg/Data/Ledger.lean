import Mathlib.Data.List.Nodup
import Mathlib.Data.List.Perm.Basic

namespace SysProg.Data

/-! An exactly-once ledger.

Workers take tickets and settle them later.  `taken` records who took what,
`done` the settled tickets and `pending` what each worker still has to settle;
a taken ticket is settled once or still pending at the worker that took it. -/

variable {Worker Ticket : Type*} {taken : List (Worker × Ticket)} {done : List Ticket}
  {pending pending' : Worker → Option Ticket} {worker : Worker} {ticket : Ticket}

structure Ledger (taken : List (Worker × Ticket)) (done : List Ticket)
    (pending : Worker → Option Ticket) : Prop where
  once : done.Nodup
  known : ∀ ticket ∈ done, ticket ∈ taken.map Prod.snd
  waiting : ∀ worker ticket, pending worker = some ticket →
    (worker, ticket) ∈ taken ∧ ticket ∉ done
  accounted : ∀ worker ticket, (worker, ticket) ∈ taken →
    ticket ∈ done ∨ pending worker = some ticket

theorem Ledger.empty : Ledger ([] : List (Worker × Ticket)) [] fun _ => none := by
  constructor <;> simp

theorem Ledger.take (ledger : Ledger taken done pending)
    (new : ticket ∉ taken.map Prod.snd) (idle : pending worker = none)
    (now : pending' worker = some ticket)
    (others : ∀ other, other ≠ worker → pending' other = pending other) :
    Ledger (taken ++ [(worker, ticket)]) done pending' where
  once := ledger.once
  known settled member := by
    simp only [List.map_append, List.mem_append]
    exact .inl (ledger.known settled member)
  waiting other held pendingOther := by
    by_cases same : other = worker
    · subst same
      obtain rfl : ticket = held := Option.some.inj (now.symm.trans pendingOther)
      exact ⟨by simp, fun member => new (ledger.known ticket member)⟩
    · rw [others other same] at pendingOther
      obtain ⟨member, open_⟩ := ledger.waiting other held pendingOther
      exact ⟨List.mem_append_left _ member, open_⟩
  accounted other held member := by
    rcases List.mem_append.mp member with old | fresh
    · rcases ledger.accounted other held old with settled | waits
      · exact .inl settled
      · have different : other ≠ worker := by
          intro same
          obtain rfl := same
          rw [idle] at waits
          cases waits
        exact .inr ((others other different).trans waits)
    · obtain ⟨rfl, rfl⟩ := Prod.mk.inj (List.mem_singleton.mp fresh)
      exact .inr now

theorem taker_unique (distinct : (taken.map Prod.snd).Nodup) {other : Worker}
    (first : (worker, ticket) ∈ taken) (second : (other, ticket) ∈ taken) : worker = other :=
  congrArg Prod.fst (List.inj_on_of_nodup_map distinct first second rfl)

theorem Ledger.settle (ledger : Ledger taken done pending)
    (distinct : (taken.map Prod.snd).Nodup) (held : pending worker = some ticket)
    (now : pending' worker = none)
    (others : ∀ other, other ≠ worker → pending' other = pending other) :
    Ledger taken (done ++ [ticket]) pending' := by
  obtain ⟨member, open_⟩ := ledger.waiting worker ticket held
  constructor
  · simpa [List.nodup_append] using
      ⟨ledger.once, fun settled inDone same => open_ (same ▸ inDone)⟩
  · intro settled inDone
    rcases List.mem_append.mp inDone with old | new
    · exact ledger.known settled old
    · rw [List.mem_singleton.mp new]
      exact List.mem_map_of_mem member
  · intro other waits pendingOther
    have different : other ≠ worker := by
      intro same
      obtain rfl := same
      rw [now] at pendingOther
      cases pendingOther
    rw [others other different] at pendingOther
    obtain ⟨otherMember, otherOpen⟩ := ledger.waiting other waits pendingOther
    refine ⟨otherMember, fun inDone => ?_⟩
    rcases List.mem_append.mp inDone with old | new
    · exact otherOpen old
    · rw [List.mem_singleton.mp new] at otherMember
      exact different (taker_unique distinct otherMember member)
  · intro other waits otherMember
    rcases ledger.accounted other waits otherMember with settled | pendingOther
    · exact .inl (List.mem_append_left _ settled)
    · by_cases same : other = worker
      · subst same
        obtain rfl : ticket = waits := Option.some.inj (held.symm.trans pendingOther)
        exact .inl (by simp)
      · exact .inr ((others other same).trans pendingOther)

/-- With nothing pending, exactly the taken tickets are settled, once each. -/
theorem Ledger.settled (ledger : Ledger taken done pending)
    (distinct : (taken.map Prod.snd).Nodup) (idle : ∀ worker, pending worker = none) :
    done.Perm (taken.map Prod.snd) := by
  rw [List.perm_ext_iff_of_nodup ledger.once distinct]
  intro ticket
  constructor
  · exact ledger.known ticket
  · intro member
    obtain ⟨⟨worker, held⟩, inTaken, rfl⟩ := List.mem_map.mp member
    rcases ledger.accounted worker held inTaken with settled | waits
    · exact settled
    · rw [idle worker] at waits
      cases waits

end SysProg.Data
