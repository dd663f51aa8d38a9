import SysProg.Bulletin.Board

namespace SysProg.Bulletin

open Relation SysProg.Transition

/-! # A server that starts while others are running

`posted` is the board as the clients think of it: every slot with its latest post. -/

variable {n : Nat} {Client : Type} [DecidableEq Client] {home : Client → Fin n}
  {before after : State n Client} {board : Slot → Record}

/-- The latest post of each slot after a step. -/
def post (action : Action n Client) (state : State n Client) (posted : Slot → Record) :
    Slot → Record :=
  match action with
  | .advance me _ => withPost (state.servers me).control.posting posted
  | _ => posted

/-- No post changes a slot while another server is between its read of the whole board
and its write of it. -/
def Apart (before after : State n Client) : Prop :=
  ∀ me slot rd, (before.servers me).control.posting = some (slot, rd) →
    (after.servers me).control.posting = none → before.disk.board slot ≠ rd →
    ∀ other, (before.servers other).control ≠ .restoring

/-- The board holds the latest posts, and so does the copy of a server that starts. -/
structure Kept (traced : Traced (State n Client) (Slot → Record)) : Prop where
  board : traced.state.disk.board = traced.past
  copies : ∀ me, (traced.state.servers me).control = .restoring →
    (traced.state.servers me).bulletinbuf = traced.state.disk.board

namespace Kept

theorem step {action : Action n Client} {posted : Slot → Record}
    (kept : Kept ⟨before, posted⟩) (apart : Apart before after)
    (stepped : step home action before = some after) :
    Kept ⟨after, post action before posted⟩ := by
  have same : before.disk.board = posted := kept.board
  have copies : ∀ me, (before.servers me).control = .restoring →
      (before.servers me).bulletinbuf = before.disk.board := kept.copies
  cases step_moved stepped with
  | client client move servers disk =>
      refine ⟨by rw [disk]; exact same, ?_⟩
      intro me restoring
      simp only [servers, disk] at restoring ⊢
      exact copies me restoring
  | dispatched me client receive polling servers disk =>
      refine ⟨by rw [disk]; exact same, ?_⟩
      intro other restoring
      simp only [servers, disk] at restoring ⊢
      cases eq_or_ne other me with
      | inl equal =>
          subst equal
          rw [Function.update_self] at restoring
          unfold Server.dispatch at restoring
          split at restoring <;> simp [Server.moveTo, polling] at restoring
      | inr different =>
          rw [Function.update_of_ne different] at restoring ⊢
          exact copies other restoring
  | advanced me junk turn advanced servers disk =>
      obtain ⟨written, read⟩ := Server.advance_board advanced
      rw [Server.writes_copy (copies me)] at written
      refine ⟨by rw [disk, written, same]; rfl, ?_⟩
      intro other restoring
      simp only [servers, disk] at restoring ⊢
      rw [written]
      cases eq_or_ne other me with
      | inl equal =>
          subst equal
          rw [Function.update_self] at restoring ⊢
          have opening := Server.advance_restoring advanced restoring
          rw [read, Server.reads, opening]
          rfl
      | inr different =>
          rw [Function.update_of_ne different] at restoring ⊢
          rw [copies other restoring]
          cases posting : (before.servers me).control.posting with
          | none => rfl
          | some post =>
              obtain ⟨slot, rd⟩ := post
              have done : (after.servers me).control.posting = none := by
                rw [servers, Function.update_self]
                exact Server.advance_posting advanced
              have unchanged : before.disk.board slot = rd := by
                by_contra changes
                exact apart me slot rd posting done changes other restoring
              rw [withPost, ← unchanged, Function.update_eq_self]

end Kept

/-- In a run in which nothing is posted in the middle of a start, the board always
holds the latest posts. -/
theorem startup_keeps_posts {traced : Traced (State n Client) (Slot → Record)}
    (run : ReflTransGen (Restrict (Traced.Step (step home) post) fun before after =>
      Apart before.state after.state) ⟨boot n Client board, board⟩ traced) :
    traced.state.disk.board = traced.past := by
  have initially : Kept (⟨boot n Client board, board⟩ : Traced (State n Client) _) :=
    ⟨rfl, fun me restoring => by cases restoring⟩
  have kept : Kept traced := by
    refine invariant_of_run ?_ run initially
    intro before after taken kept
    obtain ⟨⟨action, stepped, noted⟩, apart⟩ := taken
    have next := kept.step apart stepped
    rwa [← noted] at next
  exact kept.board

def typing (me : Fin 2) (From : Token FROM_LEN) (Content : Token CONTENT_LEN) : List (Action 2 Unit) :=
  List.replicate 2 (Action.advance me ⟨.zero, 0⟩) ++
    [Action.client () (.connect ⟨.zero, 0⟩), Action.serve me ()] ++
    List.replicate 22 (Action.advance me ⟨.zero, 0⟩) ++
    [Action.client () .read, Action.client () (.post ⟨.zero, 0⟩), Action.serve me ()] ++
    List.replicate 4 (Action.advance me ⟨.zero, 0⟩) ++
    [Action.client () .read, Action.client () (.fill From Content)]

/-- Server 1 starts when the post is on the board. -/
theorem startup_keeps_posts_after :
    ∃ traced : Traced (State 2 Unit) (Slot → Record),
      (∀ me, (traced.state.servers me).control = .polling) ∧
      (traced.past 0).empty = false ∧ traced.state.disk.board = traced.past := by
  have completes : (Traced.run (step fun _ => 0) post
      (fun before _ => (∀ me, (before.state.servers me).control ≠ .restoring) ∨
        ∀ me, (before.state.servers me).control.posting = none)
      (typing 0 ⟨[97], by decide⟩ ⟨[98], by decide⟩ ++ [.serve 0 ()] ++ List.replicate 2 (.advance 0 ⟨.zero, 0⟩) ++
        List.replicate 2 (.advance 1 ⟨.zero, 0⟩))
      ⟨boot 2 Unit fun _ => .zero, fun _ => .zero⟩).any (fun traced =>
        (∀ me, (traced.state.servers me).control = .polling) ∧
        (traced.past 0).empty = false) = true := by
    decide +kernel
  obtain ⟨traced, ran, facts⟩ := (Option.any_eq_true _ _).mp completes
  obtain ⟨started, posted⟩ := of_decide_eq_true facts
  have steps : ReflTransGen (Restrict (Traced.Step (step fun _ => 0) post) fun before after =>
      Apart before.state after.state) ⟨boot 2 Unit fun _ => .zero, fun _ => .zero⟩ traced := by
    refine ReflTransGen.mono ?_ _ _ (Traced.run_steps ran)
    intro before after taken
    refine ⟨taken.1, ?_⟩
    intro me slot rd posting _ _
    cases of_decide_eq_true taken.2 with
    | inl none => exact none
    | inr none =>
        rw [none me] at posting
        cases posting
  exact ⟨traced, started, posted, startup_keeps_posts steps⟩

/-- Server 1 reads the board before the post and writes it back after it. -/
theorem startup_loses_post :
    ∃ traced : Traced (State 2 Unit) (Slot → Record),
      ReflTransGen (Traced.Step (step fun _ => 0) post)
        ⟨boot 2 Unit fun _ => .zero, fun _ => .zero⟩ traced ∧
      (∀ me, (traced.state.servers me).control = .polling) ∧
      traced.state.disk.board 0 ≠ traced.past 0 := by
  have completes : (Traced.run (step fun _ => 0) post (fun _ _ => true)
      (typing 0 ⟨[97], by decide⟩ ⟨[98], by decide⟩ ++ [.advance 1 ⟨.zero, 0⟩, .serve 0 ()] ++
        List.replicate 2 (.advance 0 ⟨.zero, 0⟩) ++ [.advance 1 ⟨.zero, 0⟩])
      ⟨boot 2 Unit fun _ => .zero, fun _ => .zero⟩).any (fun traced =>
        (∀ me, (traced.state.servers me).control = .polling) ∧
        traced.state.disk.board 0 ≠ traced.past 0) = true := by
    decide +kernel
  obtain ⟨traced, ran, facts⟩ := (Option.any_eq_true _ _).mp completes
  obtain ⟨started, lost⟩ := of_decide_eq_true facts
  exact ⟨traced, Restrict.run _ (Traced.run_steps ran), started, lost⟩

end SysProg.Bulletin
