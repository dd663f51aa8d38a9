import SysProg.Bulletin.Calls

namespace SysProg.Bulletin

/-! # Whole requests

A request is handled by the system calls of a server from the state in which `poll` has
found it to the next in which the server polls. -/

variable {n : Nat} {Client : Type} {me : Fin n} {junk : Message} {server server' : Server Client}
  {disk disk' : Disk n} {client : Client}

/-- A system call that a server has made: the state it was made in and what it did
outside the server. -/
structure Made (n : Nat) (Client : Type) where
  server : Server Client
  disk : Disk n
  effect : Effect

/-- The system calls of a server up to where it polls. -/
inductive Handles (me : Fin n) : Server Client → Disk n → List (Made n Client) → Server Client →
    Disk n → Prop
  | polls {server : Server Client} {disk : Disk n} (here : server.control = .polling) :
      Handles me server disk [] server disk
  | call {server server' : Server Client} {disk disk' : Disk n} {junk : Message} {turn : Turn n Client}
      {trail : List (Made n Client)} (made : server.advance me junk disk = some turn)
      (rest : Handles me turn.server turn.disk trail server' disk') :
      Handles me server disk (⟨server, disk, turn.effect⟩ :: trail) server' disk'

/-- The system calls up to where the server polls, computed, if there are at most `fuel`. -/
def Server.calls [DecidableEq Client] (me : Fin n) :
    Nat → Server Client → Disk n → Option (List (Made n Client) × Server Client × Disk n)
  | 0, _, _ => none
  | fuel + 1, server, disk =>
      if server.control = .polling then some ([], server, disk)
      else
        match server.advance me ⟨.zero, 0⟩ disk with
        | none => none
        | some turn =>
            match calls me fuel turn.server turn.disk with
            | none => none
            | some (trail, server', disk') => some (⟨server, disk, turn.effect⟩ :: trail, server', disk')

theorem calls_handles [DecidableEq Client] {fuel : Nat} {trail : List (Made n Client)}
    (computed : Server.calls me fuel server disk = some (trail, server', disk')) :
    Handles me server disk trail server' disk' := by
  induction fuel generalizing server disk trail with
  | zero => cases computed
  | succ fuel ih =>
      rw [Server.calls] at computed
      split at computed
      · rename_i here
        cases computed
        exact .polls here
      · split at computed
        · cases computed
        · rename_i turn made
          split at computed
          · cases computed
          · rename_i later _ _ rest
            cases computed
            exact .call made (ih rest)

/-- What a client reads in the answers to its requests. -/
inductive Answer where
  | full
  | available (pos : Int)
  | record (rd : Record)
  | end
deriving DecidableEq, Repr

def Io.answer (io : Io) : Option Answer :=
  match io.type with
  | .full => some .full
  | .available => some (.available io.buf.pos)
  | .record => some (.record io.buf.rd)
  | .end => some .end
  | _ => none

def Effect.answer : Effect → Option Answer
  | .reply io => io.answer
  | _ => none

def answers (trail : List (Made n Client)) : List Answer := trail.filterMap fun made => made.effect.answer

/-- What the server says of a slot while it handles a request. -/
inductive Note where
  | passed (slot : Slot)
  | granted (slot : Slot)
deriving DecidableEq, Repr

/-- A search passes a slot that it finds reserved; a grant is what the client is told. -/
def Made.note (made : Made n Client) : Option Note :=
  match made.effect.answer with
  | some (.available pos) => (slotOf pos).map .granted
  | _ =>
      match made.server.control with
      | .probing _ index i =>
          if i < RECORD_NUM ∧ made.server.locked index = true then some (.passed index) else none
      | _ => none

def notes (trail : List (Made n Client)) : List Note := trail.filterMap Made.note

@[simp] theorem answers_nil : answers ([] : List (Made n Client)) = [] := rfl

@[simp] theorem notes_nil : notes ([] : List (Made n Client)) = [] := rfl

@[simp] theorem answers_cons (made : Made n Client) (trail : List (Made n Client)) :
    answers (made :: trail) = made.effect.answer.toList ++ answers trail := by
  cases found : made.effect.answer <;> simp [answers, found]

@[simp] theorem notes_cons (made : Made n Client) (trail : List (Made n Client)) :
    notes (made :: trail) = made.note.toList ++ notes trail := by
  cases found : made.note <;> simp [notes, found]

/-! ## Every request is handled to its end -/

/-- A bound for the system calls that are left of a handler. -/
def ServerControl.left : ServerControl Client → Nat
  | .opening => 2
  | .restoring => 1
  | .polling | .crashed => 0
  | .probing _ _ i => RECORD_NUM - i + 4
  | .probed _ _ => 3
  | .reserving _ _ => 2
  | .granting _ _ => 1
  | .loading _ => 3 * RECORD_NUM + 2
  | .scanning _ i _ => 3 * (RECORD_NUM - i) + 1
  | .seen _ i _ => 3 * (RECORD_NUM - i)
  | .showing _ i _ => 3 * (RECORD_NUM - i) - 1
  | .finishing _ _ => 2
  | .unlocking _ _ => 1

/-- A handler that does not index out of bounds. -/
def ServerControl.Sound : ServerControl Client → Prop
  | .finishing _ msg | .unlocking _ msg => slotOf msg.pos ≠ none
  | .crashed => False
  | _ => True

theorem Called.sound {turn : Turn n Client} (called : Called me junk server disk turn)
    (sound : server.control.Sound) :
    turn.server.control.Sound ∧ turn.server.control.left < server.control.left := by
  cases called with
  | crashed client msg control outside =>
      rcases control with control | control <;> (rw [control] at sound; exact absurd outside sound)
  | wrote client msg slot control inside =>
      rw [control] at sound
      exact ⟨sound, by rw [control]; exact Nat.lt_succ_self 1⟩
  | passed client index i control inside taken =>
      refine ⟨trivial, ?_⟩
      simp only [control, Server.moveTo, ServerControl.left]
      omega
  | skipped client i num_locked control taken =>
      refine ⟨trivial, ?_⟩
      simp only [control, Server.moveTo, ServerControl.left]
      omega
  | left client i num_locked control empty | kept client i num_locked control some
  | showed client i num_locked control =>
      refine ⟨trivial, ?_⟩
      simp only [control, Server.moveTo, ServerControl.left]
      omega
  | opened control | restored control | probed _ _ _ control | refused _ _ _ control
  | found _ _ control | reserved _ _ control | granted _ _ control | loaded _ control
  | entered _ _ _ control | ended _ _ _ control | freed _ _ _ control =>
      refine ⟨trivial, ?_⟩
      simp only [control, Server.moveTo, Server.reserve, ServerControl.left]
      omega

theorem Server.advance_some (me : Fin n) (junk : Message) (disk : Disk n) (busy : server.control ≠ .polling)
    (sound : server.control.Sound) : (server.advance me junk disk).isSome := by
  unfold advance
  cases control : server.control with
  | polling => exact absurd control busy
  | crashed => exact (control ▸ sound).elim
  | finishing client msg | unlocking client msg => cases pos : slotOf msg.pos <;> simp [pos]
  | _ => rfl

theorem handled (sound : server.control.Sound) :
    ∃ trail server' disk', Handles me server disk trail server' disk' := by
  induction size : server.control.left using Nat.strongRecOn generalizing server disk with
  | ind bound ih =>
      by_cases polls : server.control = .polling
      · exact ⟨[], server, disk, .polls polls⟩
      · obtain ⟨turn, made⟩ := Option.isSome_iff_exists.mp
          (Server.advance_some me ⟨.zero, 0⟩ disk polls sound)
        obtain ⟨sound', less⟩ := (Server.advance_called made).sound sound
        obtain ⟨trail, server', disk', rest⟩ := ih _ (size ▸ less) sound' rfl
        exact ⟨_, server', disk', .call made rest⟩

/-! ## What each request comes to -/

/-- A slot that is reserved or that another process has locked. -/
def Taken (me : Fin n) (server : Server Client) (disk : Disk n) (slot : Slot) : Prop :=
  server.locked slot = true ∨ disk.lockable me slot = false

instance (slot : Slot) : Decidable (Taken me server disk slot) := inferInstanceAs (Decidable (_ ∨ _))

/-- The server holds the locks of the slots it has reserved and no others. -/
def Agrees (me : Fin n) (server : Server Client) (disk : Disk n) : Prop :=
  ∀ slot, disk.owner slot = some me ↔ server.locked slot = true

/-- A slot that nobody has locked and the server has not reserved. -/
theorem Agrees.unowned {slot : Slot} (agrees : Agrees me server disk) (free : ¬ Taken me server disk slot) :
    disk.owner slot = none := by
  simp only [Taken, not_or, Bool.not_eq_true, Bool.not_eq_false, Disk.lockable, decide_eq_true_eq] at free
  obtain ⟨unreserved, none | mine⟩ := free
  · exact none
  · rw [(agrees slot).mp mine] at unreserved
    cases unreserved

/-- A probe of a slot in nobody's hands leaves no lock behind. -/
theorem Disk.probe_leaves {slot : Slot} (unowned : disk.owner slot = none) :
    (disk.write_lock me slot).unlock me slot = disk := by
  have lockable : disk.lockable me slot = true := by simp [Disk.lockable, unowned]
  rw [Disk.write_lock, if_pos lockable, Disk.unlock]
  simp only [Function.update_self, if_true, Function.update_idem]
  rw [← unowned, Function.update_eq_self]

theorem Handles.inv {control : ServerControl Client} {trail : List (Made n Client)}
    (handled : Handles me (server.moveTo control) disk trail server' disk') (busy : control ≠ .polling) :
    ∃ junk turn rest, (server.moveTo control).advance me junk disk = some turn ∧
      trail = ⟨server.moveTo control, disk, turn.effect⟩ :: rest ∧
      Handles me turn.server turn.disk rest server' disk' := by
  cases handled with
  | polls here => exact absurd here busy
  | call made rest => exact ⟨_, _, _, made, rfl, rest⟩

theorem Handles.over {trail : List (Made n Client)} (handled : Handles me server disk trail server' disk')
    (here : server.control = .polling) : trail = [] ∧ server' = server ∧ disk' = disk := by
  cases handled with
  | polls => exact ⟨rfl, rfl, rfl⟩
  | call made =>
      unfold Server.advance at made
      simp [here] at made

/-- The slot `i` places behind another on the ring. -/
def after (index : Slot) (i : Nat) : Slot :=
  ⟨(index.val + i) % RECORD_NUM, Nat.mod_lt _ (by decide)⟩

@[simp] theorem after_zero (index : Slot) : after index 0 = index :=
  Fin.ext (Nat.mod_eq_of_lt index.isLt)

theorem after_succ (index : Slot) (i : Nat) : after (index + 1) i = after index (i + 1) := by
  apply Fin.ext
  simp only [after, Fin.val_add, Fin.val_one, Nat.mod_add_mod]
  rw [Nat.add_assoc, Nat.add_comm 1 i]

/-- What a search says of the first slots that it passes. -/
def passes (server : Server Client) (index : Slot) : Nat → List Note
  | 0 => []
  | rounds + 1 =>
      (if server.locked index then [.passed index] else []) ++ passes server (index + 1) rounds

/-- What a search from `index` comes to that has `rounds` left. -/
inductive Searched (me : Fin n) (server : Server Client) (disk : Disk n) (index : Slot) (rounds : Nat)
    (trail : List (Made n Client)) : Server Client → Disk n → Prop
  | granted (j : Nat) (inside : j < rounds) (taken : ∀ k < j, Taken me server disk (after index k))
      (free : ¬ Taken me server disk (after index j))
      (answered : answers trail = [.available (after index j)])
      (noted : notes trail = passes server index j ++ [.granted (after index j)]) :
      Searched me server disk index rounds trail
        { (server.reserve (after index j) true).moveTo .polling with last := after index j }
        (disk.write_lock me (after index j))
  | refused (taken : ∀ k < rounds, Taken me server disk (after index k))
      (answered : answers trail = [.full]) (noted : notes trail = passes server index rounds) :
      Searched me server disk index rounds trail (server.moveTo .polling) disk

section Post

variable {trail : List (Made n Client)} {index : Slot} {i rounds : Nat}

theorem Searched.passed {made : Made n Client} (taken : Taken me server disk index)
    (silent : made.effect = .silent) (note : made.note = if server.locked index then some (.passed index) else none)
    (searched : Searched me server disk (index + 1) rounds trail server' disk') :
    Searched me server disk index (rounds + 1) (made :: trail) server' disk' := by
  have behind : ∀ {bound}, (∀ k < bound, Taken me server disk (after (index + 1) k)) →
      ∀ k < bound + 1, Taken me server disk (after index k) := by
    intro bound others k less
    cases k with
    | zero => rwa [after_zero]
    | succ k =>
        rw [← after_succ]
        exact others k (Nat.lt_of_succ_lt_succ less)
  have unanswered : made.effect.answer = none := by rw [silent]; rfl
  have said : made.note.toList = if server.locked index then [.passed index] else [] := by
    rw [note]
    split <;> rfl
  cases searched with
  | granted j inside taken' free answered noted =>
      simp only [after_succ] at free answered noted ⊢
      refine .granted (j + 1) (Nat.succ_lt_succ inside) (behind taken') free ?_ ?_
      · rw [answers_cons, unanswered, answered]
        rfl
      · rw [notes_cons, said, noted, passes, List.append_assoc]
  | refused taken' answered noted =>
      refine .refused (behind taken') ?_ ?_
      · rw [answers_cons, unanswered, answered]
        rfl
      · rw [notes_cons, said, noted, passes]

theorem Searched.at_once (some : 0 < rounds) (free : ¬ Taken me server disk index)
    (answered : answers trail = [.available index]) (noted : notes trail = [.granted index]) :
    Searched me server disk index rounds trail
      { (server.reserve index true).moveTo .polling with last := index } (disk.write_lock me index) := by
  have first : Searched me server disk index rounds trail
      { (server.reserve (after index 0) true).moveTo .polling with last := after index 0 }
      (disk.write_lock me (after index 0)) :=
    .granted 0 some nofun (by rwa [after_zero]) (by rwa [after_zero]) (by rwa [after_zero])
  rwa [after_zero] at first

/-- The calls behind the probe of a free slot. -/
theorem probed_handled (unowned : disk.owner index = none)
    (handled : Handles me (server.moveTo (.probed client index)) (disk.write_lock me index) trail server'
      disk') :
    answers trail = [.available index] ∧ notes trail = [.granted index] ∧
      server' = { (server.reserve index true).moveTo .polling with last := index } ∧
      disk' = disk.write_lock me index := by
  obtain ⟨_, _, _, unlocks, rfl, unlocked⟩ := handled.inv nofun
  cases unlocks
  obtain ⟨_, _, _, reserves, rfl, reserved⟩ := Handles.inv unlocked nofun
  cases reserves
  obtain ⟨junk, _, _, grants, rfl, granted⟩ := Handles.inv reserved nofun
  cases grants
  obtain ⟨rfl, rfl, rfl⟩ := granted.over rfl
  refine ⟨by simp [Effect.answer, Io.answer], ?_, rfl, ?_⟩
  · simp [Made.note, Effect.answer, Io.answer, Server.moveTo]
  · rw [Disk.probe_leaves unowned]

/-- One round of the loop of `find_available`. -/
theorem advance_probing {turn : Turn n Client} (inside : i < RECORD_NUM)
    (made : (server.moveTo (.probing client index i)).advance me junk disk = some turn) :
    turn = if Taken me server disk index then
        ⟨server.moveTo (.probing client (index + 1) (i + 1)), disk, .silent⟩
      else ⟨server.moveTo (.probed client index), disk.write_lock me index, .silent⟩ := by
  have round : turn = Server.probe me junk client index i (server.moveTo (.probing client index i)) disk :=
    (Option.some.inj made).symm
  rw [round, Server.probe, if_pos inside]
  by_cases locked : (server.moveTo (.probing client index i)).locked index = true
  · rw [if_pos locked, if_pos (.inl locked)]
    rfl
  · rw [if_neg locked]
    by_cases lockable : disk.lockable me index = true
    · have free : ¬ Taken me server disk index := by
        intro either
        obtain reserved | held := either
        · exact locked reserved
        · rw [lockable] at held
          cases held
      rw [if_pos lockable, if_neg free]
      rfl
    · rw [if_neg lockable, if_pos (.inr (Bool.eq_false_of_not_eq_true lockable))]
      rfl

theorem search_handled (agrees : Agrees me server disk) (whole : i + rounds = RECORD_NUM)
    (handled : Handles me (server.moveTo (.probing client index i)) disk trail server' disk') :
    Searched me server disk index rounds trail server' disk' := by
  induction rounds generalizing index i trail with
  | zero =>
      obtain ⟨junk, turn, rest, made, rfl, refuses⟩ := handled.inv nofun
      have beyond : ¬ i < RECORD_NUM := by omega
      simp only [Server.advance, Server.moveTo, Server.probe, if_neg beyond, Option.some.injEq] at made
      subst made
      obtain ⟨rfl, rfl, rfl⟩ := refuses.over rfl
      refine .refused nofun (by simp [Effect.answer, Io.answer]) ?_
      simp [Made.note, Effect.answer, Io.answer, Server.moveTo, beyond, passes]
  | succ rounds ih =>
      obtain ⟨junk, turn, rest, made, rfl, goes_on⟩ := handled.inv nofun
      have inside : i < RECORD_NUM := by omega
      have taking := advance_probing inside made
      by_cases taken : Taken me server disk index
      · rw [if_pos taken] at taking
        subst taking
        refine (ih (by omega) goes_on).passed taken rfl ?_
        simp [Made.note, Effect.answer, Server.moveTo, inside]
      · rw [if_neg taken] at taking
        subst taking
        obtain ⟨answered, noted, rfl, rfl⟩ := probed_handled (agrees.unowned taken) goes_on
        have unreserved : ¬ server.locked index = true := fun locked => taken (.inl locked)
        refine .at_once (Nat.succ_pos rounds) taken ?_ ?_
        · rw [answers_cons, answered]
          rfl
        · rw [notes_cons, noted]
          simp [Made.note, Effect.answer, Server.moveTo, unreserved]

theorem post_handled {receive : Io} (agrees : Agrees me server disk) (post : receive.type = .post)
    (handled : Handles me (server.dispatch client receive) disk trail server' disk') :
    Searched me server disk (server.last + 1) RECORD_NUM trail server' disk' := by
  rw [Server.dispatch, post] at handled
  exact search_handled agrees (Nat.zero_add RECORD_NUM) handled

end Post

section Pull

variable {trail : List (Made n Client)} {i num_locked : Nat} {slot : Slot}

/-- What a pull sends for a slot. -/
def shows (me : Fin n) (server : Server Client) (disk : Disk n) (slot : Slot) : Option Answer :=
  if Taken me server disk slot ∨ (server.bulletinbuf slot).empty then none
  else some (.record (server.bulletinbuf slot))

def warns (num_locked : Nat) : List ServerLine := if num_locked > 0 then [.warning num_locked] else []

/-- A pull that has come to slot `i`. -/
structure Scanned (me : Fin n) (server : Server Client) (disk : Disk n) (slots : List Slot) (num_locked : Nat)
    (trail : List (Made n Client)) (server' : Server Client) (disk' : Disk n) : Prop where
  answered : answers trail = slots.filterMap (shows me server disk) ++ [.end]
  noted : notes trail = []
  server : server' = { server.moveTo .polling with
    out := server.out ++ warns (num_locked + slots.countP (Taken me server disk)) }
  disk : disk' = disk

/-- One round of the loop of the `!pull` branch. -/
theorem advance_scanning {turn : Turn n Client}
    (made : (server.moveTo (.scanning client slot num_locked)).advance me junk disk = some turn) :
    turn = if Taken me server disk slot then
        ⟨server.moveTo (.scanning client (slot + 1) (num_locked + 1)), disk, .silent⟩
      else ⟨server.moveTo (.seen client slot num_locked), disk.write_lock me slot, .silent⟩ := by
  have round : turn = Server.scan me junk client slot num_locked
      (server.moveTo (.scanning client slot num_locked)) disk := (Option.some.inj made).symm
  have same : (server.moveTo (.scanning client slot num_locked)).locked slot = true ∨
      ¬ disk.lockable me slot = true ↔ Taken me server disk slot := by
    rw [Bool.not_eq_true]
    rfl
  rw [round, Server.scan, dif_pos slot.isLt]
  by_cases taken : Taken me server disk slot
  · rw [if_pos (same.mpr taken), if_pos taken]
    rfl
  · rw [if_neg fun other => taken (same.mp other), if_neg taken]
    rfl

/-- The rounds for one slot that is free. -/
theorem seen_handled (unowned : disk.owner slot = none)
    (handled : Handles me (server.moveTo (.seen client slot num_locked)) (disk.write_lock me slot) trail
      server' disk') :
    ∃ before rest, trail = before ++ rest ∧
      answers before = (if (server.bulletinbuf slot).empty then [] else [.record (server.bulletinbuf slot)]) ∧
      notes before = [] ∧
      Handles me (server.moveTo (.scanning client (slot + 1) num_locked)) disk rest server' disk' := by
  obtain ⟨_, _, rest, unlocks, rfl, unlocked⟩ := handled.inv nofun
  cases unlocks
  rw [Disk.probe_leaves unowned] at unlocked
  cases empty : (server.bulletinbuf slot).empty with
  | true =>
      have goes : Handles me (server.moveTo (.scanning client (slot + 1) num_locked)) disk rest server' disk' := by
        simpa [Server.moveTo, empty] using unlocked
      exact ⟨[_], rest, rfl, by simp [Effect.answer], by simp [Made.note, Effect.answer, Server.moveTo], goes⟩
  | false =>
      have shows : Handles me (server.moveTo (.showing client slot num_locked)) disk rest server' disk' := by
        simpa [Server.moveTo, empty] using unlocked
      obtain ⟨junk, _, rest, sends, rfl, goes⟩ := shows.inv nofun
      cases sends
      refine ⟨[_, _], rest, rfl, ?_, ?_, goes⟩
      · simp [Effect.answer, Io.answer, Server.moveTo]
      · simp [Made.note, Effect.answer, Io.answer, Server.moveTo]

theorem answers_append (first second : List (Made n Client)) :
    answers (first ++ second) = answers first ++ answers second := List.filterMap_append

theorem notes_append (first second : List (Made n Client)) :
    notes (first ++ second) = notes first ++ notes second := List.filterMap_append

theorem scan_handled {rounds : Nat} (agrees : Agrees me server disk) (whole : i + rounds = RECORD_NUM)
    (handled : Handles me (server.moveTo (.scanning client i num_locked)) disk trail server' disk') :
    Scanned me server disk ((List.finRange RECORD_NUM).drop i) num_locked trail server' disk' := by
  induction rounds generalizing i num_locked trail with
  | zero =>
      obtain ⟨junk, turn, rest, made, rfl, ends⟩ := handled.inv nofun
      have beyond : ¬ i < RECORD_NUM := by omega
      have last : (List.finRange RECORD_NUM).drop i = [] := by
        apply List.drop_of_length_le
        rw [List.length_finRange]
        omega
      simp only [Server.advance, Server.moveTo, Server.scan, dif_neg beyond, Option.some.injEq] at made
      subst made
      obtain ⟨rfl, rfl, rfl⟩ := ends.over rfl
      rw [last]
      refine ⟨by simp [Effect.answer, Io.answer], ?_, ?_, rfl⟩
      · simp [Made.note, Effect.answer, Io.answer, Server.moveTo]
      · by_cases some : num_locked > 0 <;> simp [warns, some, Server.moveTo]
  | succ rounds ih =>
      obtain ⟨junk, turn, rest, made, rfl, goes_on⟩ := handled.inv nofun
      have inside : i < RECORD_NUM := by omega
      have onward : i + 1 + rounds = RECORD_NUM := by omega
      let slot : Slot := ⟨i, inside⟩
      have next : (List.finRange RECORD_NUM).drop i = slot :: (List.finRange RECORD_NUM).drop (i + 1) := by
        rw [List.drop_eq_getElem_cons (by rwa [List.length_finRange]), List.getElem_finRange]
        rfl
      have round : (server.moveTo (.scanning client slot num_locked)).advance me junk disk = some turn := made
      have taking := advance_scanning round
      rw [next]
      by_cases taken : Taken me server disk slot
      · rw [if_pos taken] at taking
        subst taking
        obtain ⟨answered, noted, same, still⟩ := ih onward goes_on
        have silent : shows me server disk slot = none := if_pos (.inl taken)
        refine ⟨?_, ?_, ?_, still⟩
        · rw [answers_cons, answered, List.filterMap_cons_none silent]
          rfl
        · rw [notes_cons, noted]
          rfl
        · rw [same, List.countP_cons_of_pos (by simpa using taken), Nat.add_right_comm, Nat.add_assoc]
      · rw [if_neg taken] at taking
        subst taking
        obtain ⟨before, rest, rfl, told, quiet, goes⟩ := seen_handled (agrees.unowned taken) goes_on
        obtain ⟨answered, noted, same, still⟩ := ih onward goes
        refine ⟨?_, ?_, ?_, still⟩
        · rw [answers_cons, answers_append, answered, told, List.filterMap_cons, shows]
          cases (server.bulletinbuf slot).empty <;> simp [taken, Effect.answer]
        · rw [notes_cons, notes_append, noted, quiet]
          rfl
        · rw [same, List.countP_cons_of_neg (by simpa using taken)]

/-- The server with its copy of the board as it is. -/
def Server.loaded (server : Server Client) (disk : Disk n) : Server Client :=
  { server with bulletinbuf := disk.board }

theorem pull_handled {receive : Io} (agrees : Agrees me server disk) (pull : receive.type = .pull)
    (handled : Handles me (server.dispatch client receive) disk trail server' disk') :
    Scanned me (server.loaded disk) disk (List.finRange RECORD_NUM) 0 trail server' disk' := by
  rw [Server.dispatch, pull] at handled
  obtain ⟨_, _, rest, loads, rfl, scans⟩ := Handles.inv handled nofun
  cases loads
  have loaded : Handles me ((server.loaded disk).moveTo (.scanning client 0 0)) disk rest server' disk' := scans
  have agrees' : Agrees me (server.loaded disk) disk := agrees
  obtain ⟨answered, noted, same, still⟩ := scan_handled agrees' (Nat.zero_add RECORD_NUM) loaded
  refine ⟨?_, ?_, same, still⟩
  · rw [answers_cons, answered]
    rfl
  · rw [notes_cons, noted]
    rfl

end Pull

theorem finish_handled {receive : Io} {trail : List (Made n Client)} {slot : Slot}
    (finish : receive.type = .finish) (pos : slotOf receive.buf.pos = some slot)
    (handled : Handles me (server.dispatch client receive) disk trail server' disk') :
    answers trail = [] ∧ notes trail = [] ∧
      server' = { (server.reserve slot false).moveTo .polling with
        out := server.out ++ [.log receive.buf.rd] } ∧
      disk' = (disk.write slot receive.buf.rd).unlock me slot := by
  rw [Server.dispatch, finish] at handled
  obtain ⟨_, _, _, writes, rfl, written⟩ := Handles.inv handled nofun
  simp only [Server.advance, Server.moveTo, pos, Option.some.injEq] at writes
  subst writes
  obtain ⟨_, _, _, frees, rfl, freed⟩ := Handles.inv written nofun
  simp only [Server.advance, Server.moveTo, pos, Option.some.injEq] at frees
  subst frees
  obtain ⟨rfl, rfl, rfl⟩ := Handles.over freed rfl
  exact ⟨by simp [Effect.answer], by simp [Made.note, Effect.answer, Server.moveTo], rfl, rfl⟩

end SysProg.Bulletin
