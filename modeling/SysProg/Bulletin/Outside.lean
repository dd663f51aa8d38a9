import Mathlib.Data.Finset.Basic
import SysProg.Bulletin.Requests

namespace SysProg.Bulletin

/-! # One server among other processes

Requests one after the other, and between them other processes that lock slots of the board
file and unlock them again. -/

variable {n : Nat} {Client : Type} {me : Fin n} {server server' : Server Client}
  {disk disk' : Disk n} {client : Client} {receive : Io} {trail : List (Made n Client)}

/-- A server between two requests; `granted` is history: the slots that clients have been
granted and have not finished. -/
structure Site (n : Nat) (Client : Type) where
  server : Server Client
  disk : Disk n
  granted : Finset Slot

inductive Errand (n : Nat) (Client : Type) where
  | lock (other : Fin n) (slot : Slot)
  | unlock (other : Fin n) (slot : Slot)
  | request (client : Client) (receive : Io) (trail : List (Made n Client))

/-- A `!post`, a `!pull`, or the `!finish` of a slot that is granted and not finished. -/
inductive Allowed (granted : Finset Slot) (receive : Io) : Prop
  | post (type : receive.type = .post)
  | pull (type : receive.type = .pull)
  | finish (type : receive.type = .finish) (slot : Slot) (pos : slotOf receive.buf.pos = some slot)
      (outstanding : slot ∈ granted)

def Answer.grant : Answer → Option Slot
  | .available pos => slotOf pos
  | _ => none

def grants (trail : List (Made n Client)) : Finset Slot :=
  ((answers trail).filterMap Answer.grant).toFinset

def finishes (receive : Io) : Finset Slot :=
  match receive.type, slotOf receive.buf.pos with
  | .finish, some slot => {slot}
  | _, _ => ∅

inductive Site.Step (me : Fin n) : Errand n Client → Site n Client → Site n Client → Prop
  | lock {site : Site n Client} (other : Fin n) (slot : Slot) (stranger : other ≠ me)
      (free : site.disk.owner slot = none) :
      Step me (.lock other slot) site { site with disk := site.disk.write_lock other slot }
  | unlock {site : Site n Client} (other : Fin n) (slot : Slot) (stranger : other ≠ me)
      (held : site.disk.owner slot = some other) :
      Step me (.unlock other slot) site { site with disk := site.disk.unlock other slot }
  | request {site : Site n Client} {server : Server Client} {disk : Disk n}
      {trail : List (Made n Client)} (client : Client) (receive : Io)
      (allowed : Allowed site.granted receive)
      (handled : Handles me (site.server.dispatch client receive) site.disk trail server disk) :
      Step me (.request client receive trail) site
        ⟨server, disk, site.granted \ finishes receive ∪ grants trail⟩

/-- Runs whose events meet a condition, with the events. -/
inductive Site.Runs (me : Fin n) (meets : Site n Client → Errand n Client → Prop) (first : Site n Client) :
    List (Errand n Client) → Site n Client → Prop
  | start : Runs me meets first [] first
  | step {events : List (Errand n Client)} {event : Errand n Client} {site next : Site n Client}
      (run : Runs me meets first events site) (met : meets site event)
      (taken : Site.Step me event site next) : Runs me meets first (events ++ [event]) next

/-! ## Computed runs -/

section Computed

instance (granted : Finset Slot) (receive : Io) : Decidable (Allowed granted receive) :=
  decidable_of_iff (receive.type = .post ∨ receive.type = .pull ∨
      receive.type = .finish ∧ ∃ slot ∈ granted, slotOf receive.buf.pos = some slot) <| by
    constructor
    · rintro (type | type | ⟨type, slot, outstanding, pos⟩)
      · exact .post type
      · exact .pull type
      · exact .finish type slot pos outstanding
    · rintro (type | type | ⟨type, slot, pos, outstanding⟩)
      · exact .inl type
      · exact .inr (.inl type)
      · exact .inr (.inr ⟨type, slot, outstanding, pos⟩)

variable [DecidableEq Client] {meets : Site n Client → Errand n Client → Prop}

/-- One event and the site behind it; the trail of a request is computed. -/
def Site.perform (me : Fin n) (event : Errand n Client) (site : Site n Client) :
    Option (Errand n Client × Site n Client) :=
  match event with
  | .lock other slot =>
      if other ≠ me ∧ site.disk.owner slot = none then
        some (.lock other slot, { site with disk := site.disk.write_lock other slot })
      else none
  | .unlock other slot =>
      if other ≠ me ∧ site.disk.owner slot = some other then
        some (.unlock other slot, { site with disk := site.disk.unlock other slot })
      else none
  | .request client receive _ =>
      if Allowed site.granted receive then
        match Server.calls me (3 * RECORD_NUM + 3) (site.server.dispatch client receive) site.disk with
        | none => none
        | some (trail, server, disk) =>
            some (.request client receive trail,
              ⟨server, disk, site.granted \ finishes receive ∪ grants trail⟩)
      else none

def Site.performs (me : Fin n) (meets : Site n Client → Errand n Client → Prop)
    [∀ site event, Decidable (meets site event)] :
    List (Errand n Client) → Site n Client → Option (List (Errand n Client) × Site n Client)
  | [], site => some ([], site)
  | event :: rest, site =>
      match site.perform me event with
      | none => none
      | some (made, next) =>
          if meets site made then
            (performs me meets rest next).map fun done => (made :: done.1, done.2)
          else none

theorem Site.step_of_perform {event made : Errand n Client} {site next : Site n Client}
    (performed : site.perform me event = some (made, next)) : Site.Step me made site next := by
  unfold perform at performed
  cases event with
  | lock other slot | unlock other slot =>
      simp only at performed
      split at performed
      · rename_i enabled
        cases performed
        constructor
        · exact enabled.1
        · exact enabled.2
      · cases performed
  | request client receive trail =>
      simp only at performed
      split at performed
      · rename_i allowed
        split at performed
        · cases performed
        · rename_i computed
          cases performed
          exact .request client receive allowed (calls_handles computed)
      · cases performed

omit [DecidableEq Client] in
theorem Site.Runs.head {first second last : Site n Client} {event : Errand n Client}
    {events : List (Errand n Client)} (met : meets first event) (taken : Site.Step me event first second)
    (run : Site.Runs me meets second events last) : Site.Runs me meets first (event :: events) last := by
  induction run with
  | start => exact .step .start met taken
  | step _ met' taken' ih => exact .step ih met' taken'

theorem Site.runs_of_performs [∀ site event, Decidable (meets site event)]
    {events done : List (Errand n Client)} {first last : Site n Client}
    (performed : first.performs me meets events = some (done, last)) : Site.Runs me meets first done last := by
  induction events generalizing first done with
  | nil =>
      cases performed
      exact .start
  | cons event rest ih =>
      rw [Site.performs] at performed
      split at performed
      · cases performed
      · rename_i made next first
        split at performed
        · rename_i met
          obtain ⟨later, others, same⟩ := Option.map_eq_some_iff.mp performed
          cases same
          exact .head met (step_of_perform first) (ih others)
        · cases performed

end Computed

/-- Between two requests the locks, the reservations and the grants are of the same slots. -/
structure Tallied (me : Fin n) (site : Site n Client) : Prop where
  polls : site.server.control = .polling
  agrees : Agrees me site.server site.disk
  granted : ∀ slot, slot ∈ site.granted ↔ site.server.locked slot = true

section Locks

variable {slot : Slot}

theorem Disk.write_lock_owner (lockable : disk.lockable me slot = true) :
    (disk.write_lock me slot).owner = Function.update disk.owner slot (some me) := by
  rw [Disk.write_lock, if_pos lockable]

theorem Disk.unlock_owner (held : disk.owner slot = some me) :
    (disk.unlock me slot).owner = Function.update disk.owner slot none := by
  rw [Disk.unlock, if_pos held]

/-- A lock of another process changes the owner of a slot that the server does not hold. -/
theorem Agrees.other (now : Option (Fin n)) (agrees : Agrees me server disk)
    (before : disk.owner slot ≠ some me) (behind : now ≠ some me)
    (same : disk'.owner = Function.update disk.owner slot now) : Agrees me server disk' := by
  intro other
  rw [← agrees other, same]
  by_cases here : other = slot
  · subst here
    simp only [Function.update_self, before, behind]
  · rw [Function.update_of_ne here]

theorem Agrees.reserve (agrees : Agrees me server disk) (free : ¬ Taken me server disk slot)
    (same : server'.locked = Function.update server.locked slot true) :
    Agrees me server' (disk.write_lock me slot) := by
  have lockable : disk.lockable me slot = true := by
    rw [Disk.lockable, agrees.unowned free]
    simp
  intro other
  rw [Disk.write_lock_owner lockable, same]
  by_cases here : other = slot
  · subst here
    simp only [Function.update_self]
  · rw [Function.update_of_ne here, Function.update_of_ne here]
    exact agrees other

theorem Agrees.release (agrees : Agrees me server disk) (reserved : server.locked slot = true) (rd : Record)
    (same : server'.locked = Function.update server.locked slot false) :
    Agrees me server' ((disk.write slot rd).unlock me slot) := by
  have held : (disk.write slot rd).owner slot = some me := (agrees slot).mpr reserved
  intro other
  rw [Disk.unlock_owner held, same]
  by_cases here : other = slot
  · subst here
    simp
  · rw [Function.update_of_ne here, Function.update_of_ne here]
    exact agrees other

end Locks

theorem finishes_other (type : receive.type ≠ .finish) : finishes receive = ∅ := by
  unfold finishes
  split
  · rename_i finish _
    exact absurd finish type
  · rfl

theorem finishes_slot {slot : Slot} (type : receive.type = .finish) (pos : slotOf receive.buf.pos = some slot) :
    finishes receive = {slot} := by
  rw [finishes, type, pos]

/-- A pull grants nothing. -/
theorem pull_grants {slots : List Slot}
    (answered : answers trail = slots.filterMap (shows me server disk) ++ [.end]) : grants trail = ∅ := by
  rw [grants, answered, List.toFinset_eq_empty_iff, List.filterMap_eq_nil_iff]
  intro answer sent
  rcases List.mem_append.mp sent with shown | last
  · obtain ⟨slot, _, here⟩ := List.mem_filterMap.mp shown
    unfold shows at here
    split at here <;> cases here
    rfl
  · rw [List.mem_singleton.mp last]
    rfl

section Tallied

variable {granted : Finset Slot} (tallied : Tallied me ⟨server, disk, granted⟩)

include tallied

theorem Tallied.post (type : receive.type = .post)
    (handled : Handles me (server.dispatch client receive) disk trail server' disk') :
    Tallied me ⟨server', disk', granted \ finishes receive ∪ grants trail⟩ := by
  have listed := tallied.granted
  rw [finishes_other (by rw [type]; nofun), Finset.sdiff_empty]
  cases post_handled tallied.agrees type handled with
  | refused taken answered =>
      have nothing : grants trail = ∅ := by simp [grants, answered, Answer.grant]
      rw [nothing, Finset.union_empty]
      exact ⟨rfl, tallied.agrees, listed⟩
  | granted j inside taken free answered =>
      have slot : grants trail = {after (server.last + 1) j} := by simp [grants, answered, Answer.grant]
      refine ⟨rfl, tallied.agrees.reserve free rfl, ?_⟩
      intro other
      rw [slot, Finset.mem_union, Finset.mem_singleton]
      show other ∈ granted ∨ _ ↔ Function.update server.locked _ true other = true
      by_cases here : other = after (server.last + 1) j
      · rw [here, Function.update_self]
        exact ⟨fun _ => rfl, fun _ => .inr rfl⟩
      · rw [Function.update_of_ne here, ← listed other]
        exact or_iff_left here

theorem Tallied.pull (type : receive.type = .pull)
    (handled : Handles me (server.dispatch client receive) disk trail server' disk') :
    Tallied me ⟨server', disk', granted \ finishes receive ∪ grants trail⟩ := by
  obtain ⟨answered, _, rfl, rfl⟩ := pull_handled tallied.agrees type handled
  rw [finishes_other (by rw [type]; nofun), Finset.sdiff_empty, pull_grants answered, Finset.union_empty]
  exact ⟨rfl, tallied.agrees, tallied.granted⟩

theorem Tallied.finish {slot : Slot} (type : receive.type = .finish) (pos : slotOf receive.buf.pos = some slot)
    (outstanding : slot ∈ granted)
    (handled : Handles me (server.dispatch client receive) disk trail server' disk') :
    Tallied me ⟨server', disk', granted \ finishes receive ∪ grants trail⟩ := by
  obtain ⟨answered, _, rfl, rfl⟩ := finish_handled type pos handled
  have listed := tallied.granted
  have nothing : grants trail = ∅ := by simp [grants, answered]
  rw [finishes_slot type pos, nothing, Finset.union_empty]
  refine ⟨rfl, tallied.agrees.release ((listed slot).mp outstanding) _ rfl, ?_⟩
  intro other
  rw [Finset.mem_sdiff, Finset.mem_singleton]
  show other ∈ granted ∧ _ ↔ Function.update server.locked slot false other = true
  by_cases here : other = slot
  · simp [here]
  · rw [Function.update_of_ne here, ← listed other]
    exact and_iff_left here

end Tallied

theorem Tallied.step {event : Errand n Client} {site next : Site n Client} (tallied : Tallied me site)
    (taken : Site.Step me event site next) : Tallied me next := by
  cases taken with
  | lock other slot stranger free =>
      refine ⟨tallied.polls, ?_, tallied.granted⟩
      have lockable : site.disk.lockable other slot = true := by simp [Disk.lockable, free]
      exact tallied.agrees.other (some other) (by simp [free]) (fun same => stranger (Option.some.inj same))
        (Disk.write_lock_owner lockable)
  | unlock other slot stranger held =>
      refine ⟨tallied.polls, ?_, tallied.granted⟩
      have before : site.disk.owner slot ≠ some me := by
        rw [held]
        exact fun same => stranger (Option.some.inj same)
      exact tallied.agrees.other none before (Option.some_ne_none me).symm (Disk.unlock_owner held)
  | request client receive allowed handled =>
      cases allowed with
      | post type => exact tallied.post type handled
      | pull type => exact tallied.pull type handled
      | finish type slot pos outstanding => exact tallied.finish type pos outstanding handled

theorem Tallied.run {meets : Site n Client → Errand n Client → Prop} {first site : Site n Client}
    {events : List (Errand n Client)} (tallied : Tallied me first)
    (run : Site.Runs me meets first events site) : Tallied me site := by
  induction run with
  | start => exact tallied
  | step _ _ taken ih => exact ih.step taken

/-! ## What a run of requests comes to -/

theorem after_reaches (index slot : Slot) : ∃ i < RECORD_NUM, after index i = slot := by
  refine ⟨(RECORD_NUM + slot.val - index.val) % RECORD_NUM, Nat.mod_lt _ (by decide), Fin.ext ?_⟩
  have inside : slot.val < 10 := slot.isLt
  have inside' : index.val < 10 := index.isLt
  show (index.val + (10 + slot.val - index.val) % 10) % 10 = slot.val
  omega

/-- The first slot behind `last` that is neither reserved nor locked by another process. -/
def FirstFree (me : Fin n) (server : Server Client) (disk : Disk n) (slot : Slot) : Prop :=
  ∃ i < RECORD_NUM, after (server.last + 1) i = slot ∧ ¬ Taken me server disk slot ∧
    ∀ j < i, Taken me server disk (after (server.last + 1) j)

theorem post_answers (agrees : Agrees me server disk) (type : receive.type = .post)
    (handled : Handles me (server.dispatch client receive) disk trail server' disk') :
    (∀ slot : Slot, answers trail = [.available slot] ↔ FirstFree me server disk slot) ∧
      (answers trail = [.full] ↔ ∀ slot, Taken me server disk slot) := by
  cases post_handled agrees type handled with
  | refused taken answered =>
      have all (slot : Slot) : Taken me server disk slot := by
        obtain ⟨i, inside, rfl⟩ := after_reaches (server.last + 1) slot
        exact taken i inside
      rw [answered]
      refine ⟨fun slot => ⟨nofun, ?_⟩, fun _ => all, fun _ => rfl⟩
      intro first
      obtain ⟨_, _, _, free, _⟩ := first
      exact absurd (all slot) free
  | granted j inside taken free answered =>
      rw [answered]
      refine ⟨fun slot => ⟨?_, ?_⟩, nofun, fun all => absurd (all _) free⟩
      · intro same
        simp only [List.cons.injEq, Answer.available.injEq, and_true] at same
        obtain rfl := Fin.ext (Int.ofNat_inj.mp same)
        exact ⟨j, inside, rfl, free, taken⟩
      · intro first
        obtain ⟨i, _, rfl, free', taken'⟩ := first
        have same : i = j := by
          rcases Nat.lt_trichotomy i j with less | same | more
          · exact absurd (taken i less) free'
          · exact same
          · exact absurd (taken' j more) free
        rw [same]

/-- What a pull finds free and not empty, in the order of the slots. -/
def posts (me : Fin n) (server : Server Client) (disk : Disk n) : List Answer :=
  ((List.finRange RECORD_NUM).filter fun slot =>
      ¬ (Taken me server disk slot ∨ (disk.board slot).empty)).map fun slot =>
    .record (disk.board slot)

/-- How many slots are reserved or locked by other processes. -/
def lockedPosts (me : Fin n) (server : Server Client) (disk : Disk n) : Nat :=
  (List.finRange RECORD_NUM).countP (Taken me server disk)

theorem shows_posts (me : Fin n) (server : Server Client) (disk : Disk n) :
    (List.finRange RECORD_NUM).filterMap (shows me (server.loaded disk) disk) = posts me server disk := by
  rw [posts, ← List.filterMap_eq_map, List.filterMap_filter]
  congr 1
  funext slot
  simp only [shows, decide_not, Bool.not_eq_true', decide_eq_false_iff_not]
  exact (ite_not ..).symm

/-- What holds between two requests, and what a request sends. -/
structure InStep (me : Fin n) (site : Site n Client) : Prop where
  polls : site.server.control = .polling
  locks : ∀ slot, site.disk.owner slot = some me ↔ site.server.locked slot = true
  outstanding : ∀ slot, slot ∈ site.granted ↔ site.server.locked slot = true
  ends : ∀ client receive, Allowed site.granted receive → ∃ trail server disk,
    Handles me (site.server.dispatch client receive) site.disk trail server disk
  post : ∀ client receive trail server disk, receive.type = .post →
    Handles me (site.server.dispatch client receive) site.disk trail server disk →
    (∀ slot : Slot, answers trail = [.available slot] ↔ FirstFree me site.server site.disk slot) ∧
      (answers trail = [.full] ↔ ∀ slot, Taken me site.server site.disk slot)
  pull : ∀ client receive trail server disk, receive.type = .pull →
    Handles me (site.server.dispatch client receive) site.disk trail server disk →
    answers trail = posts me site.server site.disk ++ [.end] ∧
      server.out = site.server.out ++
        (if 0 < lockedPosts me site.server site.disk then [.warning (lockedPosts me site.server site.disk)]
        else [])

theorem request_ends {site : Site n Client} (me : Fin n) (client : Client)
    (allowed : Allowed site.granted receive) : ∃ trail server disk,
      Handles me (site.server.dispatch client receive) site.disk trail server disk := by
  apply handled
  unfold Server.dispatch
  cases allowed with
  | post type =>
      rw [type]
      trivial
  | pull type =>
      rw [type]
      trivial
  | finish type slot pos =>
      rw [type]
      show slotOf receive.buf.pos ≠ none
      rw [pos]
      nofun

/-- A server behind its start: it has written the board as it was. -/
theorem boot_handled (booted : Handles me (Server.boot : Server Client) disk trail server disk') :
    server = { (Server.boot : Server Client).moveTo .polling with bulletinbuf := disk.board } ∧ disk' = disk := by
  cases booted with
  | polls here => cases here
  | call opens opened =>
      cases opens
      cases opened with
      | polls here => cases here
      | call restores restored =>
          cases restores
          obtain ⟨_, rfl, rfl⟩ := restored.over rfl
          exact ⟨rfl, rfl⟩

theorem Tallied.booted (unowned : ∀ slot, disk.owner slot ≠ some me)
    (booted : Handles me (Server.boot : Server Client) disk trail server disk') :
    Tallied me ⟨server, disk', ∅⟩ := by
  obtain ⟨rfl, rfl⟩ := boot_handled booted
  refine ⟨rfl, fun slot => ⟨fun held => absurd held (unowned slot), nofun⟩, fun slot => ⟨nofun, nofun⟩⟩

/-- Between two requests of a run the server holds the locks of the slots it has reserved, and
each request sends what it should. -/
theorem requests_in_step {site : Site n Client} {events : List (Errand n Client)}
    (unowned : ∀ slot, disk.owner slot ≠ some me)
    (booted : Handles me .boot disk trail server disk')
    (run : Site.Runs me (fun _ _ => True) ⟨server, disk', ∅⟩ events site) : InStep me site := by
  have tallied : Tallied me site := (Tallied.booted unowned booted).run run
  constructor
  · exact tallied.polls
  · exact tallied.agrees
  · exact tallied.granted
  · exact fun client receive allowed => request_ends me client allowed
  · exact fun client receive trail server disk type handled => post_answers tallied.agrees type handled
  · intro client receive trail server disk type handled
    obtain ⟨answered, _, same, _⟩ := pull_handled tallied.agrees type handled
    rw [shows_posts] at answered
    refine ⟨answered, ?_⟩
    rw [same, Nat.zero_add]
    rfl

/-- A server behind its start on an empty board. -/
def Server.ready : Server Client :=
  { (Server.boot : Server Client).moveTo .polling with bulletinbuf := fun _ => .zero }

theorem ready_booted (Client : Type) (me : Fin n) : ∃ trail,
    Handles me (Server.boot : Server Client) ⟨fun _ => .zero, fun _ => none⟩ trail .ready
      ⟨fun _ => .zero, fun _ => none⟩ := by
  let junk : Message := ⟨.zero, 0⟩
  have opens : (Server.boot : Server Client).advance me junk ⟨fun _ => .zero, fun _ => none⟩ = some _ := rfl
  have restores : Server.advance me junk (({ (Server.boot : Server Client).moveTo .restoring with
      bulletinbuf := fun _ => .zero } : Server Client)) ⟨fun _ => .zero, fun _ => none⟩ = some _ := rfl
  exact ⟨_, .call opens (.call restores (.polls rfl))⟩

def Record.lettered (letter : UInt8) : Record := ⟨.replicate _ letter, .replicate _ letter⟩

def Errand.post : Errand n Unit := .request () ⟨.post, ⟨.zero, 0⟩⟩ []

def Errand.pull : Errand n Unit := .request () ⟨.pull, ⟨.zero, 0⟩⟩ []

def Errand.finish (slot : Slot) (letter : UInt8) : Errand n Unit :=
  .request () ⟨.finish, ⟨.lettered letter, slot⟩⟩ []

/-- A post is finished in slot 0, another process locks slot 1, the next post gets slot 2 and
a pull is made. -/
theorem requests_in_step_outside :
    ∃ (events : List (Errand 2 Unit)) (site : Site 2 Unit),
      Site.Runs 0 (fun _ _ => True) ⟨.ready, ⟨fun _ => .zero, fun _ => none⟩, ∅⟩ events site ∧
      site.disk.board 0 = .lettered 97 ∧ site.disk.owner 1 = some 1 ∧
      site.server.locked 2 = true ∧ site.server.out = [.log (.lettered 97), .warning 2] ∧ InStep 0 site := by
  obtain ⟨trail, booted⟩ := ready_booted Unit (0 : Fin 2)
  have unowned : ∀ slot, (⟨fun _ => .zero, fun _ => none⟩ : Disk 2).owner slot ≠ some 0 := by decide
  have completes : ((⟨.ready, ⟨fun _ => .zero, fun _ => none⟩, ∅⟩ : Site 2 Unit).performs 0 (fun _ _ => True)
      [.post, .finish 0 97, .lock 1 1, .post, .pull]).any (fun done =>
        done.2.disk.board 0 = .lettered 97 ∧ done.2.disk.owner 1 = some 1 ∧
        done.2.server.locked 2 = true ∧ done.2.server.out = [.log (.lettered 97), .warning 2]) = true := by
    decide +kernel
  obtain ⟨done, performed, facts⟩ := (Option.any_eq_true _ _).mp completes
  obtain ⟨written, held, reserved, out⟩ := of_decide_eq_true facts
  have run := Site.runs_of_performs performed
  exact ⟨_, _, run, written, held, reserved, out, requests_in_step unowned booted run⟩

end SysProg.Bulletin
