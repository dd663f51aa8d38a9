import SysProg.Data.Rounds
import SysProg.Bulletin.Board
import SysProg.Bulletin.Outside

namespace SysProg.Bulletin

open SysProg.Data

/-! # The ring of slots

One server with no locks from outside: in which order its slots are granted, and what is in
them when one post comes after the other. -/

variable {n : Nat} {Client : Type} {me : Fin n} {server server' : Server Client}
  {disk disk' : Disk n} {client : Client} {receive : Io} {trail : List (Made n Client)}
  {site next : Site n Client} {event : Errand n Client} {events : List (Errand n Client)}

def Errand.notes : Errand n Client → List Note
  | .request _ _ trail => Bulletin.notes trail
  | _ => []

def history (events : List (Errand n Client)) : List Note := events.flatMap Errand.notes

def Errand.Request : Errand n Client → Prop
  | .request _ _ _ => True
  | _ => False

/-- Between two grants of a slot every other slot is granted or found reserved. -/
def Recycled (log : List Note) : Prop :=
  ∀ before since behind slot, log = before ++ .granted slot :: since ++ .granted slot :: behind →
    ∀ other, other ≠ slot → .granted other ∈ since ∨ .passed other ∈ since

def Note.mark : Note → Mark
  | .passed slot => .passed slot
  | .granted slot => .granted slot

/-- No other process has a lock. -/
def Alone (me : Fin n) (disk : Disk n) : Prop := ∀ slot, disk.owner slot = none ∨ disk.owner slot = some me

theorem Alone.lockable {slot : Slot} (alone : Alone me disk) : disk.lockable me slot = true := by
  rw [Disk.lockable, decide_eq_true_eq]
  exact alone slot

theorem Alone.taken {slot : Slot} (alone : Alone me disk) (taken : Taken me server disk slot) :
    server.locked slot = true := by
  rcases taken with reserved | held
  · exact reserved
  · rw [alone.lockable] at held
    cases held

theorem Alone.owned {slot : Slot} {now : Option (Fin n)} (alone : Alone me disk)
    (same : disk'.owner = Function.update disk.owner slot now) (mine : now = none ∨ now = some me) :
    Alone me disk' := by
  intro other
  rw [same]
  by_cases here : other = slot
  · subst here
    rwa [Function.update_self]
  · rw [Function.update_of_ne here]
    exact alone other

/-- A server with no locks from outside, behind a search that has got to the slot granted last. -/
structure Circles (me : Fin n) (site : Site n Client) (log : List Note) : Prop where
  tallied : Tallied me site
  alone : Alone me site.disk
  rounds : ∃ place, place % RECORD_NUM = site.server.last ∧
    Rounds RECORD_NUM (RECORD_NUM - 1) place place (log.map Note.mark)

/-- A search over reserved slots. -/
theorem rounds_passes {index : Slot} {j last now start : Nat} {log : List Note}
    (rounds : Rounds RECORD_NUM start last now (log.map Note.mark))
    (here : (now + 1) % RECORD_NUM = index) (locked : ∀ k < j, server.locked (after index k) = true) :
    Rounds RECORD_NUM start last (now + j) ((log ++ passes server index j).map Note.mark) := by
  induction j generalizing index now log with
  | zero => simpa [passes] using rounds
  | succ j ih =>
      have first : server.locked index = true := by
        have zero := locked 0 (Nat.succ_pos j)
        rwa [after_zero] at zero
      have passed : Rounds RECORD_NUM start last (now + 1) ((log ++ [Note.passed index]).map Note.mark) := by
        have one := rounds.pass
        rw [here] at one
        rwa [List.map_append]
      have there : (now + 1 + 1) % RECORD_NUM = ((index + 1 : Slot) : Nat) := by
        rw [Nat.add_mod, here]
        rfl
      have more := ih passed there fun k less => by
        rw [after_succ]
        exact locked (k + 1) (Nat.succ_lt_succ less)
      rw [passes, if_pos first, ← List.append_assoc, Nat.add_comm j 1, ← Nat.add_assoc]
      exact more

theorem Circles.post {granted : Finset Slot} {log : List Note} (circles : Circles me ⟨server, disk, granted⟩ log)
    (searched : Searched me server disk (server.last + 1) RECORD_NUM trail server' disk') :
    ∃ place, place % RECORD_NUM = server'.last ∧
      Rounds RECORD_NUM (RECORD_NUM - 1) place place ((log ++ notes trail).map Note.mark) := by
  obtain ⟨tallied, alone, place, last, rounds⟩ := circles
  have first : (place + 1) % RECORD_NUM = ((server.last + 1 : Slot) : Nat) := by
    rw [Nat.add_mod, last]
    rfl
  cases searched with
  | refused taken answered noted =>
      have passed := rounds_passes rounds first fun k less => alone.taken (taken k less)
      rw [noted]
      exact ⟨place, last, passed.again⟩
  | granted j inside taken free answered noted =>
      have passed := rounds_passes rounds first fun k less => alone.taken (taken k less)
      have there : (place + j + 1) % RECORD_NUM = after (server.last + 1) j := by
        show _ = ((server.last + 1 : Slot).val + j) % RECORD_NUM
        rw [← first, Nat.mod_add_mod, Nat.add_right_comm]
      refine ⟨place + j + 1, there, ?_⟩
      have granted := passed.grant
      rw [there] at granted
      rw [noted, ← List.append_assoc, List.map_append]
      exact granted

theorem Searched.alone {index : Slot} {rounds : Nat} (alone : Alone me disk)
    (searched : Searched me server disk index rounds trail server' disk') : Alone me disk' := by
  cases searched with
  | refused => exact alone
  | granted => exact alone.owned (Disk.write_lock_owner alone.lockable) (.inr rfl)

theorem Alone.step (alone : Alone me site.disk) (tallied : Tallied me site)
    (taken : Site.Step me event site next) (request : event.Request) : Alone me next.disk := by
  cases taken with
  | lock | unlock => exact request.elim
  | request client receive allowed handled =>
      cases allowed with
      | post type => exact (post_handled tallied.agrees type handled).alone alone
      | pull type =>
          obtain ⟨_, _, _, rfl⟩ := pull_handled tallied.agrees type handled
          exact alone
      | finish type slot pos outstanding =>
          obtain ⟨_, _, _, rfl⟩ := finish_handled type pos handled
          have held : (site.disk.write slot receive.buf.rd).owner slot = some me :=
            (tallied.agrees slot).mpr ((tallied.granted slot).mp outstanding)
          exact alone.owned (Disk.unlock_owner held) (.inl rfl)

theorem Circles.step {log : List Note} (circles : Circles me site log) (taken : Site.Step me event site next)
    (request : event.Request) : Circles me next (log ++ event.notes) := by
  have tallied := circles.tallied.step taken
  have alone := circles.alone.step circles.tallied taken request
  refine ⟨tallied, alone, ?_⟩
  cases taken with
  | lock | unlock => exact request.elim
  | request client receive allowed handled =>
      cases allowed with
      | post type => exact circles.post (post_handled circles.tallied.agrees type handled)
      | pull type =>
          obtain ⟨_, noted, rfl, rfl⟩ := pull_handled circles.tallied.agrees type handled
          rw [Errand.notes, noted, List.append_nil]
          exact circles.rounds
      | finish type slot pos outstanding =>
          obtain ⟨_, noted, rfl, rfl⟩ := finish_handled type pos handled
          rw [Errand.notes, noted, List.append_nil]
          exact circles.rounds

theorem Circles.booted (unowned : ∀ slot, disk.owner slot = none)
    (booted : Handles me (Server.boot : Server Client) disk trail server disk') :
    Circles me ⟨server, disk', ∅⟩ [] := by
  have tallied := Tallied.booted (fun slot => by rw [unowned slot]; nofun) booted
  obtain ⟨rfl, rfl⟩ := boot_handled booted
  exact ⟨tallied, fun slot => .inl (unowned slot), RECORD_NUM - 1, rfl, .start⟩

theorem Circles.run {meets : Site n Client → Errand n Client → Prop} {first : Site n Client}
    (circles : Circles me first []) (run : Site.Runs me meets first events site)
    (requests : ∀ site event, meets site event → event.Request) : Circles me site (history events) := by
  induction run with
  | start => exact circles
  | step _ met taken ih =>
      rw [history, List.flatMap_append, List.flatMap_singleton]
      exact ih.step taken (requests _ _ met)

theorem Circles.recycled {log : List Note} (circles : Circles me site log) : Recycled log := by
  intro before since behind slot split other different
  obtain ⟨place, _, rounds⟩ := circles.rounds
  have marked : log.map Note.mark = before.map Note.mark ++ .granted slot :: since.map Note.mark ++
      .granted slot :: behind.map Note.mark := by
    rw [split]
    simp [Note.mark]
  obtain ⟨mark, listed, here⟩ :=
    rounds.between marked other.isLt fun same => different (Fin.ext same)
  obtain ⟨note, inside, rfl⟩ := List.mem_map.mp listed
  cases note with
  | passed slot =>
      obtain rfl : slot = other := Fin.ext here
      exact .inr inside
  | granted slot =>
      obtain rfl : slot = other := Fin.ext here
      exact .inl inside

/-! ## One post after the other -/

/-- A request, and for a `!post` every slot granted before is finished. -/
def OneAtATime (site : Site n Client) : Errand n Client → Prop
  | .request _ receive _ => receive.type = .post → site.granted = ∅
  | _ => False

/-- The posts of a run, in the order in which they are finished. -/
def Errand.posted : Errand n Client → Option Record
  | .request _ receive _ => if receive.type = .finish then some receive.buf.rd else none
  | _ => none

def posted (events : List (Errand n Client)) : List Record := events.filterMap Errand.posted

/-- What is in the slots when these posts, the first of them with number 0, have been put
on a board. -/
structure Holds (initial : Slot → Record) (posts : List Record) (board : Slot → Record) : Prop where
  latest : ∀ (j : Nat) (inside : j < posts.length),
    (∀ later, j < later → later < posts.length → later % RECORD_NUM ≠ j % RECORD_NUM) →
      ∀ slot : Slot, slot = j % RECORD_NUM → board slot = posts[j]
  untouched : ∀ slot : Slot, (∀ j < posts.length, j % RECORD_NUM ≠ slot) → board slot = initial slot
  recent : ∀ (j : Nat) (inside : j < posts.length), posts.length ≤ j + RECORD_NUM →
    ∀ slot : Slot, slot = j % RECORD_NUM → board slot = posts[j]

theorem Holds.nil (initial : Slot → Record) : Holds initial [] initial := ⟨nofun, fun _ _ => rfl, nofun⟩

theorem Holds.post {initial board : Slot → Record} {posts : List Record} {slot : Slot} (rd : Record)
    (holds : Holds initial posts board) (here : (slot : Nat) = posts.length % RECORD_NUM) :
    Holds initial (posts ++ [rd]) (Function.update board slot rd) := by
  have latest : ∀ (j : Nat) (inside : j < (posts ++ [rd]).length),
      (∀ later, j < later → later < (posts ++ [rd]).length → later % RECORD_NUM ≠ j % RECORD_NUM) →
        ∀ other : Slot, other = j % RECORD_NUM → Function.update board slot rd other = (posts ++ [rd])[j] := by
    intro j inside last other there
    rw [List.length_append, List.length_singleton] at inside last
    by_cases new : j = posts.length
    · subst new
      have same : other = slot := Fin.ext (there.trans here.symm)
      rw [same, Function.update_self]
      simp
    · have old : j < posts.length := by omega
      have elsewhere : other ≠ slot := by
        intro same
        obtain rfl := same
        exact last posts.length old (Nat.lt_succ_self _) (here.symm.trans there)
      rw [Function.update_of_ne elsewhere, List.getElem_append_left old]
      exact holds.latest j old (fun later behind within => last later behind (by omega)) other there
  refine ⟨latest, ?_, ?_⟩
  · intro other unmet
    rw [List.length_append, List.length_singleton] at unmet
    have elsewhere : other ≠ slot := by
      intro same
      obtain rfl := same
      exact unmet posts.length (Nat.lt_succ_self _) here.symm
    rw [Function.update_of_ne elsewhere]
    exact holds.untouched other fun j within => unmet j (by omega)
  · intro j inside near
    refine latest j inside fun later behind within same => ?_
    have apart : later - j < RECORD_NUM := by omega
    have round := Nat.sub_mod_eq_zero_of_mod_eq same
    rw [Nat.mod_eq_of_lt apart] at round
    omega

/-- A server whose clients finish each post before the next. -/
structure InTurn (me : Fin n) (initial : Slot → Record) (site : Site n Client) (posts : List Record) : Prop where
  tallied : Tallied me site
  alone : Alone me site.disk
  turn : (site.granted = ∅ ∧ (site.server.last : Nat) = (posts.length + (RECORD_NUM - 1)) % RECORD_NUM) ∨
    ∃ slot : Slot, site.granted = {slot} ∧ slot = posts.length % RECORD_NUM ∧ site.server.last = slot
  holds : Holds initial posts site.disk.board

section InTurn

variable {initial : Slot → Record} {done : List Record} {granted : Finset Slot}

/-- A search that finds its first slot free ends there. -/
theorem search_next {index : Slot} {rounds : Nat} (some : 0 < rounds) (free : ¬ Taken me server disk index)
    (searched : Searched me server disk index rounds trail server' disk') :
    answers trail = [.available index] ∧
      server' = { (server.reserve index true).moveTo .polling with last := index } ∧
      disk' = disk.write_lock me index := by
  cases searched with
  | refused taken =>
      have first := taken 0 some
      rw [after_zero] at first
      exact absurd first free
  | granted j inside taken _ answered =>
      cases j with
      | zero =>
          rw [after_zero] at answered ⊢
          exact ⟨answered, rfl, rfl⟩
      | succ j =>
          have first := taken 0 (Nat.succ_pos j)
          rw [after_zero] at first
          exact absurd first free

theorem InTurn.post (inTurn : InTurn me initial ⟨server, disk, ∅⟩ done) (type : receive.type = .post)
    (handled : Handles me (server.dispatch client receive) disk trail server' disk') :
    (∃ slot : Slot, grants trail = {slot} ∧ slot = done.length % RECORD_NUM ∧ server'.last = slot) ∧
      disk'.board = disk.board := by
  obtain ⟨tallied, alone, turn, _⟩ := inTurn
  have free : ¬ Taken me server disk (server.last + 1) := by
    intro taken
    cases (tallied.granted _).mpr (alone.taken taken)
  obtain ⟨answered, rfl, rfl⟩ := search_next (by decide) free (post_handled tallied.agrees type handled)
  refine ⟨⟨server.last + 1, by simp [grants, answered, Answer.grant], ?_, rfl⟩, Disk.write_lock_board _⟩
  rcases turn with ⟨_, here⟩ | ⟨slot, granted, _⟩
  · show (server.last.val + 1) % RECORD_NUM = _
    have last : server.last.val = (done.length + 9) % 10 := here
    rw [last]
    show ((done.length + 9) % 10 + 1) % 10 = done.length % 10
    omega
  · exact absurd granted (Finset.singleton_ne_empty slot).symm

theorem InTurn.step (inTurn : InTurn me initial site done) (met : OneAtATime site event)
    (taken : Site.Step me event site next) : InTurn me initial next (done ++ event.posted.toList) := by
  have tallied := inTurn.tallied.step taken
  have request : event.Request := by
    cases event with
    | request => trivial
    | lock | unlock => exact met.elim
  have alone := inTurn.alone.step inTurn.tallied taken request
  cases taken with
  | lock | unlock => exact met.elim
  | @request _ server' disk' trail client receive allowed handled =>
      obtain ⟨server, disk, granted⟩ := site
      cases allowed with
      | post type =>
          obtain rfl : granted = ∅ := met type
          obtain ⟨turn, board⟩ := inTurn.post type handled
          have other : receive.type ≠ .finish := by rw [type]; nofun
          refine ⟨tallied, alone, .inr ?_, ?_⟩
          · rw [finishes_other other, Finset.sdiff_empty, Finset.empty_union]
            rw [Errand.posted, if_neg other, Option.toList_none, List.append_nil]
            exact turn
          · rw [Errand.posted, if_neg other, Option.toList_none, List.append_nil, board]
            exact inTurn.holds
      | pull type =>
          obtain ⟨answered, _, rfl, rfl⟩ := pull_handled inTurn.tallied.agrees type handled
          have other : receive.type ≠ .finish := by rw [type]; nofun
          refine ⟨tallied, alone, ?_, ?_⟩
          · rw [finishes_other other, Finset.sdiff_empty, pull_grants answered, Finset.union_empty]
            rw [Errand.posted, if_neg other, Option.toList_none, List.append_nil]
            exact inTurn.turn
          · rw [Errand.posted, if_neg other, Option.toList_none, List.append_nil]
            exact inTurn.holds
      | finish type slot pos outstanding =>
          obtain ⟨answered, _, rfl, rfl⟩ := finish_handled type pos handled
          rcases inTurn.turn with ⟨none, _⟩ | ⟨only, same, here, last⟩
          · exact absurd (none ▸ outstanding) (Finset.notMem_empty slot)
          · have single : granted = {only} := same
            obtain rfl : slot = only := Finset.mem_singleton.mp (single ▸ outstanding)
            have nothing : grants trail = ∅ := by simp [grants, answered]
            rw [Errand.posted, if_pos type, Option.toList_some]
            refine ⟨tallied, alone, .inl ⟨?_, ?_⟩, ?_⟩
            · show granted \ finishes receive ∪ grants trail = ∅
              rw [finishes_slot type pos, nothing, Finset.union_empty, single, Finset.sdiff_self]
            · rw [List.length_append, List.length_singleton]
              show (server.last : Nat) = (done.length + 1 + 9) % 10
              have before : (server.last : Nat) = done.length % 10 := (congrArg Fin.val last).trans here
              omega
            · rw [Disk.unlock_board]
              exact inTurn.holds.post receive.buf.rd here

end InTurn

theorem InTurn.run {initial : Slot → Record} {first : Site n Client} (inTurn : InTurn me initial first [])
    (run : Site.Runs me OneAtATime first events site) : InTurn me initial site (posted events) := by
  induction run with
  | start => exact inTurn
  | @step events event _ _ _ met taken ih =>
      have now := ih.step met taken
      have split : posted (events ++ [event]) = posted events ++ event.posted.toList := by
        rw [posted, List.filterMap_append]
        cases same : event.posted <;> simp [posted, same]
      rwa [split]

/-- Slots are granted in ring order: nothing but a reservation lets a search skip one.  Posts
that come one after the other fill the slots in turn. -/
theorem slots_recycled (unowned : ∀ slot, disk.owner slot = none)
    (booted : Handles me .boot disk trail server disk') :
    (∀ (events : List (Errand n Client)) site,
        Site.Runs me (fun _ event => event.Request) ⟨server, disk', ∅⟩ events site →
        Recycled (history events)) ∧
      ∀ (events : List (Errand n Client)) site, Site.Runs me OneAtATime ⟨server, disk', ∅⟩ events site →
        Holds disk.board (posted events) site.disk.board := by
  have circles := Circles.booted unowned booted
  refine ⟨fun events site run => (circles.run run fun _ _ => id).recycled, fun events site run => ?_⟩
  have start : InTurn me disk.board ⟨server, disk', ∅⟩ [] := by
    refine ⟨circles.tallied, circles.alone, .inl ⟨rfl, ?_⟩, ?_⟩
    · rw [(boot_handled booted).1]
      rfl
    · rw [(boot_handled booted).2]
      exact .nil disk.board
  exact (start.run run).holds

instance (site : Site n Client) (event : Errand n Client) : Decidable (OneAtATime site event) :=
  match event with
  | .request _ receive _ => inferInstanceAs (Decidable (receive.type = .post → site.granted = ∅))
  | .lock _ _ | .unlock _ _ => inferInstanceAs (Decidable False)

instance (event : Errand n Client) : Decidable event.Request :=
  match event with
  | .request _ _ _ => inferInstanceAs (Decidable True)
  | .lock _ _ | .unlock _ _ => inferInstanceAs (Decidable False)

def oneByOne (count : Nat) : List (Errand 1 Unit) :=
  (List.range count).flatMap fun j => [.post, .finish (Fin.ofNat RECORD_NUM j) (.ofNat (97 + j))]

/-- Eleven posts of which the first is not finished, and twelve that are finished in turn. -/
theorem slots_recycled_twelve :
    ∃ (events turns : List (Errand 1 Unit)) (site : Site 1 Unit),
      history events = (List.range RECORD_NUM).map (fun j => .granted (Fin.ofNat RECORD_NUM j)) ++
        [.passed 0, .granted 1] ∧ Recycled (history events) ∧
      posted turns = (List.range 12).map (fun j => .lettered (.ofNat (97 + j))) ∧
      site.disk.board 1 = .lettered 108 ∧ site.disk.board 2 = .lettered 99 ∧
      Holds (fun _ => .zero) (posted turns) site.disk.board := by
  obtain ⟨trail, booted⟩ := ready_booted Unit (0 : Fin 1)
  let start : Site 1 Unit := ⟨.ready, ⟨fun _ => .zero, fun _ => none⟩, ∅⟩
  have recycled := slots_recycled (fun _ => rfl) booted
  have overlaps : (start.performs 0 (fun _ event => event.Request)
      (.post :: (oneByOne RECORD_NUM).drop 2 ++ [.post])).any (fun done => history done.1 =
        (List.range RECORD_NUM).map (fun j => .granted (Fin.ofNat RECORD_NUM j)) ++ [.passed 0, .granted 1]) =
          true := by
    decide +kernel
  have inTurn : (start.performs 0 OneAtATime (oneByOne 12)).any (fun done =>
      posted done.1 = (List.range 12).map (fun j => .lettered (.ofNat (97 + j))) ∧
      done.2.disk.board 1 = .lettered 108 ∧ done.2.disk.board 2 = .lettered 99) = true := by
    decide +kernel
  obtain ⟨some, performed, facts⟩ := (Option.any_eq_true _ _).mp overlaps
  obtain ⟨turns, performed', facts'⟩ := (Option.any_eq_true _ _).mp inTurn
  obtain ⟨posts, latest, stays⟩ := of_decide_eq_true facts'
  exact ⟨some.1, turns.1, turns.2, of_decide_eq_true facts,
    recycled.1 _ _ (Site.runs_of_performs performed), posts, latest, stays,
    recycled.2 _ _ (Site.runs_of_performs performed')⟩

end SysProg.Bulletin
