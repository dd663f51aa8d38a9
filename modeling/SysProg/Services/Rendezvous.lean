import SysProg.Process.Parallel
import SysProg.Services.Manager

namespace SysProg.Services

/-! # The two FIFOs of an exchange

What the two services call in the last phase, and that every order of their calls comes to
the same end.  A service that has made the first `i` of its calls and one that has made the
first `j` determine what is in the FIFOs. -/

open Process

def firstCalls (command : Command) (mine theirs : UInt64) : List Call :=
  [(.arrive command.fifo1 .writer, .unit), (.open command.fifo1 .writer, .unit),
    (.arrive command.fifo2 .reader, .unit), (.open command.fifo2 .reader, .unit),
    (.read command.fifo2, .secret (some theirs)),
    (.print (.acquire_secret command.content0 command.content1 theirs), .unit),
    (.write command.fifo1 mine, .unit), (.close command.fifo1 .writer, .unit),
    (.close command.fifo2 .reader, .unit)]

def secondCalls (command : Command) (mine theirs : UInt64) : List Call :=
  [(.arrive command.fifo1 .reader, .unit), (.open command.fifo1 .reader, .unit),
    (.arrive command.fifo2 .writer, .unit), (.open command.fifo2 .writer, .unit),
    (.write command.fifo2 mine, .unit), (.read command.fifo1, .secret (some theirs)),
    (.print (.acquire_secret command.content1 command.content0 theirs), .unit),
    (.close command.fifo2 .writer, .unit), (.close command.fifo1 .reader, .unit)]

/-- The FIFO that the first service writes to. -/
def Fifo.forth (secret : UInt64) (i j : Nat) : Fifo where
  users
    | .writer => if 1 ≤ i ∧ i < 8 then 1 else 0
    | .reader => if 1 ≤ j ∧ j < 9 then 1 else 0
  data := if 7 ≤ i ∧ j < 6 then [secret] else []

/-- The FIFO that the second service writes to. -/
def Fifo.back (secret : UInt64) (i j : Nat) : Fifo where
  users
    | .reader => if 3 ≤ i ∧ i < 9 then 1 else 0
    | .writer => if 3 ≤ j ∧ j < 8 then 1 else 0
  data := if 5 ≤ j ∧ i < 5 then [secret] else []

/-- A world with two FIFOs in it and lines printed. -/
def World.meet (world : World) (path path' : String) (forth back : Fifo) (lines : List Line) : World :=
  { world with
    fifos := fun other =>
      if other = path then some forth else if other = path' then some back else world.fifos other
    out := world.out ++ lines }

/-- The positions that the two services can have at the same time. -/
structure Meets (i j : Nat) : Prop where
  first : i ≤ 9
  second : j ≤ 9
  opened_forth : 2 ≤ i → 1 ≤ j
  opened_back : 4 ≤ i → 3 ≤ j
  got_back : 5 ≤ i → 5 ≤ j
  forth_opened : 2 ≤ j → 1 ≤ i
  back_opened : 4 ≤ j → 3 ≤ i
  got_forth : 6 ≤ j → 7 ≤ i

def Fifo.enter (fifo : Fifo) (side : Side) : Fifo :=
  { fifo with users := fun other => if other = side then fifo.users other + 1 else fifo.users other }

def Fifo.leave (fifo : Fifo) (side : Side) : Fifo :=
  { fifo with users := fun other => if other = side then fifo.users other - 1 else fifo.users other }

def Fifo.put (fifo : Fifo) (data : List UInt64) : Fifo := { fifo with data }

section Fifos

variable {world : World} {path path' : String} {forth back fifo : Fifo} {lines : List Line}
  {i j i' j' : Nat} {secret : UInt64} {rest : List UInt64} {side : Side}

theorem Fifo.ext {one two : Fifo} (reader : one.users .reader = two.users .reader)
    (writer : one.users .writer = two.users .writer) (data : one.data = two.data) : one = two := by
  obtain ⟨users, data⟩ := one
  obtain ⟨users', data'⟩ := two
  have same : users = users' := by
    funext side
    cases side with
    | reader => exact reader
    | writer => exact writer
  subst same
  congr

theorem exec_arrive (found : world.fifos path = some fifo) :
    exec (.arrive path side) world = some (.unit, world.setFifo path (some (fifo.enter side))) := by
  rw [exec, found]
  rfl

theorem exec_open (found : world.fifos path = some fifo) :
    exec (.open path side) world =
      if 0 < fifo.users side.opposite then some (.unit, world) else none := by
  rw [exec, found]
  rfl

theorem exec_read (found : world.fifos path = some fifo) (data : fifo.data = secret :: rest) :
    exec (.read path) world =
      some (.secret (some secret), world.setFifo path (some (fifo.put rest))) := by
  rw [exec, found, Option.bind_some, data]
  rfl

theorem exec_read_waits (found : world.fifos path = some fifo) (data : fifo.data = [])
    (writers : 0 < fifo.users .writer) : exec (.read path) world = none := by
  rw [exec, found, Option.bind_some, data]
  exact if_pos writers

theorem exec_write (found : world.fifos path = some fifo) (readers : 0 < fifo.users .reader) :
    exec (.write path secret) world =
      some (.unit, world.setFifo path (some (fifo.put (fifo.data ++ [secret])))) := by
  rw [exec, found]
  exact if_pos readers

theorem exec_close (found : world.fifos path = some fifo) :
    exec (.close path side) world = some (.unit, world.setFifo path (some (fifo.leave side))) := by
  rw [exec, found]
  rfl

theorem World.meet_forth : (world.meet path path' forth back lines).fifos path = some forth :=
  if_pos rfl

theorem World.meet_back (different : path' ≠ path) :
    (world.meet path path' forth back lines).fifos path' = some back := by
  show (if path' = path then _ else _) = _
  rw [if_neg different, if_pos rfl]

theorem World.set_forth : (world.meet path path' forth back lines).setFifo path (some fifo) =
    world.meet path path' fifo back lines := by
  rw [setFifo, meet, meet]
  congr 1
  funext other
  by_cases same : other = path <;> simp [same]

theorem World.set_back (different : path' ≠ path) :
    (world.meet path path' forth back lines).setFifo path' (some fifo) =
      world.meet path path' forth fifo lines := by
  rw [setFifo, meet, meet]
  congr 1
  funext other
  by_cases same : other = path'
  · simp [same, different]
  · simp [same]

theorem Fifo.forth_congr (writer : 1 ≤ i ∧ i < 8 ↔ 1 ≤ i' ∧ i' < 8)
    (reader : 1 ≤ j ∧ j < 9 ↔ 1 ≤ j' ∧ j' < 9) (data : 7 ≤ i ∧ j < 6 ↔ 7 ≤ i' ∧ j' < 6) :
    Fifo.forth secret i j = Fifo.forth secret i' j' := by
  simp only [forth, writer, reader, data]

theorem Fifo.back_congr (reader : 3 ≤ i ∧ i < 9 ↔ 3 ≤ i' ∧ i' < 9)
    (writer : 3 ≤ j ∧ j < 8 ↔ 3 ≤ j' ∧ j' < 8) (data : 5 ≤ j ∧ i < 5 ↔ 5 ≤ j' ∧ i' < 5) :
    Fifo.back secret i j = Fifo.back secret i' j' := by
  simp only [back, writer, reader, data]

theorem one_pos {p : Prop} [Decidable p] : 0 < (if p then 1 else 0) ↔ p := by
  split <;> simp [*]

theorem Fifo.forth_readers : 0 < (Fifo.forth secret i j).users .reader ↔ 1 ≤ j ∧ j < 9 :=
  one_pos

theorem Fifo.forth_writers : 0 < (Fifo.forth secret i j).users .writer ↔ 1 ≤ i ∧ i < 8 :=
  one_pos

theorem Fifo.back_readers : 0 < (Fifo.back secret i j).users .reader ↔ 3 ≤ i ∧ i < 9 :=
  one_pos

theorem Fifo.back_writers : 0 < (Fifo.back secret i j).users .writer ↔ 3 ≤ j ∧ j < 8 :=
  one_pos

theorem Fifo.forth_full (written : 7 ≤ i) (unread : j < 6) : (Fifo.forth secret i j).data = [secret] :=
  if_pos ⟨written, unread⟩

theorem Fifo.forth_empty (empty : i < 7 ∨ 6 ≤ j) : (Fifo.forth secret i j).data = [] :=
  if_neg (by omega)

theorem Fifo.back_full (written : 5 ≤ j) (unread : i < 5) : (Fifo.back secret i j).data = [secret] :=
  if_pos ⟨written, unread⟩

theorem Fifo.back_empty (empty : j < 5 ∨ 5 ≤ i) : (Fifo.back secret i j).data = [] :=
  if_neg (by omega)

end Fifos

section Calls

variable (command : Command) (world : World) (first second : UInt64)

/-- The lines that the two services have printed. -/
def told (i j : Nat) : List Line :=
  (if 6 ≤ i then [.acquire_secret command.content0 command.content1 second] else []) ++
    if 7 ≤ j then [.acquire_secret command.content1 command.content0 first] else []

/-- The world when the first service has made `i` calls and the second `j`. -/
def meeting (i j : Nat) : World :=
  world.meet command.fifo1 command.fifo2 (.forth first i j) (.back second i j)
    (told command first second i j)

/-- The next call of the first service does not block. -/
structure FirstReady (i j : Nat) : Prop where
  opens_forth : i = 1 → 1 ≤ j
  opens_back : i = 3 → 3 ≤ j
  reads_back : i = 4 → 5 ≤ j

/-- The next call of the second service does not block. -/
structure SecondReady (i j : Nat) : Prop where
  opens_forth : j = 1 → 1 ≤ i
  opens_back : j = 3 → 3 ≤ i
  reads_forth : j = 5 → 7 ≤ i

variable {command world first second} {op : Op} {val got : Val} {rest : List Call} {world' : World}
  {i j i' j' : Nat} {forth back : Fifo}

theorem told_congr (left : 6 ≤ i ↔ 6 ≤ i') (right : 7 ≤ j ↔ 7 ≤ j') :
    told command first second i j = told command first second i' j' := by
  simp only [told, left, right]

theorem meeting_forth : (meeting command world first second i j).fifos command.fifo1 =
    some (.forth first i j) :=
  World.meet_forth

theorem meeting_back (different : command.fifo2 ≠ command.fifo1) :
    (meeting command world first second i j).fifos command.fifo2 = some (.back second i j) :=
  World.meet_back different

theorem meeting_set_forth (fifo : forth = .forth first i' j')
    (other : Fifo.back second i j = .back second i' j')
    (lines : told command first second i j = told command first second i' j') :
    (meeting command world first second i j).setFifo command.fifo1 (some forth) =
      meeting command world first second i' j' := by
  rw [meeting, World.set_forth, fifo, other, lines, meeting]

theorem meeting_set_back (different : command.fifo2 ≠ command.fifo1)
    (other : Fifo.forth first i j = .forth first i' j') (fifo : back = .back second i' j')
    (lines : told command first second i j = told command first second i' j') :
    (meeting command world first second i j).setFifo command.fifo2 (some back) =
      meeting command world first second i' j' := by
  rw [meeting, World.set_back different, fifo, other, lines, meeting]

theorem meeting_congr (forth : Fifo.forth first i j = .forth first i' j')
    (back : Fifo.back second i j = .back second i' j')
    (lines : told command first second i j = told command first second i' j') :
    meeting command world first second i j = meeting command world first second i' j' := by
  rw [meeting, forth, back, lines, meeting]

theorem meeting_print {line : Line} (forth : Fifo.forth first i j = .forth first i' j')
    (back : Fifo.back second i j = .back second i' j')
    (lines : told command first second i j ++ [line] = told command first second i' j') :
    exec (.print line) (meeting command world first second i j) =
      some (.unit, meeting command world first second i' j') := by
  rw [meeting, meeting, ← forth, ← back, ← lines, World.meet, World.meet,
    ← List.append_assoc]
  rfl

/-- What a call does, if it does not block. -/
def Does (op : Op) (val : Val) (ready : Prop) (world world' : World) : Prop :=
  (ready → exec op world = some (val, world')) ∧ (¬ ready → exec op world = none)

theorem Does.open {path : String} {side : Side} {fifo : Fifo} {ready : Prop} {world world' : World}
    (found : world.fifos path = some fifo) (opens : 0 < fifo.users side.opposite ↔ ready)
    (same : world = world') : Does (.open path side) .unit ready world world' := by
  rw [Does, exec_open found]
  exact ⟨fun here => by rw [if_pos (opens.mpr here), same], fun wait => if_neg fun some => wait (opens.mp some)⟩

theorem Does.always {ready : Prop} {world world' : World} (done : exec op world = some (val, world'))
    (here : ready) : Does op val ready world world' :=
  ⟨fun _ => done, fun wait => absurd here wait⟩

theorem first_does (different : command.fifo2 ≠ command.fifo1) (meets : Meets i j)
    (next : (firstCalls command first second).drop i = (op, val) :: rest) :
    Does op val (FirstReady i j) (meeting command world first second i j)
      (meeting command world first second (i + 1) j) := by
  obtain ⟨_, second_le, opened_forth, opened_back, got_back, forth_opened, back_opened, got_forth⟩ := meets
  match i with
  | 0 =>
      cases next
      refine .always ?_ ⟨nofun, nofun, nofun⟩
      rw [exec_arrive meeting_forth, meeting_set_forth]
      · apply Fifo.ext <;> simp [Fifo.enter, Fifo.forth]
      · exact Fifo.back_congr (by omega) .rfl (by omega)
      · exact told_congr (by omega) .rfl
  | 1 =>
      cases next
      refine .open meeting_forth (Fifo.forth_readers.trans ?_) (meeting_congr ?_ ?_ ?_)
      · exact ⟨fun some => ⟨fun _ => some.1, nofun, nofun⟩, fun ready => ⟨ready.opens_forth rfl, by omega⟩⟩
      · exact Fifo.forth_congr (by omega) .rfl (by omega)
      · exact Fifo.back_congr (by omega) .rfl (by omega)
      · exact told_congr (by omega) .rfl
  | 2 =>
      cases next
      refine .always ?_ ⟨nofun, nofun, nofun⟩
      rw [exec_arrive (meeting_back different), meeting_set_back different]
      · exact Fifo.forth_congr (by omega) .rfl (by omega)
      · apply Fifo.ext <;> simp [Fifo.enter, Fifo.back]
      · exact told_congr (by omega) .rfl
  | 3 =>
      cases next
      refine .open (meeting_back different) (Fifo.back_writers.trans ?_) (meeting_congr ?_ ?_ ?_)
      · exact ⟨fun some => ⟨nofun, fun _ => some.1, nofun⟩, fun ready => ⟨ready.opens_back rfl, by omega⟩⟩
      · exact Fifo.forth_congr (by omega) .rfl (by omega)
      · exact Fifo.back_congr (by omega) .rfl (by omega)
      · exact told_congr (by omega) .rfl
  | 4 =>
      cases next
      refine ⟨fun ready => ?_, fun wait => ?_⟩
      · have written := ready.reads_back rfl
        rw [exec_read (meeting_back different) (Fifo.back_full written (by omega)),
          meeting_set_back different]
        · exact Fifo.forth_congr (by omega) .rfl (by omega)
        · apply Fifo.ext <;> simp [Fifo.put, Fifo.back]
        · exact told_congr (by omega) .rfl
      · have early : j < 5 := by
          by_contra late
          exact wait ⟨nofun, nofun, fun _ => by omega⟩
        exact exec_read_waits (meeting_back different) (Fifo.back_empty (.inl early))
          (Fifo.back_writers.mpr (by omega))
  | 5 =>
      cases next
      refine .always (meeting_print ?_ ?_ ?_) ⟨nofun, nofun, nofun⟩
      · exact Fifo.forth_congr (by omega) .rfl (by omega)
      · exact Fifo.back_congr (by omega) .rfl (by omega)
      · have early : ¬ 7 ≤ j := by omega
        simp [told, early]
  | 6 =>
      cases next
      refine .always ?_ ⟨nofun, nofun, nofun⟩
      rw [exec_write meeting_forth (Fifo.forth_readers.mpr (by omega)), meeting_set_forth]
      · apply Fifo.ext <;> simp [Fifo.put, Fifo.forth]
        omega
      · exact Fifo.back_congr (by omega) .rfl (by omega)
      · exact told_congr (by omega) .rfl
  | 7 =>
      cases next
      refine .always ?_ ⟨nofun, nofun, nofun⟩
      rw [exec_close meeting_forth, meeting_set_forth]
      · apply Fifo.ext <;> simp [Fifo.leave, Fifo.forth]
      · exact Fifo.back_congr (by omega) .rfl (by omega)
      · exact told_congr (by omega) .rfl
  | 8 =>
      cases next
      refine .always ?_ ⟨nofun, nofun, nofun⟩
      rw [exec_close (meeting_back different), meeting_set_back different]
      · exact Fifo.forth_congr (by omega) .rfl (by omega)
      · apply Fifo.ext <;> simp [Fifo.leave, Fifo.back]
      · exact told_congr (by omega) .rfl
  | i + 9 =>
      rw [List.drop_of_length_le (by simp [firstCalls])] at next
      cases next

theorem second_does (different : command.fifo2 ≠ command.fifo1) (meets : Meets i j)
    (next : (secondCalls command second first).drop j = (op, val) :: rest) :
    Does op val (SecondReady i j) (meeting command world first second i j)
      (meeting command world first second i (j + 1)) := by
  obtain ⟨first_le, _, opened_forth, opened_back, got_back, forth_opened, back_opened, got_forth⟩ := meets
  match j with
  | 0 =>
      cases next
      refine .always ?_ ⟨nofun, nofun, nofun⟩
      rw [exec_arrive meeting_forth, meeting_set_forth]
      · apply Fifo.ext <;> simp [Fifo.enter, Fifo.forth]
      · exact Fifo.back_congr .rfl (by omega) (by omega)
      · exact told_congr .rfl (by omega)
  | 1 =>
      cases next
      refine .open meeting_forth (Fifo.forth_writers.trans ?_) (meeting_congr ?_ ?_ ?_)
      · exact ⟨fun some => ⟨fun _ => some.1, nofun, nofun⟩, fun ready => ⟨ready.opens_forth rfl, by omega⟩⟩
      · exact Fifo.forth_congr .rfl (by omega) (by omega)
      · exact Fifo.back_congr .rfl (by omega) (by omega)
      · exact told_congr .rfl (by omega)
  | 2 =>
      cases next
      refine .always ?_ ⟨nofun, nofun, nofun⟩
      rw [exec_arrive (meeting_back different), meeting_set_back different]
      · exact Fifo.forth_congr .rfl (by omega) (by omega)
      · apply Fifo.ext <;> simp [Fifo.enter, Fifo.back]
      · exact told_congr .rfl (by omega)
  | 3 =>
      cases next
      refine .open (meeting_back different) (Fifo.back_readers.trans ?_) (meeting_congr ?_ ?_ ?_)
      · exact ⟨fun some => ⟨nofun, fun _ => some.1, nofun⟩, fun ready => ⟨ready.opens_back rfl, by omega⟩⟩
      · exact Fifo.forth_congr .rfl (by omega) (by omega)
      · exact Fifo.back_congr .rfl (by omega) (by omega)
      · exact told_congr .rfl (by omega)
  | 4 =>
      cases next
      refine .always ?_ ⟨nofun, nofun, nofun⟩
      rw [exec_write (meeting_back different) (Fifo.back_readers.mpr (by omega)),
        meeting_set_back different]
      · exact Fifo.forth_congr .rfl (by omega) (by omega)
      · have early : i < 5 := by omega
        apply Fifo.ext <;> simp [Fifo.put, Fifo.back, early]
      · exact told_congr .rfl (by omega)
  | 5 =>
      cases next
      refine ⟨fun ready => ?_, fun wait => ?_⟩
      · have written := ready.reads_forth rfl
        rw [exec_read meeting_forth (Fifo.forth_full written (by omega)), meeting_set_forth]
        · apply Fifo.ext <;> simp [Fifo.put, Fifo.forth]
        · exact Fifo.back_congr .rfl (by omega) (by omega)
        · exact told_congr .rfl (by omega)
      · have early : i < 7 := by
          by_contra late
          exact wait ⟨nofun, nofun, fun _ => by omega⟩
        exact exec_read_waits meeting_forth (Fifo.forth_empty (.inl early))
          (Fifo.forth_writers.mpr (by omega))
  | 6 =>
      cases next
      refine .always (meeting_print ?_ ?_ ?_) ⟨nofun, nofun, nofun⟩
      · exact Fifo.forth_congr .rfl (by omega) (by omega)
      · exact Fifo.back_congr .rfl (by omega) (by omega)
      · simp [told]
  | 7 =>
      cases next
      refine .always ?_ ⟨nofun, nofun, nofun⟩
      rw [exec_close (meeting_back different), meeting_set_back different]
      · exact Fifo.forth_congr .rfl (by omega) (by omega)
      · apply Fifo.ext <;> simp [Fifo.leave, Fifo.back]
      · exact told_congr .rfl (by omega)
  | 8 =>
      cases next
      refine .always ?_ ⟨nofun, nofun, nofun⟩
      rw [exec_close meeting_forth, meeting_set_forth]
      · apply Fifo.ext <;> simp [Fifo.leave, Fifo.forth]
      · exact Fifo.back_congr .rfl (by omega) (by omega)
      · exact told_congr .rfl (by omega)
  | j + 9 =>
      rw [List.drop_of_length_le (by simp [secondCalls])] at next
      cases next

theorem Meets.first_moves (meets : Meets i j) (below : i < 9) (ready : FirstReady i j) :
    Meets (i + 1) j := by
  obtain ⟨_, second_le, opened_forth, opened_back, got_back, forth_opened, back_opened, got_forth⟩ := meets
  obtain ⟨opens_forth, opens_back, reads_back⟩ := ready
  constructor <;> omega

theorem Meets.second_moves (meets : Meets i j) (below : j < 9) (ready : SecondReady i j) :
    Meets i (j + 1) := by
  obtain ⟨first_le, _, opened_forth, opened_back, got_back, forth_opened, back_opened, got_forth⟩ := meets
  obtain ⟨opens_forth, opens_back, reads_forth⟩ := ready
  constructor <;> omega

/-- The two services never wait for each other. -/
theorem Meets.ready (meets : Meets i j) (below : i < 9 ∨ j < 9) :
    (i < 9 ∧ FirstReady i j) ∨ (j < 9 ∧ SecondReady i j) := by
  obtain ⟨first_le, second_le, opened_forth, opened_back, got_back, forth_opened, back_opened, got_forth⟩ := meets
  by_cases here : i < 9 ∧ (i = 1 → 1 ≤ j) ∧ (i = 3 → 3 ≤ j) ∧ (i = 4 → 5 ≤ j)
  · exact .inl ⟨here.1, here.2.1, here.2.2.1, here.2.2.2⟩
  · refine .inr ⟨by omega, ⟨by omega, by omega, by omega⟩⟩

theorem Does.returns {ready : Prop} {world world' middle : World} (does : Does op val ready world middle)
    (done : exec op world = some (got, world')) : ready ∧ got = val ∧ world' = middle := by
  by_cases here : ready
  · rw [does.1 here] at done
    cases done
    exact ⟨here, rfl, rfl⟩
  · rw [does.2 here] at done
    cases done

end Calls

theorem drop_cons {calls rest : List Call} {call : Call} {i : Nat} (next : calls.drop i = call :: rest) :
    i < calls.length ∧ rest = calls.drop (i + 1) := by
  constructor
  · by_contra late
    rw [List.drop_of_length_le (Nat.le_of_not_lt late)] at next
    cases next
  · rw [← List.tail_drop, next, List.tail_cons]

theorem drop_some (calls : List Call) {i : Nat} (below : i < calls.length) :
    ∃ op val rest, calls.drop i = (op, val) :: rest :=
  ⟨_, _, _, List.drop_eq_getElem_cons below⟩

theorem drop_none {calls : List Call} {i : Nat} (none : [] = calls.drop i) : calls.length ≤ i :=
  List.drop_eq_nil_iff.mp none.symm

/-- What is left of the calls of both services, and the world that belongs to it. -/
def Between (command : Command) (world : World) (first second : UInt64) (xs ys : List Call)
    (now : World) : Prop :=
  ∃ i j, Meets i j ∧ xs = (firstCalls command first second).drop i ∧
    ys = (secondCalls command second first).drop j ∧ now = meeting command world first second i j

/-- Every order of the calls that the FIFOs admit can be carried on to the end. -/
theorem exchange_pairs {command : Command} (different : command.fifo2 ≠ command.fifo1) (world : World)
    (first second : UInt64) :
    Pairs machine (fun last => last = meeting command world first second 9 9)
      (Between command world first second) where
  goes := by
    intro _ _ _ facts busy
    obtain ⟨i, j, meets, rfl, rfl, rfl⟩ := facts
    have below : i < 9 ∨ j < 9 := by
      simpa [firstCalls, secondCalls, List.drop_eq_nil_iff] using busy
    rcases meets.ready below with ⟨left, ready⟩ | ⟨left, ready⟩
    · obtain ⟨op, val, rest, next⟩ := drop_some (firstCalls command first second) left
      refine .inl ⟨op, val, rest, next, ?_⟩
      exact Option.isSome_of_eq_some ((first_does different meets next).1 ready)
    · obtain ⟨op, val, rest, next⟩ := drop_some (secondCalls command second first) left
      refine .inr ⟨op, val, rest, next, ?_⟩
      exact Option.isSome_of_eq_some ((second_does different meets next).1 ready)
  left := by
    intro op val xs ys _ got world' facts done
    obtain ⟨i, j, meets, next, rest, rfl⟩ := facts
    obtain ⟨ready, rfl, rfl⟩ := (first_does different meets next.symm).returns done
    obtain ⟨below, behind⟩ := drop_cons next.symm
    exact ⟨rfl, i + 1, j, meets.first_moves below ready, behind, rest, rfl⟩
  right := by
    intro op val xs ys _ got world' facts done
    obtain ⟨i, j, meets, rest, next, rfl⟩ := facts
    obtain ⟨ready, rfl, rfl⟩ := (second_does different meets next.symm).returns done
    obtain ⟨below, behind⟩ := drop_cons next.symm
    exact ⟨rfl, i, j + 1, meets.second_moves below ready, rest, behind, rfl⟩
  ends := by
    intro _ reached
    obtain ⟨i, j, meets, no_first, no_second, rfl⟩ := reached
    obtain rfl : i = 9 := Nat.le_antisymm meets.first (drop_none no_first)
    obtain rfl : j = 9 := Nat.le_antisymm meets.second (drop_none no_second)
    rfl

end SysProg.Services
