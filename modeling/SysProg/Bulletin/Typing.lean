import SysProg.Bulletin.Client
import SysProg.Bulletin.Framing
import SysProg.Bulletin.Ring
import SysProg.Data.Memory

namespace SysProg.Bulletin

open Data (overwrite string)

/-! # What a client types

The two `scanf` calls write into the bytes of a `message` with no bound, and a pull prints
the two arrays of a `record` up to the next terminator. -/

/-- The `message` in a block of memory. -/
def messageAt (block : Bytes) : Message where
  rd := { From := field block 0 FROM_LEN, Content := field block FROM_LEN CONTENT_LEN }
  pos :=
    (((block.getD 28 0).toNat + 256 * (block.getD 29 0).toNat + 65536 * (block.getD 30 0).toNat
      + 16777216 * (block.getD 31 0).toNat : Nat) : Int).bmod 4294967296

/-- The `message` that a client has received with `!available`. -/
structure Available (slot : Slot) where
  block : Bytes
  size : block.length = sizeof_message
  pos : (messageAt block).pos = slot

def isspace (byte : UInt8) : Bool := byte = 32 ∨ (9 ≤ byte ∧ byte ≤ 13)

/-- A word that `scanf` reads and that ends inside the `message` when it is written from
`offset` on. -/
structure Word (offset : Nat) where
  bytes : Bytes
  some : bytes ≠ []
  solid : ∀ byte ∈ bytes, isspace byte = false
  inside : offset + bytes.length < sizeof_message

def Word.token {offset size : Nat} (word : Word offset) (short : word.bytes.length < size) : Token size :=
  ⟨word.bytes, short⟩

/-- `scanf("%s", block + offset)`. -/
def scanfAt (offset : Nat) (word block : Bytes) : Bytes := overwrite offset (word ++ [0]) block

/-- The `message` behind the two `scanf` calls. -/
def typed (FROM CONTENT block : Bytes) : Bytes := scanfAt FROM_LEN CONTENT (scanfAt 0 FROM block)

/-- The `io` of the `!finish`: `spare` is what `type` holds behind the command, `rest` what
follows the `message` in `buf`. -/
def finishIo (spare rest block : Bytes) : Bytes := literal_finish ++ spare ++ (block ++ rest)

/-- `printf("FROM: %s\n", rd.From)`, with the memory behind `rd`. -/
def Record.printFrom (behind : Bytes) (rd : Record) : Bytes :=
  string 0 (rd.From.toList ++ (rd.Content.toList ++ behind))

/-- `printf("CONTENT:\n%s\n", rd.Content)`. -/
def Record.printContent (behind : Bytes) (rd : Record) : Bytes :=
  string 0 (rd.Content.toList ++ behind)

/-- The record is printed as these two words, whatever the memory behind it. -/
structure Record.Prints (rd : Record) (FROM CONTENT : Bytes) : Prop where
  From : ∀ behind, rd.printFrom behind = FROM
  Content : ∀ behind, rd.printContent behind = CONTENT

/-- Words that a record gives back. -/
structure Fits (FROM CONTENT : Bytes) : Prop where
  From : 0 ∉ FROM
  Content : 0 ∉ CONTENT
  short : CONTENT.length < CONTENT_LEN
  joined : FROM.length < FROM_LEN ∨ FROM.drop FROM_LEN = CONTENT

theorem toList_field {receive : Bytes} {offset size : Nat} (covers : offset + size ≤ receive.length) :
    (field receive offset size).toList = (receive.drop offset).take size := by
  apply List.ext_getElem
  · rw [Vector.length_toList, List.length_take, List.length_drop]
    omega
  · intro i inside _
    rw [Vector.length_toList] at inside
    have here : offset + i < receive.length := by omega
    simp [field, List.getD_eq_getElem?_getD, here]

theorem messageOf_drop (receive : Bytes) : messageOf receive = messageAt (receive.drop TYPE_SIZE) := by
  have bytes : ∀ i, (receive.drop TYPE_SIZE).getD i 0 = receive.getD (TYPE_SIZE + i) 0 := by
    intro i
    rw [List.getD_eq_getElem?_getD, List.getElem?_drop, ← List.getD_eq_getElem?_getD]
  have fields : ∀ offset size, field (receive.drop TYPE_SIZE) offset size =
      field receive (TYPE_SIZE + offset) size := by
    intro offset size
    unfold field
    congr 1
    funext i
    rw [bytes, Nat.add_assoc]
  simp only [messageOf, messageAt, fields, bytes, posByte]
  rfl

theorem messageAt_append {block rest : Bytes} (size : block.length = sizeof_message) :
    messageAt (block ++ rest) = messageAt block := by
  have bytes : ∀ i, i < sizeof_message → (block ++ rest).getD i 0 = block.getD i 0 := by
    intro i small
    rw [List.getD_append _ _ _ _ (by omega)]
  have fields : ∀ offset size, offset + size ≤ sizeof_message →
      field (block ++ rest) offset size = field block offset size := by
    intro offset size bound
    unfold field
    congr 1
    funext i
    exact bytes _ (by omega)
  unfold messageAt
  rw [fields _ _ (by decide), fields _ _ (by decide), bytes 28 (by decide), bytes 29 (by decide),
    bytes 30 (by decide), bytes 31 (by decide)]

/-- The server takes the message of a `!finish` as the client has filled it. -/
theorem request_finishIo {spare rest block : Bytes} (type : literal_finish.length + spare.length = TYPE_SIZE)
    (size : block.length = sizeof_message) :
    request (finishIo spare rest block) = some (.finish (messageAt block)) := by
  have message : messageOf (finishIo spare rest block) = messageAt block := by
    rw [messageOf_drop, finishIo, List.drop_left' (by rw [List.length_append, type]), messageAt_append size]
  rw [← message]
  simp [request, finishIo, strcmp, literal_post, literal_exit, literal_pull, literal_finish, literal]

section Typed

variable {block FROM CONTENT before behind : Bytes} {rd : Record}

/-- Two arrays into which words have been written are printed as these words exactly if the
words fit. -/
theorem prints_iff (From : rd.From.toList = (FROM ++ 0 :: before).take FROM_LEN)
    (Content : rd.Content.toList = (CONTENT ++ 0 :: behind).take CONTENT_LEN) :
    rd.Prints FROM CONTENT ↔ Fits FROM CONTENT := by
  constructor
  · intro both
    obtain ⟨prints, prints'⟩ := both
    have clean : 0 ∉ FROM := prints [] ▸ Data.notMem_string _ _
    have clean' : 0 ∉ CONTENT := prints' [] ▸ Data.notMem_string _ _
    refine ⟨clean, clean', ?_, ?_⟩
    · by_contra long
      have fills (memory : Bytes) : CONTENT.take CONTENT_LEN ++ string 0 memory = CONTENT := by
        rw [← Data.string_long clean' (Nat.le_of_not_lt long), ← Content]
        exact prints' memory
      have same := List.append_cancel_left ((fills []).trans (fills [1]).symm)
      exact absurd same (by decide)
    · by_cases short : FROM.length < FROM_LEN
      · exact .inl short
      · have joined : FROM.take FROM_LEN ++ CONTENT = FROM := by
          rw [← prints' [], Record.printContent, ← Data.string_long clean (Nat.le_of_not_lt short), ← From]
          exact prints []
        have whole : FROM.take FROM_LEN ++ FROM.drop FROM_LEN = FROM.take FROM_LEN ++ CONTENT := by
          rw [List.take_append_drop, joined]
        exact .inr (List.append_cancel_left whole)
  · intro fits
    obtain ⟨clean, clean', short, joined⟩ := fits
    have prints (memory : Bytes) : rd.printContent memory = CONTENT := by
      rw [Record.printContent, Content, Data.string_short clean' short]
    refine ⟨fun memory => ?_, prints⟩
    by_cases ends : FROM.length < FROM_LEN
    · rw [Record.printFrom, From, Data.string_short clean ends]
    · have drop := joined.resolve_left ends
      rw [Record.printFrom, From, Data.string_long clean (Nat.le_of_not_lt ends)]
      calc FROM.take FROM_LEN ++ string 0 (rd.Content.toList ++ memory)
          = FROM.take FROM_LEN ++ CONTENT := by rw [← prints memory, Record.printContent]
        _ = FROM := by rw [← drop, List.take_append_drop]

theorem Word.scanfAt {offset : Nat} (word : Word offset) (size : block.length = sizeof_message) :
    (scanfAt offset word.bytes block).length = sizeof_message := by
  have inside := word.inside
  rw [Bulletin.scanfAt, Data.length_overwrite, size]
  rw [List.length_append, List.length_singleton, size]
  omega

theorem messageAt_from (size : block.length = sizeof_message) :
    (messageAt block).rd.From.toList = block.take FROM_LEN := by
  rw [messageAt, toList_field (by rw [size]; decide), List.drop_zero]

theorem messageAt_content (size : block.length = sizeof_message) :
    (messageAt block).rd.Content.toList = (block.drop FROM_LEN).take CONTENT_LEN := by
  rw [messageAt, toList_field (by rw [size]; decide)]

end Typed

section Words

variable {FROM : Word 0} {CONTENT : Word FROM_LEN} {block : Bytes}

theorem length_typed (FROM : Word 0) (CONTENT : Word FROM_LEN) (size : block.length = sizeof_message) :
    (typed FROM.bytes CONTENT.bytes block).length = sizeof_message := by
  rw [typed, CONTENT.scanfAt (FROM.scanfAt size)]

theorem typed_from (size : block.length = sizeof_message) :
    (messageAt (typed FROM.bytes CONTENT.bytes block)).rd.From.toList =
      (FROM.bytes ++ 0 :: block.drop (FROM.bytes.length + 1)).take FROM_LEN := by
  have first := FROM.scanfAt size
  rw [messageAt_from (length_typed FROM CONTENT size), typed, scanfAt, Data.take_overwrite (Nat.le_refl _), scanfAt, overwrite]
  · simp
  · rw [first]
    decide

theorem typed_content (size : block.length = sizeof_message) :
    (messageAt (typed FROM.bytes CONTENT.bytes block)).rd.Content.toList =
      (CONTENT.bytes ++ 0 :: (scanfAt 0 FROM.bytes block).drop (FROM_LEN + CONTENT.bytes.length + 1)).take
        CONTENT_LEN := by
  have first := FROM.scanfAt size
  rw [messageAt_content (length_typed FROM CONTENT size), typed, scanfAt, Data.drop_overwrite, List.append_assoc,
    List.length_append, List.length_singleton, ← Nat.add_assoc]
  · rfl
  · rw [first]
    decide

/-- The two words are printed as they were typed exactly if they fit. -/
theorem prints_typed_iff (FROM : Word 0) (CONTENT : Word FROM_LEN) (size : block.length = sizeof_message) :
    (messageAt (typed FROM.bytes CONTENT.bytes block)).rd.Prints FROM.bytes CONTENT.bytes ↔
      Fits FROM.bytes CONTENT.bytes :=
  prints_iff (typed_from size) (typed_content size)

/-- Words that end before `pos` leave it as it was. -/
theorem typed_pos (size : block.length = sizeof_message) (short : FROM.bytes.length < 28)
    (short' : FROM_LEN + CONTENT.bytes.length < 28) :
    (messageAt (typed FROM.bytes CONTENT.bytes block)).pos = (messageAt block).pos := by
  have first := FROM.scanfAt size
  have behind : ∀ i, 28 ≤ i → (typed FROM.bytes CONTENT.bytes block).getD i 0 = block.getD i 0 := by
    intro i large
    rw [List.getD_eq_getElem?_getD, typed, scanfAt, Data.overwrite_behind, scanfAt, Data.overwrite_behind,
      ← List.getD_eq_getElem?_getD]
    · rw [List.length_append, List.length_singleton]
      omega
    · exact Nat.zero_le _
    · rw [List.length_append, List.length_singleton]
      omega
    · rw [first]
      decide
  simp only [messageAt]
  rw [behind 28 (by decide), behind 29 (by decide), behind 30 (by decide), behind 31 (by decide)]

theorem Fits.pos (fits : Fits FROM.bytes CONTENT.bytes) (size : block.length = sizeof_message) :
    (messageAt (typed FROM.bytes CONTENT.bytes block)).pos = (messageAt block).pos := by
  have short : CONTENT.bytes.length < 20 := fits.short
  apply typed_pos size
  · rcases fits.joined with less | joined
    · exact Nat.lt_trans less (by decide)
    · have length : FROM.bytes.length - 5 = CONTENT.bytes.length := by
        rw [← joined, List.length_drop]
        rfl
      omega
  · exact Nat.lt_trans (Nat.add_lt_add_left short FROM_LEN) (by decide)

theorem toList_scanf {size : Nat} (array : Vector UInt8 size) (token : Token size) :
    (scanf array token).toList = token.val ++ 0 :: array.toList.drop (token.val.length + 1) := by
  have short := token.property
  apply List.ext_getElem
  · simp only [Vector.length_toList, List.length_append, List.length_cons, List.length_drop]
    omega
  · intro i inside _
    rw [Vector.length_toList] at inside
    simp only [scanf, Vector.getElem_toList, Vector.getElem_ofFn]
    rcases Nat.lt_trichotomy i token.val.length with before | here | behind
    · rw [dif_pos before, List.getElem_append_left before]
      rfl
    · rw [dif_neg (by omega), if_pos here]
      simp [here]
    · rw [dif_neg (by omega), if_neg (by omega)]
      obtain ⟨j, rfl⟩ : ∃ j, i = token.val.length + (j + 1) := ⟨i - token.val.length - 1, by omega⟩
      rw [List.getElem_append_right (by omega)]
      simp only [Nat.add_sub_cancel_left, List.getElem_cons_succ, List.getElem_drop, Vector.getElem_toList,
        Nat.add_assoc, Nat.add_comm 1 j]
      rfl

theorem Word.toList_scanf {offset size : Nat} (word : Word offset) (array : Vector UInt8 size)
    (short : word.bytes.length < size) :
    (scanf array (word.token short)).toList = word.bytes ++ 0 :: array.toList.drop (word.bytes.length + 1) :=
  Bulletin.toList_scanf array (word.token short)

/-- Over words that fit their arrays the two calls are those of the client's state. -/
theorem typed_scanf (size : block.length = sizeof_message) (short : FROM.bytes.length < FROM_LEN)
    (short' : CONTENT.bytes.length < CONTENT_LEN) :
    messageAt (typed FROM.bytes CONTENT.bytes block) = { messageAt block with rd :=
      ⟨scanf (messageAt block).rd.From (FROM.token short),
        scanf (messageAt block).rd.Content (CONTENT.token short')⟩ } := by
  have arrays {m : Nat} {word rest : Bytes} (inside : word.length < m) :
      (word ++ 0 :: rest).take m = word ++ 0 :: rest.take (m - (word.length + 1)) := by
    obtain ⟨left, rfl⟩ : ∃ left, m = word.length + (left + 1) := ⟨m - word.length - 1, by omega⟩
    rw [List.take_length_add_append, List.take_succ_cons]
    congr 3
    omega
  have From : (messageAt (typed FROM.bytes CONTENT.bytes block)).rd.From =
      scanf (messageAt block).rd.From (FROM.token short) := by
    apply Vector.toList_inj.mp
    rw [typed_from size, FROM.toList_scanf, messageAt_from size, arrays short, List.drop_take]
  have Content : (messageAt (typed FROM.bytes CONTENT.bytes block)).rd.Content =
      scanf (messageAt block).rd.Content (CONTENT.token short') := by
    apply Vector.toList_inj.mp
    rw [typed_content size, CONTENT.toList_scanf, messageAt_content size, arrays short', List.drop_take, List.drop_drop,
      scanfAt, Data.drop_overwrite_behind, Nat.add_assoc]
    · rw [List.length_append, List.length_singleton]
      omega
    · exact Nat.zero_le _
  have pos : (messageAt (typed FROM.bytes CONTENT.bytes block)).pos = (messageAt block).pos :=
    typed_pos size (Nat.lt_trans short (by decide)) (Nat.lt_trans (Nat.add_lt_add_left short' FROM_LEN) (by decide))
  have rebuilt (msg : Message) : msg = ⟨⟨msg.rd.From, msg.rd.Content⟩, msg.pos⟩ := rfl
  rw [rebuilt (messageAt (typed FROM.bytes CONTENT.bytes block)), From, Content, pos]

/-- What a client sends whose words fit is what is in its bytes. -/
theorem fill_sends {now : ClientState} (size : block.length = sizeof_message)
    (short : FROM.bytes.length < FROM_LEN) (short' : CONTENT.bytes.length < CONTENT_LEN)
    (types : now.control = .typing (messageAt block)) :
    now.move (.fill (FROM.token short) (CONTENT.token short')) =
      some { now.send ⟨.finish, messageAt (typed FROM.bytes CONTENT.bytes block)⟩ .prompt with
        filled := some (messageAt (typed FROM.bytes CONTENT.bytes block)) } := by
  simp only [ClientState.move, types, typed_scanf size short short']

end Words

/-! ## From the prompt to a pull -/

variable {n : Nat} {Client : Type} {me : Fin n} {server server' : Server Client} {disk disk' : Disk n}
  {client : Client} {trail : List (Made n Client)} {site next later : Site n Client}
  {event : Errand n Client} {events : List (Errand n Client)} {slot : Slot}

/-- A request that does not finish this slot, or a lock of another process. -/
def Errand.Keeps (slot : Slot) : Errand n Client → Prop
  | .request _ receive _ => slot ∉ finishes receive
  | _ => True

theorem Tallied.board (tallied : Tallied me site) (keeps : event.Keeps slot)
    (taken : Site.Step me event site next) : next.disk.board slot = site.disk.board slot := by
  cases taken with
  | lock other place => rw [Disk.write_lock_board]
  | unlock other place => rw [Disk.unlock_board]
  | request client receive allowed handled =>
      cases allowed with
      | post type =>
          cases post_handled tallied.agrees type handled with
          | refused => rfl
          | granted => rw [Disk.write_lock_board]
      | pull type =>
          obtain ⟨_, _, _, rfl⟩ := pull_handled tallied.agrees type handled
          rfl
      | finish type place pos outstanding =>
          obtain ⟨_, _, _, rfl⟩ := finish_handled type pos handled
          have other : slot ≠ place := by
            intro same
            apply keeps
            rw [finishes_slot type pos, same]
            exact Finset.mem_singleton_self place
          rw [Disk.unlock_board]
          exact Function.update_of_ne other _ _

/-- Only its `!finish` changes what is in a slot. -/
theorem Tallied.board_run (tallied : Tallied me site)
    (run : Site.Runs me (fun _ event => event.Keeps slot) site events later) :
    later.disk.board slot = site.disk.board slot := by
  induction run with
  | start => rfl
  | step run keeps taken ih => rw [(tallied.run run).board keeps taken, ih]

/-- The `!finish` of a slot: it has the slot's index, it writes and frees that slot and no other,
and every later pull that finds the slot free shows the words, as long as no other post is
finished there. -/
structure Carries (me : Fin n) (site : Site n Client) (client : Client) (slot : Slot) (msg : Message)
    (FROM CONTENT : Bytes) : Prop where
  pos : msg.pos = slot
  handled : ∃ trail next, Site.Step me (.request client ⟨.finish, msg⟩ trail) site next
  frees : ∀ trail next, Site.Step me (.request client ⟨.finish, msg⟩ trail) site next →
    next.disk.board = Function.update site.disk.board slot msg.rd ∧
      next.disk.owner = Function.update site.disk.owner slot none ∧
      next.server.locked = Function.update site.server.locked slot false
  pulled : ∀ trail next events later, Site.Step me (.request client ⟨.finish, msg⟩ trail) site next →
    Site.Runs me (fun _ event => event.Keeps slot) next events later →
    ¬ Taken me later.server later.disk slot → ∀ reader receive trail server disk, receive.type = .pull →
      Handles me (later.server.dispatch reader receive) later.disk trail server disk →
      .record (later.disk.board slot) ∈ answers trail ∧ (later.disk.board slot).Prints FROM CONTENT

/-- A message with the slot's index finishes the slot. -/
theorem Tallied.frees {msg : Message} (tallied : Tallied me site) (outstanding : slot ∈ site.granted)
    (pos : msg.pos = slot) (finish : Site.Step me (.request client ⟨.finish, msg⟩ trail) site next) :
    next.disk.board = Function.update site.disk.board slot msg.rd ∧
      next.disk.owner = Function.update site.disk.owner slot none ∧
      next.server.locked = Function.update site.server.locked slot false := by
  have index : slotOf msg.pos = some slot := by rw [pos, slotOf_val]
  have held : site.disk.owner slot = some me := (tallied.agrees slot).mpr ((tallied.granted slot).mp outstanding)
  cases finish with
  | request _ _ _ made =>
      obtain ⟨_, _, rfl, rfl⟩ := finish_handled rfl index made
      refine ⟨?_, ?_, rfl⟩
      · rw [Disk.unlock_board]
        rfl
      · exact Disk.unlock_owner held

/-- A pull shows a slot that is free and not empty. -/
theorem pull_shows {receive : Io} (agrees : Agrees me server disk) (type : receive.type = .pull)
    (free : ¬ Taken me server disk slot) (some : (disk.board slot).empty = false)
    (handled : Handles me (server.dispatch client receive) disk trail server' disk') :
    .record (disk.board slot) ∈ answers trail := by
  rw [(pull_handled agrees type handled).answered, shows_posts]
  apply List.mem_append_left
  apply List.mem_map_of_mem (f := fun slot => Answer.record (disk.board slot))
  rw [List.mem_filter]
  refine ⟨List.mem_finRange slot, ?_⟩
  simp [free, some]

/-- A record that prints a word that is not empty is not empty. -/
theorem Record.Prints.not_empty {rd : Record} {FROM CONTENT : Bytes} (prints : rd.Prints FROM CONTENT)
    (word : FROM ≠ []) : rd.empty = false := by
  obtain ⟨⟨first, others⟩, listed⟩ : ∃ word : UInt8 × Bytes, rd.From.toList = word.1 :: word.2 := by
    cases listed : rd.From.toList with
    | nil => cases (rd.From.length_toList.symm.trans (congrArg List.length listed) : FROM_LEN = 0)
    | cons first others => exact ⟨(first, others), rfl⟩
  have head : rd.From.get ⟨0, by decide⟩ = first := by
    have same : rd.From.toList[0]? = some first := by rw [listed]; rfl
    rw [Vector.getElem?_toList, Vector.getElem?_eq_getElem (by decide), Option.some.injEq] at same
    exact same
  by_contra none
  rw [Bool.not_eq_false, Record.empty, decide_eq_true_eq, head] at none
  apply word
  rw [← prints.From [], Record.printFrom, listed, none]
  rfl

/-- A slot that is finished is free. -/
theorem not_taken (owner : disk.owner slot = none) (locked : server.locked slot = false) :
    ¬ Taken me server disk slot := by
  simp [Taken, Disk.lockable, owner, locked]

/-- A post comes back as it was typed exactly if the two words fit. -/
theorem finish_carries_iff (unowned : ∀ slot, disk.owner slot ≠ some me)
    (booted : Handles me .boot disk trail server disk')
    (run : Site.Runs me (fun _ _ => True) ⟨server, disk', ∅⟩ events site) (outstanding : slot ∈ site.granted)
    (client : Client) (available : Available slot) (FROM : Word 0) (CONTENT : Word FROM_LEN) {spare : Bytes}
    (type : literal_finish.length + spare.length = TYPE_SIZE) (rest : Bytes) :
    (∃ msg, request (finishIo spare rest (typed FROM.bytes CONTENT.bytes available.block)) = some (.finish msg) ∧
      Carries me site client slot msg FROM.bytes CONTENT.bytes) ↔ Fits FROM.bytes CONTENT.bytes := by
  have tallied : Tallied me site := (Tallied.booted unowned booted).run run
  have received : request (finishIo spare rest (typed FROM.bytes CONTENT.bytes available.block)) = some _ :=
    request_finishIo type (length_typed FROM CONTENT available.size)
  have prints_iff := prints_typed_iff FROM CONTENT available.size
  constructor
  · intro carried
    obtain ⟨msg, same, carries⟩ := carried
    obtain ⟨trail, next, finish⟩ := carries.handled
    obtain ⟨board, owner, locked⟩ := carries.frees trail next finish
    have free : ¬ Taken me next.server next.disk slot :=
      not_taken (by rw [owner, Function.update_self]) (by rw [locked, Function.update_self])
    have pull : Allowed next.granted ⟨.pull, ⟨.zero, 0⟩⟩ := .pull rfl
    obtain ⟨trail', server, disk, made⟩ := request_ends me client pull
    obtain ⟨_, prints⟩ := carries.pulled trail next [] next finish .start free client _ trail' server disk rfl made
    rw [board, Function.update_self] at prints
    rw [received, Option.some.injEq, Request.finish.injEq] at same
    rw [← prints_iff, same]
    exact prints
  · intro fits
    have pos := (fits.pos available.size).trans available.pos
    have prints := prints_iff.mpr fits
    refine ⟨_, received, pos, ?_, ?_, ?_⟩
    · have allowed : Allowed site.granted ⟨.finish, messageAt (typed FROM.bytes CONTENT.bytes available.block)⟩ :=
        .finish rfl slot (by rw [pos, slotOf_val]) outstanding
      obtain ⟨trail, server, disk, made⟩ := request_ends me client allowed
      exact ⟨trail, _, .request client _ allowed made⟩
    · exact fun trail next finish => tallied.frees outstanding pos finish
    · intro trail next events later finish run free reader receive trail' server disk type made
      have tallied' := tallied.step finish
      have shown : (later.disk.board slot).Prints FROM.bytes CONTENT.bytes := by
        rw [tallied'.board_run run, (tallied.frees outstanding pos finish).1, Function.update_self]
        exact prints
      exact ⟨pull_shows (tallied'.run run).agrees type free (shown.not_empty FROM.some) made, shown⟩

theorem Tallied.grants_next (tallied : Tallied me site) (client : Client)
    (free : ¬ Taken me site.server site.disk (site.server.last + 1)) :
    ∃ trail, Site.Step me (.request client ⟨.post, ⟨.zero, 0⟩⟩ trail) site
      ⟨{ (site.server.reserve (site.server.last + 1) true).moveTo .polling with last := site.server.last + 1 },
        site.disk.write_lock me (site.server.last + 1), site.granted ∪ {site.server.last + 1}⟩ := by
  have post : Allowed site.granted ⟨.post, ⟨.zero, 0⟩⟩ := .post rfl
  obtain ⟨trail, server, disk, made⟩ := request_ends me client post
  have granted : Site.Step me _ site _ := .request client _ post made
  obtain ⟨answered, rfl, rfl⟩ := search_next (by decide) free (post_handled tallied.agrees rfl made)
  have slots : grants trail = {site.server.last + 1} := by simp [grants, answered, Answer.grant]
  have finished : finishes ⟨.post, ⟨.zero, 0⟩⟩ = ∅ := rfl
  rw [finished, Finset.sdiff_empty, slots] at granted
  exact ⟨trail, granted⟩

/-- Two clients of one server that have been granted slots 0 and 1. -/
theorem granted_twice : ∃ (events : List (Errand 1 Unit)) (site : Site 1 Unit),
    Site.Runs 0 (fun _ _ => True) ⟨.ready, ⟨fun _ => .zero, fun _ => none⟩, ∅⟩ events site ∧
      0 ∈ site.granted ∧ 1 ∈ site.granted := by
  let start : Site 1 Unit := ⟨.ready, ⟨fun _ => .zero, fun _ => none⟩, ∅⟩
  have tallied : Tallied 0 start := by
    obtain ⟨trail, booted⟩ := ready_booted Unit (0 : Fin 1)
    exact .booted (by decide) booted
  obtain ⟨trail, first⟩ := tallied.grants_next () (by decide)
  obtain ⟨trail', second⟩ := (tallied.step first).grants_next () (by decide)
  exact ⟨_, _, .step (.step .start trivial first) trivial second, by decide, by decide⟩

theorem finish_carries_iff_short :
    ∃ site : Site 1 Unit, 1 ∈ site.granted ∧
      ∃ msg, request (finishIo (List.replicate 12 0) [] (typed [97] [98] (List.replicate 28 0 ++ [1, 0, 0, 0]))) =
        some (.finish msg) ∧ Carries 0 site () 1 msg [97] [98] := by
  obtain ⟨events, site, run, _, outstanding⟩ := granted_twice
  obtain ⟨trail, booted⟩ := ready_booted Unit (0 : Fin 1)
  let available : Available 1 := ⟨List.replicate 28 0 ++ [1, 0, 0, 0], by decide, by decide⟩
  let FROM : Word 0 := ⟨[97], by decide, List.forall_mem_singleton.mpr rfl, by decide⟩
  let CONTENT : Word FROM_LEN := ⟨[98], by decide, List.forall_mem_singleton.mpr rfl, by decide⟩
  have fits : Fits FROM.bytes CONTENT.bytes := ⟨by decide, by decide, by decide, .inl (by decide)⟩
  exact ⟨site, outstanding,
    (finish_carries_iff (by decide) booted run outstanding () available FROM CONTENT (by decide) []).mpr fits⟩

/-- A word of 23 bytes ends in `pos`: the post goes to slot 0, which another client holds. -/
theorem finish_redirected : ∃ (events : List (Errand 1 Unit)) (site : Site 1 Unit) (available : Available 1)
    (FROM : Word 0) (CONTENT : Word FROM_LEN),
    Site.Runs 0 (fun _ _ => True) ⟨.ready, ⟨fun _ => .zero, fun _ => none⟩, ∅⟩ events site ∧
      0 ∈ site.granted ∧ 1 ∈ site.granted ∧ CONTENT.bytes.length = 23 ∧
      ∃ msg, request (finishIo (List.replicate 12 0) [] (typed FROM.bytes CONTENT.bytes available.block)) =
          some (.finish msg) ∧
        msg.pos = 0 ∧ ¬ Carries 0 site () 1 msg FROM.bytes CONTENT.bytes := by
  obtain ⟨events, site, run, other, outstanding⟩ := granted_twice
  refine ⟨events, site, ⟨List.replicate 28 0 ++ [1, 0, 0, 0], by decide, by decide⟩,
    ⟨[97], by decide, List.forall_mem_singleton.mpr rfl, by decide⟩,
    ⟨List.replicate 23 98, by decide, List.forall_mem_replicate.mpr (.inr rfl), by decide⟩,
    run, other, outstanding, by decide, _, request_finishIo (by decide) (by decide), by decide, ?_⟩
  intro carries
  exact absurd carries.pos (by decide)

end SysProg.Bulletin
