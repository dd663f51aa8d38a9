import Mathlib.Data.List.GetD
import SysProg.Bulletin.Server

namespace SysProg.Bulletin

/-! # The bytes of a connection

The request loop calls `read` once for each event that `poll` reports and handles what
its buffer holds then, however many bytes have come. -/

abbrev Bytes := List UInt8

def TYPE_SIZE : Nat := 20
def BUFFER_SIZE : Nat := 4096

/-- `sizeof(io)`, with the `int` behind the two arrays. -/
def sizeof_io : Nat := TYPE_SIZE + BUFFER_SIZE + 4

/-- `sizeof(message)`; `pos` is aligned to four bytes. -/
def sizeof_message : Nat := 32

/-- The branch of the request loop that a message takes. -/
inductive Request where
  | post
  | exit
  | pull
  | finish (msg : Message)
deriving DecidableEq, Repr

def literal (text : List Char) : Bytes := text.map (fun c => UInt8.ofNat c.toNat) ++ [0]

def literal_post : Bytes := literal ['!', 'p', 'o', 's', 't']
def literal_exit : Bytes := literal ['!', 'e', 'x', 'i', 't']
def literal_pull : Bytes := literal ['!', 'p', 'u', 'l', 'l']
def literal_finish : Bytes := literal ['!', 'f', 'i', 'n', 'i', 's', 'h']

def literals : List Bytes := [literal_post, literal_exit, literal_pull, literal_finish]

/-- `strcmp(receive.type, text) == 0`. -/
def strcmp (receive text : Bytes) : Bool := receive.take text.length = text

/-- `size` bytes of the buffer from `offset` on. -/
def field (receive : Bytes) (offset size : Nat) : Vector UInt8 size :=
  Vector.ofFn fun i => receive.getD (offset + i) 0

/-- The byte `i` of `pos` in the message of a buffer. -/
def posByte (receive : Bytes) (i : Nat) : Nat := (receive.getD (TYPE_SIZE + 28 + i) 0).toNat

def messageOf (receive : Bytes) : Message where
  rd :=
    { From := field receive TYPE_SIZE FROM_LEN
      Content := field receive (TYPE_SIZE + FROM_LEN) CONTENT_LEN }
  pos :=
    ((posByte receive 0 + 256 * posByte receive 1 + 65536 * posByte receive 2
      + 16777216 * posByte receive 3 : Nat) : Int).bmod 4294967296

def request (receive : Bytes) : Option Request :=
  if strcmp receive literal_post then some .post
  else if strcmp receive literal_exit then some .exit
  else if strcmp receive literal_pull then some .pull
  else if strcmp receive literal_finish then some (.finish (messageOf receive))
  else none

/-- The `type` of an `io`. -/
def IoType.text : IoType → Bytes
  | .post => literal_post
  | .exit => literal_exit
  | .pull => literal_pull
  | .finish => literal_finish
  | .full => literal ['!', 'f', 'u', 'l', 'l']
  | .available => literal ['!', 'a', 'v', 'a', 'i', 'l', 'a', 'b', 'l', 'e']
  | .record => literal ['!', 'r', 'e', 'c', 'o', 'r', 'd']
  | .end => literal ['!', 'e', 'n', 'd']

/-- The bytes are those of the `io`; behind its `type` and its message they may be any. -/
structure Io.Written (io : Io) (bytes : Bytes) : Prop where
  length : bytes.length = sizeof_io
  type : strcmp bytes io.type.text
  buf : messageOf bytes = io.buf

/-- The branch that an `io` takes. -/
def Io.request (io : Io) : Option Request :=
  match io.type with
  | .post => some .post
  | .exit => some .exit
  | .pull => some .pull
  | .finish => some (.finish io.buf)
  | _ => none

/-- The request loop behind `read`, on the bytes of `receive`. -/
def Server.receive {Client : Type} (client : Client) (receive : Bytes) (server : Server Client) :
    Server Client :=
  match Bulletin.request receive with
  | some .post => server.moveTo (.probing client (server.last + 1) 0)
  | some .exit => server
  | some .pull => server.moveTo (.loading client)
  | some (.finish msg) => server.moveTo (.finishing client msg)
  | none => server

/-- `read` into a buffer that holds `junk`. -/
def overlay (chunk junk : Bytes) : Bytes := chunk ++ junk.drop chunk.length

/-- The requests that are handled for a connection whose reads return `reads`, each with
the place in the stream where its bytes begin.  A read at the end of the stream returns
no bytes; `junk k` is what the buffer holds before read `k`. -/
def handle (junk : Nat → Bytes) : Nat → Nat → List Bytes → List (Nat × Request)
  | _, _, [] => []
  | k, place, chunk :: rest =>
      match request (overlay chunk (junk k)) with
      | some .exit => [(place, .exit)]
      | some received => (place, received) :: handle junk (k + 1) (place + chunk.length) rest
      | none => handle junk (k + 1) (place + chunk.length) rest

/-- The requests among the messages of a stream, each with its place. -/
def sent : Nat → List Bytes → List (Nat × Request)
  | _, [] => []
  | place, message :: rest =>
      match request message with
      | some asked => (place, asked) :: sent (place + message.length) rest
      | none => sent (place + message.length) rest

/-- What successive reads may return of a stream: some of the bytes that are left, at
most a buffer full, and no bytes at its end. -/
def Cuts : List Bytes → Bytes → Prop
  | [], stream => stream = []
  | chunk :: rest, stream =>
      chunk.length ≤ sizeof_io ∧ (chunk = [] → stream = []) ∧
        ∃ left, stream = chunk ++ left ∧ Cuts rest left

/-- What a client has written, and how it arrives. -/
structure Arrival where
  messages : List Bytes
  reads : List Bytes
  whole : ∀ message ∈ messages, message.length = sizeof_io
  cuts : Cuts reads messages.flatten

def Request.text : Request → Bytes
  | .post => literal_post
  | .exit => literal_exit
  | .pull => literal_pull
  | .finish _ => literal_finish

/-- The bytes of a message on which its handling depends. -/
def Request.need : Request → Nat
  | .post | .exit | .pull => literal_post.length
  | .finish _ => TYPE_SIZE + sizeof_message

/-- The read begins with no command, whatever the bytes behind it. -/
def Idle (chunk : Bytes) : Prop :=
  ∀ text ∈ literals, chunk.take text.length ≠ text.take chunk.length

instance (chunk : Bytes) : Decidable (Idle chunk) :=
  inferInstanceAs (Decidable (∀ text ∈ literals, chunk.take text.length ≠ text.take chunk.length))

/-- Each request that is due has a read that begins where it begins and holds the bytes
its handling depends on; the other reads are idle; nothing is due behind an `!exit`. -/
def InFrames : Nat → List Bytes → List (Nat × Request) → Prop
  | _, [], due => due = []
  | place, chunk :: rest, due =>
      (Idle chunk ∧ InFrames (place + chunk.length) rest due) ∨
      ∃ asked more, due = (place, asked) :: more ∧
        request chunk = some asked ∧ asked.need ≤ chunk.length ∧
          if asked = .exit then more = [] else InFrames (place + chunk.length) rest more

variable {junk : Nat → Bytes} {k place : Nat} {chunk more buffer text : Bytes}
  {reads : List Bytes} {due : List (Nat × Request)} {asked : Request}

theorem strcmp_overlay (enough : text.length ≤ chunk.length) :
    strcmp (overlay chunk buffer) text = strcmp chunk text := by
  rw [strcmp, overlay, List.take_append_of_le_length enough, strcmp]

theorem overlay_inside {i : Nat} (inside : i < chunk.length) :
    (overlay chunk buffer)[i]? = chunk[i]? :=
  List.getElem?_append_left inside

theorem overlay_behind {i : Nat} (behind : chunk.length ≤ i) :
    (overlay chunk buffer)[i]? = buffer[i]? := by
  rw [overlay, List.getElem?_append_right behind, List.getElem?_drop]
  congr 1
  omega

theorem messageOf_congr
    (same : ∀ i, i < TYPE_SIZE + sizeof_message → buffer[i]? = more[i]?) :
    messageOf buffer = messageOf more := by
  have bytes : ∀ i, i < TYPE_SIZE + sizeof_message → buffer.getD i 0 = more.getD i 0 := by
    intro i small
    rw [List.getD_eq_getElem?_getD, same i small, ← List.getD_eq_getElem?_getD]
  have fields : ∀ offset size, offset + size ≤ TYPE_SIZE + sizeof_message →
      field buffer offset size = field more offset size := by
    intro offset size bound
    unfold field
    congr 1
    funext i
    exact bytes _ (by omega)
  have numbers : ∀ i, i < 4 → posByte buffer i = posByte more i := by
    intro i small
    rw [posByte, bytes _ (by simp only [TYPE_SIZE, sizeof_message]; omega), posByte]
  unfold messageOf
  rw [fields _ _ (by decide), fields _ _ (by decide), numbers 0 (by decide),
    numbers 1 (by decide), numbers 2 (by decide), numbers 3 (by decide)]

/-- A read that holds what its request needs is handled the same over every buffer. -/
theorem request_overlay (enough : asked.need ≤ chunk.length)
    (found : request (overlay chunk buffer) = some asked) :
    request (overlay chunk more) = some asked := by
  have short : literal_post.length ≤ chunk.length := by
    cases asked with
    | post | exit | pull => exact enough
    | finish msg => exact Nat.le_trans (show 6 ≤ TYPE_SIZE + sizeof_message by decide) enough
  have same : ∀ text : Bytes, text.length ≤ chunk.length →
      strcmp (overlay chunk buffer) text = strcmp (overlay chunk more) text := by
    intro text covered
    rw [strcmp_overlay covered, strcmp_overlay covered]
  unfold request at found ⊢
  rw [same literal_post short, same literal_exit short, same literal_pull short] at found
  by_cases post : strcmp (overlay chunk more) literal_post
  · simpa only [post, if_true] using found
  by_cases exit : strcmp (overlay chunk more) literal_exit
  · simpa only [post, exit, if_true, if_false] using found
  by_cases pull : strcmp (overlay chunk more) literal_pull
  · simpa only [post, exit, pull, if_true, if_false] using found
  rw [if_neg post, if_neg exit, if_neg pull] at found ⊢
  by_cases finish : strcmp (overlay chunk buffer) literal_finish
  · rw [if_pos finish, Option.some.injEq] at found
    subst found
    have long : TYPE_SIZE + sizeof_message ≤ chunk.length := enough
    rw [same literal_finish (Nat.le_trans (by decide) long)] at finish
    have message : messageOf (overlay chunk more) = messageOf (overlay chunk buffer) := by
      apply messageOf_congr
      intro i small
      rw [overlay_inside (by omega), overlay_inside (by omega)]
    rw [if_pos finish, message]
  · simp [finish] at found

theorem request_none : request buffer = none ↔ ∀ text ∈ literals, ¬ strcmp buffer text := by
  unfold request
  by_cases post : strcmp buffer literal_post
  · simp [post, literals]
  by_cases exit : strcmp buffer literal_exit
  · simp [post, exit, literals]
  by_cases pull : strcmp buffer literal_pull
  · simp [post, exit, pull, literals]
  simp [post, exit, pull, literals]

theorem request_text (found : request buffer = some asked) : strcmp buffer asked.text := by
  unfold request at found
  split at found
  · cases found
    assumption
  split at found
  · cases found
    assumption
  split at found
  · cases found
    assumption
  split at found
  · cases found
    assumption
  · cases found

theorem request_finish {msg : Message} (found : request buffer = some (.finish msg)) :
    messageOf buffer = msg := by
  simp only [request] at found
  split at found
  · cases found
  split at found
  · cases found
  split at found
  · cases found
  split at found
  · cases found
    rfl
  · cases found

theorem strcmp_head (found : strcmp buffer text) (long : 3 ≤ text.length) : buffer.take 3 = text.take 3 := by
  rw [strcmp, decide_eq_true_eq] at found
  rw [← found, List.take_take, Nat.min_eq_left long]

theorem IoType.long (type : IoType) : 3 ≤ type.text.length := by
  cases type <;> decide

/-- No text of a type begins with another. -/
theorem strcmp_text {type other : IoType} (found : strcmp buffer type.text) :
    strcmp buffer other.text = decide (type = other) := by
  by_cases same : type = other
  · rw [← same, found, decide_eq_true rfl]
  · rw [decide_eq_false same, Bool.eq_false_iff]
    intro found'
    have heads := (strcmp_head found type.long).symm.trans (strcmp_head found' other.long)
    revert heads
    cases type <;> cases other <;> first | exact absurd rfl same | decide

/-- A message read whole takes the branch of its type. -/
theorem Io.Written.request {io : Io} {bytes : Bytes} (written : io.Written bytes) :
    Bulletin.request bytes = io.request := by
  have post := @strcmp_text _ _ .post written.type
  have exit := @strcmp_text _ _ .exit written.type
  have pull := @strcmp_text _ _ .pull written.type
  have finish := @strcmp_text _ _ .finish written.type
  simp only [IoType.text] at post exit pull finish
  rw [Bulletin.request, post, exit, pull, finish, written.buf, Io.request]
  cases io.type <;> rfl

/-- The request loop on the bytes of a message is `Server.dispatch` on the message. -/
theorem Io.Written.receive {Client : Type} {io : Io} {bytes : Bytes} (written : io.Written bytes)
    (client : Client) (server : Server Client) : server.receive client bytes = server.dispatch client io := by
  rw [Server.receive, written.request, Io.request, Server.dispatch]
  cases io.type <;> rfl

theorem strcmp_agreeing (agrees : chunk.take text.length = text.take chunk.length) :
    strcmp (overlay chunk (text ++ more)) text := by
  rw [strcmp, decide_eq_true_eq, overlay]
  rcases Nat.le_total text.length chunk.length with long | short
  · rw [List.take_append_of_le_length long, agrees, List.take_of_length_le long]
  · rw [List.take_of_length_le short] at agrees
    rw [List.drop_append_of_le_length short, ← List.append_assoc]
    nth_rewrite 1 [agrees]
    rw [List.take_append_drop, List.take_left]

theorem prefix_of_strcmp (found : strcmp (overlay chunk buffer) text) :
    chunk.take text.length = text.take chunk.length := by
  rw [strcmp, decide_eq_true_eq, overlay] at found
  calc chunk.take text.length
      = ((chunk ++ buffer.drop chunk.length).take chunk.length).take text.length := by
        rw [List.take_left]
    _ = ((chunk ++ buffer.drop chunk.length).take text.length).take chunk.length := by
        rw [List.take_take, List.take_take, Nat.min_comm]
    _ = text.take chunk.length := by rw [found]

theorem Idle.request_none (idle : Idle chunk) : request (overlay chunk buffer) = none := by
  rw [Bulletin.request_none]
  intro text listed found
  exact idle text listed (prefix_of_strcmp found)

/-- A read that is not idle is a request over some buffer. -/
theorem not_idle (busy : ¬ Idle chunk) :
    ∃ buffer, buffer.length = sizeof_io ∧ request (overlay chunk buffer) ≠ none := by
  simp only [Idle, not_forall, not_not] at busy
  obtain ⟨text, listed, agrees⟩ := busy
  have fits : text.length ≤ sizeof_io := by
    have bounded : ∀ text ∈ literals, text.length ≤ sizeof_io := by decide
    exact bounded text listed
  refine ⟨text ++ List.replicate (sizeof_io - text.length) 0, ?_, ?_⟩
  · rw [List.length_append, List.length_replicate]
    omega
  · intro missed
    exact request_none.mp missed text listed (strcmp_agreeing agrees)

theorem length_of_strcmp {front : Bytes} (terminated : text = front ++ [0])
    (fits : text.length ≤ sizeof_io)
    (found : ∀ buffer, buffer.length = sizeof_io → strcmp (overlay chunk buffer) text) :
    text.length ≤ chunk.length := by
  by_contra short
  have last := found (List.replicate sizeof_io 255) (by simp)
  rw [strcmp, decide_eq_true_eq] at last
  have size : text.length = front.length + 1 := by simp [terminated]
  have zero : text[front.length]? = some 0 := by simp [terminated]
  have other : (overlay chunk (List.replicate sizeof_io 255))[front.length]? = some 255 := by
    rw [overlay_behind (by omega), List.getElem?_replicate, if_pos (by omega)]
  rw [← last, List.getElem?_take, if_pos (by omega), other] at zero
  exact absurd zero (by decide)

theorem length_of_message {msg : Message}
    (same : ∀ buffer, buffer.length = sizeof_io → messageOf (overlay chunk buffer) = msg) :
    TYPE_SIZE + sizeof_message ≤ chunk.length := by
  by_contra short
  simp only [TYPE_SIZE, sizeof_message] at short
  obtain ⟨blank, zeros⟩ : ∃ blank : Bytes, blank = List.replicate sizeof_io 0 := ⟨_, rfl⟩
  have size : blank.length = sizeof_io := by rw [zeros, List.length_replicate]
  have large : 51 < sizeof_io := by decide
  have clear := same blank size
  have marked := same (blank.set 51 1) (by rw [List.length_set, size])
  have equal := congrArg Message.pos (clear.trans marked.symm)
  have lower : ∀ i, i < 3 →
      posByte (overlay chunk (blank.set 51 1)) i = posByte (overlay chunk blank) i := by
    intro i small
    have off : 51 ≠ 20 + 28 + i := by omega
    simp only [posByte, TYPE_SIZE, List.getD_eq_getElem?_getD]
    rcases Nat.lt_or_ge (20 + 28 + i) chunk.length with inside | behind
    · rw [overlay_inside inside, overlay_inside inside]
    · rw [overlay_behind behind, overlay_behind behind, List.getElem?_set_ne off]
  have high : posByte (overlay chunk blank) 3 = 0 := by
    simp only [posByte, TYPE_SIZE, List.getD_eq_getElem?_getD]
    rw [overlay_behind (by omega), zeros, List.getElem?_replicate, if_pos large]
    rfl
  have high' : posByte (overlay chunk (blank.set 51 1)) 3 = 1 := by
    simp only [posByte, TYPE_SIZE, List.getD_eq_getElem?_getD]
    rw [overlay_behind (by omega), List.getElem?_set_self (by omega)]
    rfl
  have small : ∀ receive i, posByte receive i < 256 := fun receive i => UInt8.toNat_lt _
  simp only [messageOf, lower 0 (by decide), lower 1 (by decide), lower 2 (by decide), high,
    high'] at equal
  have congruent := congrArg (· % ((4294967296 : Nat) : Int)) equal
  simp only [Int.bmod_emod] at congruent
  have first := small (overlay chunk blank) 0
  have second := small (overlay chunk blank) 1
  have third := small (overlay chunk blank) 2
  omega

theorem need_le
    (found : ∀ buffer, buffer.length = sizeof_io → request (overlay chunk buffer) = some asked) :
    asked.need ≤ chunk.length := by
  have text : ∀ buffer, buffer.length = sizeof_io → strcmp (overlay chunk buffer) asked.text :=
    fun buffer full => request_text (found buffer full)
  cases asked with
  | post => exact (length_of_strcmp rfl (by decide) text : literal_post.length ≤ chunk.length)
  | exit => exact (length_of_strcmp rfl (by decide) text : literal_exit.length ≤ chunk.length)
  | pull => exact (length_of_strcmp rfl (by decide) text : literal_pull.length ≤ chunk.length)
  | finish msg =>
      exact length_of_message fun buffer full => request_finish (found buffer full)

theorem handle_place {entry : Nat × Request} (handled : entry ∈ handle junk k place reads) :
    place ≤ entry.1 := by
  induction reads generalizing k place with
  | nil => cases handled
  | cons chunk rest ih =>
      rw [handle] at handled
      split at handled
      · cases handled with
        | head => exact Nat.le_refl _
        | tail _ none => cases none
      · cases handled with
        | head => exact Nat.le_refl _
        | tail _ later => exact Nat.le_trans (Nat.le_add_right _ _) (ih later)
      · exact Nat.le_trans (Nat.le_add_right _ _) (ih handled)

theorem handle_none (missed : request (overlay chunk (junk k)) = none) :
    handle junk k place (chunk :: reads) =
      handle junk (k + 1) (place + chunk.length) reads := by
  rw [handle, missed]

theorem handle_request (found : request (overlay chunk (junk k)) = some asked) :
    handle junk k place (chunk :: reads) =
      (place, asked) :: if asked = .exit then []
        else handle junk (k + 1) (place + chunk.length) reads := by
  rw [handle, found]
  cases asked with
  | post | exit | pull | finish msg => rfl

/-- The handled requests do not depend on the buffers. -/
def Settled (k place : Nat) (reads : List Bytes) (due : List (Nat × Request)) : Prop :=
  ∀ junk : Nat → Bytes, (∀ k, (junk k).length = sizeof_io) → handle junk k place reads = due

def filled (text : Bytes) : Bytes := text ++ List.replicate (sizeof_io - text.length) 0

/-- A read without bytes is a `!post` over one buffer and an `!exit` over another. -/
theorem Settled.nonempty (settled : Settled k place (chunk :: reads) due) : chunk ≠ [] := by
  intro same
  obtain rfl := same
  have post := settled (fun _ => filled literal_post) fun _ => by decide +kernel
  have exit := settled (fun _ => filled literal_exit) fun _ => by decide +kernel
  have first : request (overlay [] (filled literal_post)) = some .post := by decide +kernel
  have second : request (overlay [] (filled literal_exit)) = some .exit := by decide +kernel
  rw [handle_request first] at post
  rw [handle_request second, ← post] at exit
  simp at exit

/-- The first read of a settled list that is not idle is the first request due. -/
theorem Settled.head (settled : Settled k place (chunk :: reads) due) (busy : ¬ Idle chunk) :
    ∃ asked later, due = (place, asked) :: later ∧
      ∀ buffer, buffer.length = sizeof_io → request (overlay chunk buffer) = some asked := by
  obtain ⟨first, full, some⟩ := not_idle busy
  obtain ⟨asked, found⟩ := Option.ne_none_iff_exists'.mp some
  have same := settled (fun _ => first) fun _ => full
  rw [handle_request found] at same
  refine ⟨asked, _, same.symm, ?_⟩
  intro buffer covers
  have other := (settled (fun _ => buffer) fun _ => covers).trans same.symm
  cases again : request (overlay chunk buffer) with
  | some asked' =>
      rw [handle_request again, List.cons.injEq, Prod.mk.injEq] at other
      rw [other.1.2]
  | none =>
      exfalso
      rw [handle_none again] at other
      have listed := other ▸ List.mem_cons_self
      have later := handle_place listed
      have long := List.length_pos_iff.mpr settled.nonempty
      simp only at later
      omega

theorem handle_eq_iff : Settled k place reads due ↔ InFrames place reads due := by
  induction reads generalizing k place due with
  | nil =>
      constructor
      · intro settled
        exact (settled (fun _ => filled []) fun _ => by decide +kernel).symm
      · intro none junk full
        exact Eq.symm none
  | cons chunk rest ih =>
      constructor
      · intro settled
        by_cases idle : Idle chunk
        · have tail : Settled (k + 1) (place + chunk.length) rest due := by
            intro junk full
            rw [← handle_none idle.request_none]
            exact settled junk full
          exact .inl ⟨idle, ih.mp tail⟩
        · obtain ⟨asked, later, rfl, found⟩ := settled.head idle
          have enough := need_le found
          have mine : request chunk = some asked := by
            have plain : request (overlay chunk []) = some asked :=
              request_overlay enough (found (filled []) (by decide +kernel))
            rwa [overlay, List.drop_nil, List.append_nil] at plain
          refine .inr ⟨asked, later, rfl, mine, enough, ?_⟩
          have tail : ∀ junk : Nat → Bytes, (∀ k, (junk k).length = sizeof_io) →
              (if asked = .exit then []
                else handle junk (k + 1) (place + chunk.length) rest) = later := by
            intro junk full
            have whole := settled junk full
            rw [handle_request (found (junk k) (full k)), List.cons.injEq] at whole
            exact whole.2
          by_cases exit : asked = .exit
          · simp only [if_pos exit] at tail ⊢
            exact (tail (fun _ => filled []) fun _ => by decide +kernel).symm
          · simp only [if_neg exit] at tail ⊢
            exact ih.mp tail
      · intro framed junk full
        rcases framed with ⟨idle, frames⟩ | ⟨asked, later, rfl, mine, enough, frames⟩
        · rw [handle_none idle.request_none]
          exact ih.mpr frames junk full
        · have plain : overlay chunk [] = chunk := by
            rw [overlay, List.drop_nil, List.append_nil]
          rw [handle_request (request_overlay enough (plain ▸ mine))]
          by_cases exit : asked = .exit
          · simp only [if_pos exit] at frames ⊢
            rw [frames]
          · simp only [if_neg exit] at frames ⊢
            rw [ih.mpr frames junk full]

/-- A message that is read whole and is no request is idle. -/
theorem idle_of_request_none {message : Bytes} (whole : message.length = sizeof_io)
    (none : request message = none) : Idle message := by
  intro text listed agrees
  have fits : ∀ text ∈ literals, text.length ≤ sizeof_io := by decide
  refine request_none.mp none text listed ?_
  rw [strcmp, decide_eq_true_eq, agrees, List.take_of_length_le]
  rw [whole]
  exact fits text listed

/-- Reads that return the messages whole fall on them, if none is behind an `!exit`. -/
theorem inFrames_whole {messages : List Bytes} (whole : ∀ message ∈ messages, message.length = sizeof_io)
    (last : ∀ message ∈ messages.dropLast, request message ≠ some .exit) :
    InFrames place messages (sent place messages) := by
  induction messages generalizing place with
  | nil => rfl
  | cons message rest ih =>
      have mine := whole message List.mem_cons_self
      have others := fun other inside => whole other (List.mem_cons_of_mem message inside)
      have earlier : ∀ other ∈ rest.dropLast, request other ≠ some .exit := by
        intro other inside
        cases rest with
        | nil => cases inside
        | cons next rest => exact last other (List.mem_cons_of_mem message inside)
      rw [sent]
      cases found : request message with
      | none => exact .inl ⟨idle_of_request_none mine found, ih others earlier⟩
      | some asked =>
          have need : asked.need ≤ message.length := by
            rw [mine]
            cases asked <;> simp only [Request.need] <;> decide
          refine .inr ⟨asked, _, rfl, found, need, ?_⟩
          by_cases exit : asked = .exit
          · rw [if_pos exit]
            cases rest with
            | nil => rfl
            | cons next rest => exact absurd (exit ▸ found) (last message List.mem_cons_self)
          · rw [if_neg exit]
            exact ih others earlier

/-- The requests that are due are those of the messages. -/
theorem sent_requests {ios : List Io} {messages : List Bytes} (written : List.Forall₂ Io.Written ios messages) :
    (sent place messages).map Prod.snd = ios.filterMap Io.request := by
  induction written generalizing place with
  | nil => rfl
  | cons first _ ih =>
      rw [sent, first.request, List.filterMap_cons]
      split <;> rename_i found <;> rw [found]
      · exact congrArg (List.cons _) ih
      · exact ih

/-- The server handles the requests that were sent, whatever is left in its buffer,
if and only if the reads fall on the messages. -/
theorem handles_sent_iff (arrival : Arrival) :
    (∀ junk : Nat → Bytes, (∀ k, (junk k).length = sizeof_io) →
      handle junk 0 0 arrival.reads = sent 0 arrival.messages) ↔
    InFrames 0 arrival.reads (sent 0 arrival.messages) :=
  handle_eq_iff

/-- A `!pull` whose command has come before the rest. -/
def parted : Arrival where
  messages := [filled literal_pull]
  reads := [literal_pull, List.replicate (sizeof_io - literal_pull.length) 0]
  whole := by decide +kernel
  cuts := by
    refine ⟨by decide, nofun, List.replicate (sizeof_io - literal_pull.length) 0, by simp [filled], ?_⟩
    exact ⟨by rw [List.length_replicate]; decide, id, [], by rw [List.append_nil], rfl⟩

example : InFrames 0 parted.reads (sent 0 parted.messages) :=
  .inr ⟨.pull, [], by decide +kernel, by decide, by decide, .inl ⟨by decide +kernel, rfl⟩⟩

/-- A `!post`, after which the connection ends. -/
def endless : Arrival where
  messages := [filled literal_post]
  reads := [filled literal_post, []]
  whole := by decide +kernel
  cuts := by
    refine ⟨by decide +kernel, by decide +kernel, [], by simp, by decide +kernel, fun _ => rfl, ?_⟩
    exact ⟨[], rfl, rfl⟩

/-- The last read leaves the `!post` in the buffer, and it is handled once more. -/
theorem handles_post_twice :
    (filled literal_post).length = sizeof_io ∧
    sent 0 endless.messages = [(0, .post)] ∧
    handle (fun _ => filled literal_post) 0 0 endless.reads = [(0, .post), (sizeof_io, .post)] := by
  decide +kernel

end SysProg.Bulletin
