import SysProg.Bulletin.State

namespace SysProg.Bulletin

/-- Where client.c stands: before `init_client`, in the loop of `print_board`, at
the prompt, at the `read` after `!post`, at the two `scanf` calls, after `!exit`. -/
inductive ClientControl where
  | starting
  | reading
  | prompt
  | waiting
  | typing (msg : Message)
  | closed
deriving DecidableEq, Repr

inductive ClientLine where
  | record (rd : Record)
  | full
deriving DecidableEq, Repr

/-- A client and its connection: `requests` and `replies` are the messages in
flight in each direction, `filled` is the last post its user typed. -/
structure ClientState where
  control : ClientControl
  requests : List Io
  replies : List Io
  filled : Option Message
  out : List ClientLine

/-- A word that `scanf` reads and that fits a field of `size` bytes with its
terminator.  Clients of this model type no longer ones; those are in `Typing`. -/
def Token (size : Nat) := { bytes : List UInt8 // bytes.length < size }

def scanf {size : Nat} (field : Vector UInt8 size) (token : Token size) : Vector UInt8 size :=
  Vector.ofFn fun i =>
    if inside : i < token.val.length then token.val[i]
    else if i = token.val.length then 0 else field[i]

/-- What makes a client go on: a whole message to read, a command, the words of a post.
`junk` is what the `io` it sends holds where the code has not written. -/
inductive ClientMove where
  | connect (junk : Message)
  | read
  | exit (junk : Message)
  | pull (junk : Message)
  | post (junk : Message)
  | other
  | fill (From : Token FROM_LEN) (Content : Token CONTENT_LEN)

namespace ClientState

def start : ClientState where
  control := .starting
  requests := []
  replies := []
  filled := none
  out := []

def send (client : ClientState) (io : Io) (control : ClientControl) : ClientState :=
  { client with requests := client.requests ++ [io], control }

/-- client.c from one system call to the next. -/
def move (move : ClientMove) (client : ClientState) : Option ClientState :=
  match client.control, move with
  | .starting, .connect junk => some (client.send ⟨.pull, junk⟩ .reading)
  | .reading, .read =>
      match client.replies with
      | [] => none
      | receive :: rest =>
          if receive.type = .end then some { client with replies := rest, control := .prompt }
          else some { client with replies := rest, out := client.out ++ [.record receive.buf.rd] }
  | .prompt, .exit junk => some (client.send ⟨.exit, junk⟩ .closed)
  | .prompt, .pull junk => some (client.send ⟨.pull, junk⟩ .reading)
  | .prompt, .post junk => some (client.send ⟨.post, junk⟩ .waiting)
  | .prompt, .other => some client
  | .waiting, .read =>
      match client.replies with
      | [] => none
      | receive :: rest =>
          if receive.type = .full then
            some { client with replies := rest, control := .prompt, out := client.out ++ [.full] }
          else some { client with replies := rest, control := .typing receive.buf }
  | .typing msg, .fill From Content =>
      let msg := { msg with rd := ⟨scanf msg.rd.From From, scanf msg.rd.Content Content⟩ }
      some { client.send ⟨.finish, msg⟩ .prompt with filled := some msg }
  | _, _ => none

end ClientState

end SysProg.Bulletin
