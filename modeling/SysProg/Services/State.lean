import Mathlib.Algebra.GroupWithZero.Nat
import Mathlib.Data.Prod.Basic
import SysProg.Process.Tree

namespace SysProg.Services

/-! # The service tree of HW2

Messages, the memory of a service and what its system calls outside the pipes do, as
service.c has them.  An `unsigned long` is a `UInt64`; the counts of processes stay far
below the range of an `int`. -/

open Process

def MAX_SERVICE_NAME_LEN : Nat := 16

def child_len : Nat := 40

/-- An exchange concerns two services, with the indices 0 and 1. -/
scoped instance neZero_two : NeZero 2 := ⟨by decide⟩

/-- A name that fits every buffer it is copied to.  A character stands for a byte of it. -/
structure Name where
  text : String
  short : text.length < MAX_SERVICE_NAME_LEN
deriving DecidableEq

def Name.empty : Name := ⟨"", by decide⟩

def Name.Manager : Name := ⟨"Manager", by decide⟩

/-- The strings in the `type` of a `command`; `other` is any other string. -/
inductive CommandType where
  | empty
  | spawn
  | kill
  | exchange
  | suicide
  | start_exchange
  | spawn_success
  | spawn_failed
  | kill_success
  | kill_failed
  | suicide_success
  | exchange_success
  | find_success
  | find_failed
  | other
deriving DecidableEq, Repr

/-- A `command`.  `content[0]` and `content[1]` are names; `content[2]` is a path in an
exchange and a number while services are killed, and never read as the other; then come
the second path, the `target` of `finds`, the `print` flag and the `cnt` of `traverse`. -/
structure Command where
  type : CommandType
  content0 : Name
  content1 : Name
  fifo1 : String
  killed : Int
  fifo2 : String
  target : Fin 2
  print : Bool
  cnt : Int
  cmd : String
deriving DecidableEq

/-- `command receive = {0}`. -/
def Command.zero : Command := ⟨.empty, .empty, .empty, "", 0, "", 0, false, 0, ""⟩

/-- `content[index]` for one of the two names. -/
def Command.content (command : Command) (index : Fin 2) : Name :=
  if index = 0 then command.content0 else command.content1

def Command.typed (command : Command) (type : CommandType) : Command := { command with type }

inductive Line where
  | not_exist (service_name : Name)
  | receive_command (service_name : Name) (cmd : String)
  | spawned (parent_name child_name : Name)
  | killed (target_name : Name) (decendents_num : Int)
  | acquire_secret (service_a service_b : Name) (secret : UInt64)
  | exchanged (service_a service_b : Name)
  | born (service_name : Name) (pid : Nat) (secret : UInt64)
deriving DecidableEq

/-- What a new process finds: its pid, the number `rand` gives it, and what its
uninitialised buffers hold, those of `main`, `suicide` and `exchanges`. -/
structure Birth where
  pid : Nat
  secret : UInt64
  receive_child : Command
  send_parent : Command
  suicide_parent : Command
  suicide_child : Command
  suicide_received : Command
  tmp_secret : UInt64

structure Service where
  name : Name
  link : Link
deriving DecidableEq

/-- The memory of a service at the head of its loop.  `send_child` of `main` is written
before each use, and `name` is never read. -/
structure Memory where
  service_name : Name
  secret : UInt64
  child : List Service
  pipe_read : Fin 2 → Int
  pipe_write : Fin 2 → Int
  receive_child : Command
  send_parent : Command
  birth : Birth

def Memory.num_child (memory : Memory) : Nat := memory.child.length

def Memory.is_manager (memory : Memory) : Bool := memory.service_name = .Manager

theorem Memory.not_manager {memory : Memory} (other : memory.service_name ≠ .Manager) :
    ¬ memory.is_manager := by
  rw [is_manager, decide_eq_true_eq]
  exact other

theorem Memory.manager {memory : Memory} (same : memory.service_name = .Manager) :
    memory.is_manager := by
  rw [is_manager, decide_eq_true_eq]
  exact same

def Memory.start (service_name : Name) (birth : Birth) : Memory where
  service_name := service_name
  secret := birth.secret
  child := []
  pipe_read := fun _ => -1
  pipe_write := fun _ => -1
  receive_child := birth.receive_child
  send_parent := birth.send_parent
  birth := birth

def Memory.setReceived (memory : Memory) (receive_child : Command) : Memory :=
  { memory with receive_child }

def Memory.setAnswer (memory : Memory) (send_parent : Command) : Memory :=
  { memory with send_parent }

def Memory.setChild (memory : Memory) (child : List Service) : Memory := { memory with child }

def Memory.setSecret (memory : Memory) (secret : UInt64) : Memory := { memory with secret }

/-- The registers of one index get the descriptors of a child. -/
def Memory.register (memory : Memory) (index : Fin 2) (service : Service) : Memory :=
  { memory with
    pipe_read := fun other =>
      if other = index then service.link.read_fd else memory.pipe_read other
    pipe_write := fun other =>
      if other = index then service.link.write_fd else memory.pipe_write other }

/-- `pipe_read[0] = pipe_write[0] = pipe_read[1] = pipe_write[1] = -1`. -/
def Memory.clear (memory : Memory) : Memory :=
  { memory with pipe_read := fun _ => -1, pipe_write := fun _ => -1 }

inductive Side where
  | reader
  | writer
deriving DecidableEq, Repr

def Side.opposite : Side → Side
  | .reader => .writer
  | .writer => .reader

/-- A FIFO: how many processes have it open, or wait for their `open` of it to return,
and the secrets in it. -/
structure Fifo where
  users : Side → Nat
  data : List UInt64

/-- The system calls outside the pipes.  An `open` first makes itself known to the
opposite side (`arrive`) and then waits for it (`open`); `undefined` stands for writing
behind the end of `child`. -/
inductive Op where
  | birth
  | print (line : Line)
  | mkfifo (path : String)
  | unlink (path : String)
  | arrive (path : String) (side : Side)
  | open (path : String) (side : Side)
  | read (path : String)
  | write (path : String) (secret : UInt64)
  | close (path : String) (side : Side)
  | undefined
deriving DecidableEq

/-- What a call returns: nothing, a process, or the bytes of a `read` if there are any. -/
inductive Val where
  | unit
  | birth (birth : Birth)
  | secret (got : Option UInt64)

structure World where
  births : Nat → Birth
  created : Nat
  fifos : String → Option Fifo
  out : List Line

def Fifo.fresh : Fifo := ⟨fun _ => 0, []⟩

def World.setFifo (world : World) (path : String) (fifo : Option Fifo) : World :=
  { world with fifos := fun other => if other = path then fifo else world.fifos other }

/-- A call that returns or, with `none`, one that blocks; the errors that the services
do not look at block too, but for `mkfifo` on a FIFO that exists. -/
def exec (op : Op) (world : World) : Option (Val × World) :=
  match op with
  | .birth => some (.birth (world.births world.created), { world with created := world.created + 1 })
  | .print line => some (.unit, { world with out := world.out ++ [line] })
  | .mkfifo path =>
      match world.fifos path with
      | some _ => some (.unit, world)
      | none => some (.unit, world.setFifo path (some .fresh))
  | .unlink path => some (.unit, world.setFifo path none)
  | .arrive path side =>
      (world.fifos path).map fun fifo =>
        let users := fun other => if other = side then fifo.users other + 1 else fifo.users other
        (.unit, world.setFifo path (some { fifo with users }))
  | .open path side =>
      (world.fifos path).bind fun fifo =>
        if 0 < fifo.users side.opposite then some (.unit, world) else none
  | .read path =>
      (world.fifos path).bind fun fifo =>
        match fifo.data with
        | secret :: data =>
            some (.secret (some secret), world.setFifo path (some { fifo with data }))
        | [] => if 0 < fifo.users .writer then none else some (.secret none, world)
  | .write path secret =>
      (world.fifos path).bind fun fifo =>
        if 0 < fifo.users .reader then
          some (.unit, world.setFifo path (some { fifo with data := fifo.data ++ [secret] }))
        else none
  | .close path side =>
      (world.fifos path).map fun fifo =>
        let users := fun other => if other = side then fifo.users other - 1 else fifo.users other
        (.unit, world.setFifo path (some { fifo with users }))
  | .undefined => none

end SysProg.Services
