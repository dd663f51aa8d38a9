import SysProg.Services.State

namespace SysProg.Services

/-! # What a service does

Each function of service.c as the calls it makes; a function that changes the memory of
its process returns it. -/

open Process

/-- A program of a service; a new process gets its name as the argument. -/
abbrev Run (α : Type) := Prog Command Op Val Name α

def call (op : Op) : Run Val := .call op .pure

def print (line : Line) : Run Unit := .call (.print line) fun _ => .pure ()

def write (fd : Int) (command : Command) : Run Unit := .write fd command (.pure ())

/-- `read` from a descriptor of a child; a `read` that fails leaves the buffer alone. -/
def read (fd : Int) (buffer : Command) : Run Command :=
  .read fd fun got => .pure (got.getD buffer)

/-- `if (!is_manager()) write(parent_write_fd, ..)`. -/
def reply (memory : Memory) (command : Command) : Run Unit :=
  if memory.is_manager then .pure () else .reply command (.pure ())

def wait : Run Unit := .wait (.pure ())

def close (link : Link) : Run Unit := .close link (.pure ())

/-- The descriptors of a service beside those of its children. -/
def Memory.descriptors (memory : Memory) : List Int :=
  if memory.is_manager then [0, 1, 2] else [0, 1, 2, 3, 4]

def spawns (memory : Memory) (new_child_service : Name) : Run Memory :=
  if memory.num_child < child_len then
    .fork memory.descriptors new_child_service fun link =>
      .pure (memory.setChild (memory.child ++ [⟨new_child_service, link⟩]))
  else .call .undefined fun _ => .pure memory

def suicideChildren (send_child : Command) : List Service → Command → Int → Run Int
  | [], _, num_killed => .pure num_killed
  | service :: rest, receive_child, num_killed => do
      write service.link.write_fd (send_child.typed .suicide)
      let receive_child ← read service.link.read_fd receive_child
      wait
      suicideChildren send_child rest receive_child (num_killed + receive_child.killed)

def leave {α : Type} (memory : Memory) (num_killed : Int) : Run α :=
  if memory.is_manager then
    .call (.print (.killed memory.service_name (num_killed - 1))) fun _ => .exit
  else
    .reply { memory.birth.suicide_parent.typed .suicide_success with killed := num_killed } .exit

/-- `suicide()`, which does not return. -/
def suicide {α : Type} (memory : Memory) : Run α := do
  let birth := memory.birth
  let num_killed ← suicideChildren birth.suicide_child memory.child birth.suicide_received 1
  leave memory num_killed

def traverseChildren : List Service → Command → Command → Run Command
  | [], _, receive_child => .pure receive_child
  | service :: rest, send_child, receive_child => do
      write service.link.write_fd send_child
      let receive_child ← read service.link.read_fd receive_child
      if receive_child.type = .exchange_success then .pure receive_child
      else traverseChildren rest receive_child receive_child

/-- Whether a service is one of the two in an exchange. -/
def Memory.Concerned (memory : Memory) (command : Command) : Prop :=
  command.content0 = memory.service_name ∨ command.content1 = memory.service_name

instance (memory : Memory) (command : Command) : Decidable (memory.Concerned command) :=
  inferInstanceAs (Decidable (_ ∨ _))

def traverse (memory : Memory) (receive_parent : Command) : Run Unit := do
  let cnt :=
    if memory.Concerned receive_parent then receive_parent.cnt + 1 else receive_parent.cnt
  if cnt = 2 then reply memory (receive_parent.typed .exchange_success)
  else do
    let command := { receive_parent with cnt }
    let receive_child ← traverseChildren memory.child command command
    reply memory receive_child

/-- The loop of `finds`: the child that has found the target, and `send_parent`. -/
def findsChildren : List Service → Command → Command → Run (Option Service × Command)
  | [], _, send_parent => .pure (none, send_parent)
  | service :: rest, send_child, send_parent => do
      write service.link.write_fd (send_child.typed .exchange)
      let receive_child ← read service.link.read_fd send_child
      if receive_child.type = .find_success then
        .pure (some service, send_parent.typed .find_success)
      else findsChildren rest receive_child receive_child

def found (memory : Memory) (index : Fin 2) (found : Option Service) (send_parent : Command) :
    Run Memory :=
  match found with
  | some service => do
      reply memory send_parent
      .pure (memory.register index service)
  | none => do
      reply memory (send_parent.typed .find_failed)
      .pure memory

def finds (memory : Memory) (receive_parent : Command) (index : Fin 2) : Run Memory := do
  let receive_parent := { receive_parent with target := index }
  if memory.service_name = receive_parent.content index then do
    reply memory (receive_parent.typed .find_success)
    .pure memory
  else do
    let (service, send_parent) ← findsChildren memory.child receive_parent receive_parent
    found memory index service send_parent

def openFifo (path : String) (side : Side) : Run Unit :=
  .call (.arrive path side) fun _ => .call (.open path side) fun _ => .pure ()

/-- `read` of a secret into a variable. -/
def readSecret (path : String) (buffer : UInt64) : Run UInt64 :=
  .call (.read path) fun
    | .secret (some secret) => .pure secret
    | _ => .pure buffer

def writeSecret (path : String) (secret : UInt64) : Run Unit :=
  .call (.write path secret) fun _ => .pure ()

def closeFifo (path : String) (side : Side) : Run Unit :=
  .call (.close path side) fun _ => .pure ()

def exchangeFirst (memory : Memory) (receive_parent : Command) : Run Memory := do
  openFifo receive_parent.fifo1 .writer
  openFifo receive_parent.fifo2 .reader
  let tmp_secret ← readSecret receive_parent.fifo2 memory.birth.tmp_secret
  print (.acquire_secret memory.service_name receive_parent.content1 tmp_secret)
  writeSecret receive_parent.fifo1 memory.secret
  closeFifo receive_parent.fifo1 .writer
  closeFifo receive_parent.fifo2 .reader
  .pure (memory.setSecret tmp_secret)

def exchangeSecond (memory : Memory) (receive_parent : Command) : Run Memory := do
  openFifo receive_parent.fifo1 .reader
  openFifo receive_parent.fifo2 .writer
  writeSecret receive_parent.fifo2 memory.secret
  let secret ← readSecret receive_parent.fifo1 memory.secret
  print (.acquire_secret memory.service_name receive_parent.content0 secret)
  closeFifo receive_parent.fifo2 .writer
  closeFifo receive_parent.fifo1 .reader
  .pure (memory.setSecret secret)

def exchanges (memory : Memory) (receive_parent : Command) : Run Memory :=
  if receive_parent.content0 = memory.service_name then exchangeFirst memory receive_parent
  else if receive_parent.content1 = memory.service_name then exchangeSecond memory receive_parent
  else .pure memory

/-! ## The branches of the loop in `main` -/

/-- The loop of the `spawn` branch: whether a child succeeded, and `receive_child`. -/
def spawnChildren (receive_parent : Command) : List Service → Command → Run (Bool × Command)
  | [], receive_child => .pure (false, receive_child)
  | service :: rest, receive_child => do
      write service.link.write_fd receive_parent
      let receive_child ← read service.link.read_fd receive_child
      if receive_child.type = .spawn_success then .pure (true, receive_child)
      else spawnChildren receive_parent rest receive_child

def tellSpawn (memory : Memory) (receive_parent : Command) : Run Unit :=
  if memory.is_manager ∧ memory.receive_child.type = .spawn_failed then
    print (.not_exist receive_parent.content0)
  else if memory.is_manager ∧ memory.receive_child.type = .spawn_success then
    print (.spawned receive_parent.content0 receive_parent.content1)
  else .pure ()

/-- `if (num_child == 0) strcpy(receive_child.type, "spawn_failed")`. -/
def Memory.denied (memory : Memory) : Memory :=
  if memory.num_child = 0 then memory.setReceived (memory.receive_child.typed .spawn_failed)
  else memory

def reportSpawn (memory : Memory) (receive_parent : Command) : Run Memory := do
  reply memory memory.send_parent
  tellSpawn memory.denied receive_parent
  .pure memory.denied

/-- `read(child[num_child-1].read_fd, &receive_child, sizeof(command))`. -/
def greeting (memory : Memory) : Run Command :=
  match memory.child.getLast? with
  | some service => read service.link.read_fd memory.receive_child
  | none => .call .undefined fun _ => .pure memory.receive_child

/-- The `type` of the answer to a `spawn`. -/
def spawnAnswer (success : Bool) : CommandType := if success then .spawn_success else .spawn_failed

def trySpawn (memory : Memory) (receive_parent : Command) : Run Memory :=
  if receive_parent.content0 = memory.service_name then do
    let memory ← spawns memory receive_parent.content1
    let receive_child ← greeting memory
    .pure ((memory.setReceived receive_child).setAnswer (memory.send_parent.typed .spawn_success))
  else do
    let (success, receive_child) ← spawnChildren receive_parent memory.child memory.receive_child
    .pure ((memory.setReceived receive_child).setAnswer
      (memory.send_parent.typed (spawnAnswer success)))

def spawn (memory : Memory) (receive_parent : Command) : Run Memory := do
  let memory ← trySpawn memory receive_parent
  reportSpawn memory receive_parent

/-- The loop of the `kill` branch behind the children `passed`: whether the target is dead,
the children that are left, and `receive_child`. -/
def killChildren (receive_parent : Command) (passed : List Service) :
    List Service → Command → Run (Bool × List Service × Command)
  | [], receive_child => .pure (false, passed, receive_child)
  | service :: rest, receive_child =>
      if receive_parent.content0 = service.name then do
        write service.link.write_fd (receive_parent.typed .suicide)
        let receive_child ← read service.link.read_fd receive_child
        wait
        close service.link
        .pure (true, passed ++ rest, receive_child)
      else do
        write service.link.write_fd receive_parent
        let receive_child ← read service.link.read_fd receive_child
        if receive_child.type = .kill_success then
          .pure (true, passed ++ service :: rest, receive_child)
        else killChildren receive_parent (passed ++ [service]) rest receive_child

def tellKill (receive_child receive_parent : Command) : Run Unit :=
  if receive_child.type = .kill_failed then print (.not_exist receive_parent.content0)
  else print (.killed receive_parent.content0 (receive_child.killed - 1))

def reportKill (memory : Memory) (receive_parent : Command) : Run Memory := do
  if memory.is_manager then tellKill memory.receive_child receive_parent
  else .reply memory.send_parent (.pure ())
  .pure memory

/-- The `kill` branch up to its answer, in a service that is not the target. -/
def tryKill (memory : Memory) (receive_parent : Command) : Run Memory := do
  let (success, child, receive_child) ←
    killChildren receive_parent [] memory.child (receive_parent.typed .kill_failed)
  .pure (((memory.setChild child).setReceived receive_child).setAnswer
    (receive_child.typed (if success then .kill_success else .kill_failed)))

def kill (memory : Memory) (receive_parent : Command) : Run Memory :=
  if memory.service_name = receive_parent.content0 then suicide memory
  else do
    let memory ← tryKill memory receive_parent
    reportKill memory receive_parent

/-- Write to the child of a register, take part, and read the child's answer. -/
def forwardAround (memory : Memory) (index : Fin 2) (send_child receive_parent : Command) :
    Run Memory := do
  write (memory.pipe_write index) send_child
  let memory ← exchanges memory receive_parent
  let receive_child ← read (memory.pipe_read index) memory.receive_child
  .pure (memory.setReceived receive_child)

def forward (memory : Memory) (index : Fin 2) (send_child : Command) : Run Memory := do
  write (memory.pipe_write index) send_child
  let receive_child ← read (memory.pipe_read index) memory.receive_child
  .pure (memory.setReceived receive_child)

def forwardBoth (memory : Memory) (send_child : Command) : Run Memory := do
  write (memory.pipe_write 0) send_child
  write (memory.pipe_write 1) send_child
  let receive_child ← read (memory.pipe_read 0) memory.receive_child
  let receive_child ← read (memory.pipe_read 1) receive_child
  .pure (memory.setReceived receive_child)

def fifoName (service_a service_b : Name) : String :=
  service_a.text ++ "_to_" ++ service_b.text ++ ".fifo"

/-- The message of `traverse`.  One byte of `cnt` is set to zero; the others are zero in
what `read_and_split` returns. -/
def Command.withFifos (command : Command) : Command :=
  { command with
    fifo1 := fifoName command.content0 command.content1
    fifo2 := fifoName command.content1 command.content0
    print := true, cnt := 0 }

/-- The last phase of an exchange, as the Manager starts it. -/
def startExchange (memory : Memory) (receive_parent : Command) : Run Memory :=
  if memory.service_name = receive_parent.content0 then do
    let memory ← finds memory receive_parent 1
    forwardAround memory 1 (receive_parent.typed .start_exchange) receive_parent
  else if memory.service_name = receive_parent.content1 then do
    let memory ← finds memory receive_parent 0
    forwardAround memory 0 (receive_parent.typed .start_exchange) receive_parent
  else do
    let memory ← finds memory receive_parent 0
    let memory ← finds memory receive_parent 1
    if memory.pipe_write 0 = memory.pipe_write 1 then
      forward memory 0 (receive_parent.typed .start_exchange)
    else forwardBoth memory (receive_parent.typed .start_exchange)

def manageExchange (memory : Memory) (receive_parent : Command) : Run Memory := do
  let _ ← call (.mkfifo receive_parent.withFifos.fifo1)
  let _ ← call (.mkfifo receive_parent.withFifos.fifo2)
  traverse memory receive_parent.withFifos
  let memory ← startExchange memory { receive_parent.withFifos with print := false }
  let _ ← call (.unlink receive_parent.withFifos.fifo1)
  let _ ← call (.unlink receive_parent.withFifos.fifo2)
  print (.exchanged receive_parent.content0 receive_parent.content1)
  .pure memory.clear

def exchange (memory : Memory) (receive_parent : Command) : Run Memory :=
  if memory.is_manager then manageExchange memory receive_parent
  else if receive_parent.print then do
    traverse memory receive_parent
    .pure memory
  else finds memory receive_parent receive_parent.target

/-- A service takes part in an exchange, answers, and forgets the way. -/
def takePart (memory : Memory) : Run Memory := do
  reply memory memory.send_parent
  .pure memory.clear

/-- The `start_exchange` branch, which the Manager never takes. -/
def takeExchange (memory : Memory) (receive_parent : Command) : Run Memory :=
  if memory.pipe_read 0 = -1 ∧ memory.pipe_read 1 = -1 then do
    let memory ← exchanges memory receive_parent
    takePart memory
  else if receive_parent.content0 = memory.service_name then do
    let memory ← forwardAround memory 1 receive_parent receive_parent
    takePart memory
  else if receive_parent.content1 = memory.service_name then do
    let memory ← forwardAround memory 0 receive_parent receive_parent
    takePart memory
  else do
    let memory ←
      if memory.pipe_read 0 ≠ -1 ∧ memory.pipe_read 1 ≠ -1 then
        if memory.pipe_read 0 ≠ memory.pipe_read 1 then forwardBoth memory receive_parent
        else forward memory 0 receive_parent
      else if memory.pipe_read 0 ≠ -1 then forward memory 0 receive_parent
      else forward memory 1 receive_parent
    -- this `write` does not ask whether the service is the Manager
    .reply memory.receive_child (.pure memory.clear)

/-- Whether a service prints that it has received the command. -/
def announces (memory : Memory) (receive_parent : Command) : Bool :=
  match receive_parent.type with
  | .start_exchange => false
  | .suicide => memory.service_name = receive_parent.content0
  | .exchange => receive_parent.print ∨ memory.is_manager
  | _ => true

def announce (memory : Memory) (receive_parent : Command) : Run Unit :=
  if announces memory receive_parent then
    print (.receive_command memory.service_name receive_parent.cmd)
  else .pure ()

def handle (memory : Memory) (receive_parent : Command) : Run Memory :=
  match receive_parent.type with
  | .spawn => spawn memory receive_parent
  | .kill => kill memory receive_parent
  | .suicide => suicide memory
  | .exchange => exchange memory receive_parent
  | .start_exchange => takeExchange memory receive_parent
  | _ => .pure memory

/-- The body of the loop in `main` for one message. -/
def serve (memory : Memory) (receive_parent : Command) : Run Memory :=
  if receive_parent.cmd = "" ∧ receive_parent.type = .empty then .exit
  else do
    announce memory receive_parent
    handle memory receive_parent

/-- `getpid` and `rand`, and the memory of a new process. -/
def start : Run Birth :=
  .call .birth fun
    | .birth birth => .pure birth
    | _ => .exit

/-- The message to the parent before the loop. -/
def greet (memory : Memory) : Run Memory :=
  if memory.is_manager then .pure memory
  else
    .reply (memory.send_parent.typed .spawn_success)
      (.pure (memory.setAnswer (memory.send_parent.typed .spawn_success)))

def boot (service_name : Name) : Run Memory := do
  let birth ← start
  print (.born service_name birth.pid birth.secret)
  greet (.start service_name birth)

def machine : Machine Command Op Val Name Memory World where
  serve := serve
  boot := boot
  exec := exec

/-! ## The commands of the Manager -/

/-- A line of the input. -/
inductive Input where
  | spawn (parent_service new_child_service : Name)
  | kill (target : Name)
  | exchange (service_a service_b : Name)
deriving DecidableEq

def read_and_split : Input → Command
  | .spawn parent_service new_child_service =>
      { Command.zero with
        type := .spawn, content0 := parent_service, content1 := new_child_service
        cmd := "spawn " ++ parent_service.text ++ " " ++ new_child_service.text }
  | .kill target =>
      { Command.zero with
        type := .kill, content0 := target, cmd := "kill " ++ target.text }
  | .exchange service_a service_b =>
      { Command.zero with
        type := .exchange, content0 := service_a, content1 := service_b
        cmd := "exchange " ++ service_a.text ++ " " ++ service_b.text }

end SysProg.Services
