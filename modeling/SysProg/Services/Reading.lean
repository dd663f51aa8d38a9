import SysProg.Data.Memory
import SysProg.Data.Scan
import SysProg.Services.Session

namespace SysProg.Services

open Process Data Transition

/-! # What the Manager reads

`read_and_split` on the characters of its input, a character being one byte. -/

def NUL : Char := Char.ofNat 0

def TYPE_SIZE : Nat := 20

def isspace (letter : Char) : Bool := letter = ' ' ∨ (9 ≤ letter.toNat ∧ letter.toNat ≤ 13)

/-- The command that `strcmp` finds in `type`. -/
def typeOf : String → CommandType
  | "" => .empty
  | "spawn" => .spawn
  | "kill" => .kill
  | "exchange" => .exchange
  | "suicide" => .suicide
  | "start_exchange" => .start_exchange
  | "spawn_success" => .spawn_success
  | "spawn_failed" => .spawn_failed
  | "kill_success" => .kill_success
  | "kill_failed" => .kill_failed
  | "suicide_success" => .suicide_success
  | "exchange_success" => .exchange_success
  | "find_success" => .find_success
  | "find_failed" => .find_failed
  | _ => .other

theorem string_length_le (word : List Char) : (String.ofList (string NUL word)).length ≤ word.length := by
  rw [String.length_ofList]
  exact (List.takeWhile_prefix _).length_le

/-- `scanf("%s", content)` into a name.  At the end of the input it stays empty; `none` is a
word that is too long for a name. -/
def scanName (text : List Char) : Option (Name × List Char) :=
  match scan isspace text with
  | none => some (.empty, [])
  | some (word, rest) =>
      if short : word.length < MAX_SERVICE_NAME_LEN then
        some (⟨.ofList (string NUL word), Nat.lt_of_le_of_lt (string_length_le word) short⟩, rest)
      else none

/-- `scanf("%s%s", content[0], content[1])`. -/
def scanNames (text : List Char) : Option ((Name × Name) × List Char) := do
  let (content0, rest) ← scanName text
  let (content1, rest) ← scanName rest
  some ((content0, content1), rest)

/-- One call of `read_and_split` at the Manager, and the input behind it. -/
def readCommand (text : List Char) : Option (Command × List Char) :=
  match scan isspace text with
  | none => some (.zero, [])
  | some (word, rest) =>
      if TYPE_SIZE ≤ word.length then none
      else
        match typeOf (.ofList (string NUL word)) with
        | .spawn => (scanNames rest).map fun (content, rest) => (read_and_split (.spawn content.1 content.2), rest)
        | .exchange =>
            (scanNames rest).map fun (content, rest) => (read_and_split (.exchange content.1 content.2), rest)
        | .kill => (scanName rest).map fun (content, rest) => (read_and_split (.kill content), rest)
        | type => some ({ Command.zero with type }, rest)

/-- The words of a command. -/
def Input.words : Input → List (List Char)
  | .spawn parent_service new_child_service =>
      ["spawn".toList, parent_service.text.toList, new_child_service.text.toList]
  | .kill target => ["kill".toList, target.text.toList]
  | .exchange service_a service_b => ["exchange".toList, service_a.text.toList, service_b.text.toList]

def Input.names : Input → List Name
  | .spawn parent_service new_child_service => [parent_service, new_child_service]
  | .kill target => [target]
  | .exchange service_a service_b => [service_a, service_b]

variable {text rest : List Char} {later : List (List Char)} {name : Name} {input : Input} {command : Command}

theorem scanName_shorter (read : scanName text = some (name, rest)) : rest.length ≤ text.length := by
  rw [scanName] at read
  cases took : scan isspace text with
  | none =>
      rw [took] at read
      cases read
      exact Nat.zero_le _
  | some pair =>
      obtain ⟨word, rest'⟩ := pair
      rw [took] at read
      dsimp only at read
      split at read
      · cases read
        exact Nat.le_of_lt (scan_spec took).shorter
      · cases read

theorem scanNames_parts {content : Name × Name} (read : scanNames text = some (content, rest)) :
    ∃ middle, scanName text = some (content.1, middle) ∧ scanName middle = some (content.2, rest) := by
  obtain ⟨⟨content0, middle⟩, first, read⟩ := Option.bind_eq_some_iff.mp read
  obtain ⟨⟨content1, last⟩, second, read⟩ := Option.bind_eq_some_iff.mp read
  cases read
  exact ⟨middle, first, second⟩

theorem scanNames_shorter {content : Name × Name} (read : scanNames text = some (content, rest)) :
    rest.length ≤ text.length := by
  obtain ⟨middle, first, second⟩ := scanNames_parts read
  exact Nat.le_trans (scanName_shorter second) (scanName_shorter first)

/-- A `command` that ends the loop of `main`. -/
def Command.Stops (command : Command) : Prop := command.cmd = "" ∧ command.type = .empty

instance (command : Command) : Decidable command.Stops := inferInstanceAs (Decidable (_ ∧ _))

theorem readCommand_shorter (read : readCommand text = some (command, rest)) :
    command = .zero ∨ rest.length < text.length := by
  rw [readCommand] at read
  cases took : scan isspace text with
  | none =>
      rw [took] at read
      cases read
      exact .inl rfl
  | some pair =>
      obtain ⟨word, rest'⟩ := pair
      rw [took] at read
      dsimp only at read
      refine .inr (Nat.lt_of_le_of_lt ?_ (scan_spec took).shorter)
      split at read
      · cases read
      · split at read
        · obtain ⟨_, both, same⟩ := Option.map_eq_some_iff.mp read
          cases same
          exact scanNames_shorter both
        · obtain ⟨_, both, same⟩ := Option.map_eq_some_iff.mp read
          cases same
          exact scanNames_shorter both
        · obtain ⟨_, one, same⟩ := Option.map_eq_some_iff.mp read
          cases same
          exact scanName_shorter one
        · cases read
          exact Nat.le_refl _

/-- All commands up to the one that ends the loop; `none` is an input with a word that is too
long. -/
def commands (text : List Char) : Option (List Command) :=
  match _read : readCommand text with
  | none => none
  | some (command, rest) =>
      if _stops : command.Stops then some []
      else (commands rest).map (command :: ·)
termination_by text.length
decreasing_by
  rcases readCommand_shorter _read with zero | shorter
  · exact absurd (zero ▸ ⟨rfl, rfl⟩) _stops
  · exact shorter

/-! ## The words of the input -/

end SysProg.Services
