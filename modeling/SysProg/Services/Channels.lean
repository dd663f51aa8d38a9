import SysProg.Data.Words
import SysProg.Process.Duet
import SysProg.Services.Exchange

namespace SysProg.Services

/-! # The channels of an exchange

When the two FIFOs of an exchange are two, and what the two services read from them in any
order of their calls. -/

open Process Data Transition Relation

def separator : List Char := ['_', 't', 'o', '_']

/-- Two names that, each with the separator behind it, repeat one word. -/
def Name.Clash (service_a service_b : Name) : Prop :=
  Alike (service_a.text.toList ++ separator) (service_b.text.toList ++ separator)

theorem fifoName_toList (service_a service_b : Name) :
    (fifoName service_a service_b).toList =
      service_a.text.toList ++ separator ++ service_b.text.toList ++ ".fifo".toList := by
  rw [fifoName, String.toList_append, String.toList_append, String.toList_append]
  rfl

theorem fifoName_clash {service_a service_b : Name} :
    fifoName service_a service_b = fifoName service_b service_a ↔ service_a.Clash service_b := by
  rw [Name.Clash, ← commutes_iff, ← String.toList_inj, fifoName_toList, fifoName_toList,
    List.append_left_inj]
  constructor
  · intro same
    rw [← List.append_assoc, same]
    simp
  · intro same
    have longer : (service_a.text.toList ++ separator ++ service_b.text.toList) ++ separator =
        (service_b.text.toList ++ separator ++ service_a.text.toList) ++ separator := by
      simpa using same
    exact List.append_cancel_right longer

/-! ## The two services alone -/

/-- `mkfifo`, which leaves alone what is there. -/
def World.mkfifo (world : World) (path : String) : World :=
  match world.fifos path with
  | some _ => world
  | none => world.setFifo path (some .fresh)

theorem exec_mkfifo_world (world : World) (path : String) :
    exec (.mkfifo path) world = some (.unit, world.mkfifo path) := by
  rw [exec, World.mkfifo]
  cases world.fifos path <;> rfl

/-- The message with which a service of the exchange calls `exchanges`: the Manager has read it
itself, the others get it from their parents. -/
def Memory.received (memory : Memory) (command : Command) : Command :=
  if memory.is_manager then command else command.typed .start_exchange

/-- The two services of an exchange when the Manager has made the FIFOs. -/
def parties (world : World) (first second : Memory) : Duet Command Op Val Name World Memory :=
  let command := (read_and_split (.exchange first.service_name second.service_name)).request
  { world := (world.mkfifo command.fifo1).mkfifo command.fifo2
    first := exchanges first (first.received command)
    second := exchanges second (second.received command) }

/-- Whatever the order of their calls, both services come to their ends with the secret of
the other and print it. -/
def Swaps (world : World) (first second : Memory) : Prop :=
  Until (Duet.Step machine) (fun _ => True)
    (Duet.Done (first.setSecret second.secret) (second.setSecret first.secret) fun last =>
      last.out = world.out ++
        [.acquire_secret first.service_name second.service_name second.secret,
          .acquire_secret second.service_name first.service_name first.secret])
    (parties world first second)

section Parties

variable {memory first second : Memory} {command : Command} {mine theirs : UInt64}

theorem exchangeFirst_makes (mine : command.content0 = memory.service_name) (theirs : UInt64) :
    (exchangeFirst memory command).Makes (firstCalls command memory.secret theirs)
      (memory.setSecret theirs) := by
  rw [firstCalls, mine]
  exact .call (.call (.call (.call (.call (.call (.call (.call (.call (.pure _)))))))))

theorem exchangeSecond_makes (mine : command.content1 = memory.service_name) (theirs : UInt64) :
    (exchangeSecond memory command).Makes (secondCalls command memory.secret theirs)
      (memory.setSecret theirs) := by
  rw [secondCalls, mine]
  exact .call (.call (.call (.call (.call (.call (.call (.call (.call (.pure _)))))))))

theorem exchanges_received : exchanges memory (memory.received command) = exchanges memory command := by
  rw [Memory.received]
  split <;> rfl

theorem exchanges_first (mine : command.content0 = memory.service_name) :
    exchanges memory command = exchangeFirst memory command :=
  if_pos mine

theorem exchanges_second (mine : command.content1 = memory.service_name)
    (other : command.content0 ≠ memory.service_name) :
    exchanges memory command = exchangeSecond memory command :=
  (if_neg other).trans (if_pos mine)

theorem mkfifo_free {world : World} {path : String} (free : Free world path) :
    world.mkfifo path = world.setFifo path (some .fresh) := by
  have made := (exec_mkfifo_world world path).symm.trans (exec_mkfifo free)
  exact congrArg Prod.snd (Option.some.inj made)

theorem Free.made {world : World} {path other : String} (free : Free world other) :
    Free (world.setFifo path (some .fresh)) other := by
  show (if other = path then _ else _) = _ ∨ (if other = path then _ else _) = _
  split
  · exact .inr rfl
  · exact free

end Parties

/-! ## One FIFO for both directions -/

def Fifo.shared (readers writers : Nat) (data : List UInt64) : Fifo where
  users
    | .reader => readers
    | .writer => writers
  data := data

/-- A world in which one FIFO is both of an exchange. -/
def World.share (world : World) (path : String) (readers writers : Nat) (data : List UInt64)
    (lines : List Line) : World :=
  world.meet path path (.shared readers writers data) .fresh lines

section Share

variable {world : World} {path : String} {readers writers : Nat} {data : List UInt64} {lines : List Line}

theorem share_found : (world.share path readers writers data lines).fifos path =
    some (.shared readers writers data) :=
  World.meet_forth

theorem share_set {fifo : Fifo} (readers' writers' : Nat) (data' : List UInt64)
    (same : fifo = .shared readers' writers' data') :
    (world.share path readers writers data lines).setFifo path (some fifo) =
      world.share path readers' writers' data' lines := by
  rw [World.share, World.set_forth, same]
  rfl

theorem share_arrive_reader : exec (.arrive path .reader) (world.share path readers writers data lines) =
    some (.unit, world.share path (readers + 1) writers data lines) := by
  rw [exec_arrive share_found]
  exact congrArg some (congrArg _ (share_set _ _ _ (Fifo.ext rfl rfl rfl)))

theorem share_arrive_writer : exec (.arrive path .writer) (world.share path readers writers data lines) =
    some (.unit, world.share path readers (writers + 1) data lines) := by
  rw [exec_arrive share_found]
  exact congrArg some (congrArg _ (share_set _ _ _ (Fifo.ext rfl rfl rfl)))

theorem share_open_reader :
    exec (.open path .reader) (world.share path readers (writers + 1) data lines) =
      some (.unit, world.share path readers (writers + 1) data lines) := by
  rw [exec_open share_found]
  exact if_pos (Nat.succ_pos writers)

theorem share_open_writer :
    exec (.open path .writer) (world.share path (readers + 1) writers data lines) =
      some (.unit, world.share path (readers + 1) writers data lines) := by
  rw [exec_open share_found]
  exact if_pos (Nat.succ_pos readers)

theorem share_write {secret : UInt64} :
    exec (.write path secret) (world.share path (readers + 1) writers [] lines) =
      some (.unit, world.share path (readers + 1) writers [secret] lines) := by
  rw [exec_write share_found (Nat.succ_pos readers)]
  exact congrArg some (congrArg _ (share_set _ _ _ (Fifo.ext rfl rfl rfl)))

theorem share_read {secret : UInt64} :
    exec (.read path) (world.share path readers writers [secret] lines) =
      some (.secret (some secret), world.share path readers writers [] lines) := by
  rw [exec_read share_found rfl]
  exact congrArg some (congrArg _ (share_set _ _ _ (Fifo.ext rfl rfl rfl)))

theorem share_read_waits : exec (.read path) (world.share path readers (writers + 1) [] lines) = none :=
  exec_read_waits share_found rfl (Nat.succ_pos writers)

theorem share_print {line : Line} :
    exec (.print line) (world.share path readers writers data lines) =
      some (.unit, world.share path readers writers data (lines ++ [line])) := by
  rw [World.share, World.share, World.meet, World.meet, ← List.append_assoc]
  rfl

theorem share_close_reader :
    exec (.close path .reader) (world.share path (readers + 1) writers data lines) =
      some (.unit, world.share path readers writers data lines) := by
  rw [exec_close share_found]
  exact congrArg some (congrArg _ (share_set _ _ _ (Fifo.ext rfl rfl rfl)))

theorem share_close_writer :
    exec (.close path .writer) (world.share path readers (writers + 1) data lines) =
      some (.unit, world.share path readers writers data lines) := by
  rw [exec_close share_found]
  exact congrArg some (congrArg _ (share_set _ _ _ (Fifo.ext rfl rfl rfl)))

end Share

/-- The second service may read back what it has written, and then the first waits for ever. -/
theorem shared_loses {command : Command} (same : command.fifo2 = command.fifo1) (world : World)
    {one two : Run Memory} {mine yours : UInt64} {after after' : Memory}
    (first : one.Makes (firstCalls command mine yours) after)
    (second : two.Makes (secondCalls command yours yours) after') :
    ∃ stays, ReflTransGen (Duet.Step machine) ⟨world.share command.fifo1 0 0 [] [], one, two⟩
        ⟨world.share command.fifo1 1 1 [] [.acquire_secret command.content1 command.content0 yours],
          stays, .pure after'⟩ ∧
      stays.Makes ((firstCalls command mine yours).drop 4) after := by
  let path := command.fifo1
  let line : Line := .acquire_secret command.content1 command.content0 yours
  have arrives : Calls machine [(.arrive path .writer, .unit)] (world.share path 0 0 [] [])
      (world.share path 0 1 [] []) := .cons share_arrive_writer (.nil _)
  have meets : Calls machine
      [(.arrive path .reader, .unit), (.open path .reader, .unit), (.arrive path .writer, .unit)]
      (world.share path 0 1 [] []) (world.share path 1 2 [] []) :=
    .cons share_arrive_reader (.cons share_open_reader (.cons share_arrive_writer (.nil _)))
  have opens : Calls machine
      [(.open path .writer, .unit), (.arrive path .reader, .unit), (.open path .reader, .unit)]
      (world.share path 1 2 [] []) (world.share path 2 2 [] []) :=
    .cons share_open_writer (.cons share_arrive_reader (.cons share_open_reader (.nil _)))
  have echoes : Calls machine
      [(.open path .writer, .unit), (.write path yours, .unit), (.read path, .secret (some yours)),
        (.print line, .unit), (.close path .writer, .unit), (.close path .reader, .unit)]
      (world.share path 2 2 [] []) (world.share path 1 1 [] [line]) :=
    .cons share_open_writer (.cons share_write (.cons share_read (.cons share_print
      (.cons share_close_writer (.cons share_close_reader (.nil _))))))
  have order : firstCalls command mine yours = [(.arrive path .writer, .unit)] ++
      ([(.open path .writer, .unit), (.arrive path .reader, .unit), (.open path .reader, .unit)] ++
        (firstCalls command mine yours).drop 4) := by
    simp only [firstCalls, same]
    rfl
  have order' : secondCalls command yours yours =
      [(.arrive path .reader, .unit), (.open path .reader, .unit), (.arrive path .writer, .unit)] ++
      ([(.open path .writer, .unit), (.write path yours, .unit), (.read path, .secret (some yours)),
        (.print line, .unit), (.close path .writer, .unit), (.close path .reader, .unit)] ++ []) := by
    simp only [secondCalls, same]
    rfl
  rw [order] at first
  rw [order'] at second
  obtain ⟨one', first', run⟩ := first.goes_first two arrives
  obtain ⟨two', second', run'⟩ := second.goes_second one' meets
  obtain ⟨stays, waits, run''⟩ := first'.goes_first two' opens
  obtain ⟨ended, finished, run'''⟩ := second'.goes_second stays echoes
  cases finished
  exact ⟨stays, ((run.trans run').trans run'').trans run''', waits⟩

section Swaps

variable {world : World} {first second : Memory}

theorem parties_ready {command : Command} (free : Free world command.fifo1) (free' : Free world command.fifo2) :
    (world.mkfifo command.fifo1).mkfifo command.fifo2 =
      (world.setFifo command.fifo1 (some .fresh)).setFifo command.fifo2 (some .fresh) := by
  rw [mkfifo_free free, mkfifo_free free'.made]

theorem World.share_fresh {path : String} :
    (world.setFifo path (some .fresh)).setFifo path (some .fresh) = world.share path 0 0 [] [] := by
  have fresh : Fifo.fresh = .shared 0 0 [] := by
    apply Fifo.ext <;> rfl
  rw [World.share, World.meet, List.append_nil, fresh]
  simp only [World.setFifo]

theorem parties_first (command : Command) (mine : command.content0 = first.service_name) (theirs : UInt64) :
    (exchanges first (first.received command)).Makes (firstCalls command first.secret theirs)
      (first.setSecret theirs) := by
  rw [exchanges_received, exchanges_first mine]
  exact exchangeFirst_makes mine theirs

theorem parties_second (command : Command) (mine : command.content1 = second.service_name)
    (other : command.content0 ≠ second.service_name) (theirs : UInt64) :
    (exchanges second (second.received command)).Makes (secondCalls command second.secret theirs)
      (second.setSecret theirs) := by
  rw [exchanges_received, exchanges_second mine other]
  exact exchangeSecond_makes mine theirs

variable (differ : first.service_name ≠ second.service_name)
  (free : Free world (fifoName first.service_name second.service_name))
  (free' : Free world (fifoName second.service_name first.service_name))

include differ free free'

/-- With one FIFO the second service may keep its own secret, and the first waits for one. -/
theorem clash_keeps (clash : first.service_name.Clash second.service_name) :
    ∃ last, ReflTransGen (Duet.Step machine) (parties world first second) last ∧
      (∀ next, ¬ Duet.Step machine last next) ∧ (∀ value, last.first ≠ .pure value) ∧
      last.second = .pure (second.setSecret second.secret) := by
  let command := (read_and_split (.exchange first.service_name second.service_name)).request
  have same : command.fifo2 = command.fifo1 := (fifoName_clash.mpr clash).symm
  have start : (world.mkfifo command.fifo1).mkfifo command.fifo2 = world.share command.fifo1 0 0 [] [] := by
    rw [parties_ready free free', same, World.share_fresh]
  obtain ⟨stays, run, blocked⟩ := shared_loses same world (parties_first command rfl second.secret)
    (parties_second command rfl differ second.secret)
  rw [← start] at run
  have waits : (firstCalls command first.secret second.secret).drop 4 =
      (.read command.fifo1, .secret (some second.secret)) ::
        (firstCalls command first.secret second.secret).drop 5 := by
    rw [← same]
    rfl
  rw [waits] at blocked
  refine ⟨_, run, ?_, ?_, rfl⟩
  · intro next step
    cases blocked with
    | call rest =>
        cases step with
        | first done =>
            rw [← same] at done
            exact nomatch share_read_waits.symm.trans done
  · intro value returned
    cases blocked with
    | call rest => cases returned

theorem Swaps.apart (swaps : Swaps world first second) : ¬ first.service_name.Clash second.service_name := by
  intro clash
  obtain ⟨last, run, stuck, waits, _⟩ := clash_keeps differ free free' clash
  exact Duet.stuck run stuck (fun done => waits _ done.1) swaps

theorem swaps_of_apart (apart : ¬ first.service_name.Clash second.service_name) :
    Swaps world first second := by
  let command := (read_and_split (.exchange first.service_name second.service_name)).request
  have different : command.fifo2 ≠ command.fifo1 := fun same => apart (fifoName_clash.mp same.symm)
  have start : Between command world first.secret second.secret
      (firstCalls command first.secret second.secret) (secondCalls command second.secret first.secret)
      ((world.mkfifo command.fifo1).mkfifo command.fifo2) := by
    refine ⟨0, 0, by constructor <;> omega, rfl, rfl, ?_⟩
    have silent (world : World) : world.say [] = world := by rw [World.say, List.append_nil]
    have begun : meeting command (world.say []) first.secret second.secret 0 0 = _ := meeting_start world []
    rw [silent, silent] at begun
    rw [parties_ready free free', begun]
  have goal := (exchange_pairs different world first.secret second.secret).duet
    (parties_first command rfl second.secret) (parties_second command rfl differ first.secret) start
  refine goal.mono (fun _ => id) ?_
  intro last reached
  obtain ⟨left, right, ended⟩ := reached
  refine ⟨left, right, ?_⟩
  rw [ended]
  rfl

/-- Two names have two FIFOs exactly if they do not clash, and exactly then the services with
these names swap their secrets in every order of their calls. -/
theorem swaps_iff :
    (fifoName first.service_name second.service_name ≠ fifoName second.service_name first.service_name ↔
        ¬ first.service_name.Clash second.service_name) ∧
      (Swaps world first second ↔ ¬ first.service_name.Clash second.service_name) :=
  ⟨not_congr fifoName_clash, fun swaps => swaps.apart differ free free', swaps_of_apart differ free free'⟩

end Swaps

/-- A service that the Manager has not heard of yet, with a secret. -/
def Memory.newborn (service_name : Name) (secret : UInt64) : Memory :=
  (Memory.start service_name .blank).setSecret secret

theorem swaps_iff_usual :
    Swaps .blank (.newborn .A 9) (.newborn .B 8) ↔ ¬ Name.A.Clash .B := by
  have differ : (Memory.newborn .A 9).service_name ≠ (Memory.newborn .B 8).service_name := by decide
  have free (path : String) : Free .blank path := .inl rfl
  exact (swaps_iff differ (free _) (free _)).2

/-- A name that a line of the input can hold and that is no path. -/
def Name.Plain (name : Name) : Prop :=
  name.text ≠ "" ∧ ∀ letter ∈ name.text.toList, ¬ letter.isWhitespace ∧ letter ≠ '/'

instance (name : Name) : Decidable name.Plain := @instDecidableAnd _ _ _ (List.decidableBAll _ _)

theorem swaps_fails_least :
    ∃ service_a service_b : Name, service_a.text = "a" ∧ service_b.text = "a_to_a" ∧
      service_a.Plain ∧ service_b.Plain ∧ service_a ≠ service_b ∧
      fifoName service_a service_b = fifoName service_b service_a ∧
      ¬ Swaps .blank (.newborn service_a 9) (.newborn service_b 8) ∧
      ∃ last, ReflTransGen (Duet.Step machine) (parties .blank (.newborn service_a 9) (.newborn service_b 8))
          last ∧
        (∀ next, ¬ Duet.Step machine last next) ∧ (∀ value, last.first ≠ .pure value) ∧
        last.second = .pure (.newborn service_b 8) := by
  have clash : Name.Clash ⟨"a", by decide⟩ ⟨"a_to_a", by decide⟩ :=
    ⟨'a' :: separator, 1, 2, by decide, by decide⟩
  refine ⟨⟨"a", by decide⟩, ⟨"a_to_a", by decide⟩, rfl, rfl, by decide, by decide, by decide,
    fifoName_clash.mpr clash, ?_, ?_⟩
  · exact fun swaps => swaps.apart (by decide) (.inl rfl) (.inl rfl) clash
  · exact clash_keeps (by decide) (.inl rfl) (.inl rfl) clash

end SysProg.Services
