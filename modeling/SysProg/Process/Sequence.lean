import SysProg.Process.Run

namespace SysProg.Process

/-! Programs that wait for one child at a time.

`Yields` is a triple: it says what a part of a program makes of the children, which calls
of one lane it makes and what it returns, whatever the program does next. -/

variable {Msg Op Val Seed Loc World Lane α β : Type} [DecidableEq Lane] [PartialOrder Lane]
  {machine : Machine Msg Op Val Seed Loc World} {lane : Lane} {crew middle last : Crew Msg Loc Lane}
  {calls more : List (Op × Val)} {value : α}

structure Yields (machine : Machine Msg Op Val Seed Loc World) (lane : Lane)
    (prog : Prog Msg Op Val Seed α) (crew last : Crew Msg Loc Lane) (calls : List (Op × Val))
    (value : α) : Prop where
  before : ∀ (next : α → Prog Msg Op Val Seed Loc) {trace : Trace Lane Op Val} {count : Nat}
    {reply : Option Msg} {final : Option (Loc × Grove Loc)},
    (∀ later, trace later ≠ [] → lane ≤ later) →
    Runs machine (next value) last trace count reply final →
    ∃ steps, Runs machine (prog.bind next) crew (Trace.only lane calls ++ trace) steps reply final

def Crew.Quiet (crew : Crew Msg Loc Lane) : Prop := ∀ post ∈ crew, post.2.lanes = ∅

omit [DecidableEq Lane] in
theorem Crew.Quiet.apart (quiet : Crew.Quiet crew) (lanes : Set Lane) : Crew.Apart lanes crew := by
  intro post inside
  rw [quiet post inside]
  exact Process.Apart.empty lanes

def Crew.Still (crew : Crew Msg Loc Lane) : Prop := ∀ post ∈ crew, post.2.Still

omit [DecidableEq Lane] [PartialOrder Lane] in
theorem Crew.Still.quiet (still : Crew.Still crew) : crew.Quiet := by
  intro post inside
  obtain ⟨link, status⟩ := post
  have here := still _ inside
  cases status with
  | quiet | gone => rfl
  | running | leaving => exact here.elim

omit [DecidableEq Lane] [PartialOrder Lane] in
theorem Crew.Gone.still (gone : Crew.Gone crew) : crew.Still := by
  intro post inside
  rw [gone post inside]
  trivial

omit [DecidableEq Lane] [PartialOrder Lane] in
theorem Crew.Still.append (first : Crew.Still crew) (second : Crew.Still middle) :
    Crew.Still (crew ++ middle) := by
  intro post inside
  cases List.mem_append.mp inside with
  | inl left => exact first post left
  | inr right => exact second post right

omit [DecidableEq Lane] [PartialOrder Lane] in
theorem Grove.crew_still (grove : Grove Loc) : (grove.crew : Crew Msg Loc Lane).Still := by
  induction grove with
  | nil => exact fun _ inside => nomatch inside
  | cons link loc kids rest _ ih =>
      intro post inside
      cases List.mem_cons.mp inside with
      | inl same => exact same ▸ trivial
      | inr later => exact ih post later

structure Crew.Distinct (crew : Crew Msg Loc Lane) : Prop where
  readers : (crew.map fun post => post.1.read_fd).Nodup
  writers : (crew.map fun post => post.1.write_fd).Nodup

section Distinct

omit [DecidableEq Lane] [PartialOrder Lane]

variable {link : Link} {status status' : Status Msg Loc Lane} {before rest : Crew Msg Loc Lane}

theorem Crew.Distinct.replace (distinct : Crew.Distinct (before ++ (link, status) :: rest)) :
    Crew.Distinct (before ++ (link, status') :: rest) := by
  obtain ⟨readers, writers⟩ := distinct
  simp only [List.map_append, List.map_cons] at readers writers
  constructor
  · simpa only [List.map_append, List.map_cons] using readers
  · simpa only [List.map_append, List.map_cons] using writers

theorem Crew.Distinct.reader (distinct : Crew.Distinct (before ++ (link, status) :: rest)) :
    ∀ post ∈ before, post.1.read_fd ≠ link.read_fd := by
  intro post inside same
  have readers := distinct.readers
  rw [List.map_append, List.nodup_append] at readers
  exact readers.2.2 _ (List.mem_map_of_mem inside) _ (by simp) same

theorem Crew.Distinct.writer (distinct : Crew.Distinct (before ++ (link, status) :: rest)) :
    ∀ post ∈ before, post.1.write_fd ≠ link.write_fd := by
  intro post inside same
  have writers := distinct.writers
  rw [List.map_append, List.nodup_append] at writers
  exact writers.2.2 _ (List.mem_map_of_mem inside) _ (by simp) same

theorem Crew.Quiet.replace (quiet : Crew.Quiet (before ++ (link, status) :: rest))
    (still : status'.lanes = ∅) : Crew.Quiet (before ++ (link, status') :: rest) := by
  intro post inside
  simp only [List.mem_append, List.mem_cons] at inside
  rcases inside with left | rfl | right
  · exact quiet post (by simp [left])
  · exact still
  · exact quiet post (by simp [right])

theorem Grove.crew_quiet (grove : Grove Loc) : (grove.crew : Crew Msg Loc Lane).Quiet :=
  grove.crew_still.quiet

end Distinct

namespace Yields

theorem above {trace : Trace Lane Op Val} (ordered : ∀ later, trace later ≠ [] → lane ≤ later)
    (calls : List (Op × Val)) :
    ∀ later, (Trace.only lane calls ++ trace) later ≠ [] → lane ≤ later := by
  intro later some
  by_cases here : later = lane
  · exact here.ge
  · exact ordered later (by simpa [here] using some)

theorem pure (value : α) : Yields machine lane (.pure value) crew crew [] value := by
  constructor
  intro next trace count reply final ordered runs
  rw [Trace.only_nil, Trace.nil_append]
  exact ⟨count, runs⟩

theorem bind {prog : Prog Msg Op Val Seed α} {after : α → Prog Msg Op Val Seed β} {result : β}
    (first : Yields machine lane prog crew middle calls value)
    (second : Yields machine lane (after value) middle last more result) :
    Yields machine lane (prog.bind after) crew last (calls ++ more) result := by
  constructor
  intro next trace count reply final ordered runs
  obtain ⟨steps, behind⟩ := second.before next ordered runs
  have above := above ordered more
  obtain ⟨total, runs'⟩ := first.before (fun value => (after value).bind next) above behind
  rw [Prog.bind_assoc, Trace.only_append, Trace.append_assoc]
  exact ⟨total, runs'⟩

theorem map {prog : Prog Msg Op Val Seed α} {after : α → Prog Msg Op Val Seed β} {result : β}
    (first : Yields machine lane prog crew last calls value)
    (second : Yields machine lane (after value) last last [] result) :
    Yields machine lane (prog.bind after) crew last calls result := by
  have all := first.bind second
  rwa [List.append_nil] at all

theorem call {op : Op} {val : Val} {next : Val → Prog Msg Op Val Seed α}
    (free : Crew.Apart {lane} crew) (continues : Yields machine lane (next val) crew last calls value) :
    Yields machine lane (.call op next) crew last ((op, val) :: calls) value := by
  constructor
  intro after trace count reply final ordered runs
  obtain ⟨steps, behind⟩ := continues.before after ordered runs
  have above := above ordered calls
  rw [show (op, val) :: calls = [(op, val)] ++ calls from rfl, Trace.only_append,
    Trace.append_assoc]
  exact ⟨_, .call free above behind⟩

theorem ask {link : Link} {before rest : Crew Msg Loc Lane} {loc : Loc} {kids : Grove Loc}
    {msg answer : Msg} {after : Option (Loc × Grove Loc)} {count : Nat}
    {next : Option Msg → Prog Msg Op Val Seed α}
    (distinct : (before ++ (link, .quiet loc kids) :: rest).Distinct)
    (quiet : (before ++ (link, .quiet loc kids) :: rest).Quiet)
    (served : Runs machine (machine.serve loc msg) kids.crew (Trace.only lane calls) count
      (some answer) after)
    (continues : Yields machine lane (next (some answer)) (before ++ (link, .settled after) :: rest)
      last more value) :
    Yields machine lane (.write link.write_fd msg (.read link.read_fd next))
      (before ++ (link, .quiet loc kids) :: rest) last (calls ++ more) value := by
  constructor
  intro goal trace steps reply final ordered runs
  obtain ⟨total, behind⟩ := continues.before goal ordered runs
  have above := above ordered more
  have answered : ∀ later, (Trace.only lane more ++ trace) later ≠ [] → ∀ other ∈ ({lane} : Set Lane),
      other ≤ later := by
    intro later some other same
    obtain rfl := same
    exact above later some
  have others : (before ++ rest).Quiet := by
    intro post inside
    refine quiet post ?_
    simp only [List.mem_append, List.mem_cons] at inside ⊢
    exact inside.imp_right .inr
  rw [Trace.only_append, Trace.append_assoc]
  exact ⟨_, .write distinct.writer served (Trace.only_within lane calls) (others.apart _)
    (.read distinct.reader answered behind)⟩

theorem spawn {own : List Int} {seed : Seed} {answer : Msg} {after : Option (Loc × Grove Loc)}
    {count : Nat} {next : Link → Option Msg → Prog Msg Op Val Seed α}
    (readers : ∀ post ∈ crew, post.1.read_fd ≠ (Link.fresh (own ++ crew.descriptors)).read_fd)
    (quiet : crew.Quiet)
    (served : Runs machine (machine.boot seed) [] (Trace.only lane calls) count (some answer) after)
    (continues : Yields machine lane (next (.fresh (own ++ crew.descriptors)) (some answer))
      (crew ++ [(.fresh (own ++ crew.descriptors), .settled after)]) last more value) :
    Yields machine lane (.fork own seed fun link => .read link.read_fd (next link)) crew last
      (calls ++ more) value := by
  constructor
  intro goal trace steps reply final ordered runs
  obtain ⟨total, behind⟩ := continues.before goal ordered runs
  have above := above ordered more
  have answered : ∀ later, (Trace.only lane more ++ trace) later ≠ [] → ∀ other ∈ ({lane} : Set Lane),
      other ≤ later := by
    intro later some other same
    obtain rfl := same
    exact above later some
  rw [Trace.only_append, Trace.append_assoc]
  exact ⟨_, .fork served (Trace.only_within lane calls) (quiet.apart _)
    (.read readers answered behind)⟩

theorem wait {link : Link} {before rest : Crew Msg Loc Lane} {next : Prog Msg Op Val Seed α}
    (still : ∀ post ∈ before ++ rest, post.2.Still)
    (continues : Yields machine lane next (before ++ (link, .gone) :: rest) last calls value) :
    Yields machine lane (.wait next) (before ++ (link, .leaving) :: rest) last calls value := by
  constructor
  intro goal trace steps reply final ordered runs
  obtain ⟨total, behind⟩ := continues.before goal ordered runs
  exact ⟨_, .wait still behind⟩

theorem close {link : Link} {before rest : Crew Msg Loc Lane} {next : Prog Msg Op Val Seed α}
    (others : ∀ post ∈ before, post.1 ≠ link)
    (continues : Yields machine lane next (before ++ rest) last calls value) :
    Yields machine lane (.close link next) (before ++ (link, .gone) :: rest) last calls value := by
  constructor
  intro goal trace steps reply final ordered runs
  obtain ⟨total, behind⟩ := continues.before goal ordered runs
  exact ⟨_, .close others behind⟩

end Yields

/-- A whole program that waits for one child at a time. -/
def Ends (machine : Machine Msg Op Val Seed Loc World) (lane : Lane) (prog : Prog Msg Op Val Seed Loc)
    (crew : Crew Msg Loc Lane) (calls : List (Op × Val)) (answer : Option Msg)
    (final : Option (Loc × Grove Loc)) : Prop :=
  ∃ steps, Runs machine prog crew (Trace.only lane calls) steps answer final

theorem Ends.of_runs {prog : Prog Msg Op Val Seed Loc} {steps : Nat} {answer : Option Msg}
    {final : Option (Loc × Grove Loc)} (runs : Runs machine prog crew .nil steps answer final) :
    Ends machine lane prog crew [] answer final :=
  ⟨steps, by rwa [Trace.only_nil]⟩

/-- The end of a program behind a part that yields. -/
theorem Yields.ends {prog : Prog Msg Op Val Seed α} {next : α → Prog Msg Op Val Seed Loc}
    {answer : Option Msg} {final : Option (Loc × Grove Loc)}
    (part : Yields machine lane prog crew last calls value)
    (ended : Ends machine lane (next value) last more answer final) :
    Ends machine lane (prog.bind next) crew (calls ++ more) answer final := by
  obtain ⟨steps, runs⟩ := ended
  have ordered : ∀ later, Trace.only lane more later ≠ [] → lane ≤ later := by
    intro later some
    by_contra different
    exact some (Trace.only_other (fun same => different same.ge) more)
  obtain ⟨total, all⟩ := part.before next ordered runs
  exact ⟨total, by rwa [Trace.only_append]⟩

theorem Yields.finish {prog : Prog Msg Op Val Seed α} {next : α → Prog Msg Op Val Seed Loc}
    {answer : Option Msg} {final : Option (Loc × Grove Loc)}
    (part : Yields machine lane prog crew last calls value)
    (ended : Ends machine lane (next value) last [] answer final) :
    Ends machine lane (prog.bind next) crew calls answer final := by
  have all := part.ends ended
  rwa [List.append_nil] at all

/-- The calls can be made one after the other and return the values beside them. -/
inductive Calls (machine : Machine Msg Op Val Seed Loc World) :
    List (Op × Val) → World → World → Prop
  | nil (world : World) : Calls machine [] world world
  | cons {op : Op} {val : Val} {calls : List (Op × Val)} {world middle last : World}
      (done : machine.exec op world = some (val, middle)) (rest : Calls machine calls middle last) :
      Calls machine ((op, val) :: calls) world last

theorem Calls.append {world middle last : World} (first : Calls machine calls world middle)
    (second : Calls machine more middle last) : Calls machine (calls ++ more) world last := by
  induction first with
  | nil world => exact second
  | cons done _ ih => exact .cons done (ih second)

theorem Calls.plan {world middle : World} {outcome : World → Prop} {trace : Trace Lane Op Val}
    (made : Calls machine calls world middle) (ordered : ∀ later, trace later ≠ [] → lane ≤ later)
    (plan : Plan machine outcome trace middle) :
    Plan machine outcome (Trace.only lane calls ++ trace) world := by
  induction made with
  | nil world =>
      rw [Trace.only_nil, Trace.nil_append]
      exact plan
  | @cons op val calls world middle' last done rest ih =>
      have head : (Trace.only lane ((op, val) :: calls) ++ trace) lane =
          (op, val) :: (calls ++ trace lane) := by simp
      have unique : ∀ {other op' val' calls'},
          Due (Trace.only lane ((op, val) :: calls) ++ trace) other op' val' calls' →
            other = lane := by
        intro other op' val' calls' due
        by_contra different
        have above : lane ≤ other := by
          apply ordered
          have next := due.next
          rw [Trace.append_apply, Trace.only_other different, List.nil_append] at next
          simp [next]
        have empty := due.ready lane (lt_of_le_of_ne above (Ne.symm different))
        simp at empty
      refine .step ⟨lane, op, val, _, ⟨head, ?_⟩, by simp [done]⟩ ?_ ?_
      · intro lower less
        have theirs : trace lower = [] := by
          by_contra some
          exact (ordered lower some).not_gt less
        simp [less.ne, theirs]
      · intro other op' val' calls' got world' due executed
        obtain rfl := unique due
        have same := due.next.symm.trans head
        simp only [List.cons.injEq, Prod.mk.injEq] at same
        obtain ⟨⟨rfl, rfl⟩, _⟩ := same
        rw [done] at executed
        cases executed
        rfl
      · intro other op' val' calls' got world' due executed
        obtain rfl := unique due
        have same := due.next.symm.trans head
        simp only [List.cons.injEq, Prod.mk.injEq] at same
        obtain ⟨⟨rfl, rfl⟩, rfl⟩ := same
        rw [done] at executed
        cases executed
        rw [Trace.put_append_right, Trace.only_put]
        exact ih plan

theorem Calls.alone {world middle : World} (made : Calls machine calls world middle) :
    Plan machine (fun last => last = middle) (Trace.only lane calls) world := by
  have all : Plan machine (fun last => last = middle) (Trace.only lane calls ++ .nil) world :=
    made.plan (fun _ some => absurd rfl some) (.done rfl)
  rwa [Trace.append_nil] at all

end SysProg.Process
