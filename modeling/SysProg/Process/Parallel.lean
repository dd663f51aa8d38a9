import SysProg.Process.Sequence

namespace SysProg.Process

/-! Programs that have several children at work at a time.

`Spans` is the triple for a part of a program whose calls are in several lanes; behind the
part come only calls of lanes above these. -/

variable {Msg Op Val Seed Loc World Lane α β : Type} [DecidableEq Lane] [PartialOrder Lane]
  {machine : Machine Msg Op Val Seed Loc World} {lane : Lane} {crew last : Crew Msg Loc Lane}
  {first second trace : Trace Lane Op Val} {value : α}

def Trace.lanes (trace : Trace Lane Op Val) : Set Lane := {lane | trace lane ≠ []}

omit [DecidableEq Lane] [PartialOrder Lane] in
theorem Trace.within_lanes (trace : Trace Lane Op Val) : trace.Within trace.lanes := fun _ => id

/-- Calls behind a part are in lanes above its own. -/
def Trace.Above (trace first : Trace Lane Op Val) : Prop :=
  ∀ later, trace later ≠ [] → ∀ lane ∈ first.lanes, lane ≤ later

omit [DecidableEq Lane] in
theorem Trace.Above.left (above : trace.Above (first ++ second)) : trace.Above first := by
  intro later some lane inside
  refine above later some lane fun none => inside ?_
  exact (List.append_eq_nil_iff.mp none).1

omit [DecidableEq Lane] in
theorem Trace.Above.right (above : trace.Above (first ++ second)) : trace.Above second := by
  intro later some lane inside
  refine above later some lane fun none => inside ?_
  exact (List.append_eq_nil_iff.mp none).2

omit [DecidableEq Lane] in
theorem Trace.nil_above (first : Trace Lane Op Val) : (nil : Trace Lane Op Val).Above first :=
  fun _ some => absurd rfl some

structure Spans (machine : Machine Msg Op Val Seed Loc World) (prog : Prog Msg Op Val Seed α)
    (crew last : Crew Msg Loc Lane) (first : Trace Lane Op Val) (value : α) : Prop where
  before : ∀ (next : α → Prog Msg Op Val Seed Loc) {trace : Trace Lane Op Val} {count : Nat}
    {reply : Option Msg} {final : Option (Loc × Grove Loc)},
    trace.Above first → Runs machine (next value) last trace count reply final →
    ∃ steps, Runs machine (prog.bind next) crew (first ++ trace) steps reply final

/-- The status of one child changes. -/
inductive Crew.Becomes (link : Link) (old new : Status Msg Loc Lane) :
    Crew Msg Loc Lane → Crew Msg Loc Lane → Prop
  | middle (before rest : Crew Msg Loc Lane) :
      Becomes link old new (before ++ (link, old) :: rest) (before ++ (link, new) :: rest)

omit [DecidableEq Lane] [PartialOrder Lane] in
theorem Crew.Becomes.deep {link : Link} {old new : Status Msg Loc Lane}
    (before middle rest : Crew Msg Loc Lane) (post : Link × Status Msg Loc Lane) :
    Becomes link old new (before ++ post :: (middle ++ (link, old) :: rest))
      (before ++ post :: (middle ++ (link, new) :: rest)) := by
  have far : Becomes link old new ((before ++ post :: middle) ++ (link, old) :: rest)
      ((before ++ post :: middle) ++ (link, new) :: rest) := .middle _ rest
  simpa using far

omit [DecidableEq Lane] [PartialOrder Lane] in
theorem Crew.Becomes.mem {link : Link} {old new : Status Msg Loc Lane}
    (becomes : Crew.Becomes link old new crew last) {post : Link × Status Msg Loc Lane}
    (inside : post ∈ last) : post ∈ crew ∨ post = (link, new) := by
  cases becomes
  simp only [List.mem_append, List.mem_cons] at inside ⊢
  rcases inside with left | same | right
  · exact .inl (.inl left)
  · exact .inr same
  · exact .inl (.inr (.inr right))

omit [DecidableEq Lane] [PartialOrder Lane] in
theorem Crew.Becomes.distinct {link : Link} {old new : Status Msg Loc Lane}
    (becomes : Crew.Becomes link old new crew last) (distinct : crew.Distinct) : last.Distinct := by
  cases becomes
  exact distinct.replace

theorem Crew.Becomes.write {link : Link} {loc : Loc} {kids : Grove Loc} {lanes : Set Lane}
    {msg answer : Msg} {after : Option (Loc × Grove Loc)} {next : Prog Msg Op Val Seed Loc}
    {steps count : Nat} {reply : Option Msg} {final : Option (Loc × Grove Loc)}
    (becomes : Crew.Becomes link (.quiet loc kids) (.running lanes answer after) crew last)
    (distinct : crew.Distinct)
    (served : Runs machine (machine.serve loc msg) kids.crew first steps (some answer) after)
    (within : first.Within lanes) (apart : Crew.Apart lanes crew)
    (continues : Runs machine next last second count reply final) :
    Runs machine (.write link.write_fd msg next) crew (first ++ second) (steps + count + 2) reply
      final := by
  cases becomes with
  | middle before rest =>
      obtain ⟨left, right⟩ := Crew.apart_append.mp apart
      have others := Crew.apart_append.mpr ⟨left, (Crew.apart_cons.mp right).2⟩
      exact .write distinct.writer served within others continues

theorem Crew.Becomes.read {link : Link} {lanes : Set Lane} {answer : Msg}
    {after : Option (Loc × Grove Loc)} {next : Option Msg → Prog Msg Op Val Seed Loc} {count : Nat}
    {reply : Option Msg} {final : Option (Loc × Grove Loc)}
    (becomes : Crew.Becomes link (.running lanes answer after) (.settled after) crew last)
    (distinct : crew.Distinct)
    (ordered : ∀ later, trace later ≠ [] → ∀ lane ∈ lanes, lane ≤ later)
    (continues : Runs machine (next (some answer)) last trace count reply final) :
    Runs machine (.read link.read_fd next) crew trace (count + 1) reply final := by
  cases becomes with
  | middle before rest => exact .read distinct.reader ordered continues

namespace Spans

theorem of_yields {prog : Prog Msg Op Val Seed α} {calls : List (Op × Val)}
    (part : Yields machine lane prog crew last calls value) (some_calls : calls ≠ []) :
    Spans machine prog crew last (Trace.only lane calls) value := by
  constructor
  intro next trace count reply final above runs
  have ordered : ∀ later, trace later ≠ [] → lane ≤ later := by
    intro later some
    exact above later some lane (by simp [Trace.lanes, some_calls])
  exact part.before next ordered runs

/-- A part whose calls come first, whatever the lanes of the next. -/
theorem behind {prog : Prog Msg Op Val Seed α} {next : α → Prog Msg Op Val Seed β}
    {middle : Crew Msg Loc Lane} {calls : List (Op × Val)} {result : β}
    (part : Yields machine lane prog crew middle calls value) (lowest : ∀ other, lane ≤ other)
    (more : Spans machine (next value) middle last second result) :
    Spans machine (prog.bind next) crew last (Trace.only lane calls ++ second) result := by
  constructor
  intro goal trace count reply final above runs
  obtain ⟨steps, ends⟩ := more.before goal above.right runs
  obtain ⟨total, all⟩ := part.before (fun value => (next value).bind goal) (fun other _ => lowest other) ends
  rw [Prog.bind_assoc, Trace.append_assoc]
  exact ⟨total, all⟩

/-- A request to an idle child and its answer, whatever the lanes of the child. -/
theorem ask {link : Link} {before rest : Crew Msg Loc Lane} {loc : Loc} {kids : Grove Loc}
    {msg answer : Msg} {after : Option (Loc × Grove Loc)} {count : Nat}
    {next : Option Msg → Prog Msg Op Val Seed α}
    (distinct : (before ++ (link, .quiet loc kids) :: rest).Distinct)
    (quiet : (before ++ rest).Quiet)
    (served : Runs machine (machine.serve loc msg) kids.crew first count (some answer) after)
    (goes_on : next (some answer) = .pure value) :
    Spans machine (.write link.write_fd msg (.read link.read_fd next))
      (before ++ (link, .quiet loc kids) :: rest) (before ++ (link, .settled after) :: rest) first
      value := by
  constructor
  intro goal trace steps reply final above runs
  have behind : Runs machine ((next (some answer)).bind goal)
      (before ++ (link, .settled after) :: rest) trace steps reply final := by
    rw [goes_on]
    exact runs
  exact ⟨_, .write distinct.writer served first.within_lanes (quiet.apart _)
    (.read distinct.reader above behind)⟩

/-- A request to an idle child, calls of the process itself, and then the answer. -/
theorem around {link : Link} {before rest : Crew Msg Loc Lane} {loc : Loc} {kids : Grove Loc}
    {msg answer : Msg} {after : Option (Loc × Grove Loc)} {count : Nat} {calls : List (Op × Val)}
    {own : Prog Msg Op Val Seed β} {result : β} {reads : β → Prog Msg Op Val Seed α}
    {next : Option Msg → Prog Msg Op Val Seed α}
    (distinct : (before ++ (link, .quiet loc kids) :: rest).Distinct)
    (quiet : (before ++ rest).Quiet)
    (served : Runs machine (machine.serve loc msg) kids.crew first count (some answer) after)
    (part : Yields machine lane own (before ++ (link, .running first.lanes answer after) :: rest)
      (before ++ (link, .running first.lanes answer after) :: rest) calls result)
    (some_calls : calls ≠ []) (reads_on : reads result = .read link.read_fd next)
    (goes_on : next (some answer) = .pure value) :
    Spans machine (.write link.write_fd msg (own.bind reads))
      (before ++ (link, .quiet loc kids) :: rest) (before ++ (link, .settled after) :: rest)
      (first ++ Trace.only lane calls) value := by
  constructor
  intro goal trace steps reply final above runs
  have behind : Runs machine ((next (some answer)).bind goal)
      (before ++ (link, .settled after) :: rest) trace steps reply final := by
    rw [goes_on]
    exact runs
  have answered : Runs machine ((reads result).bind goal)
      (before ++ (link, .running first.lanes answer after) :: rest) trace (steps + 1) reply final := by
    rw [reads_on]
    exact .read distinct.reader above.left behind
  have mine : ∀ later, trace later ≠ [] → lane ≤ later := by
    intro later some
    exact above.right later some lane (by simp [Trace.lanes, some_calls])
  obtain ⟨total, all⟩ := part.before (fun result => (reads result).bind goal) mine answered
  rw [Trace.append_assoc, Prog.bind, Prog.bind_assoc]
  exact ⟨_, .write distinct.writer served first.within_lanes (quiet.apart _) all⟩

theorem both {first_link second_link : Link} {first_loc second_loc : Loc}
    {first_kids second_kids : Grove Loc} {msg first_answer second_answer : Msg}
    {first_after second_after : Option (Loc × Grove Loc)} {first_count second_count : Nat}
    {next : Option Msg → Option Msg → Prog Msg Op Val Seed α}
    {asked working answered : Crew Msg Loc Lane} (distinct : crew.Distinct) (quiet : crew.Quiet)
    (first_asked : Crew.Becomes first_link (.quiet first_loc first_kids)
      (.running first.lanes first_answer first_after) crew asked)
    (second_asked : Crew.Becomes second_link (.quiet second_loc second_kids)
      (.running second.lanes second_answer second_after) asked working)
    (first_done : Crew.Becomes first_link (.running first.lanes first_answer first_after)
      (.settled first_after) working answered)
    (second_done : Crew.Becomes second_link (.running second.lanes second_answer second_after)
      (.settled second_after) answered last)
    (first_served : Runs machine (machine.serve first_loc msg) first_kids.crew first first_count
      (some first_answer) first_after)
    (second_served : Runs machine (machine.serve second_loc msg) second_kids.crew second second_count
      (some second_answer) second_after)
    (apart : Apart second.lanes first.lanes)
    (goes_on : next (some first_answer) (some second_answer) = .pure value) :
    Spans machine
      (.write first_link.write_fd msg (.write second_link.write_fd msg
        (.read first_link.read_fd fun got => .read second_link.read_fd (next got))))
      crew last (first ++ second) value := by
  constructor
  intro goal trace steps reply final above runs
  have behind : Runs machine ((next (some first_answer) (some second_answer)).bind goal) last trace
      steps reply final := by
    rw [goes_on]
    exact runs
  have asked_distinct := first_asked.distinct distinct
  have working_distinct := second_asked.distinct asked_distinct
  have answered_distinct := first_done.distinct working_distinct
  have second_read : Runs machine (.read second_link.read_fd fun got =>
      (next (some first_answer) got).bind goal) answered trace (steps + 1) reply final :=
    second_done.read answered_distinct above.right behind
  have first_read : Runs machine (.read first_link.read_fd fun got =>
      .read second_link.read_fd fun more => (next got more).bind goal) working trace (steps + 2) reply
        final :=
    first_done.read working_distinct above.left second_read
  have others : Crew.Apart second.lanes asked := by
    intro post inside
    rcases first_asked.mem inside with old | rfl
    · exact quiet.apart _ post old
    · exact apart
  have second_write := second_asked.write asked_distinct second_served second.within_lanes others
    first_read
  rw [Trace.append_assoc]
  exact ⟨_, first_asked.write distinct first_served first.within_lanes (quiet.apart _) second_write⟩

end Spans

/-! ## Two lanes side by side -/

section Pair

variable {left right : Lane} {outcome : World → Prop} {world world' : World}
  {xs ys rest : List (Op × Val)} {op : Op} {val got : Val}

/-- The calls of two lanes and what comes behind both. -/
def Trace.pair (left right : Lane) (xs ys : List (Op × Val)) (trace : Trace Lane Op Val) :
    Trace Lane Op Val :=
  .only left xs ++ .only right ys ++ trace

/-- Two lanes that the order does not compare, below those of a trace. -/
structure Trace.Forks (left right : Lane) (trace : Trace Lane Op Val) : Prop where
  left_right : ¬ left ≤ right
  right_left : ¬ right ≤ left
  behind : ∀ later, trace later ≠ [] → left < later ∧ right < later

namespace Trace.Forks

variable (forks : Trace.Forks left right trace)

include forks

omit [DecidableEq Lane] in
theorem empty_left : trace left = [] := by
  by_contra some
  exact (forks.behind left some).1.ne rfl

omit [DecidableEq Lane] in
theorem empty_right : trace right = [] := by
  by_contra some
  exact (forks.behind right some).2.ne rfl

omit [DecidableEq Lane] in
theorem ne : left ≠ right := fun same => forks.left_right same.le

theorem pair_left : Trace.pair left right xs ys trace left = xs := by
  simp [Trace.pair, forks.ne, forks.empty_left]

theorem pair_right : Trace.pair left right xs ys trace right = ys := by
  simp [Trace.pair, forks.ne.symm, forks.empty_right]

theorem put_left : (Trace.pair left right xs ys trace).put left rest =
    Trace.pair left right rest ys trace := by
  funext lane
  by_cases same : lane = left
  · subst same
    rw [Trace.put_self, forks.pair_left]
  · simp [Trace.pair, same]

theorem put_right : (Trace.pair left right xs ys trace).put right rest =
    Trace.pair left right xs rest trace := by
  funext lane
  by_cases same : lane = right
  · subst same
    rw [Trace.put_self, forks.pair_right]
  · simp [Trace.pair, same]

theorem empty_below {lane : Lane} (less : lane < left ∨ lane < right) :
    Trace.pair left right xs ys trace lane = [] := by
  have not_left : lane ≠ left := by
    intro same
    obtain rfl := same
    exact less.elim (fun less => less.ne rfl) fun less => forks.left_right less.le
  have not_right : lane ≠ right := by
    intro same
    obtain rfl := same
    exact less.elim (fun less => forks.right_left less.le) fun less => less.ne rfl
  have nothing : trace lane = [] := by
    by_contra some
    obtain ⟨above_left, above_right⟩ := forks.behind lane some
    exact less.elim above_left.asymm above_right.asymm
  simp [Trace.pair, not_left, not_right, nothing]

theorem due_left : Due (Trace.pair left right ((op, val) :: xs) ys trace) left op val xs :=
  ⟨forks.pair_left, fun _ less => forks.empty_below (.inl less)⟩

theorem due_right : Due (Trace.pair left right xs ((op, val) :: ys) trace) right op val ys :=
  ⟨forks.pair_right, fun _ less => forks.empty_below (.inr less)⟩

/-- While one of the two lanes has calls left, only calls of these lanes are due. -/
theorem due {lane : Lane} (busy : xs ≠ [] ∨ ys ≠ [])
    (due : Due (Trace.pair left right xs ys trace) lane op val rest) :
    (lane = left ∧ xs = (op, val) :: rest) ∨ (lane = right ∧ ys = (op, val) :: rest) := by
  by_cases on_left : lane = left
  · subst on_left
    exact .inl ⟨rfl, forks.pair_left.symm.trans due.next⟩
  by_cases on_right : lane = right
  · subst on_right
    exact .inr ⟨rfl, forks.pair_right.symm.trans due.next⟩
  exfalso
  have late : trace lane ≠ [] := by
    have next := due.next
    simp only [Trace.pair, Trace.append_apply, Trace.only_other on_left, Trace.only_other on_right,
      List.nil_append] at next
    simp [next]
  obtain ⟨above_left, above_right⟩ := forks.behind lane late
  have no_left := due.ready left above_left
  have no_right := due.ready right above_right
  rw [forks.pair_left] at no_left
  rw [forks.pair_right] at no_right
  exact busy.elim (fun some => some no_left) fun some => some no_right

end Trace.Forks

/-- Two lanes are planned by a relation between what is left of them and the world that
each call keeps. -/
structure Pairs (machine : Machine Msg Op Val Seed Loc World) (outcome : World → Prop)
    (between : List (Op × Val) → List (Op × Val) → World → Prop) : Prop where
  goes : ∀ {xs ys world}, between xs ys world → xs ≠ [] ∨ ys ≠ [] →
    (∃ op val rest, xs = (op, val) :: rest ∧ (machine.exec op world).isSome) ∨
      ∃ op val rest, ys = (op, val) :: rest ∧ (machine.exec op world).isSome
  left : ∀ {op val xs ys world got world'}, between ((op, val) :: xs) ys world →
    machine.exec op world = some (got, world') → got = val ∧ between xs ys world'
  right : ∀ {op val xs ys world got world'}, between xs ((op, val) :: ys) world →
    machine.exec op world = some (got, world') → got = val ∧ between xs ys world'
  ends : ∀ {world}, between [] [] world → outcome world

theorem Pairs.plan {between : List (Op × Val) → List (Op × Val) → World → Prop}
    {after : World → Prop} (pairs : Pairs machine after between)
    (forks : Trace.Forks left right trace)
    (finish : ∀ world, after world → Plan machine outcome trace world)
    (here : between xs ys world) : Plan machine outcome (Trace.pair left right xs ys trace) world := by
  induction total : xs.length + ys.length generalizing xs ys world with
  | zero =>
      obtain rfl : xs = [] := List.length_eq_zero_iff.mp (by omega)
      obtain rfl : ys = [] := List.length_eq_zero_iff.mp (by omega)
      have nothing : Trace.pair left right [] [] trace = trace := by
        rw [Trace.pair, Trace.only_nil, Trace.only_nil, Trace.nil_append, Trace.nil_append]
      rw [nothing]
      exact finish world (pairs.ends here)
  | succ total ih =>
      have busy : xs ≠ [] ∨ ys ≠ [] := by
        by_contra idle
        simp only [not_or, not_not] at idle
        simp [idle] at total
      refine .step ?_ ?_ ?_
      · rcases pairs.goes here busy with ⟨op, val, rest, rfl, can⟩ | ⟨op, val, rest, rfl, can⟩
        · exact ⟨left, op, val, rest, forks.due_left, can⟩
        · exact ⟨right, op, val, rest, forks.due_right, can⟩
      · intro lane op val rest got world' due done
        rcases forks.due busy due with ⟨_, rfl⟩ | ⟨_, rfl⟩
        · exact (pairs.left here done).1
        · exact (pairs.right here done).1
      · intro lane op val rest got world' due done
        rcases forks.due busy due with ⟨rfl, rfl⟩ | ⟨rfl, rfl⟩
        · rw [forks.put_left]
          refine ih (pairs.left here done).2 ?_
          rw [List.length_cons] at total
          omega
        · rw [forks.put_right]
          refine ih (pairs.right here done).2 ?_
          rw [List.length_cons] at total
          omega

end Pair

end SysProg.Process
