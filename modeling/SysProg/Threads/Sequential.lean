import SysProg.Threads.Numbers
import SysProg.Threads.Rotation

namespace SysProg.Threads

open SysProg.Data

/-! # The threads without signals

Nobody takes the processor from a thread, so each runs to its end before the next one starts,
and no `lock()` fails.  The last ready thread takes the place of one that exits. -/

/-- What the threads leave behind for those after them. -/
structure Account where
  balance : Int
  out : List Line
deriving DecidableEq

namespace Account

def print (lines : List Line) (account : Account) : Account :=
  { account with out := account.out ++ lines }

/-- The first `k` rounds of a loop. -/
def count (spec : Spec) (k : Nat) (account : Account) : Account :=
  account.print ((List.range k).map fun j => .value spec.id (int32 (number spec.func (j + 1))))

def transact (spec : Spec) (account : Account) : Account :=
  let balance :=
    if spec.arg > 0 ∨ account.balance ≥ int32 (-spec.arg) then int32 (account.balance + spec.arg)
    else account.balance
  { balance, out := account.out ++ [.transaction spec.id account.balance balance] }

/-- A whole thread at once. -/
def perform (account : Account) (spec : Spec) : Account :=
  if spec.func = .bank_operation then
    ((account.print [.acquired spec.id]).transact spec).print [.released spec.id]
  else account.count spec spec.arg.toNat

/-- After the set-up of all threads. -/
def first (specs : List Spec) : Account :=
  ⟨500, specs.map fun spec => .setup spec.id spec.func⟩

end Account

def State.account (state : State) : Account := ⟨state.balance, state.out⟩

variable {specs : List Spec} {state : State} {ready waiting : List Ptr} {ptr : Ptr}
  {tcb : Tcb} {spec : Spec} {account : Account} {k : Nat}

/-- How far a thread has come that began with `account`: its block, what there is now, and the
owner of the lock. -/
inductive Amid (spec : Spec) (account : Account) : Tcb → Account → Int → Prop
  | setup : Amid spec account spec.tcb account (-1)
  | looping (k : Nat) (counts : spec.func ≠ .bank_operation) (started : 0 < k)
      (more : k < spec.arg) :
      Amid spec account
        ⟨spec.id, spec.func.looping, spec.arg, k, (series spec k).1, (series spec k).2⟩
        (account.count spec k) (-1)
  | acquired (bank : spec.func = .bank_operation) :
      Amid spec account { spec.tcb with environment := .acquired }
        (account.print [.acquired spec.id]) spec.id
  | updated (bank : spec.func = .bank_operation) :
      Amid spec account { spec.tcb with environment := .updated }
        ((account.print [.acquired spec.id]).transact spec) spec.id

/-- Where a turn takes a thread: further on, or to its exit. -/
def Passes (spec : Spec) (account : Account) (ptr : Ptr) (state after : State) : Prop :=
  ∃ new, after.tcbs = Function.update state.tcbs ptr (some new) ∧
    ((after.control = .yielding new.environment ∧
        Amid spec account new after.account after.lock_owner) ∨
      (after.control = .scheduling 3 ∧ after.account = account.perform spec ∧
        after.lock_owner = -1))

theorem Account.count_succ (account : Account) (spec : Spec) (k : Nat) :
    account.count spec (k + 1) =
      (account.count spec k).print [.value spec.id (int32 (number spec.func (k + 1)))] := by
  simp [count, print, List.range_succ]

theorem Account.count_zero (account : Account) (spec : Spec) : account.count spec 0 = account := by
  simp [count, print]

/-- A turn of a loop is a round of it. -/
theorem resume_round (counts : tcb.environment.func ≠ .bank_operation) :
    resume tcb.environment ptr tcb state =
      endRound tcb.environment.func.looping ptr (tcb.round tcb.next) state := by
  cases point : tcb.environment with
  | setup func =>
      cases func with
      | fibonacci =>
          have number : tcb.next = 1 := by rw [Tcb.next, point]
          rw [resume, number]
          exact fibonacciRound_round (by rw [point]; rfl) 1
      | factorial =>
          have number : tcb.next = 1 := by rw [Tcb.next, point]
          rw [resume, number]
          exact factorialRound_round (by rw [point]; rfl) 1
      | bank_operation => exact absurd (by rw [point]; rfl) counts
  | fibonacciYield =>
      have number : tcb.next = int32 (tcb.i + 1) := by rw [Tcb.next, point]
      rw [resume, number]
      exact fibonacciRound_round (by rw [point]; rfl) _
  | factorialYield =>
      have number : tcb.next = int32 (tcb.i + 1) := by rw [Tcb.next, point]
      rw [resume, number]
      exact factorialRound_round (by rw [point]; rfl) _
  | acquired | updated => exact absurd (by rw [point]; rfl) counts

/-- The round after `k` of them. -/
theorem passes_round (counts : spec.func ≠ .bank_operation) (id : tcb.id = spec.id)
    (arg : tcb.arg = spec.arg) (func : tcb.environment.func = spec.func)
    (number : tcb.next = k + 1) (x : tcb.x = (series spec k).1) (y : tcb.y = (series spec k).2)
    (below : k < spec.arg) (here : state.account = account.count spec k)
    (free : state.lock_owner = -1) :
    Passes spec account ptr state (resume tcb.environment ptr tcb state) := by
  have block : tcb.round tcb.next = ⟨spec.id, tcb.environment, spec.arg, (k + 1 : Nat),
      (series spec (k + 1)).1, (series spec (k + 1)).2⟩ := by
    simp only [Tcb.round, number, func, x, y, series, id, arg, Nat.cast_add, Nat.cast_one]
  have printed : ((state.setTcb ptr (tcb.round tcb.next)).print
      (.value (tcb.round tcb.next).id (tcb.round tcb.next).y)).account = account.count spec (k + 1) := by
    rw [Account.count_succ, ← here, ← series_number counts, block]
    rfl
  rw [resume_round (func ▸ counts), func]
  unfold endRound
  split
  · rename_i done
    have last : k + 1 = spec.arg.toNat := by
      rw [block] at done
      dsimp only at done
      omega
    refine ⟨_, rfl, .inr ⟨rfl, ?_, free⟩⟩
    rw [Account.perform, if_neg counts, ← last]
    exact printed
  · rename_i unfinished
    have further : ((k + 1 : Nat) : Int) < spec.arg := by
      rw [block] at unfinished
      dsimp only at unfinished
      omega
    refine ⟨_, Function.update_idem .., .inl ⟨rfl, ?_⟩⟩
    have later := @Amid.looping spec account (k + 1) counts (Nat.succ_pos k) further
    rw [block] at printed ⊢
    rw [← printed, ← free] at later
    exact later

theorem bankLock_passes (bank : spec.func = .bank_operation) (here : state.account = account)
    (free : state.lock_owner = -1) :
    Passes spec account ptr state (bankLock ptr spec.tcb state) := by
  subst here
  rw [bankLock, if_pos (.inl free)]
  exact ⟨_, rfl, .inl ⟨rfl, .acquired bank⟩⟩

theorem int32_back {balance : Int} (fits : InRange balance) (arg : Int) :
    int32 (int32 (balance + arg) - arg) = balance := by
  have back : int32 (int32 (balance + arg) - arg) = int32 (balance + arg - arg) := by simp [int32]
  rw [back, Int.add_sub_cancel, int32_eq fits]

theorem Account.transact_eq (spec : Spec) (account : Account) :
    account.transact spec =
      if spec.arg > 0 ∨ account.balance ≥ int32 (-spec.arg) then
        ⟨int32 (account.balance + spec.arg), account.out ++
          [.transaction spec.id account.balance (int32 (account.balance + spec.arg))]⟩
      else account.print [.transaction spec.id account.balance account.balance] := by
  unfold transact
  split <;> rfl

/-- The transaction of the source prints the old balance, whether or not the new one wraps. -/
theorem bankUpdate_passes (bank : spec.func = .bank_operation) (fits : InRange account.balance)
    (id : tcb.id = spec.id) (arg : tcb.arg = spec.arg)
    (block : ({ tcb with environment := .updated } : Tcb) = { spec.tcb with environment := .updated })
    (here : state.account = account.print [.acquired spec.id]) (mine : state.lock_owner = spec.id) :
    Passes spec account ptr state (bankUpdate ptr tcb state) := by
  have balance : state.balance = account.balance := congrArg Account.balance here
  have later := @Amid.updated spec account bank
  rw [← here, ← mine, ← block] at later
  have before := int32_back (balance ▸ fits) spec.arg
  rw [Account.transact_eq] at later
  have same : state.account.balance = state.balance := rfl
  unfold bankUpdate
  rw [id, arg]
  by_cases covered : spec.arg > 0 ∨ state.account.balance ≥ int32 (-spec.arg)
  · have guard : spec.arg > 0 ∨ (spec.arg ≤ 0 ∧ state.balance ≥ int32 (-spec.arg)) := by omega
    rw [if_pos covered] at later
    rw [if_pos guard]
    dsimp only
    rw [before]
    exact ⟨_, rfl, .inl ⟨rfl, later⟩⟩
  · have guard : ¬ (spec.arg > 0 ∨ (spec.arg ≤ 0 ∧ state.balance ≥ int32 (-spec.arg))) := by omega
    rw [if_neg covered] at later
    rw [if_neg guard]
    exact ⟨_, rfl, .inl ⟨rfl, later⟩⟩

theorem bankRelease_passes (bank : spec.func = .bank_operation) (block : state.tcbs ptr = some tcb)
    (id : tcb.id = spec.id)
    (here : state.account = (account.print [.acquired spec.id]).transact spec)
    (mine : state.lock_owner = spec.id) :
    Passes spec account ptr state (bankRelease ptr tcb state) := by
  have unchanged : Function.update state.tcbs ptr (some tcb) = state.tcbs := by
    rw [← block, Function.update_eq_self]
  rw [bankRelease_eq]
  refine ⟨tcb, unchanged.symm, .inr ⟨rfl, ?_, if_pos (mine.trans id.symm)⟩⟩
  rw [Account.perform, if_pos bank, ← here, ← id]
  rfl

theorem Amid.passes {now : Account} {owner : Int} (amid : Amid spec account tcb now owner)
    (block : state.tcbs ptr = some tcb) (here : state.account = now)
    (owned : state.lock_owner = owner) (fits : InRange account.balance)
    (accepted : spec.Accepted) :
    Passes spec account ptr state (resume tcb.environment ptr tcb state) := by
  cases amid with
  | setup =>
      by_cases bank : spec.func = .bank_operation
      · have point : spec.tcb.environment = .setup .bank_operation := by rw [Spec.tcb, bank]
        rw [point]
        exact bankLock_passes bank here owned
      · have start : state.account = account.count spec 0 := here.trans (account.count_zero spec).symm
        exact passes_round bank rfl rfl rfl rfl rfl rfl (accepted.2 bank) start owned
  | looping k counts started more =>
      have func := looping_func spec.func
      have bound := accepted.1.2
      have wraps : int32 ((k : Int) + 1) = (k : Int) + 1 := int32_eq ⟨by omega, by omega⟩
      refine passes_round counts rfl rfl func ?_ rfl rfl more here owned
      simp only [Tcb.next]
      cases point : spec.func with
      | fibonacci => exact wraps
      | factorial => exact wraps
      | bank_operation => exact absurd point counts
  | acquired bank => exact bankUpdate_passes bank fits rfl rfl rfl here owned
  | updated bank => exact bankRelease_passes bank block rfl here owned

theorem Account.perform_fits (fits : InRange account.balance) (spec : Spec) :
    InRange (account.perform spec).balance := by
  unfold perform
  split
  · change InRange (if _ then _ else _)
    split
    · exact int32_range _
    · exact fits
  · exact fits

/-- What the threads `done` leave behind. -/
def Account.past (specs done : List Spec) : Account := done.foldl perform (first specs)

theorem Account.past_fits (specs done : List Spec) : InRange (past specs done).balance := by
  induction done using List.reverseRecOn with
  | nil => exact (by decide : InRange 500)
  | append_singleton done spec ih =>
      rw [past, List.foldl_append]
      exact perform_fits ih spec

/-- What holds where control stands when the threads `done` are over and `entries` are not. -/
def Alone (specs : List Spec) (state : State) (done : List Spec) (entries : List (Spec × Ptr)) :
    Control → Prop
  | .running environment | .yielding environment =>
      ∃ spec ptr rest tcb, entries = (spec, ptr) :: rest ∧ state.rq_current = 0 ∧
        state.tcbs ptr = some tcb ∧ tcb.environment = environment ∧
        Amid spec (.past specs done) tcb state.account state.lock_owner
  | .scheduling 0 =>
      (∀ entry ∈ entries, state.tcbs entry.2 = some entry.1.tcb) ∧
        state.account = .past specs done ∧ state.lock_owner = -1
  | .scheduling 3 =>
      ∃ spec ptr rest, entries = (spec, ptr) :: rest ∧ state.rq_current = 0 ∧
        state.account = (Account.past specs done).perform spec ∧ state.lock_owner = -1
  | .finished => entries = [] ∧ state.account = .past specs done
  | _ => False

/-- The threads `done` are over, and of the `entries` only the first has begun. -/
structure Solo (specs : List Spec) (state : State) (done : List Spec)
    (entries : List (Spec × Ptr)) : Prop where
  ready : state.ready = entries.map Prod.snd
  waiting : state.waiting = []
  order : drained specs = done ++ drained (entries.map Prod.fst)
  listed : ∀ entry ∈ entries, entry.1 ∈ specs
  untouched : ∀ entry ∈ entries.tail, state.tcbs entry.2 = some entry.1.tcb
  alone : Alone specs state done entries state.control

theorem scheduler_start_current {environment : Environment} {after : State}
    (computed : scheduler 0 state = .ok (.dispatch environment after)) : after.rq_current = 0 := by
  unfold scheduler at computed
  split at computed
  · cases computed
  · rw [if_pos rfl] at computed
    have final : after = { state with rq_current := 0 } := dispatch_final computed
    rw [final]

namespace Solo

variable {done : List Spec} {entries : List (Spec × Ptr)}

theorem apart {ptr : Ptr} {rest : List (Spec × Ptr)} (invariant : Invariant specs state ready waiting)
    (solo : Solo specs state done ((spec, ptr) :: rest)) : ∀ entry ∈ rest, entry.2 ≠ ptr := by
  have nodup := (List.nodup_append.mp invariant.nodup).1
  rw [← invariant.arranged.ready_eq, solo.ready, List.map_cons, List.nodup_cons] at nodup
  intro entry member same
  exact nodup.1 (List.mem_map.mpr ⟨entry, member, same⟩)

theorem runs {environment : Environment} (invariant : Invariant specs state ready waiting)
    (accepted : ∀ spec ∈ specs, spec.Accepted) (solo : Solo specs state done entries)
    (control : state.control = .running environment) : Solo specs (next none state) done entries := by
  have alone := solo.alone
  rw [control] at alone
  obtain ⟨spec, ptr, rest, tcb, rfl, first, block, rfl, amid⟩ := alone
  have here : ready[state.rq_current]? = some ptr := by
    rw [← invariant.arranged.ready_eq, solo.ready, first]
    rfl
  have turns : next none state = resume tcb.environment ptr tcb state := by
    simp only [next, control, invariant.arranged.running here block]
  have mine := accepted spec (solo.listed _ List.mem_cons_self)
  obtain ⟨new, tcbs, outcome⟩ := @Amid.passes state ptr tcb spec _ _ _ amid block rfl rfl
    (Account.past_fits specs done) mine
  have rota := resume_rota tcb.environment ptr tcb state
  rw [← turns] at tcbs outcome rota
  refine ⟨(congrArg Rota.ready rota).trans solo.ready, (congrArg Rota.waiting rota).trans solo.waiting,
    solo.order, solo.listed, ?_, ?_⟩
  · intro entry member
    rw [tcbs, Function.update_of_ne (solo.apart invariant entry member)]
    exact solo.untouched entry member
  · have current : (next none state).rq_current = 0 := (congrArg Rota.current rota).trans first
    rcases outcome with ⟨yields, amid⟩ | ⟨exits, account, free⟩
    · rw [yields]
      exact ⟨spec, ptr, rest, new, rfl, current, by rw [tcbs, Function.update_self], rfl, amid⟩
    · rw [exits]
      exact ⟨spec, ptr, rest, rfl, current, account, free⟩

/-- The step behind a call of `scheduler` that finds only threads that have not begun. -/
theorem dispatches {val : Nat} {outcome : Outcome} {ready' waiting' : List Ptr}
    (control : state.control = .scheduling val) (computed : scheduler val state = .ok outcome)
    (arranged : Arranged outcome.final ready' waiting') (ended : Ended ready' waiting' outcome)
    (queue : outcome.final.ready = entries.map Prod.snd) (waiting : outcome.final.waiting = [])
    (current : ∀ environment after, outcome = .dispatch environment after → after.rq_current = 0)
    (order : drained specs = done ++ drained (entries.map Prod.fst))
    (listed : ∀ entry ∈ entries, entry.1 ∈ specs)
    (fresh : ∀ entry ∈ entries, outcome.final.tcbs entry.2 = some entry.1.tcb)
    (account : outcome.final.account = .past specs done) (free : outcome.final.lock_owner = -1) :
    Solo specs (next none state) done entries := by
  have untouched : ∀ entry ∈ entries.tail, outcome.final.tcbs entry.2 = some entry.1.tcb :=
    fun entry member => fresh entry (List.mem_of_mem_tail member)
  rw [arranged.ready_eq] at queue
  simp only [next, control, computed]
  cases outcome with
  | returned after =>
      have none : entries = [] := List.map_eq_nil_iff.mp (queue.symm.trans ended.1)
      exact ⟨arranged.ready_eq.trans queue, waiting, order, listed, untouched, none, account⟩
  | dispatch environment after =>
      obtain ⟨ptr, tcb, ⟨here, block⟩, rfl⟩ := ended
      have first := current _ _ rfl
      rw [queue, first] at here
      cases entries with
      | nil => cases here
      | cons entry rest =>
          cases here
          obtain rfl := Option.some.inj (block.symm.trans (fresh entry List.mem_cons_self))
          refine ⟨arranged.ready_eq.trans queue, waiting, order, listed, untouched,
            entry.1, entry.2, rest, _, rfl, first, block, rfl, ?_⟩
          have begun : Amid entry.1 (.past specs done) entry.1.tcb after.account after.lock_owner := by
            have account' : after.account = .past specs done := account
            have free' : after.lock_owner = -1 := free
            rw [account', free']
            exact .setup
          exact begun

theorem starts (few : specs.length ≤ THREAD_MAX) (invariant : Invariant specs state ready waiting)
    (solo : Solo specs state done entries) (control : state.control = .scheduling 0) :
    Solo specs (next none state) done entries := by
  have alone := solo.alone
  rw [control] at alone
  obtain ⟨fresh, account, free⟩ := alone
  obtain ⟨outcome, ready', waiting', computed, threaded, _, scheduled, ended, _⟩ :=
    invariant.schedules few control
  obtain ⟨ready_eq, waiting_eq, lock_eq⟩ := scheduler_start computed
  refine dispatches control computed threaded.arranged ended (ready_eq.trans solo.ready)
    (waiting_eq.trans solo.waiting) ?_ solo.order solo.listed ?_ ?_ (lock_eq.trans free)
  · intro environment after dispatched
    exact scheduler_start_current (dispatched ▸ computed)
  · intro entry member
    have block := fresh entry member
    have alive : entry.2 ∉ state.exited := by
      intro gone
      have none := invariant.freed (by simp [control]) entry.2 gone
      rw [block] at none
      cases none
    rw [scheduled.blocks entry.2 alive, block]
  · rw [← account, State.account, State.account, scheduled.balance, scheduled.out]

theorem exits (few : specs.length ≤ THREAD_MAX) (invariant : Invariant specs state ready waiting)
    (solo : Solo specs state done entries) (control : state.control = .scheduling 3) :
    ∃ done entries, Solo specs (next none state) done entries := by
  have alone := solo.alone
  rw [control] at alone
  obtain ⟨spec, ptr, rest, rfl, first, account, free⟩ := alone
  obtain ⟨outcome, ready', waiting', computed, threaded, _, scheduled, ended, _⟩ :=
    invariant.schedules few control
  obtain ⟨handed, left, _, _, arranged, rota, owned, picks⟩ :=
    invariant.rearranges few control (by decide)
  have queues : state.rearranged 3 =
      ⟨(swapRemove 0 ((spec, ptr) :: rest)).map Prod.snd, [], 0⟩ := by
    rw [State.rearranged, if_pos free, State.rota, solo.ready, solo.waiting, first,
      map_swapRemove]
    simp [Rota.takeOut, Rota.remove, Rota.hand]
  have others : ∀ entry ∈ swapRemove 0 ((spec, ptr) :: rest), entry ∈ rest := by
    intro entry member
    have same : ((spec, ptr) :: swapRemove 0 ((spec, ptr) :: rest)).Perm ((spec, ptr) :: rest) :=
      swapRemove_perm rfl
    exact same.cons_inv.subset member
  obtain ⟨ready_eq, waiting_eq, lock_eq⟩ := pickNext_queues (picks ▸ computed)
  refine ⟨done ++ [spec], swapRemove 0 ((spec, ptr) :: rest),
    dispatches control computed threaded.arranged ended ?_ ?_ ?_ ?_ ?_ ?_ ?_ ?_⟩
  · rw [ready_eq]
    exact (congrArg Rota.ready rota).trans (congrArg Rota.ready queues)
  · rw [waiting_eq]
    exact (congrArg Rota.waiting rota).trans (congrArg Rota.waiting queues)
  · intro environment after dispatched
    have turned := (invariant.rotates few control (by decide) (dispatched ▸ computed)).1
    rw [queues] at turned
    have current : after.rq_current = _ := congrArg Rota.current turned
    rw [current]
    simp [Rota.next]
  · rw [solo.order, List.map_cons, drained_cons, map_swapRemove, List.append_assoc]
    rfl
  · intro entry member
    exact solo.listed entry (List.mem_cons_of_mem _ (others entry member))
  · intro entry member
    have block := solo.untouched entry (others entry member)
    have alive : entry.2 ∉ state.exited := by
      intro gone
      rcases invariant.leaving entry.2 gone with none | ⟨_, here⟩
      · rw [block] at none
        cases none
      · rw [← invariant.arranged.ready_eq, solo.ready, first] at here
        exact solo.apart invariant entry (others entry member) (Option.some.inj here).symm
    rw [scheduled.blocks entry.2 alive, block]
  · rw [Account.past, List.foldl_append]
    rw [Account.past] at account
    rw [List.foldl_cons, List.foldl_nil, ← account, State.account, State.account,
      scheduled.balance, scheduled.out]
  · rw [lock_eq, owned.kept (.inr solo.waiting), free]

theorem next (few : specs.length ≤ THREAD_MAX) (accepted : ∀ spec ∈ specs, spec.Accepted)
    (invariant : Invariant specs state ready waiting) (solo : Solo specs state done entries) :
    ∃ done entries, Solo specs (next none state) done entries := by
  have alone := solo.alone
  cases control : state.control with
  | running environment => exact ⟨done, entries, solo.runs invariant accepted control⟩
  | yielding environment =>
      rw [control] at alone
      refine ⟨done, entries, ?_⟩
      simp only [Threads.next, control]
      exact ⟨solo.ready, solo.waiting, solo.order, solo.listed, solo.untouched, alone⟩
  | scheduling val =>
      match val with
      | 0 => exact ⟨done, entries, solo.starts few invariant control⟩
      | 3 => exact solo.exits few invariant control
      | 1 | 2 | _ + 4 =>
          rw [control] at alone
          exact alone.elim
  | finished =>
      simp only [Threads.next, control]
      exact ⟨done, entries, solo⟩
  | crashed fault =>
      rw [control] at alone
      exact alone.elim

end Solo

theorem created_zipIdx {entry : Spec × Ptr} (member : entry ∈ specs.zipIdx 1) :
    Created specs entry.2 entry.1 := by
  obtain ⟨positive, found⟩ := List.mk_mem_zipIdx_iff_le_and_getElem?_sub.mp member
  exact ⟨entry.2 - 1, by omega, found⟩

theorem Built.solo (built : Built specs state) : Solo specs state [] (specs.zipIdx 1) := by
  have fresh : ∀ entry ∈ specs.zipIdx 1, state.tcbs entry.2 = some entry.1.tcb := by
    intro entry member
    exact (built.blocks entry.2 entry.1.tcb).mpr ⟨entry.1, created_zipIdx member, rfl⟩
  refine ⟨?_, built.arranged.waiting_eq, ?_, ?_, ?_, ?_⟩
  · rw [built.arranged.ready_eq, List.zipIdx_map_snd]
  · rw [List.zipIdx_map_fst, List.nil_append]
  · intro entry member
    exact (created_zipIdx member).mem
  · intro entry member
    exact fresh entry (List.mem_of_mem_tail member)
  · rw [built.control]
    refine ⟨fresh, ?_, built.lock_owner⟩
    rw [State.account, built.balance, built.out]
    rfl

theorem run_solo (few : specs.length ≤ THREAD_MAX) (distinct : (specs.map Spec.id).Nodup)
    (accepted : ∀ spec ∈ specs, spec.Accepted) (k : Nat) :
    ∃ done entries, Solo specs (run specs (fun _ => none) k) done entries := by
  induction k with
  | zero => exact ⟨[], _, (start_built few).solo⟩
  | succ k ih =>
      obtain ⟨done, entries, solo⟩ := ih
      obtain ⟨ready, waiting, invariant⟩ :=
        reachable_invariant few distinct (run_reachable specs (fun _ => none) k)
      exact solo.next few accepted invariant

/-- Without signals the threads run one after another, the first before the others in the
opposite order, and no thread ever waits. -/
theorem threads_sequential (few : specs.length ≤ THREAD_MAX)
    (distinct : (specs.map Spec.id).Nodup) (accepted : ∀ spec ∈ specs, spec.Accepted) :
    (∀ k, (run specs (fun _ => none) k).waiting = []) ∧
    ∃ k, ∀ m, k ≤ m → (run specs (fun _ => none) m).control = .finished ∧
      (run specs (fun _ => none) m).account =
        (drained specs).foldl Account.perform (.first specs) := by
  constructor
  · intro k
    obtain ⟨done, entries, solo⟩ := run_solo few distinct accepted k
    exact solo.waiting
  · obtain ⟨k, finished⟩ := run_ends few distinct accepted fun _ => none
    refine ⟨k, ?_⟩
    intro m later
    obtain ⟨more, rfl⟩ := Nat.exists_eq_add_of_le later
    rw [run_finished finished]
    obtain ⟨done, entries, solo⟩ := run_solo few distinct accepted k
    have alone := solo.alone
    rw [finished] at alone
    obtain ⟨none, account⟩ := alone
    have all := solo.order
    rw [none, List.map_nil, drained, List.append_nil] at all
    rw [all]
    exact ⟨finished, account⟩

theorem threads_sequential_four :
    ∃ k, (run (init_threads 3 4 (-600) 300 0) (fun _ => none) k).out =
      [.setup 0 .fibonacci, .setup 1 .factorial, .setup 2 .bank_operation,
        .setup 3 .bank_operation,
        .value 0 1, .value 0 1, .value 0 2,
        .acquired 3, .transaction 3 500 800, .released 3,
        .acquired 2, .transaction 2 800 200, .released 2,
        .value 1 1, .value 1 2, .value 1 6, .value 1 24] := by
  obtain ⟨k, ends⟩ := (@threads_sequential (init_threads 3 4 (-600) 300 0) (by decide) (by decide)
    (by decide)).2
  refine ⟨k, ?_⟩
  have account := congrArg Account.out (ends k (Nat.le_refl k)).2
  exact account.trans (by decide +kernel)

end SysProg.Threads
