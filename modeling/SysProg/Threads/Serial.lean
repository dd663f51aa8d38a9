import SysProg.Threads.Bank

namespace SysProg.Threads

open Relation SysProg.Transition

variable {specs : List Spec} {state after : State} {ready waiting : List Ptr} {ptr : Ptr}
  {tcb new : Tcb} {environment : Environment} {done : List Int}

/-- The points behind `lock()`. -/
def Environment.entered : Environment → Bool
  | .acquired | .updated => true
  | _ => false

/-- The point behind the transaction. -/
def Environment.transacted : Environment → Bool
  | .updated => true
  | _ => false

def transactionIds (out : List Line) : List Int := (transactions out).map Prod.fst

/-- The thread that owns the lock, after the threads of `done` have released it. -/
structure Owner (state : State) (done : List Int) (ptr : Ptr) (tcb : Tcb) : Prop where
  block : state.tcbs ptr = some tcb
  alive : ptr ∉ state.exited
  bank : tcb.environment.func = .bank_operation
  owns : tcb.id = state.lock_owner
  acquisitions : state.acquisitions = done ++ [tcb.id]
  acquired : acquiredIds state.out =
    done ++ if tcb.environment.entered then [tcb.id] else []
  transacted : transactionIds state.out =
    done ++ if tcb.environment.transacted then [tcb.id] else []

/-- The lock is free, or the owner stands in one of the three phases. -/
def Phase (state : State) (done : List Int) : Prop :=
  (state.lock_owner = -1 ∧ state.acquisitions = done ∧ acquiredIds state.out = done ∧
    transactionIds state.out = done) ∨
  (state.lock_owner ≠ -1 ∧ ∃ ptr tcb, Owner state done ptr tcb)

structure Serial (specs : List Spec) (state : State) (done : List Int) : Prop where
  released : releasedIds state.out = done
  nodup : done.Nodup
  exited : ∀ id, id ∈ done ↔ ∃ ptr spec, Created specs ptr spec ∧
    spec.func = .bank_operation ∧ spec.id = id ∧ ptr ∈ state.exited
  phase : Phase state done
  inside : ∀ ptr tcb, ptr ∉ state.exited → state.tcbs ptr = some tcb →
    tcb.environment.entered = true → tcb.id = state.lock_owner
  ledger : transactions state.out = serial specs 500 (transactionIds state.out)
  balance : state.balance = settle specs 500 (transactionIds state.out)

def Quiet (out out' : List Line) : Prop :=
  acquiredIds out' = acquiredIds out ∧ transactions out' = transactions out ∧
    releasedIds out' = releasedIds out

theorem entered_bank (entered : environment.entered = true) :
    environment.func = .bank_operation := by
  cases environment with
  | acquired => rfl
  | updated => rfl
  | _ => cases entered

theorem Quiet.transactionIds {out out' : List Line} (quiet : Quiet out out') :
    transactionIds out' = transactionIds out := by
  rw [Threads.transactionIds, quiet.2.1]
  rfl

theorem Threaded.id_ne (threaded : Threaded specs state ready waiting)
    (named : ∀ spec ∈ specs, spec.id ≠ -1) (block : state.tcbs ptr = some tcb) : tcb.id ≠ -1 := by
  obtain ⟨spec, created, id, _⟩ := threaded.made ptr tcb block
  rw [id]
  exact named spec created.mem

namespace Serial

/-- What is no concern of the bank leaves the invariant alone. -/
theorem frame (serial : Serial specs state done)
    (threaded : Threaded specs state ready waiting)
    (lock : after.lock_owner = state.lock_owner)
    (acquisitions : after.acquisitions = state.acquisitions)
    (balance : after.balance = state.balance) (quiet : Quiet state.out after.out)
    (exited : ∀ ptr spec, Created specs ptr spec → spec.func = .bank_operation →
      (ptr ∈ after.exited ↔ ptr ∈ state.exited))
    (blocks : ∀ ptr tcb, ptr ∉ after.exited → tcb.environment.func = .bank_operation →
      (after.tcbs ptr = some tcb ↔ state.tcbs ptr = some tcb)) :
    Serial specs after done where
  released := by rw [quiet.2.2, serial.released]
  nodup := serial.nodup
  exited id := by
    rw [serial.exited]
    refine exists_congr fun ptr => exists_congr fun spec => and_congr_right fun created =>
      and_congr_right fun bank => and_congr_right fun _ => (exited ptr spec created bank).symm
  phase := by
    cases serial.phase with
    | inl free =>
        refine .inl ?_
        rwa [lock, acquisitions, quiet.1, quiet.transactionIds]
    | inr owned =>
        obtain ⟨taken, ptr, tcb, owner⟩ := owned
        obtain ⟨spec, created, _, _, func⟩ := threaded.made ptr tcb owner.block
        have alive : ptr ∉ after.exited := by
          rw [exited ptr spec created (func.symm.trans owner.bank)]
          exact owner.alive
        refine .inr ⟨lock ▸ taken, ptr, tcb, (blocks ptr tcb alive owner.bank).mpr owner.block,
          alive, owner.bank, lock ▸ owner.owns, acquisitions.trans owner.acquisitions,
          quiet.1.trans owner.acquired, quiet.transactionIds.trans owner.transacted⟩
  inside ptr tcb alive block entered := by
    have block := (blocks ptr tcb alive (entered_bank entered)).mp block
    obtain ⟨spec, created, _, _, func⟩ := threaded.made ptr tcb block
    rw [exited ptr spec created (func.symm.trans (entered_bank entered))] at alive
    rw [lock]
    exact serial.inside ptr tcb alive block entered
  ledger := by rw [quiet.2.1, quiet.transactionIds, serial.ledger]
  balance := by rw [balance, quiet.transactionIds, serial.balance]

theorem round (serial : Serial specs state done)
    (threaded : Threaded specs state ready waiting) (current : Current state ready ptr tcb)
    (counts : tcb.environment.func ≠ .bank_operation) (same : tcb.Same new)
    (func : environment.func = tcb.environment.func) :
    Serial specs (endRound environment ptr new state) done := by
  obtain ⟨spec, created, _, _, runs⟩ := threaded.made ptr tcb current.2
  have quiet : Quiet state.out (state.out ++ [.value new.id new.y]) := by
    simp [Quiet, acquiredIds, transactions, releasedIds]
  have blocks : ∀ written : Tcb, written.environment.func = tcb.environment.func →
      ∀ other block, block.environment.func = .bank_operation →
      (Function.update state.tcbs ptr (some written) other = some block ↔
        state.tcbs other = some block) := by
    intro written func other block bank
    cases eq_or_ne other ptr with
    | inl equal =>
        subst equal
        rw [Function.update_self, current.2]
        refine ⟨?_, ?_⟩
        · intro found
          cases found
          exact absurd (func.symm.trans bank) counts
        · intro found
          cases found
          exact absurd bank counts
    | inr different => rw [Function.update_of_ne different]
  unfold endRound
  split
  · refine serial.frame threaded rfl rfl rfl quiet ?_ ?_
    · intro other spec' created' bank
      have different : other ≠ ptr := by
        intro equal
        subst equal
        rw [created.unique created', bank] at runs
        exact counts runs
      change other ∈ state.exited ++ [ptr] ↔ other ∈ state.exited
      simp [different]
    · intro other block _ bank
      exact blocks new same.2.2 other block bank
  · refine serial.frame threaded rfl rfl rfl quiet (fun _ _ _ _ => .rfl) ?_
    intro other block _ bank
    have once : (thread_yield environment ptr new
        ((state.setTcb ptr new).print (.value new.id new.y))).tcbs =
        Function.update state.tcbs ptr (some { new with environment }) :=
      Function.update_idem ..
    rw [once]
    exact blocks { new with environment } func other block bank

theorem owner (serial : Serial specs state done) (invariant : Invariant specs state ready waiting)
    (distinct : (specs.map Spec.id).Nodup) (taken : state.lock_owner ≠ -1)
    (block : state.tcbs ptr = some tcb) (owns : tcb.id = state.lock_owner) :
    Owner state done ptr tcb := by
  cases serial.phase with
  | inl free => exact absurd free.1 taken
  | inr owned =>
      obtain ⟨_, ptr', tcb', owner⟩ := owned
      have equal : ptr' = ptr := invariant.toThreaded.same_id distinct owner.block block
        (owner.owns.trans owns.symm)
      subst equal
      obtain rfl : tcb' = tcb := Option.some.inj (owner.block.symm.trans block)
      exact owner

/-- What the owner writes about itself keeps the invariant. -/
theorem write (serial : Serial specs state done) (invariant : Invariant specs state ready waiting)
    (named : ∀ spec ∈ specs, spec.id ≠ -1) (touches : Touches state after ptr new)
    (exited : after.exited = state.exited) (taken : after.lock_owner ≠ -1)
    (allowed : state.lock_owner = -1 ∨ state.lock_owner = after.lock_owner)
    (released : releasedIds after.out = releasedIds state.out) (owner : Owner after done ptr new)
    (ledger : transactions after.out = Threads.serial specs 500 (transactionIds after.out))
    (balance : after.balance = settle specs 500 (transactionIds after.out)) :
    Serial specs after done where
  released := released.trans serial.released
  nodup := serial.nodup
  exited := by rw [exited]; exact serial.exited
  phase := .inr ⟨taken, ptr, new, owner⟩
  inside other block alive found entered := by
    rw [touches.tcbs] at found
    cases eq_or_ne other ptr with
    | inl equal =>
        subst equal
        rw [Function.update_self] at found
        cases found
        exact owner.owns
    | inr different =>
        rw [Function.update_of_ne different] at found
        have owns := serial.inside other block (exited ▸ alive) found entered
        cases allowed with
        | inl free =>
            exact absurd (owns.trans free) (invariant.toThreaded.id_ne named found)
        | inr same => exact owns.trans same
  ledger := ledger
  balance := balance

theorem atLock (serial : Serial specs state done) (invariant : Invariant specs state ready waiting)
    (distinct : (specs.map Spec.id).Nodup) (named : ∀ spec ∈ specs, spec.id ≠ -1)
    (block : state.tcbs ptr = some tcb) (point : tcb.environment = .setup .bank_operation)
    (allowed : state.lock_owner = -1 ∨ state.lock_owner = tcb.id) :
    acquiredIds state.out = done ∧ transactionIds state.out = done ∧
      (if state.lock_owner = tcb.id then state.acquisitions
        else state.acquisitions ++ [tcb.id]) = done ++ [tcb.id] := by
  have id : tcb.id ≠ -1 := invariant.toThreaded.id_ne named block
  by_cases handed : state.lock_owner = tcb.id
  · have owner := serial.owner invariant distinct (handed ▸ id) block handed.symm
    have acquired := owner.acquired
    have transacted := owner.transacted
    rw [point] at acquired transacted
    rw [if_pos handed]
    exact ⟨acquired.trans (List.append_nil done), transacted.trans (List.append_nil done),
      owner.acquisitions⟩
  · rw [if_neg handed]
    cases serial.phase with
    | inl free => exact ⟨free.2.2.1, free.2.2.2, by rw [free.2.1]⟩
    | inr owned => exact absurd (allowed.resolve_left owned.1) handed

theorem bankLock (serial : Serial specs state done)
    (invariant : Invariant specs state ready waiting) (distinct : (specs.map Spec.id).Nodup)
    (named : ∀ spec ∈ specs, spec.id ≠ -1) (current : Current state ready ptr tcb)
    (control : state.control = .running (.setup .bank_operation))
    (point : tcb.environment = .setup .bank_operation) :
    Serial specs (bankLock ptr tcb state) done := by
  have alive : ptr ∉ state.exited := invariant.not_exited current (by simp [control])
  have id : tcb.id ≠ -1 := invariant.toThreaded.id_ne named current.2
  unfold Threads.bankLock
  split
  · rename_i allowed
    obtain ⟨none, none', acquisitions⟩ :=
      serial.atLock invariant distinct named current.2 point allowed
    have acquired : acquiredIds (state.out ++ [.acquired tcb.id]) =
        acquiredIds state.out ++ [tcb.id] := by simp [acquiredIds]
    have untouched : transactions (state.out ++ [.acquired tcb.id]) = transactions state.out := by
      simp [transactions]
    have same : transactionIds (state.out ++ [.acquired tcb.id]) = transactionIds state.out :=
      congrArg (List.map Prod.fst) untouched
    have released : releasedIds (state.out ++ [.acquired tcb.id]) = releasedIds state.out := by
      simp [releasedIds]
    refine serial.write invariant named ⟨rfl, rfl, rfl, rfl, rfl, rfl⟩ rfl id allowed released
      ⟨Function.update_self .., alive, rfl, rfl, acquisitions, ?_, ?_⟩ ?_ ?_
    · exact acquired.trans (congrArg (· ++ [tcb.id]) none)
    · exact (same.trans none').trans (List.append_nil done).symm
    · exact (untouched.trans serial.ledger).trans (congrArg _ same.symm)
    · exact serial.balance.trans (congrArg _ same.symm)
  · exact serial.frame invariant.toThreaded rfl rfl rfl ⟨rfl, rfl, rfl⟩ (fun _ _ _ _ => .rfl)
      (fun _ _ _ _ => .rfl)

/-- The transaction of the source on `int`s is the exact one while everything fits. -/
theorem bankUpdate_exact (bounds : InRange (-tcb.arg)) (fits : InRange state.balance)
    (fits' : InRange (operate state.balance tcb.arg)) :
    Threads.bankUpdate ptr tcb state = thread_yield .updated ptr tcb
      ({ state with balance := operate state.balance tcb.arg }.print
        (.transaction tcb.id state.balance (operate state.balance tcb.arg))) := by
  unfold Threads.bankUpdate operate
  rw [int32_eq bounds]
  by_cases covered : tcb.arg > 0 ∨ state.balance ≥ -tcb.arg
  · rw [operate, if_pos covered] at fits'
    have back : state.balance + tcb.arg - tcb.arg = state.balance := by omega
    rw [if_pos covered, if_pos (by omega), int32_eq fits']
    simp only [back, int32_eq fits]
  · rw [if_neg covered, if_neg (by omega)]

theorem bankUpdate (serial : Serial specs state done)
    (invariant : Invariant specs state ready waiting) (distinct : (specs.map Spec.id).Nodup)
    (named : ∀ spec ∈ specs, spec.id ≠ -1) (bounded : Bounded specs)
    (current : Current state ready ptr tcb)
    (control : state.control = .running .acquired) (point : tcb.environment = .acquired) :
    Serial specs (bankUpdate ptr tcb state) done := by
  have alive : ptr ∉ state.exited := invariant.not_exited current (by simp [control])
  have owns := serial.inside ptr tcb alive current.2 (by rw [point]; rfl)
  have id : tcb.id ≠ -1 := invariant.toThreaded.id_ne named current.2
  have owner := serial.owner invariant distinct (owns ▸ id) current.2 owns
  obtain ⟨spec, created, same, arg, func⟩ := invariant.made ptr tcb current.2
  have bank : spec ∈ bankSpecs specs := by
    rw [point] at func
    simp [bankSpecs, created.mem, ← func, Environment.func]
  have transacted : transactionIds state.out = done := by
    have ids := owner.transacted
    rw [point] at ids
    exact ids.trans (List.append_nil done)
  have known : argOf specs tcb.id = tcb.arg := by rw [same, arg, argOf_eq distinct created.mem]
  have balance : state.balance = settle specs 500 done := transacted ▸ serial.balance
  have next : operate state.balance tcb.arg = settle specs 500 (done ++ [tcb.id]) := by
    rw [settle_append, known, balance]
  have inside : done ⊆ (bankSpecs specs).map Spec.id := by
    intro other member
    obtain ⟨_, spec, created, bank, rfl, _⟩ := (serial.exited other).mp member
    exact List.mem_map_of_mem (by simp [bankSpecs, created.mem, bank])
  have fresh : tcb.id ∉ done := by
    intro member
    obtain ⟨other, spec', created', _, id, gone⟩ := (serial.exited _).mp member
    exact alive (created.same_id distinct created' (same.symm.trans id.symm) ▸ gone)
  have fits : InRange state.balance := by
    rw [balance]
    exact bounded.settle_fits distinct serial.nodup inside
  have fits' : InRange (operate state.balance tcb.arg) := by
    rw [next]
    refine bounded.settle_fits distinct (List.nodup_append.mpr ⟨serial.nodup, by simp, ?_⟩) ?_
    · intro other member one equal
      rw [List.mem_singleton] at equal
      exact fun same => fresh (equal ▸ same ▸ member)
    · rw [List.append_subset]
      exact ⟨inside, by simpa [same] using ⟨spec, bank, rfl⟩⟩
  rw [bankUpdate_exact (arg ▸ bounded.negation spec bank) fits fits']
  let line : Line := .transaction tcb.id state.balance (operate state.balance tcb.arg)
  have logged : transactions (state.out ++ [line]) =
      transactions state.out ++ [(tcb.id, state.balance, operate state.balance tcb.arg)] := by
    simp [transactions, line]
  have ids : transactionIds (state.out ++ [line]) = done ++ [tcb.id] := by
    rw [transactionIds, logged, List.map_append]
    exact congrArg (· ++ [tcb.id]) transacted
  have acquired : acquiredIds (state.out ++ [line]) = acquiredIds state.out := by
    simp [acquiredIds, line]
  have released : releasedIds (state.out ++ [line]) = releasedIds state.out := by
    simp [releasedIds, line]
  refine serial.write invariant named ⟨rfl, rfl, rfl, rfl, rfl, rfl⟩ rfl (owns ▸ id) (.inr rfl)
    released ⟨Function.update_self .., alive, rfl, owns, owner.acquisitions, ?_, ids⟩ ?_ ?_
  · refine acquired.trans ?_
    have entered := owner.acquired
    rwa [point] at entered
  · change transactions (state.out ++ [line]) = Threads.serial _ _ (transactionIds (_ ++ [line]))
    rw [ids, logged, serial.ledger, transacted, serial_append, next, balance]
  · change operate state.balance tcb.arg = settle _ _ (transactionIds (state.out ++ [line]))
    rw [ids, next]

theorem bankRelease (serial : Serial specs state done)
    (invariant : Invariant specs state ready waiting) (distinct : (specs.map Spec.id).Nodup)
    (named : ∀ spec ∈ specs, spec.id ≠ -1) (current : Current state ready ptr tcb)
    (control : state.control = .running .updated) (point : tcb.environment = .updated) :
    Serial specs (bankRelease ptr tcb state) (done ++ [tcb.id]) := by
  have alive : ptr ∉ state.exited := invariant.not_exited current (by simp [control])
  have owns := serial.inside ptr tcb alive current.2 (by rw [point]; rfl)
  have id : tcb.id ≠ -1 := invariant.toThreaded.id_ne named current.2
  have owner := serial.owner invariant distinct (owns ▸ id) current.2 owns
  obtain ⟨spec, created, same, _, func⟩ := invariant.made ptr tcb current.2
  rw [point] at func
  have acquired : acquiredIds (state.out ++ [.released tcb.id]) = done ++ [tcb.id] := by
    have ids : acquiredIds state.out = done ++ [tcb.id] := by
      have ids := owner.acquired
      rwa [point] at ids
    simpa [acquiredIds] using ids
  have untouched : transactions (state.out ++ [.released tcb.id]) = transactions state.out := by
    simp [transactions]
  have ids : transactionIds (state.out ++ [.released tcb.id]) = transactionIds state.out :=
    congrArg (List.map Prod.fst) untouched
  have transacted : transactionIds state.out = done ++ [tcb.id] := by
    have ids := owner.transacted
    rwa [point] at ids
  have released : releasedIds (state.out ++ [.released tcb.id]) = done ++ [tcb.id] := by
    simp [releasedIds, ← serial.released]
  rw [bankRelease_eq, if_pos owns.symm]
  refine ⟨released, ?_, ?_, .inl ⟨rfl, owner.acquisitions, acquired, ids.trans transacted⟩, ?_,
    (untouched.trans serial.ledger).trans (congrArg _ ids.symm),
    serial.balance.trans (congrArg _ ids.symm)⟩
  · refine List.nodup_append.mpr ⟨serial.nodup, by simp, ?_⟩
    intro other member one last equal
    rw [List.mem_singleton] at last
    obtain ⟨ptr', spec', created', _, id', gone⟩ := (serial.exited other).mp member
    have one_ptr : ptr = ptr' :=
      created.same_id distinct created' (same.symm.trans (last.symm.trans (equal.symm.trans id'.symm)))
    exact alive (one_ptr ▸ gone)
  · intro other
    rw [List.mem_append, List.mem_singleton, serial.exited]
    change _ ↔ ∃ ptr' spec', _ ∧ _ ∧ _ ∧ ptr' ∈ state.exited ++ [ptr]
    refine ⟨?_, ?_⟩
    · intro either
      cases either with
      | inl earlier =>
          obtain ⟨ptr', spec', created', bank, id', gone⟩ := earlier
          exact ⟨ptr', spec', created', bank, id', by simp [gone]⟩
      | inr last => exact ⟨ptr, spec, created, func.symm, same.symm.trans last.symm, by simp⟩
    · intro existing
      obtain ⟨ptr', spec', created', bank, id', gone⟩ := existing
      rw [List.mem_append, List.mem_singleton] at gone
      cases gone with
      | inl earlier => exact .inl ⟨ptr', spec', created', bank, id', earlier⟩
      | inr last =>
          subst last
          rw [created'.unique created] at id'
          exact .inr (id'.symm.trans same.symm)
  · intro other block alive' found entered
    have alive' : other ∉ state.exited ++ [ptr] := alive'
    rw [List.mem_append, List.mem_singleton, not_or] at alive'
    have owns' := serial.inside other block alive'.1 found entered
    exact absurd (invariant.toThreaded.same_id distinct found current.2 (owns'.trans owns.symm))
      alive'.2

/-- `scheduler` hands the free lock over and frees blocks of exited threads. -/
theorem schedule (serial : Serial specs state done)
    (invariant : Invariant specs state ready waiting) (named : ∀ spec ∈ specs, spec.id ≠ -1)
    (scheduled : Scheduled state after waiting) : Serial specs after done := by
  have blocks : ∀ ptr tcb, ptr ∉ after.exited → tcb.environment.func = .bank_operation →
      (after.tcbs ptr = some tcb ↔ state.tcbs ptr = some tcb) := by
    intro ptr tcb alive _
    rw [scheduled.blocks ptr (scheduled.exited ▸ alive)]
  have quiet : Quiet state.out after.out := by
    rw [scheduled.out]
    exact ⟨rfl, rfl, rfl⟩
  cases scheduled.lock with
  | inl kept =>
      exact serial.frame invariant.toThreaded kept.1 kept.2 scheduled.balance quiet
        (fun _ _ _ _ => by rw [scheduled.exited]) blocks
  | inr given =>
      obtain ⟨free, first, tcb, head, block, owns, acquisitions⟩ := given
      have waits : first ∈ waiting := List.mem_of_mem_head? head
      obtain ⟨tcb', block', point⟩ := invariant.atLock first waits
      obtain rfl : tcb' = tcb := Option.some.inj (block'.symm.trans block)
      have alive : first ∉ state.exited := by
        intro gone
        cases invariant.leaving first gone with
        | inl freed =>
            rw [block] at freed
            cases freed
        | inr leaving => exact invariant.toThreaded.not_waiting ⟨leaving.2, block⟩ waits
      have before : state.acquisitions = done ∧ acquiredIds state.out = done ∧
          transactionIds state.out = done := by
        cases serial.phase with
        | inl idle => exact idle.2
        | inr owned => exact absurd free owned.1
      have owner : Owner after done first tcb' := by
        refine ⟨?_, scheduled.exited ▸ alive, by rw [point]; rfl, owns.symm, ?_, ?_, ?_⟩
        · rw [scheduled.blocks first alive, block]
        · rw [acquisitions, before.1]
        · rw [scheduled.out, before.2.1, point]
          exact (List.append_nil done).symm
        · rw [scheduled.out, before.2.2, point]
          exact (List.append_nil done).symm
      have id : tcb'.id ≠ -1 := invariant.toThreaded.id_ne named block
      refine ⟨by rw [scheduled.out, serial.released], serial.nodup,
        by rw [scheduled.exited]; exact serial.exited, .inr ⟨owns ▸ id, first, tcb', owner⟩, ?_,
        by rw [scheduled.out, serial.ledger], by rw [scheduled.out, scheduled.balance, serial.balance]⟩
      intro other block alive found entered
      have found := (blocks other block alive (entered_bank entered)).mp found
      have owns' := serial.inside other block (scheduled.exited ▸ alive) found entered
      exact absurd (owns'.trans free) (invariant.toThreaded.id_ne named found)

theorem settle (serial : Serial specs state done)
    (threaded : Threaded specs state ready waiting) {out : List Line} {control : Control}
    (quiet : Quiet state.out out) : Serial specs { state with out, control } done :=
  serial.frame threaded rfl rfl rfl quiet (fun _ _ _ _ => .rfl) (fun _ _ _ _ => .rfl)

theorem resume (serial : Serial specs state done)
    (invariant : Invariant specs state ready waiting) (distinct : (specs.map Spec.id).Nodup)
    (named : ∀ spec ∈ specs, spec.id ≠ -1) (bounded : Bounded specs)
    (current : Current state ready ptr tcb) (control : state.control = .running tcb.environment) :
    ∃ done', Serial specs (resume tcb.environment ptr tcb state) done' := by
  cases resume_cases tcb.environment ptr tcb state with
  | round loop i x y counts func computed =>
      rw [computed]
      exact ⟨done, serial.round invariant.toThreaded current counts ⟨rfl, rfl, rfl⟩ func⟩
  | lock point computed =>
      rw [computed]
      exact ⟨done, serial.bankLock invariant distinct named current (point ▸ control) point⟩
  | update point computed =>
      rw [computed]
      exact ⟨done, serial.bankUpdate invariant distinct named bounded current (point ▸ control)
        point⟩
  | release point computed =>
      rw [computed]
      exact ⟨done ++ [tcb.id],
        serial.bankRelease invariant distinct named current (point ▸ control) point⟩

theorem next (few : specs.length ≤ THREAD_MAX) (serial : Serial specs state done)
    (invariant : Invariant specs state ready waiting) (distinct : (specs.map Spec.id).Nodup)
    (named : ∀ spec ∈ specs, spec.id ≠ -1) (bounded : Bounded specs) (signal : Option Signal) :
    ∃ done', Serial specs (next signal state) done' := by
  have placed := invariant.placed
  unfold Threads.next
  cases control : state.control with
  | running environment =>
      rw [control] at placed
      obtain ⟨ptr, tcb, current, rfl⟩ := placed
      simp only [invariant.arranged.running current.1 current.2]
      exact serial.resume invariant distinct named bounded current control
  | yielding environment =>
      cases signal with
      | none => exact ⟨done, serial.settle invariant.toThreaded ⟨rfl, rfl, rfl⟩⟩
      | some signal =>
          have quiet : Quiet state.out (state.out ++ [.caught signal]) := by
            simp [Quiet, acquiredIds, transactions, releasedIds]
          exact ⟨done, serial.settle invariant.toThreaded quiet⟩
  | scheduling val =>
      obtain ⟨outcome, ready', waiting', computed, threaded, _, kept, _, _⟩ :=
        invariant.schedules few control
      have after := serial.schedule invariant named kept
      simp only [computed]
      cases outcome with
      | returned final => exact ⟨done, after.settle threaded ⟨rfl, rfl, rfl⟩⟩
      | dispatch environment final => exact ⟨done, after.settle threaded ⟨rfl, rfl, rfl⟩⟩
  | finished => exact ⟨done, serial⟩
  | crashed fault =>
      rw [control] at placed
      exact placed.elim

end Serial

theorem Built.serial (built : Built specs state) : Serial specs state [] := by
  have quiet : acquiredIds state.out = [] ∧ transactions state.out = [] ∧
      releasedIds state.out = [] := by
    rw [built.out]
    simp [acquiredIds, transactions, releasedIds]
  have none : transactionIds state.out = [] := by
    rw [transactionIds, quiet.2.1]
    rfl
  refine ⟨quiet.2.2, by simp, by simp [built.exited],
    .inl ⟨built.lock_owner, built.acquisitions, quiet.1, none⟩, ?_, ?_, ?_⟩
  · intro ptr tcb _ found entered
    obtain ⟨spec, _, rfl⟩ := (built.blocks ptr tcb).mp found
    cases entered
  · rw [quiet.2.1, none]
    rfl
  · rw [none, built.balance]
    rfl

theorem reachable_serial (few : specs.length ≤ THREAD_MAX)
    (distinct : (specs.map Spec.id).Nodup) (named : ∀ spec ∈ specs, spec.id ≠ -1)
    (bounded : Bounded specs) (reached : Reachable specs state) :
    ∃ done, Serial specs state done := by
  have initially : ∃ done, Serial specs (start specs) done := ⟨[], (start_built few).serial⟩
  refine @invariant_of_reached _ _ _ _ (fun state => ∃ done, Serial specs state done) ?_ reached
    initially
  intro before after reached step existing
  obtain ⟨signal, rfl⟩ := step
  obtain ⟨done, serial⟩ := existing
  obtain ⟨ready, waiting, invariant⟩ := reachable_invariant few distinct reached
  exact serial.next few invariant distinct named bounded signal

/-- The bank operations exclude each other and have the effect of a serial run. -/
structure Serialised (specs : List Spec) (state : State) : Prop where
  exclusive : ∀ id other, Critical state.out id → Critical state.out other → id = other
  owner : ∀ id, Critical state.out id → state.lock_owner = id
  writer : ∀ signal, (next signal state).balance ≠ state.balance →
    ∃ ptr tcb, RUNNING state = .ok (ptr, tcb) ∧ Critical state.out tcb.id
  ordered : (transactions state.out).map Prod.fst <+: acquiredIds state.out ∧
    acquiredIds state.out <+: state.acquisitions
  chained : Chained 500 (transactions state.out)
  settled : (∀ ptr spec, Created specs ptr spec → ptr ∈ state.exited) →
    (transactions state.out).map Prod.fst = state.acquisitions ∧
    state.acquisitions.Perm ((bankSpecs specs).map Spec.id) ∧
    state.balance = (state.acquisitions.map (argOf specs)).foldl operate 500

namespace Serial

/-- A thread in its critical section is the owner, past its `lock()`. -/
theorem critical (serial : Serial specs state done) {id : Int} (critical : Critical state.out id) :
    state.lock_owner = id := by
  obtain ⟨acquired, unreleased⟩ := critical
  rw [serial.released] at unreleased
  cases serial.phase with
  | inl free =>
      rw [free.2.2.1] at acquired
      exact absurd acquired unreleased
  | inr owned =>
      obtain ⟨_, ptr, tcb, owner⟩ := owned
      rw [owner.acquired, List.mem_append] at acquired
      cases acquired with
      | inl earlier => exact absurd earlier unreleased
      | inr last =>
          split at last
          · rw [List.mem_singleton] at last
            rw [last, owner.owns]
          · cases last

theorem ordered (serial : Serial specs state done) :
    transactionIds state.out <+: acquiredIds state.out ∧
      acquiredIds state.out <+: state.acquisitions := by
  cases serial.phase with
  | inl free =>
      obtain ⟨_, acquisitions, acquired, transacted⟩ := free
      rw [transacted, acquired, acquisitions]
      exact ⟨List.prefix_rfl, List.prefix_rfl⟩
  | inr owned =>
      obtain ⟨_, ptr, tcb, owner⟩ := owned
      rw [owner.transacted, owner.acquired, owner.acquisitions]
      cases tcb.environment with
      | acquired => exact ⟨(List.prefix_append_right_inj done).mpr List.nil_prefix, List.prefix_rfl⟩
      | updated => exact ⟨List.prefix_rfl, List.prefix_rfl⟩
      | _ => exact ⟨List.prefix_rfl, (List.prefix_append_right_inj done).mpr List.nil_prefix⟩

/-- The balance moves in the transaction of the owner only. -/
theorem writer (serial : Serial specs state done) (invariant : Invariant specs state ready waiting)
    (few : specs.length ≤ THREAD_MAX) (distinct : (specs.map Spec.id).Nodup)
    (named : ∀ spec ∈ specs, spec.id ≠ -1) {signal : Option Signal}
    (moved : (Threads.next signal state).balance ≠ state.balance) :
    ∃ ptr tcb, RUNNING state = .ok (ptr, tcb) ∧ Critical state.out tcb.id := by
  have placed := invariant.placed
  unfold Threads.next at moved
  cases control : state.control with
  | running environment =>
      rw [control] at placed
      obtain ⟨ptr, tcb, current, rfl⟩ := placed
      have running := invariant.arranged.running current.1 current.2
      simp only [control, running] at moved
      refine ⟨ptr, tcb, running, ?_⟩
      have point : tcb.environment = .acquired := by
        by_contra elsewhere
        exact moved (resume_balance elsewhere)
      have alive : ptr ∉ state.exited := invariant.not_exited current (by simp [control])
      have owns := serial.inside ptr tcb alive current.2 (by rw [point]; rfl)
      have id : tcb.id ≠ -1 := invariant.toThreaded.id_ne named current.2
      have owner := serial.owner invariant distinct (owns ▸ id) current.2 owns
      obtain ⟨spec, created, same, _⟩ := invariant.made ptr tcb current.2
      refine ⟨?_, ?_⟩
      · have acquired := owner.acquired
        rw [point] at acquired
        rw [acquired]
        simp [Environment.entered]
      · rw [serial.released]
        intro member
        obtain ⟨ptr', spec', created', _, id', gone⟩ := (serial.exited _).mp member
        exact alive (created.same_id distinct created' (same.symm.trans id'.symm) ▸ gone)
  | yielding environment =>
      refine absurd ?_ moved
      cases signal <;> simp [control, State.print]
  | scheduling val =>
      obtain ⟨outcome, _, _, computed, _, _, kept, _, _⟩ := invariant.schedules few control
      refine absurd ?_ moved
      simp only [control, computed]
      cases outcome with
      | returned after => exact kept.balance
      | dispatch environment after => exact kept.balance
  | finished => exact absurd (by simp only [control]) moved
  | crashed fault =>
      rw [control] at placed
      exact placed.elim

/-- Once all threads have exited the books are those of a serial run. -/
theorem settled (serial : Serial specs state done) (distinct : (specs.map Spec.id).Nodup)
    (invariant : Invariant specs state ready waiting)
    (gone : ∀ ptr spec, Created specs ptr spec → ptr ∈ state.exited) :
    transactionIds state.out = state.acquisitions ∧
      state.acquisitions.Perm ((bankSpecs specs).map Spec.id) ∧
      state.balance = (state.acquisitions.map (argOf specs)).foldl operate 500 := by
  cases serial.phase with
  | inl free =>
      obtain ⟨_, acquisitions, _, transacted⟩ := free
      rw [acquisitions, transacted, serial.balance, transacted, Threads.settle, List.foldl_map]
      refine ⟨rfl, ?_, rfl⟩
      have nodup : ((bankSpecs specs).map Spec.id).Nodup :=
        distinct.sublist (List.filter_sublist.map Spec.id)
      rw [List.perm_ext_iff_of_nodup serial.nodup nodup]
      intro id
      rw [serial.exited, List.mem_map]
      refine ⟨?_, ?_⟩
      · intro existing
        obtain ⟨ptr, spec, created, bank, rfl, _⟩ := existing
        exact ⟨spec, by simp [bankSpecs, created.mem, bank], rfl⟩
      · intro existing
        obtain ⟨spec, member, rfl⟩ := existing
        obtain ⟨inside, bank⟩ := List.mem_filter.mp member
        obtain ⟨k, bound, found⟩ := List.mem_iff_getElem.mp inside
        have created : Created specs (k + 1) spec := ⟨k, rfl, by
          rw [List.getElem?_eq_getElem bound, found]⟩
        exact ⟨k + 1, spec, created, by simpa using bank, rfl, gone _ spec created⟩
  | inr owned =>
      obtain ⟨_, ptr, tcb, owner⟩ := owned
      obtain ⟨spec, created, _⟩ := invariant.made ptr tcb owner.block
      exact absurd (gone ptr spec created) owner.alive

end Serial

theorem bank_serialised (few : specs.length ≤ THREAD_MAX)
    (distinct : (specs.map Spec.id).Nodup) (named : ∀ spec ∈ specs, spec.id ≠ -1)
    (bounded : Bounded specs) (reached : Reachable specs state) : Serialised specs state := by
  obtain ⟨ready, waiting, invariant⟩ := reachable_invariant few distinct reached
  obtain ⟨done, serial⟩ := reachable_serial few distinct named bounded reached
  refine ⟨?_, fun id critical => serial.critical critical, ?_, serial.ordered, ?_,
    serial.settled distinct invariant⟩
  · intro id other left right
    rw [← serial.critical left, serial.critical right]
  · intro signal moved
    exact serial.writer invariant few distinct named moved
  · rw [serial.ledger]
    exact serial_chained

theorem bank_serialised_two :
    Serialised (init_threads 0 0 (-200) 300 0)
      (next (some .SIGALRM) (next none (next none (start (init_threads 0 0 (-200) 300 0))))) :=
  bank_serialised (by decide) (by decide) (by decide) (by decide)
    (((Relation.ReflTransGen.single ⟨none, rfl⟩).tail ⟨none, rfl⟩).tail ⟨some .SIGALRM, rfl⟩)

/-- The id that `lock_owner` uses for a free lock. -/
def sentinelThreads : List Spec :=
  [⟨.bank_operation, -1, 100, 0, 0, 0⟩, ⟨.bank_operation, 0, 100, 0, 0, 0⟩]

/-- The thread `-1` takes the lock and leaves it free. -/
theorem sentinel_id_breaks_exclusion :
    sentinelThreads.length ≤ THREAD_MAX ∧ (sentinelThreads.map Spec.id).Nodup ∧
      Bounded sentinelThreads ∧
      ∃ state, Reachable sentinelThreads state ∧ Critical state.out (-1) ∧ Critical state.out 0 ∧
        ¬ Serialised sentinelThreads state := by
  let first := next none (next none (start sentinelThreads))
  let second := next none (next none (next (some .SIGTSTP) first))
  have reached : Reachable sentinelThreads second :=
    ((((Relation.ReflTransGen.single ⟨none, rfl⟩).tail ⟨none, rfl⟩).tail
      ⟨some .SIGTSTP, rfl⟩).tail ⟨none, rfl⟩).tail ⟨none, rfl⟩
  have sentinel : Critical second.out (-1) := by decide
  have other : Critical second.out 0 := by decide
  refine ⟨by decide, by decide, by decide, second, reached, sentinel, other, ?_⟩
  intro serialised
  exact absurd (serialised.exclusive (-1) 0 sentinel other) (by decide)

end SysProg.Threads
