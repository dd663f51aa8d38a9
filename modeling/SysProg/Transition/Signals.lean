import Mathlib.Data.Finset.Basic

namespace SysProg.Transition

/-! The signals of one process.

The kernel keeps one bit for each signal: a signal that is raised while it is pending is
merged with the pending one.  A pending signal that the mask does not hold back may be
delivered, and its handler runs with the signal added to the mask. -/

variable {Signal : Type*} [DecidableEq Signal]

structure Signals (Signal : Type*) where
  mask : Finset Signal
  pending : Finset Signal

namespace Signals

def raise (signal : Signal) (signals : Signals Signal) : Signals Signal :=
  { signals with pending := insert signal signals.pending }

/-- `sigprocmask(SIG_SETMASK, mask, NULL)`. -/
def setMask (mask : Finset Signal) (signals : Signals Signal) : Signals Signal :=
  { signals with mask }

def Deliverable (signals : Signals Signal) (signal : Signal) : Prop :=
  signal ∈ signals.pending ∧ signal ∉ signals.mask

instance (signals : Signals Signal) (signal : Signal) : Decidable (signals.Deliverable signal) :=
  inferInstanceAs (Decidable (_ ∧ _))

/-- The signal is no longer pending; its default action changes no mask. -/
def drop (signal : Signal) (signals : Signals Signal) : Signals Signal :=
  { signals with pending := signals.pending.erase signal }

/-- The kernel enters the handler of `signal`. -/
def enter (signal : Signal) (signals : Signals Signal) : Signals Signal :=
  { mask := insert signal signals.mask, pending := signals.pending.erase signal }

end Signals

/-- How often each signal was raised, and what became of it. -/
structure Ledger (Signal : Type*) where
  raised : Signal → Nat
  merged : Signal → Nat
  taken : Signal → Nat

namespace Ledger

variable {ledger : Ledger Signal} {signals : Signals Signal} {signal : Signal}

def empty : Ledger Signal := ⟨fun _ => 0, fun _ => 0, fun _ => 0⟩

/-- One more, for `signal` only. -/
def count (signal : Signal) (counts : Signal → Nat) : Signal → Nat :=
  fun other => if other = signal then counts other + 1 else counts other

def raise (signal : Signal) (signals : Signals Signal) (ledger : Ledger Signal) :
    Ledger Signal :=
  { ledger with
    raised := count signal ledger.raised
    merged := if signal ∈ signals.pending then count signal ledger.merged else ledger.merged }

def take (signal : Signal) (ledger : Ledger Signal) : Ledger Signal :=
  { ledger with taken := count signal ledger.taken }

/-- No signal is made up and none is lost: each one that was raised was merged with a pending
one, taken, or is pending. -/
def Balanced (ledger : Ledger Signal) (signals : Signals Signal) : Prop :=
  ∀ signal, ledger.raised signal =
    ledger.merged signal + ledger.taken signal + if signal ∈ signals.pending then 1 else 0

theorem balanced_empty (quiet : signals.pending = ∅) : Balanced empty signals := by
  intro signal
  simp [empty, quiet]

namespace Balanced

theorem raise (balanced : Balanced ledger signals) (signal : Signal) :
    Balanced (ledger.raise signal signals) (signals.raise signal) := by
  intro other
  have before := balanced other
  by_cases same : other = signal
  · subst same
    by_cases waits : other ∈ signals.pending
    · simp only [Ledger.raise, Signals.raise, count, if_pos, waits, Finset.mem_insert_self] at *
      omega
    · simp only [Ledger.raise, Signals.raise, count, if_pos, waits, if_false,
        Finset.mem_insert_self] at *
      omega
  · by_cases waits : signal ∈ signals.pending
    · simpa [Ledger.raise, Signals.raise, count, same, waits] using before
    · simpa [Ledger.raise, Signals.raise, count, same, waits] using before

theorem take_of_pending {after : Signals Signal} (balanced : Balanced ledger signals)
    (waits : signal ∈ signals.pending) (erased : after.pending = signals.pending.erase signal) :
    Balanced (ledger.take signal) after := by
  intro other
  have before := balanced other
  by_cases same : other = signal
  · subst same
    simp only [Ledger.take, count, if_pos, waits, erased, Finset.notMem_erase, if_false] at *
    omega
  · simpa [Ledger.take, count, same, erased] using before

theorem of_pending {after : Signals Signal} (balanced : Balanced ledger signals)
    (same : after.pending = signals.pending) : Balanced ledger after := by
  intro signal
  rw [same]
  exact balanced signal

end Balanced

end Ledger

end SysProg.Transition
