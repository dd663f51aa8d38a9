import Mathlib.Algebra.GroupWithZero.Nat
import Mathlib.Logic.Function.Basic
import Mathlib.Data.Fintype.Basic

namespace SysProg.Bulletin

/-! # The bulletin board of HW1

Messages, the board file and the `fcntl` locks on its slots, as server.c and
client.c see them. -/

def FROM_LEN : Nat := 5
def CONTENT_LEN : Nat := 20
abbrev RECORD_NUM : Nat := 10

instance : NeZero RECORD_NUM := ⟨by decide⟩

abbrev Slot := Fin RECORD_NUM

structure Record where
  From : Vector UInt8 FROM_LEN
  Content : Vector UInt8 CONTENT_LEN
deriving DecidableEq, Repr

def Record.zero : Record := ⟨Vector.replicate FROM_LEN 0, Vector.replicate CONTENT_LEN 0⟩

/-- `strlen(From) == 0`. -/
def Record.empty (record : Record) : Bool := record.From.get ⟨0, by decide⟩ = 0

/-- The `message` at the start of a buffer. -/
structure Message where
  rd : Record
  pos : Int
deriving DecidableEq, Repr

inductive IoType where
  | post
  | exit
  | pull
  | finish
  | full
  | available
  | record
  | end
deriving DecidableEq, Repr

structure Io where
  type : IoType
  buf : Message
deriving DecidableEq, Repr

/-- The slot that `pos` is an index of. -/
def slotOf (pos : Int) : Option Slot :=
  if bounds : 0 ≤ pos ∧ pos < RECORD_NUM then some ⟨pos.toNat, by omega⟩ else none

@[simp] theorem slotOf_val (slot : Slot) : slotOf slot = some slot := by
  have bounds : (0 : Int) ≤ (slot.val : Int) ∧ (slot.val : Int) < (RECORD_NUM : Nat) :=
    ⟨Int.natCast_nonneg _, Int.ofNat_lt.mpr slot.isLt⟩
  rw [slotOf, dif_pos bounds]
  simp

/-- The board file and which server holds the write lock on each of its slots. -/
structure Disk (n : Nat) where
  board : Slot → Record
  owner : Slot → Option (Fin n)

namespace Disk

variable {n : Nat}

/-- Whether `write_lock` would return something other than -1. -/
def lockable (me : Fin n) (slot : Slot) (disk : Disk n) : Bool :=
  disk.owner slot = none ∨ disk.owner slot = some me

def write_lock (me : Fin n) (slot : Slot) (disk : Disk n) : Disk n :=
  if disk.lockable me slot then
    { disk with owner := Function.update disk.owner slot (some me) }
  else disk

def unlock (me : Fin n) (slot : Slot) (disk : Disk n) : Disk n :=
  if disk.owner slot = some me then
    { disk with owner := Function.update disk.owner slot none }
  else disk

def write (slot : Slot) (record : Record) (disk : Disk n) : Disk n :=
  { disk with board := Function.update disk.board slot record }

end Disk

end SysProg.Bulletin
