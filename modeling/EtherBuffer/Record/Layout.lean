import EtherBuffer.Fault
import EtherBuffer.Record.Header

/-! The layout of packet records: a link, a state, the header, then the payload, which may go on at the
start of the arena. -/
namespace EtherBuffer.Record

def sizeLimit : Nat := UInt64.size

def linkSize : Nat := 8

def payloadOffset : Nat := linkSize + Header.size

/-- Payload bytes for which there must be room behind every header. -/
def minPayload : Nat := 40

/-- The least free space from which a record is given, and the tail in which none starts. -/
def minUsage : Nat := payloadOffset + minPayload

def wholeWords (n : Nat) : Nat :=
  n / 4 * 4

/-- The bytes that a record with a payload of `n` bytes takes. -/
def extent (n : Nat) : Nat :=
  wholeWords (payloadOffset + n + 3)

/-- The extent of a record, where it can be computed in machine words. -/
def checkedExtent (n : Nat) : Except Fault Nat :=
  if payloadOffset + n + 3 < sizeLimit then .ok (extent n) else .error .overflow

inductive State where
  /-- Released and passed. -/
  | empty
  | live
  /-- Released while an older record was in use. -/
  | freed
  deriving DecidableEq, Repr

def State.toWord : State → UInt32
  | .empty => 0
  | .live => 1
  | .freed => 2

def State.ofWord (w : UInt32) : State :=
  if w = 1 then .live else if w = 2 then .freed else .empty

@[simp] theorem State.ofWord_toWord (s : State) : State.ofWord s.toWord = s := by
  cases s <;> decide

theorem le_extent (n : Nat) : payloadOffset + n ≤ extent n := by
  unfold extent wholeWords
  omega

theorem extent_mod (n : Nat) : extent n % 4 = 0 := by
  unfold extent wholeWords
  omega

end EtherBuffer.Record
