import EtherBuffer.Error
import EtherBuffer.Fault
import EtherBuffer.Positive
import EtherBuffer.Record.Handle

/-! A bounded queue of record handles whose slots may be emptied in any order. -/
namespace EtherBuffer

structure SlotQueue (n : Nat) where
  slots : Vector (Option Handle) n
  readIndex : Fin n
  writeIndex : Fin n
  deriving DecidableEq, Repr

namespace SlotQueue

variable {n : Nat}

def defaultCapacity : Nat := 32

def empty (n : Nat) [Positive n] : SlotQueue n :=
  ⟨.replicate n none, 0, 0⟩

/-- The ring is full when the slot to be written next is occupied. -/
def isFull (q : SlotQueue n) : Bool :=
  (q.slots.get q.writeIndex).isSome

def isEmpty (q : SlotQueue n) : Bool :=
  (q.slots.get q.readIndex).isNone

def size (q : SlotQueue n) : Nat :=
  q.slots.toList.countP Option.isSome

def peek (q : SlotQueue n) : Option Handle :=
  q.slots.get q.readIndex

def after [Positive n] (i : Fin n) : Fin n :=
  i + 1

def add [Positive n] (q : SlotQueue n) (h : Handle) : Except QueueError (SlotQueue n) :=
  if q.isFull then .error .full
  else .ok { q with
    slots := q.slots.set q.writeIndex (some h) q.writeIndex.isLt
    writeIndex := after q.writeIndex }

def get [Positive n] (q : SlotQueue n) (index : Nat) : Option Handle :=
  q.slots.get (Fin.ofNat n index)

/-- Pass at most `k` holes in front of the write index. -/
def skipHoles [Positive n] (slots : Vector (Option Handle) n) (writeIndex : Fin n) :
    Nat → Fin n → Fin n
  | 0, i => i
  | k + 1, i =>
    if i ≠ writeIndex ∧ slots.get i = none then skipHoles slots writeIndex k (after i) else i

/-- Empty an occupied slot; slots are numbered modulo `n`. -/
def freeIndex [Positive n] (q : SlotQueue n) (index : Nat) : Except Fault (SlotQueue n) :=
  let i := Fin.ofNat n index
  if (q.slots.get i).isNone then .error .slotReleasedTwice
  else
    let slots := q.slots.set i none i.isLt
    if i = q.readIndex then
      .ok { q with slots, readIndex := skipHoles slots q.writeIndex n (after i) }
    else .ok { q with slots }

def pop [Positive n] (q : SlotQueue n) : Except Fault (Option Handle × SlotQueue n) :=
  match q.peek with
  | none => .ok (none, q)
  | some h => (q.freeIndex q.readIndex).map fun q' => (some h, q')

/-- The number of slots from the read index to the write index, holes included. -/
def spread (q : SlotQueue n) : Nat :=
  if q.isFull then n else (q.writeIndex - q.readIndex : Fin n)

def toList [Positive n] (q : SlotQueue n) : List (Fin n × Handle) :=
  (List.range q.spread).filterMap fun i =>
    let index := q.readIndex + Fin.ofNat n i
    (q.slots.get index).map fun h => (index, h)

end SlotQueue

end EtherBuffer
