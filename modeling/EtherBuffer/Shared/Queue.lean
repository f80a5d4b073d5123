import EtherBuffer.Queue.Slots
import EtherBuffer.Queue.Stamps
import EtherBuffer.Shared.Cell

/-! Queues that two contexts share. -/
namespace EtherBuffer.Shared

abbrev SharedQueue (n : Nat) := Cell (SlotQueue n)

abbrev SharedStamps (n : Nat) := Cell (StampQueue n)

namespace SharedQueue

variable {n : Nat} [Positive n]

def empty (n : Nat) [Positive n] : SharedQueue n := { value := .empty n }

def add (s : SharedQueue n) (h : Handle) :
    Except Fault (Except QueueError Unit × SharedQueue n) :=
  s.write fun _ q =>
    match q.add h with
    | .ok q' => .ok (.ok (), q')
    | .error e => .ok (.error e, q)

def isFull (s : SharedQueue n) : Except Fault Bool :=
  s.read fun _ q => .ok q.isFull

def peek (s : SharedQueue n) : Except Fault (Option (Fin n × Handle)) :=
  s.read fun _ q => .ok (q.peek.map fun h => (q.readIndex, h))

def freeIndex (s : SharedQueue n) (index : Nat) : Except Fault (SharedQueue n) := do
  let (_, s) ← s.write fun _ q => (q.freeIndex index).map fun q => ((), q)
  return s

def pop (s : SharedQueue n) : Except Fault (Option Handle × SharedQueue n) :=
  s.write fun _ q => q.pop

end SharedQueue

namespace SharedStamps

variable {n : Nat}

def empty (n : Nat) : SharedStamps n := { value := .empty n }

def add (s : SharedStamps n) (stamp : Stamp) :
    Except Fault (Except QueueError Unit × SharedStamps n) :=
  s.write fun _ q =>
    match q.add stamp with
    | .ok q' => .ok (.ok (), q')
    | .error e => .ok (.error e, q)

def pop (s : SharedStamps n) : Except Fault (Option Stamp × SharedStamps n) :=
  s.write fun _ q => .ok q.pop

def size (s : SharedStamps n) : Except Fault Nat :=
  s.read fun _ q => .ok q.size

end SharedStamps

end EtherBuffer.Shared
