import EtherBuffer.Error

/-! A bounded first-in first-out queue of departure times. Any capacity will do, also none. -/
namespace EtherBuffer

structure Stamp where
  id : UInt32
  time : UInt32
  deriving DecidableEq, Repr, Inhabited

/-- A ring of `n` cells of which `size` from the read index on are in use. -/
structure StampQueue (n : Nat) where
  cells : Vector Stamp n
  readIndex : Nat := 0
  writeIndex : Nat := 0
  size : Nat := 0
  readIndex_lt : 0 < n → readIndex < n := by omega
  writeIndex_lt : 0 < n → writeIndex < n := by omega
  size_le : size ≤ n := by omega

namespace StampQueue

variable {n : Nat}

def defaultCapacity : Nat := 10

def empty (n : Nat) : StampQueue n where
  cells := .replicate n ⟨0, 0⟩

def after (n i : Nat) : Nat :=
  if i + 1 = n then 0 else i + 1

theorem after_lt {i : Nat} (h : 0 < n → i < n) (hn : 0 < n) : after n i < n := by
  unfold after
  have := h hn
  split <;> omega

def isEmpty (q : StampQueue n) : Bool :=
  q.size == 0

def isFull (q : StampQueue n) : Bool :=
  q.size == n

def add (q : StampQueue n) (s : Stamp) : Except QueueError (StampQueue n) :=
  if h : q.size = n then .error .full
  else
    have hn : 0 < n := by have := q.size_le; omega
    .ok { q with
      cells := q.cells.set q.writeIndex s (q.writeIndex_lt hn)
      writeIndex := after n q.writeIndex
      size := q.size + 1
      writeIndex_lt := after_lt q.writeIndex_lt
      size_le := by have := q.size_le; omega }

def peek (q : StampQueue n) : Option Stamp :=
  if h : q.size = 0 then none
  else
    have hn : 0 < n := by have := q.size_le; omega
    some (q.cells.get ⟨q.readIndex, q.readIndex_lt hn⟩)

def pop (q : StampQueue n) : Option Stamp × StampQueue n :=
  match q.peek with
  | none => (none, q)
  | some s => (some s, { q with
      readIndex := after n q.readIndex
      size := q.size - 1
      readIndex_lt := after_lt q.readIndex_lt
      size_le := by have := q.size_le; omega })

end StampQueue

end EtherBuffer
