import EtherBuffer.Pool.Basic

/-! Putting frames into a pool: space is reserved, filled piece by piece and committed. Without space a
frame is lost when it commits. -/
namespace EtherBuffer

open Record

/-- Space at the write position, partly filled. -/
structure Region where
  offset : Nat
  written : Nat
  room : Nat
  overflowed : Bool
  deriving DecidableEq, Repr

inductive Reservation where
  | region (r : Region)
  /-- No space: what is written is lost. -/
  | sink (written : Nat)
  deriving DecidableEq, Repr

namespace Reservation

def isSink : Reservation → Bool
  | .region _ => false
  | .sink _ => true

def capacity : Reservation → Nat
  | .region r => r.written + r.room
  | .sink _ => minUsage

def written : Reservation → Nat
  | .region r => r.written
  | .sink n => n

def overflowed : Reservation → Bool
  | .region r => r.overflowed
  | .sink _ => false

end Reservation

namespace Pool

def reserve (p : Pool) : Reservation :=
  if p.freeSpace < minUsage then .sink 0
  else .region ⟨p.writeOffset, 0, p.freeSpace - payloadOffset, false⟩

def canHold (p : Pool) (n : Nat) : Except Fault Bool := do
  let needed ← checkedExtent n
  return decide (max minUsage needed ≤ p.freeSpace)

/-- Space for a frame of `n` bytes, or nothing. -/
def reserveAtLeast (p : Pool) (n : Nat) : Except Fault (Option Reservation) := do
  return if ← p.canHold n then some p.reserve else none

/-- The answer tells whether all of the bytes are in the pool. -/
def write (p : Pool) : Reservation → List UInt8 → Except Fault (Pool × Reservation × Bool)
  | .sink written, bytes =>
    .ok (p, .sink (min (written + bytes.length) (sizeLimit - 1)), false)
  | .region r, bytes => do
    let accepted := bytes.take r.room
    let fits := decide (bytes.length ≤ r.room)
    let q ← p.storeAround (p.wrap (r.offset + payloadOffset + r.written)) accepted
    let r' : Region :=
      ⟨r.offset, r.written + accepted.length, r.room - accepted.length, r.overflowed || !fits⟩
    return (q, .region r', fits)

/-- Where the record after one that ends at `stop` starts. -/
def nextStart (p : Pool) (stop : Nat) : Nat :=
  if p.capacity ≤ stop then stop - p.capacity
  else if p.lastStart < stop then 0
  else stop

def drop (p : Pool) : Pool :=
  { p with dropped := p.dropped + 1 }

/-- Make a record of the reserved space, with the length of what was written. -/
def publish (p : Pool) (r : Region) (header : Header) : Except Fault (Pool × Handle) := do
  require (r.offset = p.writeOffset) .staleReservation
  let next := p.nextStart (r.offset + extent r.written)
  let q ← p.setHeaderAt r.offset { header with length := .ofNat r.written, stage := .empty }
  let q ← q.setLink r.offset next
  let q ← q.setState r.offset .live
  return ({ q with writeOffset := next, live := q.live + 1, committed := q.committed + 1 },
    .at p.priority r.offset)

/-- Commit a frame; one that found no space, or too little, is dropped. -/
def commit (p : Pool) (res : Reservation) (header : Header) :
    Except Fault (Pool × Option Handle) :=
  match res with
  | .sink _ => .ok (p.drop, none)
  | .region r =>
    if r.overflowed then .ok (p.drop, none)
    else (p.publish r header).map fun (q, h) => (q, some h)

def writeAll (p : Pool) (res : Reservation) : List (List UInt8) → Except Fault (Pool × Reservation)
  | [] => .ok (p, res)
  | piece :: pieces => do
    let (q, res, _) ← p.write res piece
    q.writeAll res pieces

def put (p : Pool) (pieces : List (List UInt8)) (header : Header) :
    Except Fault (Pool × Option Handle) := do
  let (q, res) ← p.writeAll p.reserve pieces
  q.commit res header

end Pool

end EtherBuffer
