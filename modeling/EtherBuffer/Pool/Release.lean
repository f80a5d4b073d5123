import EtherBuffer.Pool.Basic

/-! Giving records back, in any order. A younger record is marked, and its space follows when all older
ones are gone. -/
namespace EtherBuffer.Pool

open Record

/-- Move the read position past the oldest record. -/
def dropOldest (p : Pool) : Except Fault Pool := do
  let next ← p.linkAt p.readOffset
  require (next < p.capacity) .linkOutOfRange
  let q ← p.setState p.readOffset .empty
  require (q.live ≠ 0) .overflow
  return { q with readOffset := next, live := q.live - 1 }

/-- Move the read position past at most `n` records that are marked as released. -/
def dropFreed : Nat → Pool → Except Fault Pool
  | 0, p => .ok p
  | n + 1, p => do
    let state ← p.stateAt p.readOffset
    if state = .freed then
      let q ← p.dropOldest
      dropFreed n q
    else return p

def free (p : Pool) (h : Handle) : Except Fault Pool := do
  require (h.priority = p.priority) .foreignRecord
  let state ← p.stateAt h.position
  require (state = .live) .recordReleasedTwice
  if h.position ≠ p.readOffset then p.setState h.position .freed
  else
    let q ← p.dropOldest
    q.dropFreed q.live

end EtherBuffer.Pool
