import EtherBuffer.Pool.Release

/-! Reading and changing records through their handles. -/
namespace EtherBuffer.Pool

open Record

def header (p : Pool) (h : Handle) : Except Fault Header :=
  p.headerAt h.position

def setHeader (p : Pool) (h : Handle) (header : Header) : Except Fault Pool :=
  p.setHeaderAt h.position header

def updateHeader (p : Pool) (h : Handle) (f : Header → Header) : Except Fault Pool := do
  p.setHeader h (f (← p.header h))

/-- At most `n` bytes of the payload from byte `first` on. -/
def readPayload (p : Pool) (h : Handle) (first n : Nat) : Except Fault (List UInt8) := do
  let length := (← p.header h).length.toNat
  if length ≤ first then return []
  p.loadAround (p.wrap (h.position + payloadOffset + first)) (min n (length - first))

/-- The number of other clients that share the record, which loses one of them. -/
def takeShare (p : Pool) (h : Handle) : Except Fault (Pool × UInt32) := do
  let header ← p.header h
  if header.sharers = 0 then return (p, 0)
  let q ← p.setHeader h { header with sharers := header.sharers - 1 }
  return (q, header.sharers)

/-- Give up one client's share of the record, and the record with the last share. -/
def release (p : Pool) (h : Handle) : Except Fault Pool := do
  let (q, others) ← p.takeShare h
  if others = 0 then q.free h else return q

end EtherBuffer.Pool
