import EtherBuffer.Pool.Basic

/-! Walking along committed records in order, independently of their release. -/
namespace EtherBuffer

structure Cursor where
  offset : Nat := 0
  /-- How many records lie before it, from the first commit on. -/
  passed : UInt32 := 0
  deriving DecidableEq, Repr

def Cursor.start : Cursor := {}

namespace Pool

def endCursor (p : Pool) : Cursor :=
  ⟨p.writeOffset, p.committed⟩

def atCursor (p : Pool) (c : Cursor) : Option Handle :=
  if c.passed = p.committed then none else some (.at p.priority c.offset)

def pending (p : Pool) (c : Cursor) : Nat :=
  (p.committed - c.passed).toNat

/-- Behind the last record the cursor stays. -/
def advance (p : Pool) (c : Cursor) : Except Fault Cursor := do
  if c.passed = p.committed then return c
  return ⟨← p.linkAt c.offset, c.passed + 1⟩

end Pool

end EtherBuffer
