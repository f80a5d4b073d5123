import EtherBuffer.Priority

/-! Names of committed records. -/
namespace EtherBuffer

/-- A record, named by the class of its pool and its offset in the arena. -/
structure Handle where
  priority : Priority
  offset : UInt32
  deriving DecidableEq, Repr

def Handle.at (priority : Priority) (position : Nat) : Handle :=
  ⟨priority, .ofNat position⟩

def Handle.position (h : Handle) : Nat :=
  h.offset.toNat

end EtherBuffer
