import EtherBuffer.Frame.Address
import EtherBuffer.Frame.Size

/-! The fields of a frame by which it is delivered. -/
namespace EtherBuffer.Frame

structure Envelope where
  destination : Address
  etherType : UInt16
  vlan : Option UInt16
  deriving DecidableEq, Repr

/-- The most bytes at the start of a frame that the envelope is made of. -/
def envelopeSize : Nat := headerSize + tagSize

/-- Most significant byte first. -/
def field16 (bytes : List UInt8) (i : Nat) : UInt16 :=
  .ofNat (256 * (bytes.getD i 0).toNat + (bytes.getD (i + 1) 0).toNat)

/-- A frame that announces a tag has to have room for it. -/
def Envelope.ofHead? (head : List UInt8) (length : Nat) : Option Envelope := do
  let destination ← Address.ofFrame? head
  let kind := field16 head etherTypeOffset
  if kind ≠ tagEtherType then return ⟨destination, kind, none⟩
  if length < envelopeSize then none
  else
    let tag := field16 head (etherTypeOffset + 2)
    return ⟨destination, field16 head (etherTypeOffset + tagSize), some (tag &&& vlanMask)⟩

end EtherBuffer.Frame
