import EtherBuffer.Bytes.Word
import EtherBuffer.Frame.Address
import EtherBuffer.Frame.Size

/-! Keys of the address filter: an address and, for one virtual network alone, a mark and its
identifier. -/
namespace EtherBuffer.Filter

/-- The first four octets in one word, the last two and the network in the other. -/
structure Key where
  low : UInt32
  high : UInt32
  deriving DecidableEq, Repr

namespace Key

def zero : Key := ⟨0, 0⟩

def ofAddress (a : Address) : Key :=
  ⟨.ofNat (Word.value (a.octets.toList.take 4)), .ofNat (Word.value (a.octets.toList.drop 4))⟩

def octetMask : UInt32 := 0xFFFF

def vlanMark : UInt32 := 0x8000

/-- Of the identifier twelve bits count. -/
def withVlan (k : Key) (vlan : UInt16) : Key :=
  let tag := vlanMark ||| (vlan &&& Frame.vlanMask).toUInt32
  ⟨k.low, (k.high &&& octetMask) ||| (tag <<< 16)⟩

/-- No address may have this key. -/
def isZero (k : Key) : Bool :=
  k == zero

end Key

structure Request where
  address : Address
  vlan : Option UInt16 := none
  appData : UInt32 := 0
  deriving DecidableEq, Repr

def Request.key (r : Request) : Key :=
  match r.vlan with
  | some vlan => (Key.ofAddress r.address).withVlan vlan
  | none => .ofAddress r.address

end EtherBuffer.Filter
