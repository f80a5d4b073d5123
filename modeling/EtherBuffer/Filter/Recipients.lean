import EtherBuffer.Error
import EtherBuffer.Priority

/-! Sets of receive clients with a class, packed into one word. -/
namespace EtherBuffer

/-- The clients in the low 31 bits, and the class in the top bit. -/
structure Recipients where
  bits : UInt32
  deriving DecidableEq, Repr

namespace Recipients

def capacity : Nat := 31

def highBit : UInt32 := 0x80000000

def nobody : Recipients := ⟨0⟩

def clientBit (client : Nat) : UInt32 :=
  1 <<< UInt32.ofNat client

def single (client : Nat) : Except FilterError Recipients :=
  if client < capacity then .ok ⟨clientBit client⟩ else .error .invalidClient

def clientBits (r : Recipients) : UInt32 :=
  r.bits &&& ~~~ highBit

def isHigh (r : Recipients) : Bool :=
  r.bits &&& highBit != 0

def withHigh (r : Recipients) (high : Bool) : Recipients :=
  ⟨if high then r.bits ||| highBit else r.bits &&& ~~~ highBit⟩

def isEmpty (r : Recipients) : Bool :=
  r.clientBits == 0

def has (r : Recipients) (client : Nat) : Bool :=
  decide (client < capacity) && r.bits &&& clientBit client != 0

def union (r s : Recipients) : Recipients :=
  ⟨r.bits ||| s.bits⟩

/-- Leave a client out and keep the class. -/
def erase (r : Recipients) (client : Nat) : Recipients :=
  if client < capacity then ⟨r.bits &&& ~~~ clientBit client⟩ else r

def toList (r : Recipients) : List Nat :=
  (List.range capacity).filter r.has

def size (r : Recipients) : Nat :=
  r.toList.length

def ofList (high : Bool) (clients : List Nat) : Recipients :=
  clients.foldl (fun r c => ⟨r.bits ||| clientBit c⟩) (nobody.withHigh high)

end Recipients

end EtherBuffer
