import EtherBuffer.Bytes.Hex

/-! Addresses of stations. -/
namespace EtherBuffer

structure Address where
  octets : Vector UInt8 6
  deriving DecidableEq, Repr

namespace Address

def zero : Address := ⟨.replicate 6 0⟩

def broadcast : Address := ⟨.replicate 6 0xFF⟩

def isMulticast (a : Address) : Bool :=
  a.octets[0] &&& 1 != 0

theorem size_take {bytes : List UInt8} (h : 6 ≤ bytes.length) :
    (bytes.take 6).toArray.size = 6 := by
  simp only [List.size_toArray, List.length_take]
  omega

def ofFrame? (frame : List UInt8) : Option Address :=
  if h : 6 ≤ frame.length then some ⟨⟨(frame.take 6).toArray, size_take h⟩⟩ else none

def toText (a : Address) : String :=
  ":".intercalate (a.octets.toList.map fun b => Hex.encode [b])

def toNat (a : Address) : Nat :=
  a.octets.toList.foldl (fun n b => 256 * n + b.toNat) 0

def ofNat (n : Nat) : Address :=
  ⟨.ofFn fun i : Fin 6 => .ofNat (n >>> (8 * (5 - i.val)))⟩

/-- The address `k` places further on; the first follows the last. -/
def later (a : Address) (k : Nat) : Address :=
  .ofNat (a.toNat + k)

end Address

end EtherBuffer
