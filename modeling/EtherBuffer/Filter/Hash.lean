import EtherBuffer.Filter.Key
import EtherBuffer.Positive

/-! The key hash: a cyclic redundancy check of both words of a key under a chosen polynomial. -/
namespace EtherBuffer.Filter

/-- Shift out one bit and fold it back through the polynomial. -/
def shiftBit (poly x : UInt32) : UInt32 :=
  if x &&& 1 = 0 then x >>> 1 else (x >>> 1) ^^^ poly

def shiftBits (poly : UInt32) : Nat → UInt32 → UInt32
  | 0, x => x
  | n + 1, x => shiftBits poly n (shiftBit poly x)

def foldWord (poly check data : UInt32) : UInt32 :=
  shiftBits poly 32 (check ^^^ data)

def hash (poly : UInt32) (k : Key) : UInt32 :=
  foldWord poly (foldWord poly k.low k.high) 0

def slotIndex (n : Nat) [Positive n] (poly : UInt32) (k : Key) : Fin n :=
  Fin.ofNat n (hash poly k).toNat

/-- The polynomial to try after this one. -/
def nextPoly (poly : UInt32) : UInt32 :=
  1664525 * poly + 1013904223

end EtherBuffer.Filter
