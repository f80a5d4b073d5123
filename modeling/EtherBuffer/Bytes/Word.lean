/-! Little-endian layout of 32-bit words. -/
namespace EtherBuffer.Word

def toBytes (w : UInt32) : List UInt8 :=
  [w.toUInt8, (w >>> 8).toUInt8, (w >>> 16).toUInt8, (w >>> 24).toUInt8]

/-- The number whose digits to base 256 are the bytes, least significant first. -/
def value : List UInt8 → Nat
  | [] => 0
  | b :: bs => b.toNat + 256 * value bs

def ofBytes (bs : List UInt8) : UInt32 :=
  UInt32.ofNat (value bs)

def nth (bs : List UInt8) (i : Nat) : UInt32 :=
  ofBytes ((bs.drop (4 * i)).take 4)

@[simp] theorem length_toBytes (w : UInt32) : (toBytes w).length = 4 := rfl

theorem value_toBytes (w : UInt32) : value (toBytes w) = w.toNat := by
  have hw := w.toNat_lt
  simp only [toBytes, value, UInt32.toNat_toUInt8, UInt32.toNat_shiftRight, Nat.shiftRight_eq_div_pow,
    UInt32.reduceToNat, Nat.reduceMod, Nat.reducePow]
  omega

@[simp] theorem ofBytes_toBytes (w : UInt32) : ofBytes (toBytes w) = w := by
  simp [ofBytes, value_toBytes]

end EtherBuffer.Word
