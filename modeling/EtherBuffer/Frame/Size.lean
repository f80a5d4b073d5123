/-! Sizes of Ethernet frames and of their fields, in bytes. -/
namespace EtherBuffer.Frame

def addressSize : Nat := 6

def headerSize : Nat := 14

def etherTypeOffset : Nat := 12

def tagSize : Nat := 4

def checksumSize : Nat := 4

def maxPayload : Nat := 1500

/-- The shortest frame, without its checksum. -/
def minSize : Nat := 60

def maxSize : Nat := maxPayload + headerSize + checksumSize

def maxTaggedSize : Nat := maxSize + tagSize

def tagEtherType : UInt16 := 0x8100

def vlanMask : UInt16 := 0x0FFF

def gapBits : Nat := 96

/-- Preamble, gap and checksum. -/
def wireOverhead : Nat := 8 + gapBits / 8 + checksumSize

end EtherBuffer.Frame
