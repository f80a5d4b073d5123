import EtherBuffer.Bytes.Span
import EtherBuffer.Error
import EtherBuffer.Record.Handle
import EtherBuffer.Record.Layout

/-! A pool of packet records in an arena of bytes. The records form a ring, and none starts in the last
bytes of the arena. -/
namespace EtherBuffer

open Record

structure Pool where
  arena : Array UInt8
  priority : Priority
  /-- Where the next record starts. -/
  writeOffset : Nat := 0
  /-- Where the oldest record starts that still takes space. -/
  readOffset : Nat := 0
  live : Nat := 0
  committed : UInt32 := 0
  dropped : UInt32 := 0
  roomy : minUsage ≤ wholeWords arena.size

namespace Pool

/-- An arena has to have room for one record at least. -/
def create (arena : Array UInt8) (priority : Priority) : Except ConfigError Pool :=
  if h : minUsage ≤ wholeWords arena.size then .ok { arena, priority, roomy := h }
  else .error .poolTooSmall

/-- The bytes of the arena in use, a whole number of words. -/
def capacity (p : Pool) : Nat :=
  wholeWords p.arena.size

def lastStart (p : Pool) : Nat :=
  p.capacity - minUsage

def isEmpty (p : Pool) : Bool :=
  p.live == 0

/-- The bytes from the write position to the oldest record. -/
def freeSpace (p : Pool) : Nat :=
  if p.live = 0 then p.capacity
  else if p.writeOffset < p.readOffset then p.readOffset - p.writeOffset
  else if p.readOffset = p.writeOffset then 0
  else p.capacity - p.writeOffset + p.readOffset

/-- Going on past the end of the arena, at most once. -/
def wrap (p : Pool) (pos : Nat) : Nat :=
  if p.capacity ≤ pos then pos - p.capacity else pos

def load (p : Pool) (pos n : Nat) : Except Fault (List UInt8) :=
  Span.load p.arena pos n

def store (p : Pool) (pos : Nat) (bytes : List UInt8) : Except Fault Pool :=
  if pos + bytes.length ≤ p.arena.size then
    .ok { p with
      arena := Span.overwrite p.arena pos bytes
      roomy := by simpa using p.roomy }
  else .error .outOfRange

def loadAround (p : Pool) (pos n : Nat) : Except Fault (List UInt8) := do
  require (pos ≤ p.capacity) .overflow
  let first := min (p.capacity - pos) n
  let head ← p.load pos first
  let tail ← p.load 0 (n - first)
  return head ++ tail

def storeAround (p : Pool) (pos : Nat) (bytes : List UInt8) : Except Fault Pool := do
  require (pos ≤ p.capacity) .overflow
  let first := p.capacity - pos
  let q ← p.store pos (bytes.take first)
  q.store 0 (bytes.drop first)

def loadWord (p : Pool) (pos : Nat) : Except Fault UInt32 :=
  (p.load pos 4).map Word.ofBytes

def storeWord (p : Pool) (pos : Nat) (w : UInt32) : Except Fault Pool :=
  p.store pos (Word.toBytes w)

/-- Where the record at `pos` says that the next one starts. -/
def linkAt (p : Pool) (pos : Nat) : Except Fault Nat :=
  (p.loadWord pos).map UInt32.toNat

def setLink (p : Pool) (pos next : Nat) : Except Fault Pool :=
  p.storeWord pos (.ofNat next)

def stateAt (p : Pool) (pos : Nat) : Except Fault State :=
  (p.loadWord (pos + 4)).map State.ofWord

def setState (p : Pool) (pos : Nat) (s : State) : Except Fault Pool :=
  p.storeWord (pos + 4) s.toWord

def headerAt (p : Pool) (pos : Nat) : Except Fault Header :=
  (p.load (pos + linkSize) Header.size).map Header.decode

def setHeaderAt (p : Pool) (pos : Nat) (h : Header) : Except Fault Pool :=
  p.store (pos + linkSize) h.encode

def oldest (p : Pool) : Option Handle :=
  if p.live = 0 then none else some (.at p.priority p.readOffset)

def describe (p : Pool) : String :=
  "MemPool \x7b len: " ++ toString p.capacity ++ ", priority: "
    ++ (match p.priority with | .low => "Low" | .high => "High")
    ++ ", wr: " ++ toString p.writeOffset ++ ", rd: " ++ toString p.readOffset
    ++ ", live: " ++ toString p.live ++ ", dropped: " ++ toString p.dropped.toNat ++ " \x7d"

end Pool

end EtherBuffer
