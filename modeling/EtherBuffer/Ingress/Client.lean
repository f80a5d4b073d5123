import EtherBuffer.Queue.Slots

/-! Receive clients: their queues, the frame types they want, and their options. -/
namespace EtherBuffer.Ingress

inductive Notice where
  | ignoring
  | waiting
  | pending
  deriving DecidableEq, Repr

def Notice.name : Notice → String
  | .ignoring => "Ignoring"
  | .waiting => "Waiting"
  | .pending => "Pending"

def defaultDepth : Nat := 4

def maxEtherTypes : Nat := 2

structure Client (depth : Nat) where
  queue : SlotQueue depth
  dropped : UInt32 := 0
  /-- The EtherTypes that are wanted; all are if there are none. -/
  etherTypes : List UInt16 := []
  stripsTag : Bool := false
  notice : Notice := .ignoring
  deriving DecidableEq, Repr

namespace Client

variable {depth : Nat}

def empty (depth : Nat) [Positive depth] : Client depth where
  queue := .empty depth

def isReady (c : Client depth) : Bool :=
  c.queue.peek.isSome

/-- The answer tells whether the frame was queued; if not it is counted. -/
def deliver [Positive depth] (c : Client depth) (h : Handle) : Client depth × Bool :=
  match c.queue.add h with
  | .ok queue => ({ c with queue }, true)
  | .error _ => ({ c with dropped := c.dropped + 1 }, false)

def accepts (c : Client depth) (etherType : UInt16) : Bool :=
  c.etherTypes.isEmpty || c.etherTypes.contains etherType

def addEtherType (c : Client depth) (etherType : UInt16) : Except ConfigError (Client depth) :=
  if c.etherTypes.contains etherType then .ok c
  else if c.etherTypes.length < maxEtherTypes then
    .ok { c with etherTypes := c.etherTypes ++ [etherType] }
  else .error .tooManyEtherTypes

def removeEtherType (c : Client depth) (etherType : UInt16) : Client depth × Bool :=
  ({ c with etherTypes := c.etherTypes.erase etherType }, c.etherTypes.contains etherType)

def clearEtherTypes (c : Client depth) : Client depth :=
  { c with etherTypes := [] }

def enableNotice (c : Client depth) : Client depth :=
  if c.notice = .ignoring then { c with notice := .waiting } else c

def disableNotice (c : Client depth) : Client depth :=
  { c with notice := .ignoring }

def linkChanged (c : Client depth) : Client depth :=
  if c.notice = .waiting then { c with notice := .pending } else c

def takeNotice (c : Client depth) : Client depth × Bool :=
  if c.notice = .pending then ({ c with notice := .waiting }, true) else (c, false)

end Client

end EtherBuffer.Ingress
