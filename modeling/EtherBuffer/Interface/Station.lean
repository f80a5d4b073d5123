import EtherBuffer.Interface.Basic

/-! An interface as a protocol stack uses it. The stack is offered a frame only while there is room for
an answer. -/
namespace EtherBuffer

open Egress Ingress

structure Station where
  rxClient : Nat
  txClient : Nat
  priority : Priority
  now : UInt32 := 0

namespace Station

def maxFrame : Nat := Frame.maxPayload + Frame.headerSize

def maxBurst : Nat := 1

/-- What the stack gets to fill when it asks for `n` bytes. -/
def offeredLength (n : Nat) : Nat :=
  min n Frame.maxTaggedSize

variable {clients rxDepth txDepth stamps : Nat}

def canTransmit (s : Station) (i : Interface clients rxDepth txDepth stamps) :
    Except Fault Bool :=
  let pool := i.txPools.get s.priority
  if i.scheduler.canSend s.txClient pool.priority then pool.canHold maxFrame else .ok false

def canReceive (s : Station) (i : Interface clients rxDepth txDepth stamps) : Except Fault Bool :=
  if (i.dispatcher.client? s.rxClient).any Client.isReady then s.canTransmit i else .ok false

/-- A frame for which there is no room is lost. -/
def transmit [Positive txDepth] (s : Station) (i : Interface clients rxDepth txDepth stamps)
    (frame : List UInt8) : Except Fault (Interface clients rxDepth txDepth stamps) := do
  let (_, i) ← i.send s.txClient s.priority frame false s.now
  return i

def receive [Positive rxDepth] (s : Station) (i : Interface clients rxDepth txDepth stamps) :
    Except Fault (List UInt8 × Interface clients rxDepth txDepth stamps) := do
  let (frame, i) ← i.collect s.rxClient Frame.maxTaggedSize
  return ((frame.map (·.bytes)).getD [], i)

end Station

end EtherBuffer
