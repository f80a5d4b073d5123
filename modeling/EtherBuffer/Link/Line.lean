import EtherBuffer.Fault
import EtherBuffer.Frame.Size
import EtherBuffer.Link.Config

/-! The state of a line. Credit is counted in bits with sixteen binary places. -/
namespace EtherBuffer.Link

inductive Speed where
  | mbps10
  | mbps100
  | mbps1000
  deriving DecidableEq, Repr

namespace Speed

def name : Speed → String
  | .mbps10 => "Mbps10"
  | .mbps100 => "Mbps100"
  | .mbps1000 => "Mbps1000"

def bitsPerSecond : Speed → Nat
  | .mbps10 => 10000000
  | .mbps100 => 100000000
  | .mbps1000 => 1000000000

def index : Speed → Fin 3
  | .mbps10 => 0
  | .mbps100 => 1
  | .mbps1000 => 2

end Speed

inductive LinkState where
  | down
  | up
  deriving DecidableEq, Repr

def LinkState.name : LinkState → String
  | .down => "Down"
  | .up => "Up"

def LinkState.ofName (s : String) : LinkState :=
  if s = "Up" then .up else .down

def creditPlaces : Nat := 16

def byteCredit : Nat := 8 <<< creditPlaces

/-- As far as a word holds it. -/
def idleSlope (bitsPerSecond timerHz : UInt32) : Except Fault UInt32 :=
  if timerHz = 0 then .error .divisionByZero
  else .ok (.ofNat (min (UInt32.size - 1) ((bitsPerSecond.toNat <<< creditPlaces) / timerHz.toNat)))

/-- As far as a word holds it; no limit for no payload. -/
def creditLimit (payload : UInt32) : Int32 :=
  if payload = 0 then 0
  else .ofIntClamp ((payload.toNat + Frame.wireOverhead) * byteCredit : Nat)

structure Line where
  link : LinkState := .down
  speed : Speed := .mbps100
  shaperEnabled : Bool := false
  slope : UInt32 := 0
  /-- The highest credit, zero if there is no limit. -/
  limit : Int32 := 0
  ingressLatency : Vector UInt32 3 := .replicate 3 0
  egressLatency : Vector UInt32 3 := .replicate 3 0
  timerHz : UInt32 := defaultTimerHz
  deriving DecidableEq, Repr

namespace Line

def ofConfig (c : Config) : Line where
  shaperEnabled := c.shaper
  timerHz := c.timerHz

def setBandwidth (p : Line) (bitsPerSecond : UInt32) : Except Fault Line := do
  return { p with slope := ← idleSlope bitsPerSecond p.timerHz }

def setPayloadLimit (p : Line) (payload : UInt32) : Line :=
  { p with limit := creditLimit payload }

def setLink (p : Line) (link : LinkState) (speed : Speed) : Line × Bool :=
  ({ p with link, speed }, decide (p.link ≠ link ∨ p.speed ≠ speed))

def setIngressLatency (p : Line) (speed : Speed) (ticks : UInt32) : Line :=
  { p with ingressLatency := p.ingressLatency.set speed.index ticks }

def setEgressLatency (p : Line) (speed : Speed) (ticks : UInt32) : Line :=
  { p with egressLatency := p.egressLatency.set speed.index ticks }

def arrival (p : Line) (stamp : UInt32) : UInt32 :=
  stamp - p.ingressLatency[p.speed.index]

def departure (p : Line) (stamp : UInt32) : UInt32 :=
  stamp + p.egressLatency[p.speed.index]

end Line

end EtherBuffer.Link
