import EtherBuffer.Egress.Scheduler
import EtherBuffer.Ingress.Dispatcher

/-! One network interface: both sides with their pools, and the line that they use. -/
namespace EtherBuffer

open Egress Ingress Link

structure Interface (clients rxDepth txDepth stamps : Nat) where
  dispatcher : Dispatcher clients rxDepth
  rxPools : PoolPair
  scheduler : Scheduler clients txDepth stamps
  txPools : PerPriority Pool
  line : Line

structure Arenas where
  rxLow : Array UInt8
  rxHigh : Option (Array UInt8)
  txLow : Array UInt8
  txHigh : Array UInt8

namespace Interface

variable {clients rxDepth txDepth stamps : Nat}

def createRxPools (arenas : Arenas) (config : Option Config) : Except ConfigError PoolPair := do
  let low ← Pool.create arenas.rxLow .low
  let high ← arenas.rxHigh.mapM fun arena => Pool.create arena .high
  match config with
  | some c => PoolPair.createFor c.highQueues low high
  | none => PoolPair.create low high

def create [Positive rxDepth] [Positive txDepth] (arenas : Arenas) (config : Option Config)
    (policy : Policy) : Except ConfigError (Interface clients rxDepth txDepth stamps) := do
  let rxPools ← createRxPools arenas config
  let txLow ← Pool.create arenas.txLow .low
  let txHigh ← Pool.create arenas.txHigh .high
  return {
    dispatcher := .empty clients rxDepth policy
    rxPools
    scheduler := .empty clients txDepth stamps
    txPools := ⟨txLow, txHigh⟩
    line := (config.map Line.ofConfig).getD {} }

def withRxPool {α : Type} (i : Interface clients rxDepth txDepth stamps) (p : Priority)
    (f : Pool → Except Fault (Pool × α)) :
    Except Fault (Option α × Interface clients rxDepth txDepth stamps) :=
  match i.rxPools.get p with
  | none => .ok (none, i)
  | some pool => (f pool).map fun (pool, answer) =>
      (some answer, { i with rxPools := i.rxPools.set p pool })

def withTxPool {α : Type} (i : Interface clients rxDepth txDepth stamps) (p : Priority)
    (f : Pool → Except Fault (Pool × α)) :
    Except Fault (α × Interface clients rxDepth txDepth stamps) :=
  (f (i.txPools.get p)).map fun (pool, answer) =>
    (answer, { i with txPools := i.txPools.set p pool })

def attach (i : Interface clients rxDepth txDepth stamps) :
    Interface clients rxDepth txDepth stamps :=
  { i with dispatcher := i.dispatcher.attach i.rxPools }

def setLink (i : Interface clients rxDepth txDepth stamps) (link : LinkState) (speed : Speed) :
    Bool × Interface clients rxDepth txDepth stamps :=
  let (dispatcher, line, changed) := i.dispatcher.setLink i.line link speed
  (changed, { i with dispatcher, line })

def process [Positive rxDepth] (i : Interface clients rxDepth txDepth stamps)
    (directory : Directory) :
    Except Fault (Option (Handle × Disposition) × Interface clients rxDepth txDepth stamps) := do
  match ← i.dispatcher.process i.rxPools directory i.line with
  | none => return (none, i)
  | some r =>
    return (some (r.handle, r.disposition),
      { i with dispatcher := r.dispatcher, rxPools := r.pools })

def processAll [Positive rxDepth] (i : Interface clients rxDepth txDepth stamps)
    (directory : Directory) :
    Except Fault (Nat × Interface clients rxDepth txDepth stamps) := do
  let (dispatcher, rxPools, count) ← i.dispatcher.processAll i.rxPools directory i.line
  return (count, { i with dispatcher, rxPools })

def collect [Positive rxDepth] (i : Interface clients rxDepth txDepth stamps) (client n : Nat) :
    Except Fault (Option Collected × Interface clients rxDepth txDepth stamps) := do
  match ← i.dispatcher.collect client i.rxPools n with
  | none => return (none, i)
  | some (dispatcher, rxPools, frame) => return (some frame, { i with dispatcher, rxPools })

def send [Positive txDepth] (i : Interface clients rxDepth txDepth stamps) (client : Nat)
    (p : Priority) (frame : List UInt8) (timed : Bool) (now : UInt32) :
    Except Fault (Except Error Handle × Interface clients rxDepth txDepth stamps) := do
  let (scheduler, pool, answer) ← i.scheduler.send (i.txPools.get p) client frame timed now
  return (answer, { i with scheduler, txPools := i.txPools.set p pool })

def select (i : Interface clients rxDepth txDepth stamps) (now : UInt32) :
    Option Selection × Interface clients rxDepth txDepth stamps :=
  let (scheduler, selection) := i.scheduler.select i.line now
  (selection, { i with scheduler })

def complete [Positive txDepth] (i : Interface clients rxDepth txDepth stamps) (p : Priority)
    (selection : Selection) (stamp stop : UInt32) :
    Except Fault (Interface clients rxDepth txDepth stamps) := do
  let (scheduler, pool) ← i.scheduler.complete (i.txPools.get p) selection stamp stop i.line
  return { i with scheduler, txPools := i.txPools.set p pool }

end Interface

end EtherBuffer
