import EtherBuffer.Filter.Table
import EtherBuffer.Frame.Envelope
import EtherBuffer.Ingress.Client
import EtherBuffer.Link.Line
import EtherBuffer.Pool.Access
import EtherBuffer.Pool.Cursor
import EtherBuffer.Pool.Pair

/-! The way of received frames to the clients. A frame is classified once, and its record stays until
the last client has collected it. -/
namespace EtherBuffer.Ingress

open EtherBuffer.Filter EtherBuffer.Link

/-- What is known of the keys of addresses. -/
abbrev Directory := Key → Option Hit

inductive Disposition where
  | delivered (clients : UInt32)
  | noMatch
  | badLength
  | queuesFull
  deriving DecidableEq, Repr

structure Collected where
  bytes : List UInt8
  timestamp : UInt32
  line : UInt32
  appData : UInt32
  deriving DecidableEq, Repr

structure Dispatcher (clients depth : Nat) where
  clients : Vector (Client depth) clients
  cursors : PerPriority Cursor := .both .start
  policy : Policy := .lowFirst
  rejected : UInt32 := 0

structure Processed (clients depth : Nat) where
  dispatcher : Dispatcher clients depth
  pools : PoolPair
  handle : Handle
  disposition : Disposition

namespace Dispatcher

variable {clients depth : Nat}

def empty (clients depth : Nat) [Positive depth] (policy : Policy) : Dispatcher clients depth where
  clients := .replicate clients (.empty depth)
  policy := policy

/-- Let the frames that are already in the pools pass. -/
def attach (d : Dispatcher clients depth) (pools : PoolPair) : Dispatcher clients depth :=
  { d with cursors :=
    ⟨pools.low.endCursor, (pools.high.map Pool.endCursor).getD d.cursors.high⟩ }

def client? (d : Dispatcher clients depth) (client : Nat) : Option (Client depth) :=
  d.clients[client]?

def setClient (d : Dispatcher clients depth) (i : Fin clients) (c : Client depth) :
    Dispatcher clients depth :=
  { d with clients := d.clients.set i c i.isLt }

def updateClient {α : Type} (d : Dispatcher clients depth) (client : Nat)
    (f : Client depth → Except ConfigError (Client depth × α)) :
    Except ConfigError (Dispatcher clients depth × α) :=
  if h : client < clients then
    (f d.clients[client]).map fun (c, answer) => (d.setClient ⟨client, h⟩ c, answer)
  else .error .invalidClient

def setLink (d : Dispatcher clients depth) (line : Line) (link : LinkState) (speed : Speed) :
    Dispatcher clients depth × Line × Bool :=
  let (line, changed) := line.setLink link speed
  (if changed then { d with clients := d.clients.map Client.linkChanged } else d, line, changed)

def pending (d : Dispatcher clients depth) (pools : PoolPair) (p : Priority) : Option Handle :=
  (pools.get p).bind fun pool => pool.atCursor (d.cursors.get p)

/-- In the order of the policy. -/
def next (d : Dispatcher clients depth) (pools : PoolPair) : Option Handle :=
  match d.policy with
  | .lowFirst => d.pending pools .low <|> d.pending pools .high
  | .highFirst => d.pending pools .high <|> d.pending pools .low

def backlog (d : Dispatcher clients depth) (pools : PoolPair) (p : Priority) : Nat :=
  ((pools.get p).map fun pool => pool.pending (d.cursors.get p)).getD 0

/-- A tagged frame falls back to the bare address. -/
def hit? (directory : Directory) (e : Frame.Envelope) : Option Hit :=
  let key := Key.ofAddress e.destination
  match e.vlan with
  | some vlan => directory (key.withVlan vlan) <|> directory key
  | none => directory key

/-- In ascending order. -/
def wanting (d : Dispatcher clients depth) (hit : Hit) (etherType : UInt16) :
    List (Fin clients) :=
  (List.finRange clients).filter fun i =>
    hit.recipients.has i && (d.clients.get i).accepts etherType

def validLength (length : Nat) : Bool :=
  decide (Frame.headerSize ≤ length ∧ length ≤ Frame.maxTaggedSize)

structure Delivery (clients : Nat) where
  receivers : List (Fin clients)
  hit : Hit
  tagged : Bool

/-- Whom a frame of `length` bytes goes to, or why to nobody. -/
def classify (d : Dispatcher clients depth) (directory : Directory) (head : List UInt8)
    (length : Nat) : Except Disposition (Delivery clients) :=
  match Frame.Envelope.ofHead? head length with
  | none => .error .badLength
  | some envelope =>
    match hit? directory envelope with
    | none => .error .noMatch
    | some hit =>
      match d.wanting hit envelope.etherType with
      | [] => .error .noMatch
      | receivers => .ok ⟨receivers, hit, envelope.vlan.isSome⟩

def deliveredHeader (header : Header) (delivery : Delivery clients) (line : Line)
    (count : Nat) : Header :=
  { header with
    recipients := .ofList delivery.hit.recipients.isHigh (delivery.receivers.map Fin.val)
    appData := delivery.hit.appData
    tagged := delivery.tagged
    stage := .filtered
    timestamp := line.arrival header.timestamp
    sharers := .ofNat (count - 1) }

def reject (d : Dispatcher clients depth) (pools : PoolPair) (pool : Pool) (h : Handle)
    (why : Disposition) : Except Fault (Processed clients depth) := do
  let pool ← pool.free h
  return ⟨{ d with rejected := d.rejected + 1 }, pools.set h.priority pool, h, why⟩

variable [Positive depth]

def deliverAll (d : Dispatcher clients depth) (h : Handle) :
    List (Fin clients) → Dispatcher clients depth × Nat
  | [] => (d, 0)
  | i :: rest =>
    let (c, queued) := (d.clients.get i).deliver h
    let (d, count) := (d.setClient i c).deliverAll h rest
    (d, if queued then count + 1 else count)

/-- A frame is released if none of its clients has room. -/
def distribute (d : Dispatcher clients depth) (pools : PoolPair) (pool : Pool) (h : Handle)
    (header : Header) (delivery : Delivery clients) (line : Line) :
    Except Fault (Processed clients depth) := do
  let (d, count) := d.deliverAll h delivery.receivers
  if count = 0 then d.reject pools pool h .queuesFull
  else
    let pool ← pool.setHeader h (deliveredHeader header delivery line count)
    return ⟨d, pools.set h.priority pool, h, .delivered (.ofNat count)⟩

def dispatch (d : Dispatcher clients depth) (pools : PoolPair) (pool : Pool) (h : Handle)
    (directory : Directory) (line : Line) : Except Fault (Processed clients depth) := do
  let header ← pool.header h
  let length := header.length.toNat
  if !validLength length then d.reject pools pool h .badLength
  else
    let head ← pool.readPayload h 0 Frame.envelopeSize
    match d.classify directory head length with
    | .error why => d.reject pools pool h why
    | .ok delivery => d.distribute pools pool h header delivery line

/-- Classify the next frame and queue it to its clients, if a frame is pending. -/
def process (d : Dispatcher clients depth) (pools : PoolPair) (directory : Directory)
    (line : Line) : Except Fault (Option (Processed clients depth)) :=
  match d.next pools with
  | none => .ok none
  | some h =>
    match pools.get h.priority with
    | none => .ok none
    | some pool => do
      let cursor ← pool.advance (d.cursors.get h.priority)
      let d := { d with cursors := d.cursors.set h.priority cursor }
      return some (← d.dispatch pools pool h directory line)

def processUpTo (directory : Directory) (line : Line) :
    Nat → Dispatcher clients depth → PoolPair →
      Except Fault (Dispatcher clients depth × PoolPair × Nat)
  | 0, d, pools => .ok (d, pools, 0)
  | n + 1, d, pools => do
    match ← d.process pools directory line with
    | none => return (d, pools, 0)
    | some r =>
      let (d, pools, count) ← processUpTo directory line n r.dispatcher r.pools
      return (d, pools, count + 1)

def processAll (d : Dispatcher clients depth) (pools : PoolPair) (directory : Directory)
    (line : Line) : Except Fault (Dispatcher clients depth × PoolPair × Nat) :=
  processUpTo directory line (d.backlog pools .low + d.backlog pools .high) d pools

/-- At most `n` bytes of a frame, as its client wants them. -/
def payloadFor (c : Client depth) (pool : Pool) (h : Handle) (header : Header) (n : Nat) :
    Except Fault (List UInt8) := do
  if c.stripsTag && header.tagged then
    let first := min Frame.etherTypeOffset n
    let addresses ← pool.readPayload h 0 first
    let rest ← pool.readPayload h (Frame.etherTypeOffset + Frame.tagSize) (n - first)
    return addresses ++ rest
  else pool.readPayload h 0 n

/-- Hand at most `n` bytes of its oldest frame to a client, which gives up its share. -/
def collect (d : Dispatcher clients depth) (client : Nat) (pools : PoolPair) (n : Nat) :
    Except Fault (Option (Dispatcher clients depth × PoolPair × Collected)) :=
  if hc : client < clients then
    let c := d.clients[client]
    match c.queue.peek with
    | none => .ok none
    | some h =>
      match pools.get h.priority with
      | none => .ok none
      | some pool => do
        let header ← pool.header h
        let bytes ← payloadFor c pool h header n
        let queue ← c.queue.freeIndex c.queue.readIndex
        let pool ← pool.release h
        return some (d.setClient ⟨client, hc⟩ { c with queue }, pools.set h.priority pool,
          ⟨bytes, header.timestamp, header.line, header.appData⟩)
  else .ok none

end Dispatcher

end EtherBuffer.Ingress
