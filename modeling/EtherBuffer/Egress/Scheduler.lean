import EtherBuffer.Egress.Gap
import EtherBuffer.Egress.Shaper
import EtherBuffer.Pool.Access
import EtherBuffer.Pool.Reservation
import EtherBuffer.Queue.Slots
import EtherBuffer.Queue.Stamps

/-! The order in which frames leave: the high class first, as far as the shaper lets it, and within a
class the clients in turn. -/
namespace EtherBuffer.Egress

open Link

structure Selection where
  handle : Handle
  client : Nat
  index : Nat
  deriving DecidableEq, Repr

structure Scheduler (clients depth stamps : Nat) where
  queues : PerPriority (Vector (SlotQueue depth) clients)
  turn : PerPriority Nat := .both 0
  shaper : Shaper := {}
  /-- The shaper has been at work since the last selection. -/
  armed : Bool := false
  departures : StampQueue stamps := .empty stamps
  lastEnd : UInt32 := 0
  stampsDropped : UInt32 := 0

namespace Scheduler

variable {clients depth stamps : Nat}

def empty (clients depth stamps : Nat) [Positive depth] : Scheduler clients depth stamps where
  queues := .both (.replicate clients (.empty depth))

def resetShaper (s : Scheduler clients depth stamps) (now : UInt32) :
    Scheduler clients depth stamps :=
  { s with shaper := .restart now, armed := true }

def canSend (s : Scheduler clients depth stamps) (client : Nat) (p : Priority) : Bool :=
  (s.queues.get p)[client]?.any fun q => !q.isFull

def setQueue (s : Scheduler clients depth stamps) (p : Priority) (client : Fin clients)
    (q : SlotQueue depth) : Scheduler clients depth stamps :=
  { s with queues := s.queues.set p ((s.queues.get p).set client q client.isLt) }

def rotation (clients turn : Nat) : List (Fin clients) :=
  List.ofFn fun i : Fin clients => ⟨(turn + i) % clients, Nat.mod_lt _ i.pos⟩

/-- The oldest frame of the first client in turn that has one. -/
def peek (s : Scheduler clients depth stamps) (p : Priority) : Option Selection :=
  (rotation clients (s.turn.get p)).findSome? fun client =>
    let q := (s.queues.get p).get client
    q.peek.map fun handle => ⟨handle, client, q.readIndex⟩

def select (s : Scheduler clients depth stamps) (line : Line) (now : UInt32) :
    Scheduler clients depth stamps × Option Selection :=
  let high := s.peek .high
  if line.shaperEnabled then
    let s := if s.armed then s else s.resetShaper now
    let (shaper, admitted) := s.shaper.gate line now high
    let s := { s with shaper }
    (s, admitted <|> s.peek .low)
  else ({ s with armed := false }, high <|> s.peek .low)

def gapRequired (s : Scheduler clients depth stamps) (speed : Speed) (timerHz now : UInt32) :
    Bool :=
  waitRequired s.lastEnd (s.lastEnd + gapTicks speed timerHz) now

def takeDeparture (s : Scheduler clients depth stamps) :
    Option Stamp × Scheduler clients depth stamps :=
  let (stamp, departures) := s.departures.pop
  (stamp, { s with departures })

/-- Pay for a frame of the high class while the shaper is enabled. -/
def charge (s : Scheduler clients depth stamps) (p : Priority) (line : Line) (length : UInt32) :
    Scheduler clients depth stamps :=
  if p = .high ∧ line.shaperEnabled then { s with shaper := s.shaper.spend length } else s

def report (s : Scheduler clients depth stamps) (stampId time : UInt32) :
    Scheduler clients depth stamps :=
  if stampId = 0 then s
  else
    match s.departures.add ⟨stampId - 1, time⟩ with
    | .ok departures => { s with departures }
    | .error _ => { s with stampsDropped := s.stampsDropped + 1 }

variable [Positive depth]

def enqueue (s : Scheduler clients depth stamps) (client : Nat) (h : Handle) :
    Except Error (Scheduler clients depth stamps) :=
  if hc : client < clients then
    match ((s.queues.get h.priority)[client]).add h with
    | .ok q => .ok (s.setQueue h.priority ⟨client, hc⟩ q)
    | .error e => .error (.queue e)
  else .error (.config .invalidClient)

/-- A frame that got lost in its pool counts as refused. -/
def enqueueCommitted (s : Scheduler clients depth stamps) (client : Nat) :
    Option Handle → Scheduler clients depth stamps × Except Error Handle
  | none => (s, .error (.queue .full))
  | some h =>
    match s.enqueue client h with
    | .ok s' => (s', .ok h)
    | .error e => (s, .error e)

/-- Client numbers are below `2 ^ 32 - 1`, so that one more, with which a timed frame asks for its
departure, is a word. -/
def send (s : Scheduler clients depth stamps) (pool : Pool) (client : Nat) (frame : List UInt8)
    (timed : Bool) (now : UInt32) :
    Except Fault (Scheduler clients depth stamps × Pool × Except Error Handle) := do
  if clients ≤ client then return (s, pool, .error (.config .invalidClient))
  if !s.canSend client pool.priority then return (s, pool, .error (.queue .full))
  match ← pool.reserveAtLeast frame.length with
  | none => return (s, pool, .error (.queue .full))
  | some res =>
    let (pool, res, _) ← pool.write res frame
    let stampId := if timed then UInt32.ofNat client + 1 else 0
    let (pool, h) ← pool.commit res { timestamp := now, stampId }
    let (s, answer) := s.enqueueCommitted client h
    return (s, pool, answer)

/-- Empty the slot of a sent frame and pass the turn on. -/
def retire (s : Scheduler clients depth stamps) (sel : Selection) :
    Except Fault (Scheduler clients depth stamps) :=
  let p := sel.handle.priority
  if hc : sel.client < clients then do
    let q ← ((s.queues.get p)[sel.client]).freeIndex sel.index
    let s := s.setQueue p ⟨sel.client, hc⟩ q
    return { s with turn := s.turn.set p ((sel.client + 1) % clients) }
  else .error .outOfRange

/-- Finish a frame that has left the wire at `stop`: pay for it, note its time of departure, and release
it. -/
def complete (s : Scheduler clients depth stamps) (pool : Pool) (sel : Selection)
    (stamp stop : UInt32) (line : Line) :
    Except Fault (Scheduler clients depth stamps × Pool) := do
  require (pool.priority = sel.handle.priority) .wrongPool
  let header ← pool.header sel.handle
  let s := s.charge sel.handle.priority line header.length
  let time := line.departure stamp
  let pool ← pool.setHeader sel.handle { header with timestamp := time, stage := .sent }
  let s ← (s.report header.stampId time).retire sel
  let pool ← pool.free sel.handle
  return ({ s with lastEnd := stop }, pool)

end Scheduler

end EtherBuffer.Egress
