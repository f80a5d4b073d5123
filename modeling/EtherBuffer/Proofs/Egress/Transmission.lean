import EtherBuffer.Proofs.Egress.Ledger
import EtherBuffer.Proofs.Run

/-! The transmit side in use, with the books of what was accepted and completed. -/
namespace EtherBuffer.Egress

open Link

structure Transmission (clients depth stamps : ℕ) where
  scheduler : Scheduler clients depth stamps
  pools : PerPriority Pool
  pending : Option Selection := none
  ledger : Ledger := {}

namespace Transmission

inductive Action where
  | send (p : Priority) (client : ℕ) (frame : List UInt8) (timed : Bool) (now : UInt32)
  | select (line : Line) (now : UInt32)
  | complete (stamp stop : UInt32) (line : Line)
  | takeDeparture
  | resetShaper (now : UInt32)

/-- A frame does not fill the memory. -/
def Action.Fits : Action → Prop
  | .send _ _ frame _ _ => ¬ (Request.reserveAtLeast frame.length).Oversized
  | .select _ _ | .complete _ _ _ | .takeDeparture | .resetShaper _ => True

instance : (a : Action) → Decidable a.Fits
  | .send _ _ frame _ _ =>
    inferInstanceAs (Decidable (¬ Record.sizeLimit ≤ Record.payloadOffset + frame.length + 3))
  | .select _ _ | .complete _ _ _ | .takeDeparture | .resetShaper _ =>
    inferInstanceAs (Decidable True)

variable {clients depth stamps : ℕ}

section

variable (x : Transmission clients depth stamps)

def session (p : Priority) : Session :=
  ⟨x.pools.get p, none, x.ledger.receipts.get p⟩

def queue (p : Priority) (i : Fin clients) : SlotQueue depth :=
  (x.scheduler.queues.get p).get i

def select (line : Line) (now : UInt32) : Transmission clients depth stamps :=
  let (scheduler, selection) := x.scheduler.select line now
  { x with scheduler, pending := selection <|> x.pending }

end

variable [Positive depth]

def begin (low high : Pool) : Transmission clients depth stamps where
  scheduler := .empty clients depth stamps
  pools := ⟨low, high⟩

variable (x : Transmission clients depth stamps)

def send (p : Priority) (client : ℕ) (frame : List UInt8) (timed : Bool) (now : UInt32) :
    Except Fault (Transmission clients depth stamps) := do
  let (scheduler, pool, answer) ← x.scheduler.send (x.pools.get p) client frame timed now
  let y := { x with scheduler, pools := x.pools.set p pool }
  match answer with
  | .error _ => return y
  | .ok h =>
    let header := { timestamp := now, stampId := if timed then UInt32.ofNat client + 1 else 0 }
    return { y with ledger := x.ledger.accept p client frame header h }

def complete (stamp stop : UInt32) (line : Line) : Except Fault (Transmission clients depth stamps) :=
  match x.pending with
  | none => .ok x
  | some sel => do
    let p := sel.handle.priority
    let header ← (x.pools.get p).header sel.handle
    let payload ← (x.pools.get p).readPayload sel.handle 0 header.length.toNat
    let (scheduler, pool) ← x.scheduler.complete (x.pools.get p) sel stamp stop line
    return { x with
      scheduler
      pools := x.pools.set p pool
      pending := none
      ledger := x.ledger.complete (x.ledger.parcel sel.client sel.handle payload)
        (line.departure stamp) }

def step : Action → Except Fault (Transmission clients depth stamps)
  | .send p client frame timed now => x.send p client frame timed now
  | .select line now => .ok (x.select line now)
  | .complete stamp stop line => x.complete stamp stop line
  | .takeDeparture => .ok { x with scheduler := x.scheduler.takeDeparture.2 }
  | .resetShaper now => .ok { x with scheduler := x.scheduler.resetShaper now }

def Reached (start : Transmission clients depth stamps) :
    Transmission clients depth stamps → Prop :=
  Run (fun _ (a : Action) => a.Fits) step start

end Transmission

end EtherBuffer.Egress
