import EtherBuffer.Proofs.Ingress.Reception
import EtherBuffer.Proofs.Run

/-! The receive side with its books: a parcel for each frame that enters a queue, and a handout for each
frame that is collected. -/
namespace EtherBuffer.Ingress

open Link

/-- A frame on its way to a client. -/
structure Parcel where
  priority : Priority
  number : ℕ
  record : Receipt
  envelope : Frame.Envelope
  hit : Filter.Hit
  line : Line

/-- What a client got that had room for so many bytes. -/
structure Handout where
  room : ℕ
  strips : Bool
  answer : Collected
  deriving DecidableEq

namespace Parcel

def content (e : Parcel) (strips : Bool) : List UInt8 :=
  Dispatcher.content strips e.envelope.vlan.isSome e.record.payload

/-- A handout is what its client should get of a parcel. -/
structure Fits (e : Parcel) (g : Handout) : Prop where
  length_eq : g.answer.bytes.length = min g.room (e.content g.strips).length
  starts : g.answer.bytes <+: e.content g.strips
  timestamp_eq : g.answer.timestamp =
    e.record.header.timestamp - e.line.ingressLatency[e.line.speed.index]
  line_eq : g.answer.line = e.record.header.line
  appData_eq : g.answer.appData = e.hit.appData

/-- Frames of one class go in the order in which they were committed. -/
def Precedes (e e' : Parcel) : Prop :=
  e.priority = e'.priority → e.number < e'.number

end Parcel

structure Traffic (clients depth : ℕ) where
  reception : Reception clients depth
  issued : PerPriority (List Receipt) := .both []
  passed : PerPriority ℕ := .both 0
  delivered : Fin clients → List Parcel := fun _ => []
  collected : Fin clients → List Handout := fun _ => []

namespace Traffic

variable {clients depth : ℕ}

section

variable (t : Traffic clients depth)

def client (i : Fin clients) : Client depth :=
  t.reception.dispatcher.clients.get i

/-- The parcel of the frame of a class that is classified next, if it is for anybody. -/
def parcel (directory : Directory) (line : Line) (p : Priority) : Option Parcel := do
  let record ← (t.issued.get p)[t.passed.get p]?
  let envelope ← Frame.Envelope.ofHead? (record.payload.take Frame.envelopeSize)
    record.payload.length
  let hit ← Dispatcher.hit? directory envelope
  return ⟨p, t.passed.get p, record, envelope, hit, line⟩

def produced (p : Priority) (y : Reception clients depth) : Traffic clients depth :=
  { t with
    reception := y
    issued := t.issued.set p
      (t.issued.get p ++ (y.receipts.get p).drop (t.reception.receipts.get p).length) }

/-- Note a parcel for each client that has one frame more to collect. -/
def classified (directory : Directory) (line : Line) (p : Priority) (y : Reception clients depth) :
    Traffic clients depth :=
  { t with
    reception := y
    passed := t.passed.set p (t.passed.get p + 1)
    delivered := fun i =>
      if (t.client i).queue.size < (y.dispatcher.clients.get i).queue.size then
        t.delivered i ++ (t.parcel directory line p).toList
      else t.delivered i }

theorem passed_le_classified (directory : Directory) (line : Line) (p : Priority)
    (y : Reception clients depth) (q : Priority) :
    t.passed.get q ≤ (t.classified directory line p y).passed.get q := by
  change _ ≤ (t.passed.set p (t.passed.get p + 1)).get q
  by_cases hq : p = q
  · subst hq
    rw [PerPriority.get_set]
    exact Nat.le_succ _
  · rw [PerPriority.get_set_of_ne _ _ hq]

def handed (client n : ℕ) (answer : Collected) (y : Reception clients depth) :
    Traffic clients depth :=
  { t with
    reception := y
    collected := fun i =>
      if i.val = client then t.collected i ++ [⟨n, (t.client i).stripsTag, answer⟩]
      else t.collected i }

theorem handed_collected (i k : Fin clients) (n : ℕ) (answer : Collected)
    (y : Reception clients depth) : (t.handed i n answer y).collected k =
      if k = i then t.collected k ++ [⟨n, (t.client k).stripsTag, answer⟩] else t.collected k := by
  simp only [handed, Fin.ext_iff]

end

variable [Positive depth]

def begin (clients depth : ℕ) [Positive depth] (policy : Policy) (pools : PoolPair) :
    Traffic clients depth where
  reception := ⟨.empty clients depth policy, pools, .both none, .both []⟩

def process (t : Traffic clients depth) (directory : Directory) (line : Line) :
    Except Fault (Option (Traffic clients depth)) := do
  let y ← t.reception.process directory line
  return (t.reception.dispatcher.next t.reception.pools).bind fun h =>
    y.map (t.classified directory line h.priority)

def processUpTo (directory : Directory) (line : Line) :
    ℕ → Traffic clients depth → Except Fault (Traffic clients depth)
  | 0, t => .ok t
  | n + 1, t => do
    match ← t.process directory line with
    | none => return t
    | some u => processUpTo directory line n u

def collect (t : Traffic clients depth) (client n : ℕ) : Except Fault (Traffic clients depth) := do
  let y ← t.reception.collect client n
  match ← t.reception.dispatcher.collect client t.reception.pools n with
  | some (_, _, answer) => return t.handed client n answer y
  | none => return { t with reception := y }

def step (t : Traffic clients depth) (a : Action) : Except Fault (Traffic clients depth) :=
  match a with
  | .produce p _ => (t.reception.step a).map (t.produced p)
  | .process directory line => do return (← t.process directory line).getD t
  | .processAll directory line =>
    t.processUpTo directory line (t.reception.dispatcher.backlog t.reception.pools .low +
      t.reception.dispatcher.backlog t.reception.pools .high)
  | .collect client n => t.collect client n
  | .configure _ _ | .setPolicy _ | .setLink _ _ _ =>
    (t.reception.step a).map fun y => { t with reception := y }

def Reached (start : Traffic clients depth) : Traffic clients depth → Prop :=
  Run (fun t a => t.reception.Allows a) step start

theorem process_agrees (t : Traffic clients depth) (directory : Directory) (line : Line) :
    (t.process directory line).map (Option.map reception) = t.reception.process directory line := by
  unfold process
  cases hn : t.reception.dispatcher.next t.reception.pools with
  | none =>
    have hidle : t.reception.process directory line = .ok none := by
      rw [Reception.process, Dispatcher.process, hn]
      rfl
    rw [hidle]
    rfl
  | some h => rcases t.reception.process directory line with _ | _ | _ <;> rfl

/-- The reception goes on as it does by itself. -/
theorem processUpTo_agrees (directory : Directory) (line : Line) (n : ℕ) (t : Traffic clients depth) :
    (t.processUpTo directory line n).map reception =
      t.reception.processUpTo directory line n := by
  induction n generalizing t with
  | zero => rfl
  | succ n ih =>
    unfold processUpTo Reception.processUpTo
    rw [← t.process_agrees]
    cases t.process directory line with
    | error e => rfl
    | ok u =>
      cases u with
      | none => rfl
      | some u => exact ih u

theorem step_agrees (t : Traffic clients depth) (a : Action) :
    (t.step a).map reception = t.reception.step a := by
  cases a with
  | process directory line =>
    change Except.map reception (t.process directory line >>= _) =
      t.reception.process directory line >>= _
    rw [← t.process_agrees]
    rcases t.process directory line with _ | _ | _ <;> rfl
  | processAll directory line => exact processUpTo_agrees directory line _ t
  | collect client n =>
    change (t.collect client n).map reception = t.reception.collect client n
    unfold collect Reception.collect
    rcases t.reception.dispatcher.collect client t.reception.pools n with _ | _ | _
    · rfl
    · rfl
    · cases t.reception.front client <;> rfl
  | produce p o =>
    change ((t.reception.step (.produce p o)).map (t.produced p)).map reception = _
    cases t.reception.step (.produce p o) <;> rfl
  | configure client setting => rfl
  | setPolicy policy => rfl
  | setLink line link speed => rfl

end Traffic

end EtherBuffer.Ingress
