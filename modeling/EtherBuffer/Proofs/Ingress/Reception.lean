import EtherBuffer.Proofs.Ingress.Queues
import EtherBuffer.Proofs.Pool.Cursor

/-! The receive side in use, with the receipts of all records. These follow from what the dispatcher
answers, not from the arenas. -/
namespace EtherBuffer

namespace Receipt

/-- Change the last receipt with a handle. -/
def amend (h : Handle) (f : Receipt → Receipt) : List Receipt → List Receipt
  | [] => []
  | r :: rs =>
    if r.handle = h ∧ ∀ t ∈ rs, t.handle ≠ h then f r :: rs else r :: amend h f rs

theorem amend_eq_set {rs : List Receipt} {i : ℕ} {r : Receipt} (hi : rs[i]? = some r)
    (hlast : ∀ j, i < j → ∀ t ∈ rs[j]?, t.handle ≠ r.handle) (f : Receipt → Receipt) :
    amend r.handle f rs = rs.set i (f r) := by
  induction rs generalizing i with
  | nil => simp at hi
  | cons x rs ih =>
    cases i with
    | zero =>
      obtain rfl : x = r := by simpa using hi
      have hall : ∀ t ∈ rs, t.handle ≠ x.handle := by
        intro t ht
        obtain ⟨j, hj, rfl⟩ := List.mem_iff_getElem.mp ht
        exact hlast (j + 1) (by omega) _ (by simp [List.getElem?_eq_getElem hj])
      rw [amend, if_pos ⟨rfl, hall⟩, List.set_cons_zero]
    | succ i =>
      rw [List.getElem?_cons_succ] at hi
      rw [amend, if_neg fun h => h.2 r (List.mem_of_getElem? hi) rfl, List.set_cons_succ, ih hi]
      intro j hij t ht
      exact hlast (j + 1) (by omega) t (by rwa [List.getElem?_cons_succ])

end Receipt

namespace Ingress

open Link

variable {clients depth : ℕ}

inductive Setting where
  | addEtherType (etherType : UInt16)
  | removeEtherType (etherType : UInt16)
  | clearEtherTypes
  | stripTag (strips : Bool)
  | enableNotice
  | disableNotice
  | takeNotice
  deriving DecidableEq

def Setting.apply : Setting → Client depth → Except ConfigError (Client depth × Unit)
  | .addEtherType etherType, c => (c.addEtherType etherType).map (·, ())
  | .removeEtherType etherType, c => .ok ((c.removeEtherType etherType).1, ())
  | .clearEtherTypes, c => .ok (c.clearEtherTypes, ())
  | .stripTag strips, c => .ok ({ c with stripsTag := strips }, ())
  | .enableNotice, c => .ok (c.enableNotice, ())
  | .disableNotice, c => .ok (c.disableNotice, ())
  | .takeNotice, c => .ok (c.takeNotice.1, ())

namespace Dispatcher

/-- A change that is refused does nothing. -/
def configure (d : Dispatcher clients depth) (client : ℕ) (setting : Setting) :
    Dispatcher clients depth :=
  match d.updateClient client setting.apply with
  | .ok (d, ()) => d
  | .error _ => d

/-- What becomes of the receipt of a frame that was classified. -/
def outcome (d : Dispatcher clients depth) (directory : Directory) (line : Line)
    (disposition : Disposition) (r : Receipt) : Receipt :=
  match disposition with
  | .delivered count =>
    match d.classify directory (r.payload.take Frame.envelopeSize) r.payload.length with
    | .ok delivery => { r with header := deliveredHeader r.header delivery line count.toNat }
    | .error _ => r
  | .noMatch | .badLength | .queuesFull => r.release

/-- Without its tag, if it has one and the client strips tags. -/
def content (strips tagged : Bool) (frame : List UInt8) : List UInt8 :=
  if strips && tagged then
    frame.take Frame.etherTypeOffset ++ frame.drop (Frame.etherTypeOffset + Frame.tagSize)
  else frame

def answer (strips : Bool) (n : ℕ) (r : Receipt) : Collected :=
  ⟨(content strips r.header.tagged r.payload).take n, r.header.timestamp, r.header.line,
    r.header.appData⟩

end Dispatcher

structure Reception (clients depth : ℕ) where
  dispatcher : Dispatcher clients depth
  pools : PoolPair
  drafts : PerPriority (Option Draft) := .both none
  receipts : PerPriority (List Receipt) := .both []

inductive Action where
  | produce (p : Priority) (o : Request)
  | process (directory : Directory) (line : Line)
  | processAll (directory : Directory) (line : Line)
  | collect (client n : ℕ)
  | configure (client : ℕ) (setting : Setting)
  | setPolicy (policy : Policy)
  | setLink (line : Line) (link : LinkState) (speed : Speed)

namespace Reception

def session (x : Reception clients depth) (p : Priority) : Option Session :=
  (x.pools.get p).map fun pool => ⟨pool, x.drafts.get p, x.receipts.get p⟩

def setSession (x : Reception clients depth) (p : Priority) (s : Session) :
    Reception clients depth :=
  { x with
    pools := x.pools.set p s.pool
    drafts := x.drafts.set p s.draft
    receipts := x.receipts.set p s.receipts }

def note (x : Reception clients depth) (h : Handle) (f : Receipt → Receipt) :
    PerPriority (List Receipt) :=
  x.receipts.set h.priority (Receipt.amend h f (x.receipts.get h.priority))

def classified (x : Reception clients depth) (directory : Directory) (line : Line)
    (r : Processed clients depth) : Reception clients depth :=
  { x with
    dispatcher := r.dispatcher
    pools := r.pools
    receipts := x.note r.handle (x.dispatcher.outcome directory line r.disposition) }

def front (x : Reception clients depth) (client : ℕ) : Option Handle :=
  (x.dispatcher.client? client).bind (·.queue.peek)

variable [Positive depth]

def process (x : Reception clients depth) (directory : Directory) (line : Line) :
    Except Fault (Option (Reception clients depth)) := do
  return (← x.dispatcher.process x.pools directory line).map (x.classified directory line)

def processUpTo (directory : Directory) (line : Line) :
    ℕ → Reception clients depth → Except Fault (Reception clients depth)
  | 0, x => .ok x
  | n + 1, x => do
    match ← x.process directory line with
    | none => return x
    | some y => processUpTo directory line n y

def collect (x : Reception clients depth) (client n : ℕ) :
    Except Fault (Reception clients depth) := do
  match ← x.dispatcher.collect client x.pools n, x.front client with
  | some (dispatcher, pools, _), some h =>
    return { x with dispatcher, pools, receipts := x.note h Receipt.collected }
  | _, _ => return x

def step (x : Reception clients depth) : Action → Except Fault (Reception clients depth)
  | .produce p o =>
    match x.session p with
    | none => .ok x
    | some s => do return x.setSession p (← s.step o)
  | .process directory line => do return (← x.process directory line).getD x
  | .processAll directory line =>
    x.processUpTo directory line
      (x.dispatcher.backlog x.pools .low + x.dispatcher.backlog x.pools .high)
  | .collect client n => x.collect client n
  | .configure client setting =>
    .ok { x with dispatcher := x.dispatcher.configure client setting }
  | .setPolicy policy => .ok { x with dispatcher := { x.dispatcher with policy } }
  | .setLink line link speed =>
    .ok { x with dispatcher := (x.dispatcher.setLink line link speed).1 }

/-- The rules of use bind the producers alone. -/
def Allows (x : Reception clients depth) : Action → Prop
  | .produce p o => o.Produces ∧ ¬ o.Oversized ∧ ∃ s ∈ x.session p, s.Allows o
  | _ => True

inductive Reached (start : Reception clients depth) : Reception clients depth → Prop
  | start : Reached start start
  | step {x y : Reception clients depth} (a : Action) : Reached start x → x.Allows a →
      x.step a = .ok y → Reached start y

instance (x : Reception clients depth) : (a : Action) → Decidable (x.Allows a)
  | .produce p o =>
    inferInstanceAs (Decidable (o.Produces ∧ ¬ o.Oversized ∧ ∃ s ∈ x.session p, s.Allows o))
  | .process _ _ | .processAll _ _ | .collect _ _ | .configure _ _ | .setPolicy _ | .setLink _ _ _ =>
    inferInstanceAs (Decidable True)

def run (x : Reception clients depth) : List Action → Option (Reception clients depth)
  | [] => some x
  | a :: as =>
    if x.Allows a then
      match x.step a with
      | .ok y => y.run as
      | .error _ => none
    else none

theorem Reached.trans {x y z : Reception clients depth} (h : Reached x y) (h' : Reached y z) :
    Reached x z := by
  induction h' with
  | start => exact h
  | step a _ ha hs ih => exact ih.step a ha hs

theorem reached_of_run {x y : Reception clients depth} {as : List Action}
    (h : x.run as = some y) : Reached x y := by
  induction as generalizing x with
  | nil =>
    obtain rfl : x = y := Option.some.inj h
    exact .start
  | cons a as ih =>
    unfold run at h
    split_ifs at h with ha
    cases hs : x.step a with
    | error e => simp [hs] at h
    | ok z =>
      rw [hs] at h
      exact (Reached.start.step a ha hs).trans (ih h)

/-- The dispatcher and its pools go on as they do by themselves. -/
theorem processUpTo_agrees (directory : Directory) (line : Line) (n : ℕ)
    (x : Reception clients depth) :
    (x.processUpTo directory line n).map (fun y => (y.dispatcher, y.pools)) =
      (Dispatcher.processUpTo directory line n x.dispatcher x.pools).map
        fun (d, pools, _) => (d, pools) := by
  induction n generalizing x with
  | zero => rfl
  | succ n ih =>
    unfold processUpTo Dispatcher.processUpTo process
    cases hp : x.dispatcher.process x.pools directory line with
    | error e => rfl
    | ok r =>
      cases r with
      | none => rfl
      | some r =>
        refine (ih (x.classified directory line r)).trans ?_
        change Except.map _ (Dispatcher.processUpTo directory line n r.dispatcher r.pools) =
          Except.map _ (Dispatcher.processUpTo directory line n r.dispatcher r.pools >>= _)
        cases Dispatcher.processUpTo directory line n r.dispatcher r.pools <;> rfl

theorem processAll_agrees (directory : Directory) (line : Line) (x : Reception clients depth) :
    (x.step (.processAll directory line)).map (fun y => (y.dispatcher, y.pools)) =
      (x.dispatcher.processAll x.pools directory line).map fun (d, pools, _) => (d, pools) :=
  processUpTo_agrees directory line _ x

end Reception

end Ingress

end EtherBuffer
