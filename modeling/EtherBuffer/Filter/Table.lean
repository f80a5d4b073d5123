import EtherBuffer.Filter.Hash
import EtherBuffer.Filter.Recipients

/-! A table in which each key has two slots. An entry that finds both occupied displaces others, and in
the end the table is filled anew. -/
namespace EtherBuffer.Filter

structure Hit where
  recipients : Recipients
  appData : UInt32
  deriving DecidableEq, Repr

structure Entry where
  key : Key
  hit : Hit
  deriving DecidableEq, Repr

inductive Choice where
  | first
  | second
  deriving DecidableEq, Repr

def Choice.other : Choice → Choice
  | .first => .second
  | .second => .first

structure Table (n : Nat) where
  firstPoly : UInt32
  secondPoly : UInt32
  size : Nat
  slots : Vector (Option Entry) n
  deriving DecidableEq, Repr

namespace Table

variable {n : Nat}

def defaultCapacity : Nat := 256

/-- Steps that a chain may take beyond the number of slots. -/
def chainMargin : Nat := 10

/-- Polynomial pairs that are tried before a table counts as full. -/
def maxRefills : Nat := 64

def empty (n : Nat) : Table n :=
  ⟨0xEDB88320, 0xBA75FE21, 0, .replicate n none⟩

def isEmpty (t : Table n) : Bool :=
  t.size == 0

def toList (t : Table n) : List Entry :=
  t.slots.toList.filterMap id

def poly (t : Table n) : Choice → UInt32
  | .first => t.firstPoly
  | .second => t.secondPoly

variable [Positive n]

def index (t : Table n) (c : Choice) (k : Key) : Fin n :=
  slotIndex n (t.poly c) k

def holds (t : Table n) (i : Fin n) (k : Key) : Bool :=
  (t.slots.get i).any (·.key == k)

def find? (t : Table n) (k : Key) : Option (Fin n) :=
  if k.isZero then none
  else if t.holds (t.index .first k) k then some (t.index .first k)
  else if t.holds (t.index .second k) k then some (t.index .second k)
  else none

/-- The slot under the second polynomial is preferred. -/
def lookup (t : Table n) (k : Key) : Option Hit :=
  if k.isZero then none
  else if t.holds (t.index .second k) k then (t.slots.get (t.index .second k)).map (·.hit)
  else if t.holds (t.index .first k) k then (t.slots.get (t.index .first k)).map (·.hit)
  else none

def put (t : Table n) (i : Fin n) (e : Option Entry) : Table n :=
  { t with slots := t.slots.set i e i.isLt }

/-- Try the two polynomials in turn. At the first step an occupied slot is left alone; later its entry
makes room and goes on instead. -/
def place (t : Table n) (e : Entry) (c : Choice) (evicts : Bool) : Nat → Table n × Bool
  | 0 => (t, false)
  | steps + 1 =>
    let i := t.index c e.key
    match t.slots.get i with
    | none => ({ t.put i (some e) with size := t.size + 1 }, true)
    | some old =>
      if evicts then (t.put i (some e)).place old c.other true steps
      else t.place e c.other true steps

/-- Entries of one key are joined or replaced. When the answer is false one entry, old or new, is left
without a slot. -/
def insert (t : Table n) (e : Entry) (replace : Bool) : Table n × Bool :=
  match t.find? e.key with
  | some i =>
    let old := ((t.slots.get i).map (·.hit.recipients)).getD .nobody
    let recipients := if replace then e.hit.recipients else old.union e.hit.recipients
    (t.put i (some ⟨e.key, recipients, e.hit.appData⟩), true)
  | none => t.place e .first false (n + chainMargin)

/-- The empty table under the polynomials that follow those of `t`. -/
def renewed (t : Table n) : Table n :=
  ⟨nextPoly t.firstPoly, nextPoly t.secondPoly, 0, .replicate n none⟩

/-- Store entries as they are, up to the first that finds no slot. -/
def insertAll (t : Table n) : List Entry → Table n × Bool
  | [] => (t, true)
  | e :: es =>
    match t.insert e true with
    | (t', true) => t'.insertAll es
    | (t', false) => (t', false)

/-- In at most `k` attempts. -/
def refill (t : Table n) (entries : List Entry) (extra : Entry) : Nat → Option (Table n)
  | 0 => none
  | k + 1 =>
    match t.renewed.insertAll entries with
    | (t', true) =>
      match t'.insert extra false with
      | (t'', true) => some t''
      | (t'', false) => t''.refill entries extra k
    | (t', false) => t'.refill entries extra k

/-- A table with no room becomes a copy of `source`, which has the same entries. The answer tells
whether the table was filled anew. -/
def add (t source : Table n) (e : Entry) : Table n × Except FilterError Bool :=
  if e.key.isZero then (t, .error .zeroAddress)
  else if n ≤ t.size ∧ t.find? e.key = none then (t, .error .tableFull)
  else
    match t.insert e false with
    | (t', true) => (t', .ok false)
    | (t', false) =>
      match t'.refill source.toList e maxRefills with
      | some t'' => (t'', .ok true)
      | none => (source, .error .tableFull)

def withoutClient (e : Entry) (client : Nat) (high : Bool) : Option Entry :=
  if e.hit.recipients.isHigh = high ∧ e.hit.recipients.has client then
    some { e with hit := { e.hit with recipients := e.hit.recipients.erase client } }
  else none

def putReduced (t : Table n) (i : Fin n) (e : Entry) : Table n :=
  if e.hit.recipients.isEmpty then { t.put i none with size := t.size - 1 }
  else t.put i (some e)

def reduceSlot (t : Table n) (i : Fin n) (client : Nat) (high : Bool) : Option (Table n) :=
  ((t.slots.get i).bind fun e => withoutClient e client high).map (t.putReduced i)

def delete (t : Table n) (k : Key) (client : Nat) (high : Bool) : Option (Table n) :=
  (t.find? k).bind fun i => t.reduceSlot i client high

/-- Remove a client from all entries of a class, and count them. -/
def clearClient (t : Table n) (client : Nat) (high : Bool) : Table n × Nat :=
  (List.finRange n).foldl (fun (t, changed) i =>
    match t.reduceSlot i client high with
    | some t' => (t', changed + 1)
    | none => (t, changed)) (t, 0)

end Table

end EtherBuffer.Filter
