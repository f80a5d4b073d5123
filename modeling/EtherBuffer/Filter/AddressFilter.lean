import EtherBuffer.Filter.Table

/-! The address filter: one table for readers, and one for the next update. Lookups are single steps, so
that an update waits for none. -/
namespace EtherBuffer.Filter

def maxThreads : Nat := 2

structure AddressFilter (n : Nat) where
  left : Table n
  right : Table n
  rightActive : Bool := false
  threads : Nat := maxThreads
  claimed : Vector Bool maxThreads := .replicate maxThreads false
  writerClaimed : Bool := false

namespace AddressFilter

variable {n : Nat}

def empty (n : Nat) : AddressFilter n where
  left := .empty n
  right := .empty n

/-- Readers that exist are not affected. -/
def configure (f : AddressFilter n) (threads : Nat) : Except ConfigError (AddressFilter n) :=
  if threads = 0 ∨ maxThreads < threads then .error .filterThreadUnavailable
  else .ok { f with threads }

def claimReader (f : AddressFilter n) (slot : Nat) : Option (AddressFilter n) :=
  if h : slot < maxThreads then
    if slot < f.threads ∧ !f.claimed[slot] then
      some { f with claimed := f.claimed.set slot true }
    else none
  else none

def releaseReader (f : AddressFilter n) (slot : Nat) : AddressFilter n :=
  { f with claimed := f.claimed.setIfInBounds slot false }

def claimWriter (f : AddressFilter n) : Option (AddressFilter n) :=
  if f.writerClaimed then none else some { f with writerClaimed := true }

def releaseWriter (f : AddressFilter n) : AddressFilter n :=
  { f with writerClaimed := false }

def active (f : AddressFilter n) : Table n :=
  if f.rightActive then f.right else f.left

def backup (f : AddressFilter n) : Table n :=
  if f.rightActive then f.left else f.right

def setBackup (f : AddressFilter n) (t : Table n) : AddressFilter n :=
  if f.rightActive then { f with left := t } else { f with right := t }

def swap (f : AddressFilter n) : AddressFilter n :=
  { f with rightActive := !f.rightActive }

def publish (f : AddressFilter n) (t : Table n) : AddressFilter n :=
  (f.setBackup t).swap

def size (f : AddressFilter n) : Nat :=
  f.active.size

def clear (f : AddressFilter n) : AddressFilter n :=
  (f.publish (.empty n)).setBackup (.empty n)

variable [Positive n]

def lookup (f : AddressFilter n) (k : Key) : Option Hit :=
  f.active.lookup k

/-- Make the backup agree with the active table after an addition without refilling. -/
def addAgain (f : AddressFilter n) (e : Entry) : AddressFilter n :=
  match f.backup.add f.active e with
  | (t, .ok false) => f.setBackup t
  | _ => f.setBackup f.active

def add (f : AddressFilter n) (client : Nat) (high : Bool) (r : Request) :
    AddressFilter n × Except FilterError Unit :=
  match Recipients.single client with
  | .error e => (f, .error e)
  | .ok recipients =>
    let entry : Entry := ⟨r.key, recipients.withHigh high, r.appData⟩
    match f.backup.add f.active entry with
    | (t, .error e) => (f.setBackup t, .error e)
    | (t, .ok refilled) =>
      let g := f.publish t
      (if refilled then g.setBackup g.active else g.addAgain entry, .ok ())

def delete (f : AddressFilter n) (client : Nat) (high : Bool) (r : Request) :
    Option (AddressFilter n) :=
  if Recipients.capacity ≤ client then none
  else
    (f.backup.delete r.key client high).map fun t =>
      let g := f.publish t
      g.setBackup ((g.backup.delete r.key client high).getD g.backup)

def clearClient (f : AddressFilter n) (client : Nat) (high : Bool) : AddressFilter n × Nat :=
  if Recipients.capacity ≤ client then (f, 0)
  else
    match f.backup.clearClient client high with
    | (_, 0) => (f, 0)
    | (t, changed) =>
      let g := f.publish t
      (g.setBackup (g.backup.clearClient client high).1, changed)

end AddressFilter

end EtherBuffer.Filter
