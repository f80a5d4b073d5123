import EtherBuffer.Fault

/-! A value that two contexts share. A context enters the cell again from inside an access only if both
accesses are for reading. -/
namespace EtherBuffer.Shared

inductive Access where
  | idle
  | reading
  | writing
  deriving DecidableEq, Repr

structure Cell (α : Type) where
  value : α
  access : Access := .idle
  deriving DecidableEq, Repr

namespace Cell

variable {α β : Type}

/-- The function is also given the cell as it is during the access. -/
def read (c : Cell α) (f : Cell α → α → Except Fault β) : Except Fault β :=
  if c.access = .writing then .error .reentered
  else f { c with access := .reading } c.value

def write (c : Cell α) (f : Cell α → α → Except Fault (β × α)) : Except Fault (β × Cell α) :=
  if c.access = .idle then do
    let (answer, value) ← f { c with access := .writing } c.value
    return (answer, { c with value })
  else .error .reentered

end Cell

end EtherBuffer.Shared
