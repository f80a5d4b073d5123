/-! Broken rules of use, which stop an operation, as opposed to refusals, which are answers. -/
namespace EtherBuffer

inductive Fault where
  /-- A handle was given to a pool of the other priority. -/
  | foreignRecord
  | recordReleasedTwice
  | staleReservation
  | linkOutOfRange
  | slotReleasedTwice
  /-- A transmitted frame was completed on the pool of the other priority. -/
  | wrongPool
  | outOfRange
  | overflow
  | divisionByZero
  | reentered
  deriving DecidableEq, Repr

/-- The texts of the rules that the library states by name. -/
def Fault.message? : Fault → Option String
  | .foreignRecord => some "packet from another pool"
  | .recordReleasedTwice => some "record released twice"
  | .staleReservation => some "reservation is stale"
  | .linkOutOfRange => some "record link out of range"
  | .slotReleasedTwice => some "queue slot released twice"
  | .wrongPool => some "completed on wrong pool"
  | .outOfRange | .overflow | .divisionByZero | .reentered => none

def require (rule : Prop) [Decidable rule] (f : Fault) : Except Fault Unit :=
  if rule then .ok () else .error f

@[simp] theorem require_of_true {rule : Prop} [Decidable rule] {f : Fault} (h : rule) :
    require rule f = .ok () :=
  if_pos h

@[simp] theorem require_of_false {rule : Prop} [Decidable rule] {f : Fault} (h : ¬ rule) :
    require rule f = .error f :=
  if_neg h

@[simp] theorem ok_bind {ε α β : Type} (a : α) (f : α → Except ε β) :
    (Except.ok a >>= f) = f a :=
  rfl

@[simp] theorem error_bind {ε α β : Type} (e : ε) (f : α → Except ε β) :
    ((Except.error e : Except ε α) >>= f) = .error e :=
  rfl

theorem bind_eq_ok_iff {ε α β : Type} {x : Except ε α} {f : α → Except ε β} {b : β} :
    (x >>= f) = .ok b ↔ ∃ a, x = .ok a ∧ f a = .ok b := by
  cases x <;> simp

theorem toOption_eq_some_iff {ε α : Type} {x : Except ε α} {a : α} :
    x.toOption = some a ↔ x = .ok a := by
  cases x <;> simp [Except.toOption]

end EtherBuffer
