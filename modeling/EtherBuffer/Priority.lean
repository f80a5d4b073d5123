/-! The two traffic classes. -/
namespace EtherBuffer

inductive Priority where
  | low
  /-- Time-sensitive, and shaped on the way out. -/
  | high
  deriving DecidableEq, Repr

def Priority.ofFlag (flag : Bool) : Priority :=
  if flag then .high else .low

structure PerPriority (α : Type) where
  low : α
  high : α
  deriving DecidableEq, Repr

namespace PerPriority

def both {α : Type} (a : α) : PerPriority α :=
  ⟨a, a⟩

def get {α : Type} (x : PerPriority α) : Priority → α
  | .low => x.low
  | .high => x.high

def set {α : Type} (x : PerPriority α) : Priority → α → PerPriority α
  | .low, a => { x with low := a }
  | .high, a => { x with high := a }

@[simp] theorem get_both {α : Type} (a : α) (p : Priority) : (both a).get p = a := by
  cases p <;> rfl

@[simp] theorem get_set {α : Type} (x : PerPriority α) (p : Priority) (a : α) :
    (x.set p a).get p = a := by
  cases p <;> rfl

theorem set_get {α : Type} (x : PerPriority α) (p : Priority) : x.set p (x.get p) = x := by
  cases p <;> rfl

theorem get_set_of_ne {α : Type} (x : PerPriority α) {p q : Priority} (a : α) (h : p ≠ q) :
    (x.set p a).get q = x.get q := by
  cases p <;> cases q <;> first | rfl | exact absurd rfl h

end PerPriority

end EtherBuffer
