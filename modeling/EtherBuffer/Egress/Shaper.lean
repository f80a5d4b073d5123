import EtherBuffer.Link.Line

/-! The credit that limits the bandwidth of the high class: it grows with time, and frames are paid from
it. -/
namespace EtherBuffer.Egress

open Link

structure Shaper where
  credit : Int32 := 0
  updatedAt : UInt32 := 0
  deriving DecidableEq, Repr

namespace Shaper

def restart (now : UInt32) : Shaper :=
  ⟨0, now⟩

/-- Computed in saturating 64-bit words. -/
def creditAt (s : Shaper) (line : Line) (now : UInt32) : Int32 :=
  let elapsed := now - s.updatedAt
  let gain := Int64.ofIntClamp (elapsed.toNat * line.slope.toNat : Nat)
  let total := Int64.ofIntClamp (s.credit.toInt + gain.toInt)
  let credit := Int32.ofIntClamp total.toInt
  if line.limit ≠ 0 ∧ line.limit < credit then line.limit else credit

/-- Let the waiting frame pass if the credit is not negative. When none waits, credit is not saved up.
-/
def gate {α : Type} (s : Shaper) (line : Line) (now : UInt32) (waiting : Option α) :
    Shaper × Option α :=
  let credit := s.creditAt line now
  match waiting with
  | some frame => (⟨credit, now⟩, if 0 ≤ credit then some frame else none)
  | none => (⟨if 0 < credit then 0 else credit, now⟩, none)

def spend (s : Shaper) (length : UInt32) : Shaper :=
  let cost : Nat := (length.toNat + Frame.wireOverhead) * byteCredit
  { s with credit := .ofIntClamp (s.credit.toInt - cost) }

end Shaper

end EtherBuffer.Egress
