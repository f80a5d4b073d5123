/-! Numbers of slots, of which there is at least one. -/
namespace EtherBuffer

/-- The zero that is meant is the literal of the natural numbers. -/
abbrev Positive (n : Nat) : Prop :=
  @NeZero Nat Zero.ofOfNat0 n

end EtherBuffer
