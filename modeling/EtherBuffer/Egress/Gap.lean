import EtherBuffer.Frame.Size
import EtherBuffer.Link.Line

/-! The gap between two frames, on 32-bit timer values that wrap around. -/
namespace EtherBuffer.Egress

def ceilDiv (a b : Nat) : Nat :=
  (a + b - 1) / b

/-- Whether the next frame still has to wait at `now`. -/
def waitRequired (lastEnd nextStart now : UInt32) : Bool :=
  if lastEnd < nextStart then lastEnd < now && now < nextStart else now < nextStart

def gapTicks (speed : Link.Speed) (timerHz : UInt32) : UInt32 :=
  .ofNat (ceilDiv (Frame.gapBits * timerHz.toNat) speed.bitsPerSecond)

/-- In nanoseconds, at least one, as far as a word holds them. -/
def pauseLength (timerHz ticks : UInt32) : UInt32 :=
  let ns := ceilDiv (ticks.toNat * 1000000000) (max 1 timerHz.toNat)
  .ofNat (max 1 (min (UInt32.size - 1) ns))

/-- A timer to read and a way to pause, both acting on a world of type `σ`. -/
structure Clock (σ : Type) where
  read : σ → UInt32 × σ
  pause : UInt32 → σ → σ

def ticksIn (timerHz ns : UInt32) : UInt32 :=
  .ofNat (ceilDiv (ns.toNat * timerHz.toNat) 1000000000)

/-- A timer that stands still except in pauses. -/
def pausedClock (timerHz : UInt32) : Clock UInt32 where
  read now := (now, now)
  pause ns now := now + ticksIn timerHz ns

/-- Pause until the gap is over, in at most `reads` readings of the timer, and tell whether a pause was
needed. -/
def waitForGap {σ : Type} (clock : Clock σ) (timerHz lastEnd nextStart : UInt32) :
    Nat → σ → Option (Bool × σ)
  | 0, _ => none
  | reads + 1, s =>
    let (now, s) := clock.read s
    if waitRequired lastEnd nextStart now then
      let s := clock.pause (pauseLength timerHz (nextStart - now)) s
      (waitForGap clock timerHz lastEnd nextStart reads s).map fun r => (true, r.2)
    else some (false, s)

end EtherBuffer.Egress
