import EtherBuffer.Pool.Basic

/-! The pools of one direction. -/
namespace EtherBuffer

structure PoolPair where
  low : Pool
  high : Option Pool

namespace PoolPair

def create (low : Pool) (high : Option Pool) : Except ConfigError PoolPair :=
  if low.priority = .low ∧ ∀ p ∈ high, p.priority = .high then .ok ⟨low, high⟩
  else .error .invalidConfig

def createFor (highQueues : Bool) (low : Pool) (high : Option Pool) :
    Except ConfigError PoolPair :=
  if high.isSome = highQueues then create low high else .error .invalidConfig

def get (pools : PoolPair) : Priority → Option Pool
  | .low => some pools.low
  | .high => pools.high

def set (pools : PoolPair) (p : Priority) (pool : Pool) : PoolPair :=
  match p with
  | .low => { pools with low := pool }
  | .high => { pools with high := some pool }

end PoolPair

end EtherBuffer
