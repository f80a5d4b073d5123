import EtherBuffer.Pool.Access
import EtherBuffer.Pool.Reservation
import EtherBuffer.Shared.Cell

/-! A pool that two contexts share, which gets its arena once. Until then it does nothing. -/
namespace EtherBuffer.Shared

abbrev SharedPool := Cell (Option Pool)

namespace SharedPool

def empty : SharedPool := { value := none }

def isInitialized (s : SharedPool) : Except Fault Bool :=
  s.read fun _ pool => .ok pool.isSome

/-- An arena of the wrong size is refused first. -/
def init (s : SharedPool) (arena : Array UInt8) (p : Priority) :
    Except Fault (Except ConfigError Unit × SharedPool) :=
  match Pool.create arena p with
  | .error e => .ok (.error e, s)
  | .ok pool => s.write fun _ old =>
    if old.isSome then .ok (.error .invalidConfig, old) else .ok (.ok (), some pool)

def withPool {α : Type} (s : SharedPool) (f : Pool → Except Fault (α × Pool)) :
    Except Fault (Option α × SharedPool) :=
  s.write fun _ pool =>
    match pool with
    | none => .ok (none, none)
    | some pool => (f pool).map fun (answer, pool) => (some answer, some pool)

def reserve (s : SharedPool) : Except Fault (Option Reservation × SharedPool) :=
  s.withPool fun pool => .ok (pool.reserve, pool)

def write (s : SharedPool) (res : Reservation) (bytes : List UInt8) :
    Except Fault (Option (Reservation × Bool) × SharedPool) :=
  s.withPool fun pool => (pool.write res bytes).map fun (pool, answer) => (answer, pool)

def header (s : SharedPool) (h : Handle) : Except Fault (Option Header × SharedPool) :=
  s.withPool fun pool => (pool.header h).map fun header => (header, pool)

def oldest (s : SharedPool) : Except Fault (Option Handle × SharedPool) := do
  let (answer, s) ← s.withPool fun pool => .ok (pool.oldest, pool)
  return (answer.join, s)

def commit (s : SharedPool) (res : Reservation) (header : Header) :
    Except Fault (Option Handle × SharedPool) := do
  let (answer, s) ← s.withPool fun pool => (pool.commit res header).map Prod.swap
  return (answer.join, s)

def free (s : SharedPool) (h : Handle) : Except Fault SharedPool := do
  let (_, s) ← s.withPool fun pool => (pool.free h).map fun pool => ((), pool)
  return s

def release (s : SharedPool) (h : Handle) : Except Fault SharedPool := do
  let (_, s) ← s.withPool fun pool => (pool.release h).map fun pool => ((), pool)
  return s

end SharedPool

end EtherBuffer.Shared
