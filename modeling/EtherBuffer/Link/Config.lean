import EtherBuffer.Error
import EtherBuffer.Filter.AddressFilter

/-! What is chosen when an interface is set up. -/
namespace EtherBuffer.Link

/-- Which class is looked at first. -/
inductive Policy where
  | lowFirst
  | highFirst
  deriving DecidableEq, Repr

def Policy.name : Policy → String
  | .lowFirst => "LowPriorityFirst"
  | .highFirst => "HighPriorityFirst"

/-- An unknown name is read as `lowFirst`. -/
def Policy.ofName (s : String) : Policy :=
  if s = "HighPriorityFirst" then .highFirst else .lowFirst

def defaultTimerHz : UInt32 := 100000000

structure Config where
  timerHz : UInt32 := defaultTimerHz
  filterThreads : Nat := 1
  /-- Frames of the high class have pools and queues of their own. -/
  highQueues : Bool := false
  shaper : Bool := false
  policy : Policy := .lowFirst
  deriving DecidableEq, Repr

namespace Config

/-- The shaper needs the high class, which is turned on with it. -/
def withShaper (c : Config) (on : Bool) : Config :=
  { c with shaper := on, highQueues := on || c.highQueues }

def validate (c : Config) : Except ConfigError Unit :=
  if c.timerHz = 0 then .error .invalidConfig
  else if c.filterThreads = 0 ∨ Filter.maxThreads < c.filterThreads then
    .error .filterThreadUnavailable
  else if c.shaper ∧ ¬ c.highQueues then .error .invalidConfig
  else .ok ()

end Config

end EtherBuffer.Link
