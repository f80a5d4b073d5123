/-! Refusals of well-formed requests, by area, and their texts. -/
namespace EtherBuffer

inductive ConfigError where
  | invalidConfig
  | poolTooSmall
  | invalidClient
  | tooManyEtherTypes
  | filterThreadUnavailable
  deriving DecidableEq, Repr

inductive FilterError where
  | tableFull
  | invalidClient
  | zeroAddress
  deriving DecidableEq, Repr

inductive QueueError where
  | full
  | empty
  deriving DecidableEq, Repr

inductive Error where
  | config (e : ConfigError)
  | filter (e : FilterError)
  | queue (e : QueueError)
  deriving DecidableEq, Repr

def ConfigError.name : ConfigError → String
  | .invalidConfig => "InvalidConfig"
  | .poolTooSmall => "PoolTooSmall"
  | .invalidClient => "InvalidClient"
  | .tooManyEtherTypes => "TooManyEthertypeFilters"
  | .filterThreadUnavailable => "FilterThreadUnavailable"

def FilterError.name : FilterError → String
  | .tableFull => "TableFull"
  | .invalidClient => "InvalidClient"
  | .zeroAddress => "ZeroAddress"

def QueueError.name : QueueError → String
  | .full => "Full"
  | .empty => "Empty"

def Error.name : Error → String
  | .config e => "Config." ++ e.name
  | .filter e => "Filter." ++ e.name
  | .queue e => "Queue." ++ e.name

def ConfigError.message : ConfigError → String
  | .invalidConfig => "invalid configuration"
  | .poolTooSmall => "pool buffer too small"
  | .invalidClient => "invalid client index"
  | .tooManyEtherTypes => "too many EtherType filters"
  | .filterThreadUnavailable => "unsupported filter thread count"

def FilterError.message : FilterError → String
  | .tableFull => "filter table full"
  | .invalidClient => "client cannot be encoded in filter result"
  | .zeroAddress => "zero MAC address"

def QueueError.message : QueueError → String
  | .full => "queue full"
  | .empty => "queue empty"

def Error.detail : Error → String
  | .config e => e.message
  | .filter e => e.message
  | .queue e => e.message

def Error.area : Error → String
  | .config _ => "config"
  | .filter _ => "filter"
  | .queue _ => "queue"

def Error.message (e : Error) : String :=
  e.area ++ ": " ++ e.detail

end EtherBuffer
