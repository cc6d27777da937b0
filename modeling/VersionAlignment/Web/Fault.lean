/-!
# Why an address cannot be read
-/

set_option autoImplicit false

namespace VersionAlignment.Web

/-- Why an address cannot be read. -/
inductive Fault where
  /-- The address does not say which scheme it follows. -/
  | schemeMissing
  | hostMissing
  /-- The host has a name that no host can have. -/
  | badName
  /-- The host of an address that follows no known scheme holds a separator. -/
  | badHostCharacter
  | badIp4
  | badIp6
  | badSocket
  deriving Repr, DecidableEq

/-- The wording of a fault. -/
def Fault.message : Fault → String
  | .schemeMissing => "relative URL without a base"
  | .hostMissing => "empty host"
  | .badName => "invalid international domain name"
  | .badHostCharacter => "invalid domain character"
  | .badIp4 => "invalid IPv4 address"
  | .badIp6 => "invalid IPv6 address"
  | .badSocket => "invalid port number"

end VersionAlignment.Web
