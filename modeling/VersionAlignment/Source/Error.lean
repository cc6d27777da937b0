import VersionAlignment.Web.Address

/-!
# Why versions could not be fetched
-/

set_option autoImplicit false

namespace VersionAlignment

/-- Why nothing was heard from a service. -/
inductive NetworkFailure where
  /-- The address of the service cannot be read. -/
  | badAddress (fault : Web.Fault)
  /-- Nothing can be asked at addresses of this scheme. -/
  | badScheme (address : Web.Address)
  /-- The host has a name that no request can hold. -/
  | badHost (address : Web.Address)
  /-- The request got no answer; what went wrong, outermost cause first. -/
  | unanswered (address : Web.Address) (causes : List String)
  deriving Repr, DecidableEq

namespace NetworkFailure

/-- The wording of a network failure. -/
def message : NetworkFailure → String
  | .badAddress _ => "builder error"
  | .badScheme address | .badHost address => "builder error for url (" ++ address.text ++ ")"
  | .unanswered address _ => "error sending request for url (" ++ address.text ++ ")"

/-- What caused a network failure, outermost first. -/
def causes : NetworkFailure → List String
  | .badAddress fault => [fault.message]
  | .badScheme _ => ["URL scheme is not allowed"]
  | .badHost _ => ["Parsed Url is not a valid Uri"]
  | .unanswered _ causes => causes

/-- What goes wrong with a request to a host when there is no network: a name cannot be looked up,
but for that of the machine itself, and no way leads to a number. -/
def offlineCauses : Web.Host → List String
  | .ip6 _ => ["tcp connect error", "Cannot assign requested address (os error 99)"]
  | .ip4 _ | .name "localhost" =>
    ["tcp connect error", "Network is unreachable (os error 101)"]
  | .name _ =>
    ["dns error",
      "failed to lookup address information: Temporary failure in name resolution"]

/-- A failure for want of a network. -/
def offline (address : Web.Address) : NetworkFailure :=
  .unanswered address
    ("client error (Connect)" :: (address.host?.map offlineCauses).getD [])

end NetworkFailure

/-- What is wrong with an answer. -/
inductive AnswerDefect where
  /-- The list of versions was refused. -/
  | refused (status : Nat) (body : String)
  /-- The body is not the JSON text that was expected. -/
  | undecodable (address : Web.Address)
  /-- Anything else, in its own words. -/
  | other (message : String)
  deriving Repr, DecidableEq

/-- The wording of a defect. -/
def AnswerDefect.message : AnswerDefect → String
  | .refused status body => "deployables request failed (" ++ toString status ++ "): " ++ body
  | .undecodable address => "error decoding response body for url (" ++ address.text ++ ")"
  | .other message => message

/-- Why versions could not be fetched. -/
inductive SourceError where
  /-- No key to ask for an access token with. -/
  | missingApiKey
  | network (failure : NetworkFailure)
  /-- The access token was refused. -/
  | auth (status : Nat) (body : String)
  | invalidAnswer (defect : AnswerDefect)
  /-- The service is not among those offered, or none of its versions is. -/
  | serviceNotFound (service : String)
  /-- The access token would end beyond the calendar. -/
  | leaseOutOfRange
  deriving Repr, DecidableEq

namespace SourceError

/-- The wording of an error. -/
def message : SourceError → String
  | .missingApiKey =>
    "IBM Cloud API key required: use --ibmcloud-api-key or set " ++
      "IBMCLOUD_API_KEY/TF_VAR_ibmcloud_api_key env var"
  | .network failure => "Network error: " ++ failure.message
  | .auth status body => "Token request failed (" ++ toString status ++ "): " ++ body
  | .invalidAnswer defect => "Invalid response: " ++ defect.message
  | .serviceNotFound service => "No versions found for service type: " ++ service
  | .leaseOutOfRange => "Token lifetime out of range"

/-- The wording of an error and of what caused it, outermost first. -/
def chain (e : SourceError) : List String :=
  e.message :: match e with
    | .network failure => failure.message :: failure.causes
    | _ => []

end SourceError

end VersionAlignment
