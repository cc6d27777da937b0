import VersionAlignment.Settings
import VersionAlignment.Source.Deployables
import VersionAlignment.Source.Form
import VersionAlignment.Source.Lease

/-!
# Sessions with the services that are asked

A `Session` asks for the deployable versions of services. It exchanges its API key for an access
token, keeps the token as a lease, and asks for a new one only when the lease has run out. How a
request is sent and what time it is comes from a `Transport`.

## Results

* `scheme_of_askableAddress`: requests are sent to web addresses only.
-/

set_option autoImplicit false

namespace VersionAlignment

/-- What a request wants from a service. -/
inductive Method where
  | get
  | post
  deriving Repr, DecidableEq

/-- The name of a method. -/
def Method.name : Method → String
  | .get => "GET"
  | .post => "POST"

/-- A request to a service. -/
structure Query where
  method : Method
  address : Web.Address
  /-- What the request shows to be let in. -/
  authorization : Option String
  body : String
  deriving Repr, DecidableEq

/-- The answer of a service. -/
structure Answer where
  status : Nat
  body : String
  deriving Repr, DecidableEq

/-- Does the status announce success? -/
def Answer.isSuccess (a : Answer) : Bool := 200 ≤ a.status && a.status < 300

/-- How requests are sent, and how the time is told. -/
structure Transport (m : Type → Type) where
  /-- The present instant, in seconds from the start of 1970. -/
  now : m Int
  send : Query → m (Except NetworkFailure Answer)

/-- The requests of one user, and the access token that was granted last. -/
structure Session where
  apiKey : String
  endpoints : Endpoints
  lease? : Option Lease
  deriving Repr, DecidableEq

/-- The text without the slashes at its end. -/
def dropEndSlashes (s : String) : String :=
  String.ofList (s.toList.reverse.dropWhile (· = '/')).reverse

/-- The address where access tokens are granted. -/
def Endpoints.tokenUrl (e : Endpoints) : String := dropEndSlashes e.iamUrl ++ "/identity/token"

/-- The address where the deployable versions are listed. -/
def Endpoints.listUrl (e : Endpoints) : String := dropEndSlashes e.apiUrl ++ "/v5/ibm/deployables"

/-- The characters of host names that a request cannot hold. -/
def unsendableChars : List Char := ['"', '\x60', '\x7b', '\x7d']

/-- The address that a text spells, if something can be asked there. -/
def askableAddress (url : String) : Except NetworkFailure Web.Address :=
  match Web.Address.parse url with
  | .error fault => .error (.badAddress fault)
  | .ok address =>
    if address.scheme ≠ "http" ∧ address.scheme ≠ "https" then .error (.badScheme address)
    else
      match address.host? with
      | some (.name text) =>
        if text.toList.any unsendableChars.contains then .error (.badHost address)
        else .ok address
      | _ => .ok address

theorem scheme_of_askableAddress {url : String} {address : Web.Address}
    (h : askableAddress url = .ok address) :
    address.scheme = "http" ∨ address.scheme = "https" := by
  unfold askableAddress at h
  split at h
  · cases h
  · split at h
    · cases h
    · next found _ hs =>
      have : found = address := by
        split at h
        · split at h
          · cases h
          · cases h; rfl
        · cases h; rfl
      subst this
      exact Classical.or_iff_not_imp_left.2 fun h₁ => Classical.not_not.1 fun h₂ => hs ⟨h₁, h₂⟩

namespace Session

/-- A session in which no token has been granted. -/
def start (apiKey : String) (endpoints : Endpoints) : Session := ⟨apiKey, endpoints, none⟩

/-- The request for an access token. -/
def tokenQuery (s : Session) : Except NetworkFailure Query := do
  return {
    method := .post
    address := ← askableAddress s.endpoints.tokenUrl
    authorization := none
    body := Form.encode
      [("grant_type", "urn:ibm:params:oauth:grant-type:apikey"), ("apikey", s.apiKey)] }

/-- The request for the deployable versions. -/
def listQuery (s : Session) (lease : Lease) : Except NetworkFailure Query := do
  return {
    method := .get
    address := ← askableAddress s.endpoints.listUrl
    authorization := some ("Bearer " ++ lease.token)
    body := "" }

/-- The token that an answer from an address grants. -/
def grantOf (address : Web.Address) (a : Answer) : Except SourceError TokenGrant :=
  if a.isSuccess then
    match TokenGrant.parse a.body with
    | .error _ => .error (.invalidAnswer (.undecodable address))
    | .ok grant => .ok grant
  else .error (.auth a.status a.body)

/-- The lease of a token that comes in at `issuedAt`. -/
def leaseOf (issuedAt : Int) (grant : TokenGrant) : Except SourceError Lease :=
  match Lease.grant? grant.token grant.expiresIn issuedAt with
  | none => .error .leaseOutOfRange
  | some lease => .ok lease

/-- The offer for a service in an answer from an address. -/
def offerOf (address : Web.Address) (service : String) (a : Answer) : Except SourceError Offer :=
  if a.isSuccess then
    match parseDeployables a.body with
    | .error _ => .error (.invalidAnswer (.undecodable address))
    | .ok ds => selectOffer ds service
  else .error (.invalidAnswer (.refused a.status a.body))

/-- The lease that may be used at an instant. -/
def leaseAt? (s : Session) (now : Int) : Option Lease := s.lease?.filter fun l => l.isValidAt now

variable {m : Type → Type} [Monad m]

/-- A valid lease: the one that is kept, else a new one. -/
def access (s : Session) (t : Transport m) : m (Except SourceError Lease) := do
  match s.leaseAt? (← t.now) with
  | some lease => return .ok lease
  | none =>
    match s.tokenQuery with
    | .error f => return .error (.network f)
    | .ok q =>
      match ← t.send q with
      | .error f => return .error (.network f)
      | .ok a =>
        match grantOf q.address a with
        | .error e => return .error e
        | .ok grant => return leaseOf (← t.now) grant

/-- Ask for the versions of a service with a valid lease. -/
def list (s : Session) (t : Transport m) (lease : Lease) (service : String) :
    m (Except SourceError Offer) := do
  match s.listQuery lease with
  | .error f => return .error (.network f)
  | .ok q =>
    match ← t.send q with
    | .error f => return .error (.network f)
    | .ok a => return offerOf q.address service a

/-- Ask for the versions of a service. A lease that was granted on the way is kept, whatever comes
after it. -/
def fetch (s : Session) (t : Transport m) (service : String) :
    m (Except SourceError Offer × Session) := do
  match ← s.access t with
  | .error e => return (.error e, s)
  | .ok lease => return (← s.list t lease service, { s with lease? := some lease })

/-- Ask for the versions of one service after the other. -/
def fetchAll (s : Session) (t : Transport m) : List String → m (List (Except SourceError Offer))
  | [] => return []
  | service :: more => do
    let (answer, s) ← s.fetch t service
    return answer :: (← s.fetchAll t more)

end Session

end VersionAlignment
