/-!
# Leases of access tokens

A `Lease` is an access token together with the instant at which it stops being used. Instants and
lifetimes are counted in seconds, instants from the start of 1970.

## Results

* `Lease.isValidAt_grant`: a granted lease is valid until its lifetime has passed.
-/

set_option autoImplicit false

namespace VersionAlignment

/-- An access token and the instant from which on it is not used any more. -/
structure Lease where
  token : String
  expiresAt : Int
  deriving Repr, DecidableEq

namespace Lease

/-- How long before its end a token is given up. -/
def margin : Int := 60

/-- The longest lifetime that is counted, in either direction. -/
def longestLifetime : Int := 9223372036854775

/-- The first second of the year -262143. -/
def firstInstant : Int := -8334601228800

/-- The last second of the year 262142. -/
def lastInstant : Int := 8210266876799

/-- How long a token is used when its end is announced for `expiresIn` seconds after its issue. A
lifetime beyond every measure counts as none. -/
def lifetime (expiresIn : Int) : Int :=
  let span := expiresIn - margin
  if -longestLifetime ≤ span ∧ span ≤ longestLifetime then span else 0

/-- The lease of a token; none if it would end outside the calendar. -/
def grant? (token : String) (expiresIn issuedAt : Int) : Option Lease :=
  let expiresAt := issuedAt + lifetime expiresIn
  if firstInstant ≤ expiresAt ∧ expiresAt ≤ lastInstant then some ⟨token, expiresAt⟩ else none

/-- May the token be used at this instant? -/
def isValidAt (l : Lease) (now : Int) : Bool := now < l.expiresAt

theorem expiresAt_grant {token : String} {expiresIn issuedAt : Int} {l : Lease}
    (h : grant? token expiresIn issuedAt = some l) :
    l.token = token ∧ l.expiresAt = issuedAt + lifetime expiresIn := by
  simp only [grant?] at h
  split at h
  · cases h; exact ⟨rfl, rfl⟩
  · cases h

theorem isValidAt_grant {token : String} {expiresIn issuedAt : Int} {l : Lease}
    (h : grant? token expiresIn issuedAt = some l) (now : Int) :
    l.isValidAt now = true ↔ now < issuedAt + lifetime expiresIn := by
  simp [isValidAt, (expiresAt_grant h).2]

end Lease

end VersionAlignment
