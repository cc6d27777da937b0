import VersionAlignment.Version.Set

/-!
# Requests

A `Request` asks that the artifacts declare given versions for a field. The wording that users of
the field see, `Request.errorMessage`, lists the versions in prose.

## Results

* `Request.matchesVersions_iff`: a request is met by a list of tokens exactly when the stable sets
  of both are the same list.
-/

set_option autoImplicit false

namespace VersionAlignment

/-- The versions as prose: `a`, `a or b`, `a, b or c`. -/
def Version.prose : List String → String
  | [] => ""
  | [only] => only
  | [first, second] => first ++ " or " ++ second
  | first :: rest => first ++ ", " ++ prose rest

/-- The message shown to a user who passed a version that is not in the list. -/
def Version.errorMessage (ascending : List String) : String :=
  "Version must be " ++ prose ascending ++
    ". If no value passed, the current ICD preferred version is used."

/-- A request to declare versions for a field. -/
structure Request where
  /-- The field whose versions are declared. -/
  field : String
  /-- The versions to declare, without repetitions. -/
  versions : List String
  /-- The version that stands alone where only one can be declared; empty if there is none. -/
  latest : String
  deriving Repr, DecidableEq

namespace Request

/-- A request for the given versions. Without a latest version, or with an empty one, the highest
of the versions is the latest. -/
def make (field : String) (versions : List String) (latest? : Option String) : Request :=
  let versions := Version.distinct versions
  let latest := ((latest?.filter (· ≠ "")) <|> Version.latestOf? versions).getD ""
  { field, versions, latest }

/-- The requested versions, lowest first. -/
def ascending (r : Request) : List String := Version.sortAscending r.versions

/-- The requested versions, highest first. -/
def descending (r : Request) : List String := Version.sortDescending r.versions

/-- Are the given tokens, whatever their order and repetition, the requested versions? -/
def matchesVersions (r : Request) (current : List String) : Bool :=
  r.ascending = VersionSet.versionsOf (VersionSet.ofTokens? current)

theorem matchesVersions_iff {r : Request} {current : List String} :
    r.matchesVersions current = true ↔
      r.ascending = VersionSet.versionsOf (VersionSet.ofTokens? current) := by
  simp [matchesVersions]

end Request

end VersionAlignment
