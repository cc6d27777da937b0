import VersionAlignment.Json.Decode
import VersionAlignment.Report
import VersionAlignment.Source.Error

/-!
# Deployable versions

The service that lists deployable versions answers with a JSON text. From its list an `Offer` is
selected: the stable versions of one service, lowest first, and the preferred one among them.

## Results

* `Deployable.offer?_eq_none_iff`: there is no offer exactly if no version is stable.
-/

set_option autoImplicit false

namespace VersionAlignment

open Json (RecordField Decoder Fault)

/-- A version in the list of deployable versions. -/
structure DeployableVersion where
  version : String
  /-- How far the version is released; empty if nothing is said about it. -/
  status : String
  isPreferred : Bool
  deriving Repr, DecidableEq

/-- A service in the list of deployable versions. -/
structure Deployable where
  service : String
  versions : List DeployableVersion
  deriving Repr, DecidableEq

/-- An access token as it is granted. -/
structure TokenGrant where
  token : String
  /-- The seconds after which the token ends. -/
  expiresIn : Int
  deriving Repr, DecidableEq

/-! ## Selection -/

/-- Is the version released? A version of which nothing is said counts as released. -/
def DeployableVersion.isStable (v : DeployableVersion) : Bool :=
  v.status == "" || v.status == "stable"

namespace Deployable

/-- Is the service called like this? Upper and lower case of ASCII letters are the same. -/
def isCalled (d : Deployable) (name : String) : Bool :=
  d.service.toList.map Char.toLower == name.toList.map Char.toLower

/-- What the service offers: its stable versions, and the first of them that is preferred, else the
highest. Without a stable version there is no offer. -/
def offer? (d : Deployable) : Option Offer :=
  let stable := d.versions.filter DeployableVersion.isStable
  let versions := Version.sortAscending (stable.map DeployableVersion.version)
  let preferred := (stable.find? DeployableVersion.isPreferred).map DeployableVersion.version
  (preferred.or (Version.latestOf? versions)).map fun p => ⟨versions, p⟩

end Deployable

/-- The offer for a service; the first entry of the service counts. -/
def selectOffer (ds : List Deployable) (service : String) : Except SourceError Offer :=
  match (ds.find? fun d => d.isCalled service).bind Deployable.offer? with
  | some offer => .ok offer
  | none => .error (.serviceNotFound service)

/-! ## Reading -/

/-- Read a string. -/
def readPlainText : Decoder String := Json.readText "a string"

/-- The parts of a version found so far. -/
structure DeployableVersion.Draft where
  version : Option String
  status : Option String
  isPreferred : Option Bool

/-- The fields of a version. -/
def DeployableVersion.fields : List (RecordField DeployableVersion.Draft) :=
  [⟨"version", fun d => d.version.isSome, fun d c => do
      let (s, c) ← readPlainText c
      .ok ({ d with version := some s }, c)⟩,
   ⟨"status", fun d => d.status.isSome, fun d c => do
      let (s, c) ← readPlainText c
      .ok ({ d with status := some s }, c)⟩,
   ⟨"is_preferred", fun d => d.isPreferred.isSome, fun d c => do
      let (b, c) ← Json.readBool c
      .ok ({ d with isPreferred := some b }, c)⟩]

/-- Read a version. -/
def DeployableVersion.read : Decoder DeployableVersion := fun c => do
  let (d, c) ← Json.readRecord "a deployable version" fields ⟨none, none, none⟩ c
  let (version, c) ← Json.required "version" d.version c
  .ok (⟨version, d.status.getD "", d.isPreferred.getD false⟩, c)

/-- The parts of a service found so far. -/
structure Deployable.Draft where
  service : Option String
  versions : Option (List DeployableVersion)

/-- The fields of a service. -/
def Deployable.fields : List (RecordField Deployable.Draft) :=
  [⟨"type", fun d => d.service.isSome, fun d c => do
      let (s, c) ← readPlainText c
      .ok ({ d with service := some s }, c)⟩,
   ⟨"versions", fun d => d.versions.isSome, fun d c => do
      let (vs, c) ← Json.readList DeployableVersion.read c
      .ok ({ d with versions := some vs }, c)⟩]

/-- Read a service. -/
def Deployable.read : Decoder Deployable := fun c => do
  let (d, c) ← Json.readRecord "a deployable service" fields ⟨none, none⟩ c
  let (service, c) ← Json.required "type" d.service c
  .ok (⟨service, d.versions.getD []⟩, c)

/-- The field of the list of deployable versions. -/
def listFields : List (RecordField (Option (List Deployable))) :=
  [⟨"deployables", Option.isSome, fun _ c => do
      let (ds, c) ← Json.readList Deployable.read c
      .ok (some ds, c)⟩]

/-- Read the list of deployable versions. -/
def readDeployables : Decoder (List Deployable) := fun c => do
  let (ds, c) ← Json.readRecord "a list of deployable services" listFields none c
  Json.required "deployables" ds c

/-- The list of deployable versions in a JSON text. -/
def parseDeployables (text : String) : Except Fault (List Deployable) :=
  Json.decode readDeployables text.toList

/-- The parts of a granted token found so far. -/
structure TokenGrant.Draft where
  token : Option String
  expiresIn : Option Int

/-- The fields of a granted token. -/
def TokenGrant.fields : List (RecordField TokenGrant.Draft) :=
  [⟨"access_token", fun d => d.token.isSome, fun d c => do
      let (s, c) ← readPlainText c
      .ok ({ d with token := some s }, c)⟩,
   ⟨"expires_in", fun d => d.expiresIn.isSome, fun d c => do
      let (n, c) ← Json.readInteger c
      .ok ({ d with expiresIn := some n }, c)⟩]

/-- Read a granted token. -/
def TokenGrant.read : Decoder TokenGrant := fun c => do
  let (d, c) ← Json.readRecord "an access token" fields ⟨none, none⟩ c
  let (token, c) ← Json.required "access_token" d.token c
  let (expiresIn, c) ← Json.required "expires_in" d.expiresIn c
  .ok (⟨token, expiresIn⟩, c)

/-- The granted token in a JSON text. -/
def TokenGrant.parse (text : String) : Except Fault TokenGrant := Json.decode read text.toList

/-! ## Facts about offers -/

theorem Deployable.offer?_eq_none_iff (d : Deployable) :
    d.offer? = none ↔ ∀ v ∈ d.versions, v.isStable = false := by
  have key (vs : List DeployableVersion) :
      Version.latestOf? (Version.sortAscending (vs.map DeployableVersion.version)) = none ↔
        vs = [] := by
    rw [Version.latestOf?_eq_none_iff, Version.sortAscending, Version.sortBy_eq_nil_iff,
      List.map_eq_nil_iff]
  have none_of_filter (p : DeployableVersion → Bool) :
      d.versions.filter p = [] ↔ ∀ v ∈ d.versions, p v = false := by simp
  rw [← none_of_filter, ← key]
  simp only [offer?, Option.map_eq_none_iff, Option.or_eq_none_iff]
  refine ⟨And.right, fun h => ⟨?_, h⟩⟩
  rw [(key _).1 h]
  rfl

end VersionAlignment
