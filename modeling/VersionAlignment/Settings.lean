import VersionAlignment.Artifact.Format
import VersionAlignment.Json.Decode
import VersionAlignment.Store.Basic

/-!
# Settings

Settings tell where the artifacts of a repository are, where versions are asked for, and how the
constant of the Go test is called. They are read from a JSON text; what the text leaves out keeps
its default.
-/

set_option autoImplicit false

namespace VersionAlignment

open Json (RecordField Decoder Fault)

/-- Where the artifacts are, as seen from the repository's root. -/
structure ArtifactPaths where
  terraform : String
  catalog : String
  testSource : String
  deriving Repr, DecidableEq

/-- Where versions are asked for. -/
structure Endpoints where
  /-- The service that grants access tokens. -/
  iamUrl : String
  /-- The service that lists the deployable versions. -/
  apiUrl : String
  /-- How long an answer may take, in milliseconds. -/
  timeoutMs : Nat
  deriving Repr, DecidableEq

/-- The settings of a repository. -/
structure Settings where
  artifacts : ArtifactPaths
  source : Endpoints
  /-- The constant that holds the version in a Go test. -/
  testConstant : String
  deriving Repr, DecidableEq

namespace ArtifactPaths

/-- The usual places. -/
def standard : ArtifactPaths := ⟨"variables.tf", "ibm_catalog.json", "tests/pr_test.go"⟩

/-- The path of an artifact. -/
def path (p : ArtifactPaths) : Artifact.Kind → String
  | .terraform => p.terraform
  | .catalog => p.catalog
  | .testSource => p.testSource

end ArtifactPaths

/-- The public services, with half a minute for an answer. -/
def Endpoints.standard : Endpoints :=
  ⟨"https://iam.cloud.ibm.com", "https://api.us-south.databases.cloud.ibm.com", 30000⟩

namespace Settings

/-- The settings of a repository without a settings file. -/
def standard : Settings := ⟨.standard, .standard, "latestVersion"⟩

/-- The format of an artifact. -/
def format (s : Settings) : Artifact.Kind → Artifact.Format
  | .terraform => .terraform
  | .catalog => .catalog
  | .testSource => .goTest s.testConstant

/-! ## Reading -/

/-- The paths found so far. -/
structure PathsDraft where
  terraform : Option String
  catalog : Option String
  testSource : Option String

/-- The paths that a draft stands for. -/
def PathsDraft.finish (d : PathsDraft) : ArtifactPaths :=
  ⟨d.terraform.getD ArtifactPaths.standard.terraform,
   d.catalog.getD ArtifactPaths.standard.catalog,
   d.testSource.getD ArtifactPaths.standard.testSource⟩

/-- Read a path. -/
def readPath : Decoder String := Json.readText "path string"

/-- The fields of the artifacts' paths. -/
def pathFields : List (RecordField PathsDraft) :=
  [⟨"variables", fun d => d.terraform.isSome, fun d c => do
      let (s, c) ← readPath c
      .ok ({ d with terraform := some s }, c)⟩,
   ⟨"catalog", fun d => d.catalog.isSome, fun d c => do
      let (s, c) ← readPath c
      .ok ({ d with catalog := some s }, c)⟩,
   ⟨"testSource", fun d => d.testSource.isSome, fun d c => do
      let (s, c) ← readPath c
      .ok ({ d with testSource := some s }, c)⟩]

/-- Read the artifacts' paths. -/
def readPaths : Decoder ArtifactPaths := fun c => do
  let (d, c) ← Json.readRecord "struct ArtifactPaths" pathFields ⟨none, none, none⟩ c
  .ok (d.finish, c)

/-- The endpoints found so far. -/
structure EndpointsDraft where
  iamUrl : Option String
  apiUrl : Option String
  timeoutMs : Option Nat

/-- The endpoints that a draft stands for. -/
def EndpointsDraft.finish (d : EndpointsDraft) : Endpoints :=
  ⟨d.iamUrl.getD Endpoints.standard.iamUrl, d.apiUrl.getD Endpoints.standard.apiUrl,
   d.timeoutMs.getD Endpoints.standard.timeoutMs⟩

/-- Read a string. -/
def readString : Decoder String := Json.readText "a string"

/-- The fields of the endpoints. -/
def endpointFields : List (RecordField EndpointsDraft) :=
  [⟨"iamUrl", fun d => d.iamUrl.isSome, fun d c => do
      let (s, c) ← readString c
      .ok ({ d with iamUrl := some s }, c)⟩,
   ⟨"apiUrl", fun d => d.apiUrl.isSome, fun d c => do
      let (s, c) ← readString c
      .ok ({ d with apiUrl := some s }, c)⟩,
   ⟨"timeoutMs", fun d => d.timeoutMs.isSome, fun d c => do
      let (n, c) ← Json.readNatural c
      .ok ({ d with timeoutMs := some n }, c)⟩]

/-- Read the endpoints. -/
def readEndpoints : Decoder Endpoints := fun c => do
  let (d, c) ← Json.readRecord "struct SourceConfig" endpointFields ⟨none, none, none⟩ c
  .ok (d.finish, c)

/-- The settings found so far. -/
structure Draft where
  artifacts : Option ArtifactPaths
  source : Option Endpoints
  testConstant : Option String

/-- The settings that a draft stands for. -/
def Draft.finish (d : Draft) : Settings :=
  ⟨d.artifacts.getD standard.artifacts, d.source.getD standard.source,
   d.testConstant.getD standard.testConstant⟩

/-- The fields of the settings. -/
def fields : List (RecordField Draft) :=
  [⟨"artifacts", fun d => d.artifacts.isSome, fun d c => do
      let (p, c) ← readPaths c
      .ok ({ d with artifacts := some p }, c)⟩,
   ⟨"source", fun d => d.source.isSome, fun d c => do
      let (e, c) ← readEndpoints c
      .ok ({ d with source := some e }, c)⟩,
   ⟨"testConstant", fun d => d.testConstant.isSome, fun d c => do
      let (s, c) ← readString c
      .ok ({ d with testConstant := some s }, c)⟩]

/-- Read the settings. -/
def read : Decoder Settings := fun c => do
  let (d, c) ← Json.readRecord "struct SyncConfig" fields ⟨none, none, none⟩ c
  .ok (d.finish, c)

/-- The settings in a JSON text. -/
def parse (text : String) : Except Fault Settings := Json.decode read text.toList

/-! ## Loading -/

/-- Why settings could not be loaded. -/
inductive LoadError where
  | unreadable (path : String) (cause : FileError)
  | unparsed (path : String) (cause : Fault)
  deriving Repr, DecidableEq

/-- The wording of a load error: what was tried, then why it failed. -/
def LoadError.chain : LoadError → List String
  | .unreadable path cause => ["failed to read config " ++ path, cause.message]
  | .unparsed path cause => ["failed to parse config " ++ path, cause.message]

/-- The settings file that is looked for in a repository. -/
def fileName : String := ".icd-version-sync.json"

/-- Load the settings in a file. -/
def loadFile {m : Type → Type} [Monad m] (files : Files m) (path : String) :
    m (Except LoadError Settings) := do
  match ← files.readText path with
  | .error e => return .error (.unreadable path e)
  | .ok text => return (parse text).mapError (.unparsed path)

/-- Load the settings for a repository: from the given file, which must exist, else from the
settings file in the root, if there is one, else the defaults. -/
def load {m : Type → Type} [Monad m] (files : Files m) (explicit : Option String)
    (root : String) : m (Except LoadError Settings) := do
  match explicit with
  | some path => loadFile files path
  | none =>
    let path := joinPath root fileName
    if ← files.isPresent path then loadFile files path else return .ok standard

end Settings

end VersionAlignment
