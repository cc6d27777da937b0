import VersionAlignment.Json.Fault
import VersionAlignment.Store.Error
import VersionAlignment.Version.Request

/-!
# Artifacts

An artifact is a file that declares the versions of a service: the validation block of a Terraform
variable, the options of a catalog entry, or a version in a Go test. The Terraform variable is the
primary artifact; it has to exist, and it decides what is declared at present.

## Results

* `Kind.ofName?_name`: every kind is found by its name.
* `Kind.all_complete`: `Kind.all` lists every kind.
-/

set_option autoImplicit false

namespace VersionAlignment

/-- A service and the field that holds its version. -/
structure Service where
  name : String
  field : String
  deriving Repr, DecidableEq

/-- The service of a given name. The field is named after the service, with one exception. -/
def Service.named (name : String) : Service :=
  { name, field := if name = "enterprisedb" then "edb_version" else name ++ "_version" }

namespace Artifact

/-- The artifacts that carry a version declaration. -/
inductive Kind where
  | terraform
  | catalog
  | testSource
  deriving Repr, DecidableEq

namespace Kind

/-- All kinds, the primary one first. -/
def all : List Kind := [.terraform, .catalog, .testSource]

/-- The name of a kind in reports. -/
def name : Kind → String
  | .terraform => "variables_tf"
  | .catalog => "ibm_catalog"
  | .testSource => "test_file"

/-- The kind of the given name. -/
def ofName? (s : String) : Option Kind := all.find? fun k => k.name == s

/-- Must the artifact exist? -/
def isPrimary : Kind → Bool
  | .terraform => true
  | _ => false

theorem ofName?_name (k : Kind) : ofName? k.name = some k := by cases k <;> decide

theorem all_complete (k : Kind) : k ∈ all := by cases k <;> decide

end Kind

/-- What is wrong with an artifact's text as a whole. -/
inductive Defect where
  /-- The catalog is not a JSON text. -/
  | unparsed (fault : Json.Fault)
  /-- The versions of the field are not laid out in a way that can be edited. -/
  | unlocated (field : String)
  deriving Repr, DecidableEq

/-- The wording of a defect. -/
def Defect.message : Defect → String
  | .unparsed fault => "failed to parse catalog JSON: " ++ fault.message
  | .unlocated field => "could not locate the version fields of " ++ field

/-- Why the versions of an artifact could not be read or updated. -/
inductive Error where
  /-- The artifact does not declare the field. -/
  | fieldNotFound (field : String)
  /-- The artifact is not well formed. -/
  | malformed (defect : Defect)
  /-- The field is declared without any version. -/
  | emptyVersionSet (field : String)
  /-- The artifact's file could not be read or written. -/
  | io (cause : StoreError)
  deriving Repr, DecidableEq

namespace Error

/-- The wording of an error. -/
def message : Error → String
  | .fieldNotFound field => "no versions found for " ++ field
  | .malformed defect => "malformed document: " ++ defect.message
  | .emptyVersionSet field => "no version options found for " ++ field
  | .io cause => "I/O error: " ++ cause.message

/-- Does the error only say that the artifact has nothing to do with the field? -/
def isFieldNotFound : Error → Bool
  | .fieldNotFound _ => true
  | _ => false

end Error

end Artifact

end VersionAlignment
