import VersionAlignment.Artifact.Catalog.Update
import VersionAlignment.Artifact.GoTest
import VersionAlignment.Artifact.Terraform.Update

/-!
# The formats of artifacts

A `Format` knows how versions are read from the text of an artifact and how they are updated.
-/

set_option autoImplicit false

namespace VersionAlignment.Artifact

/-- The format of an artifact. -/
inductive Format where
  | terraform
  | catalog
  /-- A Go test, with the name of the constant that holds the version. -/
  | goTest (constant : String)
  deriving Repr, DecidableEq

namespace Format

/-- The versions that a text declares for a field. -/
def extract (format : Format) (text field : String) : Except Error VersionSet :=
  match format with
  | .terraform => Terraform.extract text.toList field
  | .catalog => Catalog.extract text.toList field
  | .goTest constant => GoTest.extract constant text.toList field

/-- The text after it has been made to declare the requested versions. -/
def update (format : Format) (text : String) (r : Request) : Except Error String :=
  Except.map String.ofList <|
    match format with
    | .terraform => Terraform.update text.toList r
    | .catalog => Catalog.update text.toList r
    | .goTest constant => GoTest.update constant text.toList r

end Format

end VersionAlignment.Artifact
