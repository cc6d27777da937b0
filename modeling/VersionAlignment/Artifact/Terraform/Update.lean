import VersionAlignment.Artifact.Terraform.Conditions
import VersionAlignment.Text.Code

/-!
# Updating a Terraform variable

A request changes two places of a Terraform text: the bodies of all condition lists of the field,
and the first error message in the validation block of the field's own variable. The place of the
error message is found line by line, keeping count of the braces outside quotes.

## Results

* `update_of_matches`: a text that declares the requested versions already is left as it is.
-/

set_option autoImplicit false

namespace VersionAlignment.Artifact.Terraform

open Text

/-- An error message setting: the text before the quoted message, and the text behind it. -/
structure MessageLine where
  lead : List Char
  trail : List Char
  deriving Repr, DecidableEq

/-- The setting of an error message up to its opening quote. -/
def messageLead : Shape :=
  .blanks ++ .word "error_message" ++ .blanks ++ .word "=" ++ .blanks

/-- What follows the opening quote of a message, behind its closing quote; a backslash takes the
character behind it along. -/
def skipMessage : List Char → Option (List Char)
  | [] => none
  | ['\\'] => none
  | '\\' :: _ :: cs => skipMessage cs
  | c :: cs => if c = '"' then some cs else skipMessage cs

/-- Read a line as the setting of an error message. -/
def MessageLine.ofLine? (line : List Char) : Option MessageLine :=
  match messageLead.take? line with
  | some (lead, '"' :: cs) => (skipMessage cs).map fun trail => ⟨lead, trail⟩
  | _ => none

/-- The line with the given message. -/
def MessageLine.withMessage (l : MessageLine) (message : List Char) : List Char :=
  l.lead ++ '"' :: (message ++ '"' :: l.trail)

/-- The start of the block of the field's variable. -/
def variableOpening (field : String) : Shape :=
  .blanks ++ .word "variable" ++ .run1 isBlank ++ .word ("\"" ++ field ++ "\"") ++ .blanks
    ++ .word "\x7b"

/-- The start of a validation block. -/
def validationOpening : Shape := .blanks ++ .word "validation" ++ .blanks ++ .word "\x7b"

/-- Where the search for the error message stands. -/
inductive Scope where
  /-- Not in a block of the field's variable. -/
  | outside
  /-- In a block of the field's variable, `depth` braces deep; `inValidation` tells whether a
  validation block has been opened in it. -/
  | inside (depth : Int) (inValidation : Bool)
  deriving Repr, DecidableEq

/-- The scope behind a line, when the line opens no block of the field's variable. -/
def Scope.past (line : List Char) : Scope → Scope
  | .outside => .outside
  | .inside depth inValidation =>
    let depth := depth + depthChange '\x7b' '\x7d' line
    if depth ≤ 0 then .outside
    else .inside depth (inValidation || (validationOpening.take? line).isSome)

/-- May the error message stand on a line that leads into this scope? -/
def Scope.mayHoldMessage : Scope → Bool
  | .inside _ true => true
  | _ => false

/-- Replace the first error message inside a validation block of the field's variable, whose
opening has the given shape. -/
def replaceMessageLine (opening : Shape) (message : List Char) :
    Scope → List (List Char) → List (List Char)
  | _, [] => []
  | scope, line :: more =>
    if (opening.take? line).isSome then
      let depth := depthChange '\x7b' '\x7d' line
      line :: replaceMessageLine opening message (.inside depth false) more
    else
      let scope := scope.past line
      match if scope.mayHoldMessage then MessageLine.ofLine? line else none with
      | some found => found.withMessage message :: more
      | none => line :: replaceMessageLine opening message scope more

/-- The text with the first error message of the field's variable replaced. -/
def replaceMessage (field : String) (message : List Char) (text : List Char) : List Char :=
  unlines (replaceMessageLine (variableOpening field) message .outside (lines text))

/-- Does the text declare exactly the requested versions? -/
def declares (text : List Char) (r : Request) : Bool :=
  match extract text r.field with
  | .ok set => r.matchesVersions set.versions
  | .error _ => false

/-- Make a Terraform text declare the requested versions. -/
def update (text : List Char) (r : Request) : Except Error (List Char) :=
  if declares text r then .ok text
  else if (conditionLists r.field text).isEmpty then .error (.fieldNotFound r.field)
  else
    let text := replaceLists r.field (newBody r.field r.descending) text
    .ok (replaceMessage r.field (Version.errorMessage r.ascending).toList text)

theorem update_of_matches {text : List Char} {r : Request} (h : declares text r = true) :
    update text r = .ok text := by
  simp [update, h]

end VersionAlignment.Artifact.Terraform
