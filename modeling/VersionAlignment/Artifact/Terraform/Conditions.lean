import VersionAlignment.Artifact.Basic
import VersionAlignment.Text.Lines
import VersionAlignment.Text.Segment

/-!
# Condition lists

The validation block of a Terraform variable lists the versions that may be passed, one comparison
to a line:

    condition = anytrue([
      var.postgresql_version == null,
      var.postgresql_version == "17"
    ])

A `ConditionList` is such a list as it was found in a text: the opening line, the comparisons and
the closing brackets. A text may hold several lists for a field; all of them are read and all of
them are replaced.

## Results

* `ConditionList.append_of_read?`: the three parts of a list that was read are the text that was
  read.
* `replaceLists_text`: writing every list as it was found gives the text back.
-/

set_option autoImplicit false

namespace VersionAlignment.Artifact.Terraform

open Text

/-- A condition list as it was found. -/
structure ConditionList where
  /-- From the word `condition` to the end of the line with the opening brackets. -/
  opening : List Char
  /-- The comparisons. -/
  body : List Char
  /-- The closing brackets and the blanks before them. -/
  closing : List Char
  deriving Repr, DecidableEq

/-- The text of a list. -/
def ConditionList.text (l : ConditionList) : List Char := l.opening ++ l.body ++ l.closing

/-- The opening line of a list. -/
def openingShape : Shape :=
  .word "condition" ++ .blanks ++ .word "=" ++ .blanks ++ .word "anytrue([" ++ .inlineBlanks
    ++ .lineEnd

/-- The name of the field's variable and the comparison sign. -/
def comparisonHead (field : String) : Shape := .word ("var." ++ field) ++ .blanks ++ .word "=="

/-- A line that compares the field with a quoted text or with nothing. -/
def comparisonLine (field : String) : Shape :=
  .inlineBlanks ++ comparisonHead field ++ .blanks ++ (.word "null" ||| .quotedText)
    ++ .optional (.word ",") ++ .inlineBlanks ++ .lineEnd

/-- One comparison line or more. -/
def bodyShape (field : String) : Shape := .many1 (comparisonLine field)

/-- The end of a list. -/
def closingShape : Shape := .inlineBlanks ++ .word "])"

/-- Read a condition list whose body has the given shape off the front of a text. -/
def ConditionList.read? (body : Shape) : Reader ConditionList := fun s =>
  match openingShape.take? s with
  | none => none
  | some (opening, s) =>
    match body.take? s with
    | none => none
    | some (body, s) =>
      match closingShape.take? s with
      | none => none
      | some (closing, rest) => some (⟨opening, body, closing⟩, rest)

/-- The condition lists for a field. -/
def conditionLists (field : String) (text : List Char) : List ConditionList :=
  hits (ConditionList.read? (bodyShape field)) text

/-- Read the version in a comparison that starts with the given shape. -/
def readCompared (head : Shape) : Reader (List Char) := fun s =>
  match head.take? s with
  | none => none
  | some (_, s) =>
    match Shape.dottedNumber.take? s with
    | some (v, '"' :: rest) => some (v, rest)
    | _ => none

/-- The dotted numbers that a list's body compares the field with. -/
def comparedVersions (field : String) (body : List Char) : List String :=
  (hits (readCompared (comparisonHead field ++ .blanks ++ .word "\"")) body).map String.ofList

/-- All versions that the text's condition lists compare the field with. -/
def declaredTokens (field : String) (text : List Char) : List String :=
  (conditionLists field text).flatMap fun l => comparedVersions field l.body

/-- The versions that a Terraform text declares for a field. -/
def extract (text : List Char) (field : String) : Except Error VersionSet :=
  match VersionSet.ofTokens? (declaredTokens field text) with
  | some set => .ok set
  | none => .error (.fieldNotFound field)

/-- The left side of a comparison, indented. -/
def comparisonStart (indent : List Char) (field : String) : List Char :=
  indent ++ ("var." ++ field ++ " == ").toList

/-- The comparisons of a new list: with nothing first, then with each version. -/
def comparisons (indent : List Char) (field : String) (versions : List String) :
    List (List Char) :=
  (comparisonStart indent field ++ "null".toList)
    :: versions.map fun v => comparisonStart indent field ++ '"' :: (v.toList ++ ['"'])

/-- The body that replaces an old one: a comma after every comparison but the last, the
indentation of the old body's first line, and its line ending. -/
def newBody (field : String) (descending : List String) (old : List Char) : List Char :=
  let ending := lineEnding old ++ ['\n']
  joinWith (',' :: ending) (comparisons (leadingBlanks old) field descending) ++ ending

/-- Replace the body of every condition list. -/
def replaceLists (field : String) (newBody : List Char → List Char) (text : List Char) :
    List Char :=
  substitute (ConditionList.read? (bodyShape field))
    (fun l => l.opening ++ newBody l.body ++ l.closing) text

theorem ConditionList.append_of_read? {body : Shape} {s rest : List Char} {l : ConditionList}
    (h : ConditionList.read? body s = some (l, rest)) : l.text ++ rest = s := by
  simp only [ConditionList.read?] at h
  split at h
  · cases h
  · next opening s₁ h₁ =>
    split at h
    · cases h
    · next body' s₂ h₂ =>
      split at h
      · cases h
      · next closing s₃ h₃ =>
        cases h
        rw [ConditionList.text, List.append_assoc, closingShape.append_of_take? h₃,
          List.append_assoc, body.append_of_take? h₂, openingShape.append_of_take? h₁]

theorem replaceLists_text (field : String) (text : List Char) :
    replaceLists field id text = text :=
  substitute_eq_self (ConditionList.read? (bodyShape field)) ConditionList.text
    (fun h => ConditionList.append_of_read? h) text

end VersionAlignment.Artifact.Terraform
