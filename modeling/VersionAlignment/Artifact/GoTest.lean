import VersionAlignment.Artifact.Basic
import VersionAlignment.Text.Segment

/-!
# Versions in Go tests

A Go test names the version it runs with in one of three spellings:

    const latestVersion = "17"
    {Name: "postgresql_version", Value: "17"}
    "postgresql_version": "17"

The constant and the map entry are read; all three are updated. A spelling with a field needs the
field to have a name.

## Results

* `Occurrence.append_of_read?`: an occurrence that was read is the text that was read.
-/

set_option autoImplicit false

namespace VersionAlignment.Artifact.GoTest

open Text

/-- The text before the version, in each spelling. -/
inductive Spelling where
  | constant (name : String)
  | structField (field : String)
  | mapEntry (field : String)
  deriving Repr, DecidableEq

/-- What stands before the quoted version. The blanks behind the word `const` leave to the name
the blanks that it starts with. -/
def Spelling.lead : Spelling → Shape
  | .constant name =>
    .word "const" ++ .runThen isBlank (.word name ++ .blanks ++ .word "=" ++ .blanks)
  | .structField field =>
    .word "\x7b" ++ .blanks ++ .word "Name:" ++ .blanks ++ .word ("\"" ++ field ++ "\",") ++ .blanks
      ++ .word "Value:" ++ .blanks
  | .mapEntry field => .word ("\"" ++ field ++ "\"") ++ .blanks ++ .word ":" ++ .blanks

/-- A version as it was found: the text before its opening quote, and the version. -/
structure Occurrence where
  lead : List Char
  version : List Char
  deriving Repr, DecidableEq

/-- The occurrence with another version. -/
def Occurrence.withVersion (o : Occurrence) (v : List Char) : List Char :=
  o.lead ++ '"' :: (v ++ ['"'])

/-- Read a quoted version behind the given shape. -/
def Occurrence.read? (lead : Shape) : Reader Occurrence := fun s =>
  match lead.take? s with
  | some (lead, '"' :: s) =>
    match Shape.dottedNumber.take? s with
    | some (v, '"' :: rest) => some (⟨lead, v⟩, rest)
    | _ => none
  | _ => none

/-- The occurrences of a spelling in a text. -/
def occurrences (sp : Spelling) (text : List Char) : List Occurrence :=
  hits (Occurrence.read? sp.lead) text

/-- The spellings that are read, in order of preference. -/
def readSpellings (constant field : String) : List Spelling :=
  .constant constant :: if field = "" then [] else [.mapEntry field]

/-- The spellings that are updated, in order. -/
def writtenSpellings (constant field : String) : List Spelling :=
  .constant constant :: if field = "" then [] else [.structField field, .mapEntry field]

/-- The version that a Go text declares for a field or for the named constant. -/
def extract (constant : String) (text : List Char) (field : String) : Except Error VersionSet :=
  match (readSpellings constant field).findSome? fun sp => (occurrences sp text).head? with
  | some o => .ok (.single (String.ofList o.version))
  | none => .error (.fieldNotFound field)

/-- Give every occurrence of a spelling the version `v`. -/
def replaceSpelling (v : List Char) (sp : Spelling) (text : List Char) : List Char :=
  substitute (Occurrence.read? sp.lead) (fun o => o.withVersion v) text

/-- Update one spelling after the other; the answer tells whether there was an occurrence. -/
def replaceSpellings (v : List Char) : List Spelling → List Char → Bool × List Char
  | [], text => (false, text)
  | sp :: more, text =>
    if (occurrences sp text).isEmpty then replaceSpellings v more text
    else (true, (replaceSpellings v more (replaceSpelling v sp text)).2)

/-- Make a Go text declare the latest of the requested versions. -/
def update (constant : String) (text : List Char) (r : Request) : Except Error (List Char) :=
  if r.latest = "" then .error (.emptyVersionSet r.field)
  else match replaceSpellings r.latest.toList (writtenSpellings constant r.field) text with
    | (true, text) => .ok text
    | (false, _) => .error (.fieldNotFound r.field)

theorem Occurrence.append_of_read? {lead : Shape} {s rest : List Char} {o : Occurrence}
    (h : Occurrence.read? lead s = some (o, rest)) : o.withVersion o.version ++ rest = s := by
  simp only [Occurrence.read?] at h
  split at h
  · next l s' hl =>
    split at h
    · next v r hv =>
      cases h
      rw [← lead.append_of_take? hl, ← Shape.dottedNumber.append_of_take? hv]
      simp [Occurrence.withVersion]
    · cases h
  · cases h

end VersionAlignment.Artifact.GoTest
