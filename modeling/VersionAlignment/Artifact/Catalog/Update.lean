import VersionAlignment.Artifact.Catalog.Document
import VersionAlignment.Artifact.Catalog.Options
import VersionAlignment.Artifact.Catalog.Span

/-!
# Updating a catalog

A catalog is edited line by line and never written anew. On the lines of the objects that own the
field's key, a default value that is not the latest version is replaced, and so is an options array
that does not hold the requested versions; every other line is kept. The edited text is read again,
and is refused unless its first item for the field declares what was requested.

## Results

* `carries_of_update`: a text that is answered declares what was requested.
-/

set_option autoImplicit false

namespace VersionAlignment.Artifact.Catalog

open Text

/-- A line with a default value: the text before the value, the value as it is spelled, and the
text behind it. -/
structure DefaultLine where
  lead : List Char
  value : List Char
  trail : List Char
  deriving Repr, DecidableEq

/-- What stands before a default value. -/
def defaultLead : Shape := .blanks ++ .word "\"default_value\"" ++ .blanks ++ .word ":" ++ .blanks

/-- A default value: a text in quotes or a number without exponent. -/
def defaultValue : Shape :=
  .quotedText
    ||| (.optional (.word "-") ++ .one Char.isDigit ++ .run fun c => c.isDigit || c = '.')

/-- Read a line as one with a default value. -/
def DefaultLine.ofLine? (line : List Char) : Option DefaultLine :=
  match defaultLead.take? line with
  | none => none
  | some (lead, s) => (defaultValue.take? s).map fun found => ⟨lead, found.1, found.2⟩

/-- The value without its quotes. -/
def DefaultLine.token (l : DefaultLine) : List Char :=
  ((l.value.dropWhile (· = '"')).reverse.dropWhile (· = '"')).reverse

/-- The line with another value. -/
def DefaultLine.withValue (l : DefaultLine) (v : List Char) : List Char :=
  l.lead ++ '"' :: (v ++ '"' :: l.trail)

/-- The line with the latest version as its default value, unless it has no default value or the
right one. -/
def newDefault? (latest : String) (line : List Char) : Option (List Char) :=
  match DefaultLine.ofLine? line with
  | none => none
  | some l =>
    if latest = "" ∨ l.token = latest.toList then none else some (l.withValue latest.toList)

/-- An options array of which not all lines have been seen. -/
structure Gathering where
  block : OptionsBlock
  /-- How many brackets are open. -/
  depth : Int
  deriving Repr, DecidableEq

/-- Start an array if the line does. -/
def Gathering.start? (line : List Char) : Option Gathering :=
  (optionsStart.take? line).map fun found => ⟨⟨found.1, [line]⟩, depthChange '[' ']' line⟩

/-- Add a line to an array. -/
def Gathering.push (g : Gathering) (line : List Char) : Gathering :=
  ⟨⟨g.block.head, g.block.lines ++ [line]⟩, g.depth + depthChange '[' ']' line⟩

/-- Has the array been closed? -/
def Gathering.isClosed (g : Gathering) : Bool := g.depth ≤ 0

/-- What an edit needs to know: the request, the spans of the owning objects, and the line ending
of the text. -/
structure Edit where
  request : Request
  spans : List Span
  ending : List Char
  deriving Repr

/-- The lines that take the place of an options array. -/
def Edit.settle (e : Edit) (b : OptionsBlock) : List (List Char) :=
  if e.request.matchesVersions b.values then b.lines
  else b.render e.request.ascending e.ending

/-- Does the line lie in an owning object? -/
def Edit.covers (e : Edit) (line : Nat) : Bool := e.spans.any fun s => s.holds line

/-- Edit the lines from the given number on. An array that is never closed is kept. -/
def editLines (e : Edit) : Option Gathering → Nat → List (List Char) → List (List Char)
  | none, _, [] => []
  | some g, _, [] => g.block.lines
  | some g, n, line :: more =>
    let g := g.push line
    if g.isClosed then e.settle g.block ++ editLines e none (n + 1) more
    else editLines e (some g) (n + 1) more
  | none, n, line :: more =>
    if e.covers n then
      match newDefault? e.request.latest line with
      | some line => line :: editLines e none (n + 1) more
      | none =>
        match Gathering.start? line with
        | some g =>
          if g.isClosed then e.settle g.block ++ editLines e none (n + 1) more
          else editLines e (some g) (n + 1) more
        | none => line :: editLines e none (n + 1) more
    else line :: editLines e none (n + 1) more

/-- The text after an edit for the request. -/
def editText (text : List Char) (r : Request) : List Char :=
  let ls := lines text
  unlines (editLines ⟨r, owningSpans r.field ls, lineEnding text⟩ none 0 ls)

/-- Make a catalog declare the requested versions. -/
def update (text : List Char) (r : Request) : Except Error (List Char) :=
  match parse text with
  | .error e => .error e
  | .ok document =>
    match item? r.field document with
    | none => .error (.fieldNotFound r.field)
    | some _ =>
      let edited := editText text r
      match parse edited with
      | .error e => .error e
      | .ok document =>
        match (item? r.field document).filter (carries r) with
        | some _ => .ok edited
        | none => .error (.malformed (.unlocated r.field))

theorem carries_of_update {text out : List Char} {r : Request} (h : update text r = .ok out) :
    ∃ document item, parse out = .ok document ∧ item? r.field document = some item
      ∧ carries r item = true := by
  simp only [update] at h
  split at h
  · cases h
  · split at h
    · cases h
    · split at h
      · cases h
      · next document hd =>
        split at h
        · next item hi =>
          cases h
          rw [Option.filter_eq_some_iff] at hi
          exact ⟨document, item, hd, hi.1, hi.2⟩
        · cases h

end VersionAlignment.Artifact.Catalog
