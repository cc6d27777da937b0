import VersionAlignment.Text.Code
import VersionAlignment.Text.Lines
import VersionAlignment.Text.Segment

/-!
# Options arrays

The options of a catalog item are an array of objects with a display name and a value. An
`OptionsBlock` holds the lines of such an array, and its `layout` is how the elements are spread
over them. A new array is written in the layout of the old one, with the same indentation and the
same text behind the closing bracket.
-/

set_option autoImplicit false

namespace VersionAlignment.Artifact.Catalog

open Text

/-- The lines of an options array. -/
structure OptionsBlock where
  /-- The first line up to its opening bracket. -/
  head : List Char
  /-- All lines, the first one whole. -/
  lines : List (List Char)
  deriving Repr, DecidableEq

/-- How the elements of an options array are spread over lines. -/
inductive Layout where
  /-- All of them on the line of the opening bracket. -/
  | singleLine
  /-- Each on a line of its own. -/
  | lineEach (elementIndent : List Char)
  /-- Braces and fields each on a line of their own. -/
  | spread (elementIndent fieldIndent : List Char)
  deriving Repr, DecidableEq

/-- The start of an options array on a line. -/
def optionsStart : Shape :=
  .blanks ++ .word "\"options\"" ++ .blanks ++ .word ":" ++ .blanks ++ .word "["

/-- What stands before the text of an option's value. -/
def optionValueLead : Shape := .word "\"value\"" ++ .blanks ++ .word ":" ++ .blanks ++ .word "\""

/-- Read an option's value. -/
def readOptionValue : Reader (List Char) := fun s =>
  match optionValueLead.take? s with
  | none => none
  | some (_, s) =>
    match s.dropWhile (· ≠ '"') with
    | '"' :: rest => some (s.takeWhile (· ≠ '"'), rest)
    | _ => none

namespace OptionsBlock

/-- The values on the lines of the array. -/
def values (b : OptionsBlock) : List String :=
  b.lines.flatMap fun line => (hits readOptionValue line).map String.ofList

/-- Does the line start with an element's brace? -/
def isElementLine (line : List Char) : Bool :=
  match trimStart line with
  | '\x7b' :: _ => true
  | _ => false

/-- The layout of the array. An array without an element line is taken for a spread one, its
elements two and its fields four blanks deeper than its head; fields that are not indented deeper
than their element's brace are taken to be two blanks deeper. -/
def layout (b : OptionsBlock) : Layout :=
  match b.lines with
  | [_] => .singleLine
  | lines =>
    match (lines.drop 1).dropWhile fun line => !isElementLine line with
    | [] =>
      let indent := leadingBlanks b.head ++ [' ', ' ']
      .spread indent (indent ++ [' ', ' '])
    | line :: more =>
      let indent := leadingBlanks line
      if containsWord "\"value\"".toList line then .lineEach indent
      else
        let next := (more.head?.map leadingBlanks).getD []
        .spread indent (if byteLength indent < byteLength next then next else indent ++ [' ', ' '])

/-- The text behind the bracket that closes the array. -/
def trailing (b : OptionsBlock) : List Char :=
  let last := b.lines.getLastD []
  if ']' ∈ last then (last.reverse.takeWhile (· ≠ ']')).reverse else []

/-- The blanks before the closing bracket, if it has a line of its own. -/
def closingIndent (b : OptionsBlock) : List Char :=
  match b.lines with
  | _ :: _ :: _ => leadingBlanks (b.lines.getLastD [])
  | _ => []

end OptionsBlock

/-- A field with its value. -/
def fieldText (name : String) (v : String) : List Char :=
  ("\"" ++ name ++ "\": \"" ++ v ++ "\"").toList

/-- An option on one line. -/
def elementText (v : String) : List Char :=
  '\x7b' :: (fieldText "displayname" v ++ [',', ' '] ++ fieldText "value" v ++ ['\x7d'])

/-- An option, and a comma if another one follows, in lines. -/
def elementLines (layout : Layout) (isLast : Bool) (v : String) : List (List Char) :=
  let comma := if isLast then [] else [',']
  match layout with
  | .singleLine => [elementText v ++ comma]
  | .lineEach indent => [indent ++ elementText v ++ comma]
  | .spread indent fieldIndent =>
    [indent ++ ['\x7b'], fieldIndent ++ fieldText "displayname" v ++ [','],
     fieldIndent ++ fieldText "value" v, indent ++ '\x7d' :: comma]

/-- All options in lines. -/
def elementsLines (layout : Layout) : List String → List (List Char)
  | [] => []
  | [v] => elementLines layout true v
  | v :: next :: vs => elementLines layout false v ++ elementsLines layout (next :: vs)

/-- The lines of an array with the given versions, in the place of an old one. `ending` stands at
the end of every line but the last, whose end is that of the old array. -/
def OptionsBlock.render (b : OptionsBlock) (versions : List String) (ending : List Char) :
    List (List Char) :=
  match versions, b.layout with
  | [], _ => [b.head ++ ']' :: b.trailing]
  | vs, .singleLine =>
    [b.head ++ joinWith [',', ' '] (vs.map elementText) ++ ']' :: b.trailing]
  | vs, layout =>
    (b.head :: elementsLines layout vs).map (· ++ ending)
      ++ [b.closingIndent ++ ']' :: b.trailing]

end VersionAlignment.Artifact.Catalog
