import VersionAlignment.Text.Code
import VersionAlignment.Text.Segment

/-!
# Where the configuration items of a field stand

A JSON object owns a key if the member that names the key is its own and not that of an object
inside it. A scan of the braces outside quotes finds the lines that each owning object takes, from
the line of its opening brace to the line of its closing one.

## Results

* `Span.holds_iff`: a span holds the lines from its first to its last.
-/

set_option autoImplicit false

namespace VersionAlignment.Artifact.Catalog

open Text

/-- The lines from `first` to `last`, counted from zero. -/
structure Span where
  first : Nat
  last : Nat
  deriving Repr, DecidableEq

/-- Does the line lie in the span? -/
def Span.holds (s : Span) (line : Nat) : Bool := s.first ≤ line && line ≤ s.last

/-- An object whose closing brace has not been reached. -/
structure OpenObject where
  /-- The line of the opening brace. -/
  first : Nat
  /-- Has the object been found to own the key? -/
  owns : Bool
  deriving Repr, DecidableEq

/-- What a scan has found so far: the open objects, innermost first, and the spans of the owning
objects that have been closed. -/
structure SpanScan where
  opened : List OpenObject
  spans : List Span
  deriving Repr, DecidableEq

/-- A member that names the field as its object's key. -/
def keyMember (field : String) : Shape :=
  .word "\"key\"" ++ .blanks ++ .word ":" ++ .blanks ++ .word ("\"" ++ field ++ "\"")

/-- One code character. `keyAt` is the place on the line where the key's member starts. -/
def SpanScan.step (line : Nat) (keyAt : Option Nat) (scan : SpanScan) (at_ : Nat × Char) :
    SpanScan :=
  match at_.2 with
  | '"' =>
    if some at_.1 = keyAt then
      match scan.opened with
      | [] => scan
      | top :: below => { scan with opened := { top with owns := true } :: below }
    else scan
  | '\x7b' => { scan with opened := ⟨line, false⟩ :: scan.opened }
  | '\x7d' =>
    match scan.opened with
    | [] => scan
    | top :: below =>
      { opened := below
        spans := if top.owns then scan.spans ++ [⟨top.first, line⟩] else scan.spans }
  | _ => scan

/-- One line. -/
def SpanScan.line (key : Shape) (scan : SpanScan) (number : Nat) (text : List Char) : SpanScan :=
  let keyAt := firstHit? key.take? text
  (code text).foldl (SpanScan.step number keyAt) scan

/-- The lines from the given number on. -/
def SpanScan.lines (key : Shape) : SpanScan → Nat → List (List Char) → SpanScan
  | scan, _, [] => scan
  | scan, number, text :: more => SpanScan.lines key (scan.line key number text) (number + 1) more

/-- The spans of the objects that own the field's key. -/
def owningSpans (field : String) (ls : List (List Char)) : List Span :=
  (SpanScan.lines (keyMember field) ⟨[], []⟩ 0 ls).spans

theorem Span.holds_iff {s : Span} {line : Nat} :
    s.holds line = true ↔ s.first ≤ line ∧ line ≤ s.last := by
  simp [Span.holds]

end VersionAlignment.Artifact.Catalog
