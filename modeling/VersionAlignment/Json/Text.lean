import VersionAlignment.Json.Cursor
import VersionAlignment.Text.Digits
import VersionAlignment.Text.Lines

/-!
# Reading JSON strings

A string is read character by character: a plain character stands for itself, an escape for the
character it names, and two hex escapes that form a surrogate pair for one character together.
-/

set_option autoImplicit false

namespace VersionAlignment.Json

/-- Read the four hex digits of an escape. Four bytes are taken whatever they are; with fewer left
all of them are. -/
def readHex (c : Cursor) : Except Fault (Nat × Cursor) :=
  match c.rest with
  | a :: b :: d :: e :: rest =>
    match Text.hexValue? a, Text.hexValue? b, Text.hexValue? d, Text.hexValue? e with
    | some a, some b, some d, some e =>
      .ok (((a * 16 + b) * 16 + d) * 16 + e, ⟨rest, c.line, c.column + 4⟩)
    | _, _, _, _ => .error ((c.advanceBytes 4).fault .invalidEscape)
  | short =>
    if Text.byteLength short < 4 then .error (c.finish.fault .endInString)
    else .error ((c.advanceBytes 4).fault .invalidEscape)

/-- Read the second half of a surrogate pair whose first half is `high`. -/
def readLowSurrogate (high : Nat) (c : Cursor) : Except Fault (Char × Cursor) :=
  match c.rest with
  | [] => .error (c.fault .endInString)
  | '\\' :: _ =>
    let c := c.next
    match c.rest with
    | [] => .error (c.fault .endInString)
    | 'u' :: _ => do
      let (low, c) ← readHex c.next
      if 0xdc00 ≤ low ∧ low ≤ 0xdfff then
        .ok (Char.ofNat (0x10000 + (high - 0xd800) * 0x400 + (low - 0xdc00)), c)
      else .error (c.fault .loneLeadingSurrogate)
    | _ => .error (c.faultAhead .unexpectedEndOfHexEscape)
  | _ => .error (c.faultAhead .unexpectedEndOfHexEscape)

/-- Read a hex escape behind its letter. -/
def readHexEscape (c : Cursor) : Except Fault (Char × Cursor) := do
  let (n, c) ← readHex c
  if 0xdc00 ≤ n ∧ n ≤ 0xdfff then .error (c.fault .loneLeadingSurrogate)
  else if 0xd800 ≤ n ∧ n ≤ 0xdbff then readLowSurrogate n c
  else .ok (Char.ofNat n, c)

/-- The character that a letter behind a backslash stands for. -/
def escapedChar? : Char → Option Char
  | '"' => some '"'
  | '\\' => some '\\'
  | '/' => some '/'
  | 'b' => some '\x08'
  | 'f' => some '\x0c'
  | 'n' => some '\n'
  | 'r' => some '\r'
  | 't' => some '\t'
  | _ => none

/-- Read an escape behind its backslash. -/
def readEscape (c : Cursor) : Except Fault (Char × Cursor) :=
  match c.rest with
  | [] => .error (c.fault .endInString)
  | 'u' :: _ => readHexEscape c.next
  | ch :: _ =>
    match escapedChar? ch with
    | some e => .ok (e, c.next)
    | none => .error (c.faultAhead .invalidEscape)

/-- Is the character one that a string holds only as an escape? -/
def isControl (ch : Char) : Bool := ch.toNat < 0x20

/-- Read the characters of a string up to and with its closing quote. `fuel` bounds the number of
characters. -/
def readChars : Nat → Cursor → Except Fault ((List Char) × Cursor)
  | 0, c => .error (c.fault .endInString)
  | fuel + 1, c =>
    match c.rest with
    | [] => .error (c.fault .endInString)
    | ch :: rest =>
      if ch = '"' then .ok ([], c.next)
      else if ch = '\\' then do
        let (e, c) ← readEscape c.next
        let (s, c) ← readChars fuel c
        .ok (e :: s, c)
      else if isControl ch then .error (c.faultAhead .controlCharacter)
      else do
        let (s, c) ← readChars fuel (c.past ch rest)
        .ok (ch :: s, c)

/-- Read a string behind its opening quote. -/
def readString (c : Cursor) : Except Fault (String × Cursor) := do
  let (s, c) ← readChars (c.rest.length + 1) c
  .ok (String.ofList s, c)

end VersionAlignment.Json
