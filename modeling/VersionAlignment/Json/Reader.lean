import VersionAlignment.Json.Number
import VersionAlignment.Json.Text

/-!
# Reading JSON texts

Lists and objects may be nested `depthLimit` deep. The reader for one level of nesting is built
from the reader for the level below, so reading is recursion on the depth that is left, and inside
a list or an object on the number of its members.
-/

set_option autoImplicit false

namespace VersionAlignment.Json

/-- How many levels of nesting are read. -/
def depthLimit : Nat := 127

/-- Read the letters of a literal name one by one. -/
def readLetters : List Char → Cursor → Except Fault Cursor
  | [], c => .ok c
  | expected :: more, c =>
    match c.rest with
    | [] => .error (c.fault .endInValue)
    | ch :: _ =>
      if ch = expected then readLetters more c.next
      else .error (c.faultAhead .expectedIdent)

/-- Read one of the literal names, the cursor being on its first letter. -/
def readName (letters : List Char) (v : Value) (c : Cursor) : Except Fault (Value × Cursor) := do
  let c ← readLetters letters c.next
  .ok (v, c)

/-- Is another item of a list to be read? `first` tells whether none has been read yet. -/
def beforeItem (first : Bool) (c : Cursor) : Except Fault (Bool × Cursor) :=
  let c := c.skipBlanks
  match c.rest with
  | [] => .error (c.faultAhead .endInList)
  | ']' :: _ => .ok (false, c)
  | ch :: _ =>
    if first then .ok (true, c)
    else if ch = ',' then
      let c := c.next.skipBlanks
      match c.rest with
      | [] => .error (c.faultAhead .endInValue)
      | ']' :: _ => .error (c.faultAhead .trailingComma)
      | _ => .ok (true, c)
    else .error (c.faultAhead .expectedListCommaOrEnd)

/-- Is another member of an object to be read? If so the cursor is left on the quote of its name.
`first` tells whether none has been read yet. -/
def beforeMember (first : Bool) (c : Cursor) : Except Fault (Bool × Cursor) :=
  let c := c.skipBlanks
  match c.rest with
  | [] => .error (c.faultAhead .endInObject)
  | '\x7d' :: _ => .ok (false, c)
  | ch :: _ =>
    if first then
      if ch = '"' then .ok (true, c) else .error (c.faultAhead .keyMustBeString)
    else if ch = ',' then
      let c := c.next.skipBlanks
      match c.rest with
      | [] => .error (c.faultAhead .endInValue)
      | '"' :: _ => .ok (true, c)
      | '\x7d' :: _ => .error (c.faultAhead .trailingComma)
      | _ => .error (c.faultAhead .keyMustBeString)
    else .error (c.faultAhead .expectedObjectCommaOrEnd)

/-- Move over the colon behind a member's name. -/
def skipColon (c : Cursor) : Except Fault Cursor :=
  let c := c.skipBlanks
  match c.rest with
  | [] => .error (c.faultAhead .endInObject)
  | ':' :: _ => .ok c.next
  | _ => .error (c.faultAhead .expectedColon)

/-- Read the items of a list and its closing bracket. `fuel` bounds the number of items. -/
def readItems (item : Cursor → Except Fault (Value × Cursor)) :
    Nat → Bool → Cursor → Except Fault (List Value × Cursor)
  | 0, _, c => .error (c.fault .endInList)
  | fuel + 1, first, c => do
    let (more, c) ← beforeItem first c
    if more then
      let (v, c) ← item c
      let (vs, c) ← readItems item fuel false c
      .ok (v :: vs, c)
    else .ok ([], c.next)

/-- Read the members of an object and its closing brace. `fuel` bounds the number of members. -/
def readMembers (item : Cursor → Except Fault (Value × Cursor)) :
    Nat → Bool → Cursor → Except Fault ((List (String × Value)) × Cursor)
  | 0, _, c => .error (c.fault .endInObject)
  | fuel + 1, first, c => do
    let (more, c) ← beforeMember first c
    if more then
      let (name, c) ← readString c.next
      let c ← skipColon c
      let (v, c) ← item c
      let (ms, c) ← readMembers item fuel false c
      .ok ((name, v) :: ms, c)
    else .ok ([], c.next)

/-- Read a value that is neither a list nor an object, the cursor being on its first character. -/
def readScalar (ch : Char) (c : Cursor) : Except Fault (Value × Cursor) :=
  if ch = '"' then do
    let (s, c) ← readString c.next
    .ok (.string s, c)
  else if ch = '-' then do
    let (n, c) ← readUnsigned true c.next
    .ok (.number n, c)
  else if ch.isDigit then do
    let (n, c) ← readUnsigned false c
    .ok (.number n, c)
  else if ch = 'n' then readName ['u', 'l', 'l'] .null c
  else if ch = 't' then readName ['r', 'u', 'e'] (.bool true) c
  else if ch = 'f' then readName ['a', 'l', 's', 'e'] (.bool false) c
  else .error (c.faultAhead .expectedValue)

/-- Read a value with at most the given number of levels of nesting. -/
def readValue (depth : Nat) (c : Cursor) : Except Fault (Value × Cursor) :=
  let c := c.skipBlanks
  match c.rest with
  | [] => .error (c.faultAhead .endInValue)
  | ch :: rest =>
    if ch = '[' then
      match depth with
      | 0 => .error (c.faultAhead .tooDeep)
      | below + 1 => do
        let (vs, c) ← readItems (readValue below) (rest.length + 1) true c.next
        .ok (.list vs, c)
    else if ch = '\x7b' then
      match depth with
      | 0 => .error (c.faultAhead .tooDeep)
      | below + 1 => do
        let (ms, c) ← readMembers (readValue below) (rest.length + 1) true c.next
        .ok (.object ms, c)
    else readScalar ch c

/-- Nothing but blanks may stand behind the document. -/
def atEnd (c : Cursor) : Except Fault Unit :=
  let c := c.skipBlanks
  match c.rest with
  | [] => .ok ()
  | _ => .error (c.faultAhead .trailingCharacters)

/-- The value of a JSON text. -/
def parse (text : List Char) : Except Fault Value := do
  let (v, c) ← readValue depthLimit (Cursor.start text)
  atEnd c
  .ok v

end VersionAlignment.Json
