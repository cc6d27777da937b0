import VersionAlignment.Json.Reader

/-!
# Reading records from JSON texts

A record is read member by member while the text is scanned, so of a wrong kind of value and a slip
in the text the earlier one is reported. An object gives each member at most once and may have
members that the record does not know; they are skipped, however deeply nested. A list gives the
fields in their order and may stop early.
-/

set_option autoImplicit false

namespace VersionAlignment.Json

/-- A reader of values of one type. -/
abbrev Decoder (α : Type) := Cursor → Except Fault (α × Cursor)

/-- The kind of the value ahead. Lists and objects are not entered, all other values are read. -/
def readKind (c : Cursor) : Except Fault (Kind × Cursor) :=
  match c.rest with
  | [] => .error (c.faultAhead .endInValue)
  | '[' :: _ => .ok (.sequence, c)
  | '\x7b' :: _ => .ok (.map, c)
  | ch :: _ => do
    let (v, c) ← readScalar ch c
    match v with
    | .bool b => .ok (.boolean b, c)
    | .number n => .ok (.number n, c)
    | .string s => .ok (.string s, c)
    | .list _ => .ok (.sequence, c)
    | .object _ => .ok (.map, c)
    | .null => .ok (.null, c)

/-- Refuse the value ahead for its kind. -/
def refuseKind {α : Type} (expected : String) (c : Cursor) : Except Fault α := do
  let (got, c) ← readKind c
  .error (c.fault (.wrongKind got expected))

/-- Read a string; `expected` names what it stands for. -/
def readText (expected : String) : Decoder String := fun c =>
  let c := c.skipBlanks
  match c.rest with
  | [] => .error (c.faultAhead .endInValue)
  | '"' :: _ => readString c.next
  | _ => refuseKind expected c

/-- Read a number. -/
def readNumber (expected : String) : Decoder Number := fun c =>
  let c := c.skipBlanks
  match c.rest with
  | [] => .error (c.faultAhead .endInValue)
  | '-' :: _ => readUnsigned true c.next
  | ch :: _ => if ch.isDigit then readUnsigned false c else refuseKind expected c

/-- Read an integer from zero to `2 ^ 64 - 1`. -/
def readNatural : Decoder Nat := fun c => do
  let (n, c) ← readNumber "u64" c
  match n with
  | .natural n => .ok (n, c)
  | .negative _ => .error (c.fault (.wrongValue (.number n) "u64"))
  | .decimal _ _ => .error (c.fault (.wrongKind (.number n) "u64"))

/-- Read an integer from `-2 ^ 63` to `2 ^ 63 - 1`. -/
def readInteger : Decoder Int := fun c => do
  let (n, c) ← readNumber "i64" c
  match n with
  | .natural k =>
    if k < Nat.pow 2 63 then .ok ((k : Int), c)
    else .error (c.fault (.wrongValue (.number n) "i64"))
  | .negative k => .ok (-(k : Int), c)
  | .decimal _ _ => .error (c.fault (.wrongKind (.number n) "i64"))

/-- Read a truth value. -/
def readBool : Decoder Bool := fun c =>
  let c := c.skipBlanks
  match c.rest with
  | [] => .error (c.faultAhead .endInValue)
  | 't' :: _ => do
    let (_, c) ← readName ['r', 'u', 'e'] .null c
    .ok (true, c)
  | 'f' :: _ => do
    let (_, c) ← readName ['a', 'l', 's', 'e'] .null c
    .ok (false, c)
  | _ => refuseKind "a boolean" c

/-- Read the items of a list, and leave the closing bracket. -/
def decodeItems {α : Type} (item : Decoder α) : Nat → Bool → Decoder (List α)
  | 0, _, c => .error (c.fault .endInList)
  | fuel + 1, first, c => do
    let (more, c) ← beforeItem first c
    if more then
      let (a, c) ← item c
      let (as, c) ← decodeItems item fuel false c
      .ok (a :: as, c)
    else .ok ([], c)

/-- Read a list. -/
def readList {α : Type} (item : Decoder α) : Decoder (List α) := fun c =>
  let c := c.skipBlanks
  match c.rest with
  | [] => .error (c.faultAhead .endInValue)
  | '[' :: rest => do
    let (as, c) ← decodeItems item (rest.length + 1) true c.next
    .ok (as, c.next)
  | _ => refuseKind "a sequence" c

/-! ## Skipping values -/

/-- Move over the digits at the front. -/
def skipDigits (c : Cursor) : Cursor := (digitRun c).2

/-- Move over an exponent, the cursor being on its letter. -/
def skipExponent (c : Cursor) : Except Fault Cursor :=
  let c := c.next
  let c := match c.rest with
    | '+' :: _ => c.next
    | '-' :: _ => c.next
    | _ => c
  match c.rest with
  | ch :: _ => if ch.isDigit then .ok (skipDigits c) else .error (c.faultAhead .invalidNumber)
  | [] => .error (c.fault .invalidNumber)

/-- Move over an exponent if there is one. -/
def skipExponent? (c : Cursor) : Except Fault Cursor :=
  match c.rest with
  | 'e' :: _ => skipExponent c
  | 'E' :: _ => skipExponent c
  | _ => .ok c

/-- Move over a number behind its sign. -/
def skipNumber (c : Cursor) : Except Fault Cursor := do
  let c ← match c.rest with
    | [] => .error (c.fault .invalidNumber)
    | '0' :: d :: _ =>
      if d.isDigit then .error (c.next.faultAhead .invalidNumber) else .ok c.next
    | ch :: _ => if ch.isDigit then .ok (skipDigits c) else .error (c.faultAhead .invalidNumber)
  match c.rest with
  | '.' :: _ =>
    match digitRun c.next with
    | ([], behind) => .error (behind.faultAhead .invalidNumber)
    | (_, behind) => skipExponent? behind
  | _ => skipExponent? c

/-- Move over an escape behind its backslash; halves of surrogate pairs may stand alone. -/
def skipEscape (c : Cursor) : Except Fault Cursor :=
  match c.rest with
  | [] => .error (c.fault .endInString)
  | 'u' :: _ => do
    let (_, c) ← readHex c.next
    .ok c
  | ch :: _ => if (escapedChar? ch).isSome then .ok c.next else .error (c.faultAhead .invalidEscape)

/-- Move over a string behind its opening quote. -/
def skipString : Nat → Cursor → Except Fault Cursor
  | 0, c => .error (c.fault .endInString)
  | fuel + 1, c =>
    match c.rest with
    | [] => .error (c.fault .endInString)
    | ch :: rest =>
      if ch = '"' then .ok c.next
      else if ch = '\\' then do
        let c ← skipEscape c.next
        skipString fuel c
      else if isControl ch then .error (c.fault .controlCharacter)
      else skipString fuel (c.past ch rest)

/-- A bracket that is open while values are skipped. -/
inductive Bracket where
  | list
  | object
  deriving Repr, DecidableEq

/-- Move over closing brackets and at most one comma behind a value, or behind an opening bracket
when `mayBeEmpty` is set. The brackets that are still open are given back; none means that the
value is complete. -/
def skipClosing : Nat → Bool → List Bracket → Cursor → Except Fault (List Bracket × Cursor)
  | 0, _, _, c => .error (c.fault .endInValue)
  | _, _, [], c => .ok ([], c)
  | fuel + 1, mayBeEmpty, b :: outer, c =>
    let c := c.skipBlanks
    match b, c.rest with
    | .list, [] => .error (c.faultAhead .endInList)
    | .object, [] => .error (c.faultAhead .endInObject)
    | .list, ']' :: _ => skipClosing fuel false outer c.next
    | .object, '\x7d' :: _ => skipClosing fuel false outer c.next
    | _, ch :: _ =>
      if mayBeEmpty then .ok (b :: outer, c)
      else if ch = ',' then .ok (b :: outer, c.next)
      else match b with
        | .list => .error (c.faultAhead .expectedListCommaOrEnd)
        | .object => .error (c.faultAhead .expectedObjectCommaOrEnd)

/-- Move over the name of a member and its colon if the innermost open bracket is that of an
object. -/
def skipMemberName (b : Bracket) (c : Cursor) : Except Fault Cursor :=
  match b with
  | .list => .ok c
  | .object => do
    let c := c.skipBlanks
    let c ← match c.rest with
      | [] => .error (c.faultAhead .endInObject)
      | '"' :: rest => skipString (rest.length + 1) c.next
      | _ => .error (c.faultAhead .keyMustBeString)
    skipColon c

/-- Move over a value inside the given open brackets and over what closes them. -/
def skipNested : Nat → List Bracket → Cursor → Except Fault Cursor
  | 0, _, c => .error (c.fault .endInValue)
  | fuel + 1, opened, c => do
    let c := c.skipBlanks
    let (entered, c) ← match c.rest with
      | [] => .error (c.faultAhead .endInValue)
      | '[' :: _ => .ok (some Bracket.list, c.next)
      | '\x7b' :: _ => .ok (some Bracket.object, c.next)
      | '"' :: rest => do .ok (none, ← skipString (rest.length + 1) c.next)
      | '-' :: _ => do .ok (none, ← skipNumber c.next)
      | ch :: _ =>
        if ch.isDigit then do .ok (none, ← skipNumber c)
        else do
          let (_, c) ← readScalar ch c
          .ok (none, c)
    let (opened, c) ← skipClosing (c.rest.length + 2) entered.isSome (entered.toList ++ opened) c
    match opened with
    | [] => .ok c
    | b :: _ =>
      let c ← skipMemberName b c
      skipNested fuel opened c

/-- Move over any value. -/
def skipValue (c : Cursor) : Except Fault Cursor := skipNested (c.rest.length + 1) [] c

/-! ## Records -/

/-- A field of a record that is filled while the text is read. -/
structure RecordField (σ : Type) where
  name : String
  /-- Has the field been read? -/
  isSet : σ → Bool
  /-- Read the field. -/
  read : σ → Decoder σ

/-- Read the fields of a list in their order, and leave the closing bracket. -/
def decodePositional {σ : Type} : List (RecordField σ) → Bool → σ → Decoder σ
  | [], _, s, c => .ok (s, c)
  | f :: more, first, s, c => do
    let (present, c) ← beforeItem first c
    if present then
      let (s, c) ← f.read s c
      decodePositional more false s c
    else .ok (s, c)

/-- Move over the bracket that closes a list of fields. -/
def closePositional (c : Cursor) : Except Fault Cursor :=
  let c := c.skipBlanks
  match c.rest with
  | [] => .error (c.faultAhead .endInList)
  | ']' :: _ => .ok c.next
  | ',' :: _ =>
    let c := c.next.skipBlanks
    match c.rest with
    | ']' :: _ => .error (c.faultAhead .trailingComma)
    | _ => .error (c.faultAhead .trailingCharacters)
  | _ => .error (c.faultAhead .trailingCharacters)

/-- The fault of a member that is given again. It is reported behind the blanks after its name, and
behind a closing brace that stands there. -/
def repeatedMember (name : String) (c : Cursor) : Fault :=
  let c := c.skipBlanks
  match c.rest with
  | '\x7d' :: _ => c.next.fault (.repeatedMember name)
  | _ => c.fault (.repeatedMember name)

/-- Read the members of an object and its closing brace. -/
def decodeMembers {σ : Type} (fields : List (RecordField σ)) : Nat → Bool → σ → Decoder σ
  | 0, _, _, c => .error (c.fault .endInObject)
  | fuel + 1, first, s, c => do
    let (more, c) ← beforeMember first c
    if more then
      let (name, c) ← readString c.next
      match fields.find? fun f => f.name == name with
      | none =>
        let c ← skipColon c
        let c ← skipValue c
        decodeMembers fields fuel false s c
      | some f =>
        if f.isSet s then .error (repeatedMember name c)
        else
          let c ← skipColon c
          let (s, c) ← f.read s c
          decodeMembers fields fuel false s c
    else .ok (s, c.next)

/-- Read a record from an object or a list; `expected` names it. -/
def readRecord {σ : Type} (expected : String) (fields : List (RecordField σ)) (empty : σ) :
    Decoder σ := fun c =>
    let c := c.skipBlanks
    match c.rest with
    | [] => .error (c.faultAhead .endInValue)
    | '[' :: _ => do
      let (s, c) ← decodePositional fields true empty c.next
      .ok (s, ← closePositional c)
    | '\x7b' :: rest => decodeMembers fields (rest.length + 1) true empty c.next
    | _ => refuseKind expected c

/-- A field that has to be present. -/
def required {α : Type} (name : String) (a? : Option α) (c : Cursor) :
    Except Fault (α × Cursor) :=
  match a? with
  | some a => .ok (a, c)
  | none => .error (c.fault (.missingMember name))

/-- Read a whole text. -/
def decode {α : Type} (decoder : Decoder α) (text : List Char) : Except Fault α := do
  let (a, c) ← decoder (Cursor.start text)
  atEnd c
  .ok a

end VersionAlignment.Json
