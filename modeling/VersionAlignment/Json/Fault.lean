import VersionAlignment.Json.Value
import VersionAlignment.Text.Escape

/-!
# What is wrong with a JSON text

A `Fault` is a problem and the place where reading stopped: the line, counted from one, and the
number of bytes read on that line.
-/

set_option autoImplicit false

namespace VersionAlignment.Json

/-- A value as it is named in a complaint about its kind. -/
inductive Kind where
  | null
  | boolean (b : Bool)
  | number (n : Number)
  | string (s : String)
  | sequence
  | map
  deriving Repr, DecidableEq

/-- The wording of a kind. -/
def Kind.text : Kind → String
  | .null => "null"
  | .boolean b => "boolean `" ++ (if b then "true" else "false") ++ "`"
  | .number n@(.decimal _ _) => "floating point `" ++ String.ofList n.text ++ "`"
  | .number n => "integer `" ++ String.ofList n.text ++ "`"
  | .string s => "string " ++ Text.inQuotes s
  | .sequence => "sequence"
  | .map => "map"

/-- Why a text is not the JSON text that was asked for. -/
inductive Problem where
  | endInValue
  | endInList
  | endInObject
  | endInString
  | expectedValue
  | expectedIdent
  | expectedColon
  | expectedListCommaOrEnd
  | expectedObjectCommaOrEnd
  | keyMustBeString
  | trailingComma
  | trailingCharacters
  | invalidNumber
  | numberOutOfRange
  | invalidEscape
  | controlCharacter
  | loneLeadingSurrogate
  | unexpectedEndOfHexEscape
  | tooDeep
  /-- A value of the wrong kind. -/
  | wrongKind (got : Kind) (expected : String)
  /-- A value of the right kind that is not one of those expected. -/
  | wrongValue (got : Kind) (expected : String)
  /-- A member that an object may hold only once. -/
  | repeatedMember (name : String)
  /-- A member that an object has to hold. -/
  | missingMember (name : String)
  deriving Repr, DecidableEq

/-- The wording of a problem. -/
def Problem.text : Problem → String
  | .endInValue => "EOF while parsing a value"
  | .endInList => "EOF while parsing a list"
  | .endInObject => "EOF while parsing an object"
  | .endInString => "EOF while parsing a string"
  | .expectedValue => "expected value"
  | .expectedIdent => "expected ident"
  | .expectedColon => "expected `:`"
  | .expectedListCommaOrEnd => "expected `,` or `]`"
  | .expectedObjectCommaOrEnd => "expected `,` or `\x7d`"
  | .keyMustBeString => "key must be a string"
  | .trailingComma => "trailing comma"
  | .trailingCharacters => "trailing characters"
  | .invalidNumber => "invalid number"
  | .numberOutOfRange => "number out of range"
  | .invalidEscape => "invalid escape"
  | .controlCharacter => "control character (\\u0000-\\u001F) found while parsing a string"
  | .loneLeadingSurrogate => "lone leading surrogate in hex escape"
  | .unexpectedEndOfHexEscape => "unexpected end of hex escape"
  | .tooDeep => "recursion limit exceeded"
  | .wrongKind got expected => "invalid type: " ++ got.text ++ ", expected " ++ expected
  | .wrongValue got expected => "invalid value: " ++ got.text ++ ", expected " ++ expected
  | .repeatedMember name => "duplicate field `" ++ name ++ "`"
  | .missingMember name => "missing field `" ++ name ++ "`"

/-- A problem and its place. -/
structure Fault where
  problem : Problem
  line : Nat
  column : Nat
  deriving Repr, DecidableEq

/-- The wording of a fault. -/
def Fault.message (f : Fault) : String :=
  f.problem.text ++ " at line " ++ toString f.line ++ " column " ++ toString f.column

end VersionAlignment.Json
