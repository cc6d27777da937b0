import VersionAlignment.Decimal.Shortest

/-!
# JSON values

The members of an object are kept in the order of the text, repeated names included; looking a
name up gives its last member, so a repeated name is decided by the last one.
-/

set_option autoImplicit false

namespace VersionAlignment.Json

open Decimal

/-- A number of a JSON text: an integer that fits 64 bits, and otherwise a floating-point number. -/
inductive Number where
  /-- An integer from zero to `2 ^ 64 - 1`. -/
  | natural (n : Nat)
  /-- The integer `-n`, for `n` from one to `2 ^ 63`. -/
  | negative (n : Nat)
  /-- A floating-point number; zero has a sign too. -/
  | decimal (isNegative : Bool) (magnitude : Binary64)
  deriving Repr, DecidableEq

/-- Numbers are written without an exponent when the place of their first digit is between -5
and 15, and the exponents of all others carry a sign. -/
def numberLayout : Notation := ⟨-5, 15, true⟩

/-- The text of a number. -/
def Number.text : Number → List Char
  | .natural n => digitsText n
  | .negative n => '-' :: digitsText n
  | .decimal isNegative x => (if isNegative then ['-'] else []) ++ numberLayout.numberText x

/-- A JSON value. -/
inductive Value where
  | null
  | bool (b : Bool)
  | number (n : Number)
  | string (s : String)
  | list (items : List Value)
  | object (members : List (String × Value))
  deriving Repr

namespace Value

/-- The value of the last member with the given name. -/
def lookup? (name : String) (members : List (String × Value)) : Option Value :=
  (members.reverse.find? fun m => m.1 == name).map Prod.snd

/-- The member of an object; other values have none. -/
def member? (name : String) : Value → Option Value
  | .object members => lookup? name members
  | _ => none

/-- The items of a list; other values have none. -/
def items : Value → List Value
  | .list vs => vs
  | _ => []

/-- Is the value a list? -/
def isList : Value → Bool
  | .list _ => true
  | _ => false

/-- The items of a member that is a list; none if the member is missing or something else. -/
def itemsOf (name : String) (v : Value) : List Value := ((v.member? name).map items).getD []

/-- The text of a string value. -/
def string? : Value → Option String
  | .string s => some s
  | _ => none

end Value

end VersionAlignment.Json
