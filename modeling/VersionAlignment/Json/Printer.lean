import VersionAlignment.Json.Value

/-!
# Writing JSON texts

Values are written over several lines, two spaces to the level; an empty list or object takes no
line of its own.
-/

set_option autoImplicit false

namespace VersionAlignment.Json

/-- The hex digits of a control character, four of them. -/
def hexDigits (n : Nat) : List Char :=
  let ds := Nat.toDigits 16 n
  List.replicate (4 - ds.length) '0' ++ ds

/-- A character as it stands inside quotes. -/
def quotedChar (ch : Char) : List Char :=
  match ch with
  | '"' => ['\\', '"']
  | '\\' => ['\\', '\\']
  | '\n' => ['\\', 'n']
  | '\r' => ['\\', 'r']
  | '\t' => ['\\', 't']
  | '\x08' => ['\\', 'b']
  | '\x0c' => ['\\', 'f']
  | ch => if ch.toNat < 0x20 then '\\' :: 'u' :: hexDigits ch.toNat else [ch]

/-- A string in quotes. -/
def quoted (s : String) : List Char := '"' :: (s.toList.flatMap quotedChar ++ ['"'])

/-- The start of a line at the given level. -/
def newLine (level : Nat) : List Char := '\n' :: List.replicate (2 * level) ' '

mutual

/-- A value, written at the given level. -/
def write (level : Nat) : Value → List Char
  | .null => ['n', 'u', 'l', 'l']
  | .bool true => ['t', 'r', 'u', 'e']
  | .bool false => ['f', 'a', 'l', 's', 'e']
  | .number n => n.text
  | .string s => quoted s
  | .list [] => ['[', ']']
  | .list (v :: vs) =>
    '[' :: (newLine (level + 1) ++ write (level + 1) v ++ writeItems (level + 1) vs
      ++ newLine level ++ [']'])
  | .object [] => ['\x7b', '\x7d']
  | .object ((name, v) :: ms) =>
    '\x7b' :: (newLine (level + 1) ++ quoted name ++ [':', ' '] ++ write (level + 1) v
      ++ writeMembers (level + 1) ms ++ newLine level ++ ['\x7d'])

/-- The items behind the first one. -/
def writeItems (level : Nat) : List Value → List Char
  | [] => []
  | v :: vs => ',' :: (newLine level ++ write level v ++ writeItems level vs)

/-- The members behind the first one. -/
def writeMembers (level : Nat) : List (String × Value) → List Char
  | [] => []
  | (name, v) :: ms =>
    ',' :: (newLine level ++ quoted name ++ [':', ' '] ++ write level v ++ writeMembers level ms)

end

/-- The text of a value. -/
def Value.pretty (v : Value) : String := String.ofList (write 0 v)

end VersionAlignment.Json
