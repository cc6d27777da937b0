import VersionAlignment.Text.Lines
import VersionAlignment.Web.Fault
import VersionAlignment.Web.Percent
import VersionAlignment.Web.Punycode

/-!
# Hosts

A host is known by a name or by a number: one of 32 bits, written as four bytes in decimal, or one
of 128 bits, written as eight pieces in hex. Many ways of writing a number are understood, and each
host is shown in one way.
-/

set_option autoImplicit false

namespace VersionAlignment.Web

open VersionAlignment.Text

/-- A host. -/
inductive Host where
  | name (text : String)
  | ip4 (address : UInt32)
  | ip6 (pieces : Vector UInt16 8)
  deriving Repr, DecidableEq

/-! ## Four bytes -/

/-- The number that a part of an address spells: in hex behind `0x`, in octal behind a zero, and in
decimal otherwise. -/
def ip4Part? : List Char → Option Nat
  | [] => none
  | ['0'] => some 0
  | '0' :: 'x' :: ds => numeral? 16 ds
  | '0' :: 'X' :: ds => numeral? 16 ds
  | '0' :: ds => numeral? 8 ds
  | ds => numeral? 10 ds

/-- The parts without an empty one at the end. -/
def dropEmptyEnd (parts : List (List Char)) : List (List Char) :=
  if parts.getLast? = some [] then parts.dropLast else parts

/-- Is a host with these parts meant to be a number? The last part decides. -/
def endsInNumber (parts : List (List Char)) : Bool :=
  match parts.getLast? with
  | none => false
  | some part => (part ≠ [] && part.all Char.isDigit) || (ip4Part? part).isSome

/-- The address that its parts spell. Every part but the last is one byte; the last one fills the
bytes that are left. -/
def ip4? (parts : List (List Char)) : Option UInt32 := do
  let numbers ← parts.mapM ip4Part?
  let last ← numbers.getLast?
  let front := numbers.dropLast
  let room := Nat.pow 256 (4 - front.length)
  if front.length < 4 ∧ front.all (· < 256) ∧ last < room then
    some (UInt32.ofNat (front.foldl (256 * · + ·) 0 * room + last))
  else none

/-- An address as four bytes. -/
def ip4Text (address : UInt32) : String :=
  String.intercalate "."
    ([3, 2, 1, 0].map fun k => toString (address.toNat / Nat.pow 256 k % 256))

/-! ## Eight pieces -/

/-- A piece: one to four hex digits. -/
def ip6Piece? (ds : List Char) : Option Nat :=
  if 1 ≤ ds.length ∧ ds.length ≤ 4 then numeral? 16 ds else none

/-- A byte in decimal, without leading zeros. -/
def strictByte? (ds : List Char) : Option Nat :=
  if ds = [] ∨ (ds.head? = some '0' ∧ ds.length ≠ 1) then none
  else (numeral? 10 ds).filter (· < 256)

/-- Two pieces that are written as four bytes. -/
def dottedPieces? (ds : List Char) : Option (List Nat) := do
  match ← (splitAt '.' ds).mapM strictByte? with
  | [a, b, c, d] => some [256 * a + b, 256 * c + d]
  | _ => none

/-- The pieces of a text. The last two can be written as four bytes. -/
def ip6Pieces? (s : List Char) : Option (List Nat) :=
  if s = [] then some []
  else
    let parts := splitAt ':' s
    match parts.getLast? with
    | none => none
    | some last =>
      if last.contains '.' then do
        return (← parts.dropLast.mapM ip6Piece?) ++ (← dottedPieces? last)
      else parts.mapM ip6Piece?

/-- What stands before and behind the first two colons in a row. -/
def splitGap : List Char → Option (List Char × List Char)
  | ':' :: ':' :: more => some ([], more)
  | c :: more => (splitGap more).map fun p => (c :: p.1, p.2)
  | [] => none

/-- The address that a text spells. Two colons in a row stand for all the zero pieces that are
missing, of which there is one at least. -/
def ip6? (s : List Char) : Option (Vector UInt16 8) := do
  let numbers ←
    match splitGap s with
    | none => ip6Pieces? s
    | some (front, back) =>
      let front ← if front.contains '.' then none else ip6Pieces? front
      let back ← ip6Pieces? back
      let zeros := List.replicate (max 1 (8 - (front.length + back.length))) 0
      some (front ++ zeros ++ back)
  if numbers.length = 8 then
    some (Vector.ofFn fun i : Fin 8 => UInt16.ofNat (numbers.getD i 0))
  else none

/-- Pieces in hex. -/
def piecesText (pieces : List UInt16) : String :=
  String.intercalate ":" (pieces.map fun p => String.ofList (Nat.toDigits 16 p.toNat))

/-- How many zero pieces there are from an index on. -/
def zeroRun (pieces : List UInt16) (i : Nat) : Nat := ((pieces.drop i).takeWhile (· == 0)).length

/-- The index where the longest run of zero pieces begins, the first of them if there are more. -/
def longestZeroRun (pieces : List UInt16) : Nat :=
  (List.range pieces.length).foldl
    (fun best i => if zeroRun pieces best < zeroRun pieces i then i else best) 0

/-- An address as eight pieces. The longest run of two or more zero pieces is left out. -/
def ip6Text (address : Vector UInt16 8) : String :=
  let pieces := address.toList
  let start := longestZeroRun pieces
  let run := zeroRun pieces start
  if 2 ≤ run then
    piecesText (pieces.take start) ++ "::" ++ piecesText (pieces.drop (start + run))
  else piecesText pieces

/-! ## Names -/

/-- A label in lower case and in ASCII. A label that is not ASCII is taken to be in lower case and
composed already. -/
def asciiLabel (label : List Char) : List Char :=
  let label := label.map Char.toLower
  if label.all (·.toNat < 128) then label else "xn--".toList ++ Punycode.encode label

/-- The characters that separate the parts of an address. -/
def separators : List Char :=
  ['#', '/', ':', '<', '>', '?', '@', '[', '\\', ']', '^', '|']

/-- Can the character be part of a name? -/
def isNameChar (c : Char) : Bool :=
  0x20 < c.toNat && c.toNat != 0x7f && c != '%' && !separators.contains c

namespace Host

/-- The host between square brackets. -/
def parseBracketed (s : List Char) : Except Fault Host :=
  match s.getLast?, ip6? s.dropLast with
  | some ']', some pieces => .ok (.ip6 pieces)
  | _, _ => .error .badIp6

/-- The host that a text names. -/
def parse (s : List Char) : Except Fault Host :=
  match s with
  | [] => .error .hostMissing
  | '[' :: more => parseBracketed more
  | _ =>
    match String.fromUTF8? ⟨(percentDecode s).toArray⟩ with
    | none => .error .badName
    | some text =>
      let labels := (splitAt '.' text.toList).map asciiLabel
      if !(labels.all fun l => l.all isNameChar) then .error .badName
      else
        let parts := dropEmptyEnd labels
        if endsInNumber parts then
          match ip4? parts with
          | some address => .ok (.ip4 address)
          | none => .error .badIp4
        else .ok (.name (String.ofList (joinWith ['.'] labels)))

/-- The host that a text names in an address of a scheme that is not known. -/
def parseUnknown (s : List Char) : Except Fault Host :=
  match s with
  | '[' :: more => parseBracketed more
  | _ =>
    if s.any fun c => c = '\x00' ∨ c = ' ' ∨ separators.contains c then .error .badHostCharacter
    else
      let isPlain c := 0x20 ≤ c.toNat && c.toNat < 0x7f
      .ok (.name (String.ofList (percentEncode isPlain s)))

/-- A host as it is shown. -/
def text : Host → String
  | .name s => s
  | .ip4 address => ip4Text address
  | .ip6 pieces => "[" ++ ip6Text pieces ++ "]"

end Host

end VersionAlignment.Web
