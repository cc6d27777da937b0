import VersionAlignment.Json.Cursor

/-!
# Reading JSON numbers

Digits are gathered into a significand for as long as it fits 64 bits. Digits of the whole part
that do not fit any more raise the exponent; digits behind the point that do not fit are dropped.
An integer that fits is kept as it is, and everything else becomes a floating-point number.

## Results

* `isDigit_of_mem_digitRun`: a run of digits holds digits only.
-/

set_option autoImplicit false

namespace VersionAlignment.Json

open Decimal

/-- Significands are held in 64 bits. -/
def significandLimit : Nat := Nat.pow 2 64

/-- Exponents are held in 31 bits and a sign. -/
def exponentLimit : Nat := Nat.pow 2 31

/-- The value of a digit. -/
def digitValue (ch : Char) : Nat := ch.toNat - '0'.toNat

/-- The digits at the front of the rest, which can be empty, and the cursor behind them. -/
def digitRun (c : Cursor) : List Char × Cursor :=
  let ds := c.rest.takeWhile Char.isDigit
  (ds, ⟨c.rest.drop ds.length, c.line, c.column + ds.length⟩)

theorem isDigit_of_mem_digitRun {c : Cursor} {ch : Char} (h : ch ∈ (digitRun c).1) :
    ch.isDigit = true := by
  simp only [digitRun] at h
  exact List.all_eq_true.1 List.all_takeWhile ch h

/-- Gather digits into a significand for as long as it fits: the significand and the digits that
were left out. -/
def gather (limit : Nat) : Nat → List Char → Nat × List Char
  | n, [] => (n, [])
  | n, d :: ds =>
    let n' := n * 10 + digitValue d
    if n' < limit then gather limit n' ds else (n, d :: ds)

/-- The floating-point number with the given sign, significand and power of ten. -/
def decimalOf (isNegative : Bool) (digits : Nat) (exponent : Int) (c : Cursor) :
    Except Fault (Number × Cursor) :=
  match Binary64.ofDecimal? digits exponent with
  | some x => .ok (.decimal isNegative x, c)
  | none => .error (c.fault .numberOutOfRange)

/-- An exponent that is read one step further is held at the ends of its range. -/
def clampExponent (e : Int) : Int := max (-exponentLimit) (min e (exponentLimit - 1))

/-- Read the digits of an exponent, the cursor being behind its sign. A number other than zero is
out of range when its exponent is positive and does not fit; with a negative one it is zero. -/
def readExponentDigits (isNegative : Bool) (digits : Nat) (before : Int) (upwards : Bool)
    (c : Cursor) : Except Fault (Number × Cursor) :=
  match c.rest with
  | [] => .error (c.fault .endInValue)
  | ch :: _ =>
    if ch.isDigit then
      let (ds, behind) := digitRun c
      let (e, leftOut) := gather exponentLimit 0 ds
      match leftOut with
      | [] =>
        let exponent := clampExponent (if upwards then before + e else before - e)
        decimalOf isNegative digits exponent behind
      | _ :: tail =>
        if digits ≠ 0 ∧ upwards then
          let read := ds.length - tail.length
          .error ((⟨c.rest.drop read, c.line, c.column + read⟩ : Cursor).fault .numberOutOfRange)
        else .ok (.decimal isNegative Binary64.zero, behind)
    else .error (c.faultAhead .invalidNumber)

/-- Read an exponent, the cursor being on its letter. -/
def readExponent (isNegative : Bool) (digits : Nat) (before : Int) (c : Cursor) :
    Except Fault (Number × Cursor) :=
  let c := c.next
  match c.rest with
  | '+' :: _ => readExponentDigits isNegative digits before true c.next
  | '-' :: _ => readExponentDigits isNegative digits before false c.next
  | _ => readExponentDigits isNegative digits before true c

/-- Go on with an exponent if there is one. -/
def readRest (isNegative : Bool) (digits : Nat) (exponent : Int) (c : Cursor) :
    Except Fault (Number × Cursor) :=
  match c.rest with
  | 'e' :: _ => readExponent isNegative digits exponent c
  | 'E' :: _ => readExponent isNegative digits exponent c
  | _ => decimalOf isNegative digits exponent c

/-- Read the digits behind a point, the cursor being on the point. `before` is the number of
digits of the whole part that did not fit the significand. -/
def readFraction (isNegative : Bool) (digits : Nat) (before : Nat) (c : Cursor) :
    Except Fault (Number × Cursor) :=
  let c := c.next
  let (ds, behind) := digitRun c
  match ds with
  | [] =>
    match c.rest with
    | [] => .error (c.fault .endInValue)
    | _ => .error (c.faultAhead .invalidNumber)
  | _ =>
    let (n, leftOut) := gather significandLimit digits ds
    readRest isNegative n ((before : Int) - ((ds.length - leftOut.length : Nat) : Int)) behind

/-- The integer with the given sign, as it is if it fits; zero with a minus sign does not. -/
def integerOf (isNegative : Bool) (n : Nat) (c : Cursor) : Except Fault (Number × Cursor) :=
  if isNegative then
    if 0 < n ∧ n ≤ Nat.pow 2 63 then .ok (.negative n, c) else decimalOf true n 0 c
  else .ok (.natural n, c)

/-- Read a number behind its sign. -/
def readUnsigned (isNegative : Bool) (c : Cursor) : Except Fault (Number × Cursor) :=
  match c.rest with
  | [] => .error (c.fault .endInValue)
  | '0' :: rest =>
    match rest with
    | d :: _ => if d.isDigit then .error (c.next.faultAhead .invalidNumber) else go 0 0 c.next
    | [] => go 0 0 c.next
  | ch :: _ =>
    if ch.isDigit then
      let (ds, behind) := digitRun c
      let (n, leftOut) := gather significandLimit 0 ds
      go n leftOut.length behind
    else .error (c.faultAhead .invalidNumber)
where
  /-- Go on behind the whole part, of which `before` digits did not fit. -/
  go (n before : Nat) (c : Cursor) : Except Fault (Number × Cursor) :=
    match c.rest with
    | '.' :: _ => readFraction isNegative n before c
    | 'e' :: _ => readExponent isNegative n before c
    | 'E' :: _ => readExponent isNegative n before c
    | _ => if before = 0 then integerOf isNegative n c else decimalOf isNegative n before c

end VersionAlignment.Json
