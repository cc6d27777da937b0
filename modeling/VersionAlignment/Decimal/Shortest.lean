import VersionAlignment.Decimal.Binary64

/-!
# The fewest digits that read back

The decimals that round to a given `Binary64` form an interval around it, whose ends belong to it
exactly when the significand is even. `shortest` searches the decimal grids from coarse to fine for
the first one with a point in that interval; of the two points of a grid that enclose the number,
the nearer wins, and a tie goes to the even digit.

## Results

* `Notation.text`: digits and the place of their point written down under given layout choices.
-/

set_option autoImplicit false

namespace VersionAlignment.Decimal

/-- A decimal number: digits that do not start with zero, times ten to the power of `exponent`. -/
structure Digits where
  digits : Nat
  exponent : Int
  deriving Repr, DecidableEq

/-- The interval of numbers that are read as a given one, all in units of `1 / unit`. -/
structure Interval where
  value : Nat
  below : Nat
  above : Nat
  unit : Nat
  closed : Bool
  deriving Repr

/-- The interval around a positive number: half way to either neighbour, and a quarter of a step
downwards where the neighbour below is on a finer grid. -/
def Interval.around (x : Binary64) : Interval :=
  let finerBelow :=
    x.significand = Nat.pow 2 (Binary64.precision - 1) ∧ Binary64.minExponent < x.exponent
  let (scaleUp, unit) := (⟨4, x.exponent - 2⟩ : Binary64).ratio
  let step := scaleUp / 4
  { value := x.significand * 4 * step
    below := (x.significand * 4 - if finerBelow then 1 else 2) * step
    above := (x.significand * 4 + 2) * step
    unit
    closed := x.significand % 2 = 0 }

/-- Does the decimal lie in the interval? -/
def Interval.holds (i : Interval) (d : Digits) : Bool :=
  let (num, den) :=
    if 0 ≤ d.exponent then (d.digits * Nat.pow 10 d.exponent.toNat * i.unit, 1)
    else (d.digits * i.unit, Nat.pow 10 (-d.exponent).toNat)
  if i.closed then i.below * den ≤ num && num ≤ i.above * den
  else i.below * den < num && num < i.above * den

/-- Does the number reach ten to the power of `e`? -/
def Interval.reachesTen (i : Interval) (e : Int) : Bool :=
  if 0 ≤ e then i.unit * Nat.pow 10 e.toNat ≤ i.value
  else i.unit ≤ i.value * Nat.pow 10 (-e).toNat

/-- The place of the first decimal digit of a positive number. -/
def Interval.decimalPlace (i : Interval) : Int :=
  let binary : Int := (Nat.log2 i.value : Int) - Nat.log2 i.unit
  let guess : Int := binary * 30103 / 100000 - 1
  if i.reachesTen (guess + 2) then guess + 2
  else if i.reachesTen (guess + 1) then guess + 1
  else guess

/-- The point of the grid of step `10 ^ e` that stands for the number: the nearer of the two that
enclose it, if it lies in the interval, else the other one, if that does. -/
def Interval.gridPoint? (i : Interval) (e : Int) : Option Digits :=
  let (num, den) :=
    if 0 ≤ e then (i.value, i.unit * Nat.pow 10 e.toNat)
    else (i.value * Nat.pow 10 (-e).toNat, i.unit)
  let lower := num / den
  let nearer := roundDiv num den
  let other := if nearer = lower then lower + 1 else lower
  [nearer, other].findSome? fun n =>
    let d : Digits := ⟨n, e⟩
    if i.holds d then some d else none

/-- The digits without zeros at their end; `fuel` bounds how many may go. -/
def Digits.strip : Nat → Digits → Digits
  | 0, d => d
  | fuel + 1, d =>
    if d.digits ≠ 0 ∧ d.digits % 10 = 0 then strip fuel ⟨d.digits / 10, d.exponent + 1⟩ else d

/-- The decimal with the fewest digits that is read as the given positive number. Seventeen digits
always suffice. -/
def shortest (x : Binary64) : Digits :=
  let i := Interval.around x
  let place := i.decimalPlace
  let found := (List.range 17).findSome? fun (n : Nat) => i.gridPoint? (place - n)
  (found.getD ⟨0, 0⟩).strip 20

/-- How a number is laid out as text. -/
structure Notation where
  /-- The lowest and the highest place of the first digit that are written without an exponent. -/
  positionalFrom : Int
  positionalTo : Int
  /-- Is a plus sign written before a positive exponent? -/
  plusSign : Bool
  deriving Repr

/-- The decimal digits of a number. -/
def digitsText (n : Nat) : List Char := Nat.toDigits 10 n

/-- The exponent part of a number. -/
def Notation.exponentText (n : Notation) (e : Int) : List Char :=
  let sign := if e < 0 then ['-'] else if n.plusSign then ['+'] else []
  'e' :: (sign ++ digitsText e.natAbs)

/-- A positive decimal as text: with a point and a digit on either side of it where the first digit
is near the point, and otherwise with an exponent. -/
def Notation.text (n : Notation) (d : Digits) : List Char :=
  let ds := digitsText d.digits
  let place : Int := d.exponent + ds.length - 1
  if place < n.positionalFrom ∨ n.positionalTo < place then
    let mantissa := match ds with
      | first :: rest@(_ :: _) => first :: '.' :: rest
      | ds => ds
    mantissa ++ n.exponentText place
  else if 0 ≤ d.exponent then ds ++ List.replicate d.exponent.toNat '0' ++ ['.', '0']
  else if 0 ≤ place then
    let whole := (place + 1).toNat
    ds.take whole ++ '.' :: ds.drop whole
  else '0' :: '.' :: (List.replicate (-place - 1).toNat '0' ++ ds)

/-- The text of a number under given layout choices; zero is `0.0`. -/
def Notation.numberText (n : Notation) (x : Binary64) : List Char :=
  if x.isZero then ['0', '.', '0'] else n.text (shortest x)

end VersionAlignment.Decimal
