/-!
# Binary floating-point numbers of 64 bits

A `Binary64` is a non-negative number `significand · 2 ^ exponent` with at most 53 binary digits
and an exponent no lower than -1074; zero is its own negative here, and the sign is kept by whoever
holds the number. Every operation is exact arithmetic on natural numbers followed by one rounding
to the nearest representable number, ties going to the even significand.

## Results

* `roundDiv_mul_le`, `le_roundDiv_mul`: a rounded quotient is off by at most half a unit.
-/

set_option autoImplicit false

namespace VersionAlignment.Decimal

/-- The quotient rounded to the nearest natural number, a tie to the even one. -/
def roundDiv (num den : Nat) : Nat :=
  let q := num / den
  let r := num % den
  if den < 2 * r ∨ (2 * r = den ∧ q % 2 = 1) then q + 1 else q

/-- A non-negative binary floating-point number. -/
structure Binary64 where
  significand : Nat
  exponent : Int
  deriving Repr, DecidableEq

namespace Binary64

/-- The lowest exponent. -/
def minExponent : Int := -1074

/-- The highest exponent of a finite number. -/
def maxExponent : Int := 971

/-- How many binary digits a significand has at most. -/
def precision : Nat := 53

/-- The number zero. -/
def zero : Binary64 := ⟨0, minExponent⟩

/-- Is the number zero? -/
def isZero (x : Binary64) : Bool := x.significand == 0

/-- The number as a quotient of natural numbers. -/
def ratio (x : Binary64) : Nat × Nat :=
  if 0 ≤ x.exponent then (x.significand * Nat.pow 2 x.exponent.toNat, 1)
  else (x.significand, Nat.pow 2 (-x.exponent).toNat)

/-- The quotient `num / den` in units of `2 ^ e`, rounded. -/
def roundAt (num den : Nat) (e : Int) : Nat :=
  if 0 ≤ e then roundDiv num (den * Nat.pow 2 e.toNat)
  else roundDiv (num * Nat.pow 2 (-e).toNat) den

/-- Is the quotient at least `2 ^ e`? -/
def reaches (num den : Nat) (e : Int) : Bool :=
  if 0 ≤ e then den * Nat.pow 2 e.toNat ≤ num else den ≤ num * Nat.pow 2 (-e).toNat

/-- The place of the highest binary digit of a positive quotient. -/
def binaryPlace (num den : Nat) : Int :=
  let guess : Int := (Nat.log2 num : Int) - Nat.log2 den
  if reaches num den guess then guess else guess - 1

/-- The number nearest to a quotient; none if it lies beyond the finite numbers. -/
def ofRatio? (num den : Nat) : Option Binary64 :=
  if num = 0 then some zero
  else
    let e := max (binaryPlace num den - (precision - 1 : Nat)) minExponent
    let m := roundAt num den e
    let x : Binary64 :=
      if m = Nat.pow 2 precision then ⟨Nat.pow 2 (precision - 1), e + 1⟩ else ⟨m, e⟩
    if maxExponent < x.exponent then none else some x

/-- The rounded product. -/
def mul? (x y : Binary64) : Option Binary64 :=
  ofRatio? (x.ratio.1 * y.ratio.1) (x.ratio.2 * y.ratio.2)

/-- The rounded quotient by a number other than zero. -/
def div? (x y : Binary64) : Option Binary64 :=
  ofRatio? (x.ratio.1 * y.ratio.2) (x.ratio.2 * y.ratio.1)

/-- The number nearest to a natural number. -/
def ofNat? (n : Nat) : Option Binary64 := ofRatio? n 1

/-- The highest power of ten that is finite. -/
def maxPowerOfTen : Nat := 308

/-- The number nearest to a power of ten. -/
def powerOfTen (k : Nat) : Binary64 := (ofNat? (Nat.pow 10 k)).getD zero

/-- Divide `n` times by the highest finite power of ten, each quotient rounded. -/
def divideRepeatedly : Nat → Binary64 → Option Binary64
  | 0, x => some x
  | n + 1, x =>
    if x.isZero then some x
    else match x.div? (powerOfTen maxPowerOfTen) with
      | some y => divideRepeatedly n y
      | none => none

/-- Scale a number by a power of ten. A power beyond `maxPowerOfTen` is reached downwards in steps
of that size, each of them rounded; upwards it is out of range unless the number is zero. -/
def scale? (x : Binary64) (k : Int) : Option Binary64 :=
  if 0 ≤ k then
    if k.toNat ≤ maxPowerOfTen then x.mul? (powerOfTen k.toNat)
    else if x.isZero then some x else none
  else
    let n := (-k).toNat
    let steps := (n - 1) / maxPowerOfTen
    match divideRepeatedly steps x with
    | some y => if y.isZero then some y else y.div? (powerOfTen (n - maxPowerOfTen * steps))
    | none => none

/-- The number that a decimal significand and a power of ten are read as. The significand is
rounded first and the result is scaled, so the answer can be one unit away from the nearest. -/
def ofDecimal? (digits : Nat) (exponent : Int) : Option Binary64 :=
  (ofNat? digits).bind fun x => x.scale? exponent

end Binary64

theorem roundDiv_mul_le {num den : Nat} (h : 0 < den) :
    2 * (roundDiv num den * den) ≤ 2 * num + den := by
  have := Nat.div_add_mod num den
  have hr := Nat.mod_lt num h
  simp only [roundDiv]
  split
  · next hc =>
    rw [Nat.add_mul, Nat.one_mul, Nat.mul_comm (num / den) den]
    omega
  · rw [Nat.mul_comm (num / den) den]
    omega

theorem le_roundDiv_mul {num den : Nat} (h : 0 < den) :
    2 * num ≤ 2 * (roundDiv num den * den) + den := by
  have := Nat.div_add_mod num den
  have hr := Nat.mod_lt num h
  simp only [roundDiv]
  split
  · rw [Nat.add_mul, Nat.one_mul, Nat.mul_comm (num / den) den]
    omega
  · next hc =>
    rw [Nat.mul_comm (num / den) den]
    omega

end VersionAlignment.Decimal
