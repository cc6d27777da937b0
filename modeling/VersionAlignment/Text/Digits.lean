/-!
# Digits

A numeral is a list of digits in a base up to sixteen; the letters `a` to `f` of either case follow
the digit nine.

## Results

* `hexValue?_hexDigit`: a hex digit that was written is read back.
-/

set_option autoImplicit false

namespace VersionAlignment.Text

/-- The value of a hex digit of either case. -/
def hexValue? (ch : Char) : Option Nat :=
  if '0' ≤ ch ∧ ch ≤ '9' then some (ch.toNat - 48)
  else if 'a' ≤ ch ∧ ch ≤ 'f' then some (ch.toNat - 87)
  else if 'A' ≤ ch ∧ ch ≤ 'F' then some (ch.toNat - 55)
  else none

/-- A hex digit, in upper case. -/
def hexDigit (n : Nat) : Char := (Nat.digitChar n).toUpper

/-- The number that a list of digits spells in a base, if all of them are digits of that base. -/
def numeral? (base : Nat) (ds : List Char) : Option Nat :=
  ds.foldlM (fun n d => ((hexValue? d).filter (· < base)).map (base * n + ·)) 0

theorem hexValue?_hexDigit {n : Nat} (h : n < 16) : hexValue? (hexDigit n) = some n := by
  have all : ∀ d : Fin 16, hexValue? (hexDigit d) = some d.val := by decide
  exact all ⟨n, h⟩

end VersionAlignment.Text
