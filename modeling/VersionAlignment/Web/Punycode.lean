/-!
# Punycode

A label of a host name that is not ASCII is written in ASCII: first its ASCII characters as they
are, then the places and code points of the others. These are taken in the order of their code
points, and what is written for each is the number of possible insertions that are passed over since
the one before.
-/

set_option autoImplicit false

namespace VersionAlignment.Web.Punycode

/-- A digit in base thirty-six: the letters, then the decimal digits. -/
def digit (n : Nat) : Char :=
  if n < 26 then Char.ofNat ('a'.toNat + n) else Char.ofNat ('0'.toNat + (n - 26))

/-- The least digit that does not end a number, at a position counted in steps of thirty-six. -/
def threshold (bias position : Nat) : Nat := min 26 (max 1 (position - bias))

theorem threshold_pos (bias position : Nat) : 0 < threshold bias position := by
  unfold threshold
  omega

/-- The digits of a number from a position on, the lowest first. -/
def digits (bias position n : Nat) : List Char :=
  let t := threshold bias position
  if n < t then [digit n]
  else digit (t + (n - t) % (36 - t)) :: digits bias (position + 36) ((n - t) / (36 - t))
termination_by n
decreasing_by
  have := threshold_pos bias position
  exact Nat.lt_of_le_of_lt (Nat.div_le_self ..) (by omega)

/-- How often a number is divided by thirty-five until it is at most 455, and what is left. -/
def scaleDown (n : Nat) : Nat × Nat :=
  if 455 < n then
    let (times, left) := scaleDown (n / 35)
    (times + 1, left)
  else (0, n)
termination_by n
decreasing_by omega

/-- The bias for the next number, after `delta` was written as the number for the character that
makes the label `length` characters long. -/
def nextBias (delta length : Nat) (isFirst : Bool) : Nat :=
  let delta := if isFirst then delta / 700 else delta / 2
  let (times, left) := scaleDown (delta + delta / length)
  36 * times + 36 * left / (left + 38)

/-- What has been written so far. -/
structure Progress where
  /-- The insertions passed over since the last number. -/
  delta : Nat
  bias : Nat
  /-- The characters of the label that are written. -/
  count : Nat
  written : List Char
  deriving Repr, DecidableEq

/-- Pass a character of the label while the code point `point` is inserted. -/
def pass (basicCount point : Nat) (p : Progress) (c : Char) : Progress :=
  if c.toNat < point then { p with delta := p.delta + 1 }
  else if c.toNat = point then
    { delta := 0
      bias := nextBias p.delta (p.count + 1) (p.count == basicCount)
      count := p.count + 1
      written := p.written ++ digits p.bias 36 p.delta }
  else p

/-- Insert the code points from `first` on, at most `rounds` different ones. -/
def insertFrom (label : List Char) (basicCount : Nat) : Nat → Nat → Progress → Progress
  | 0, _, p => p
  | rounds + 1, first, p =>
    match ((label.map Char.toNat).filter (first ≤ ·)).min? with
    | none => p
    | some point =>
      let start := { p with delta := p.delta + (point - first) * (p.count + 1) }
      let p := label.foldl (pass basicCount point) start
      insertFrom label basicCount rounds (point + 1) { p with delta := p.delta + 1 }

/-- A label in ASCII. -/
def encode (label : List Char) : List Char :=
  let basic := label.filter (·.toNat < 128)
  let lead := if basic.isEmpty then [] else basic ++ ['-']
  (insertFrom label basic.length label.length 128 ⟨0, 72, basic.length, lead⟩).written

end VersionAlignment.Web.Punycode
