import Mathlib.Algebra.Order.Field.Power
import Mathlib.Algebra.Order.Round
import Mathlib.Data.Rat.Floor
import Mathlib.Tactic.FieldSimp
import Mathlib.Tactic.Linarith
import Mathlib.Tactic.NormNum
import Mathlib.Tactic.Positivity
import Mathlib.Tactic.Ring
import VersionAlignment.Decimal.Shortest

/-!
# Rounding to the nearest number

A quotient is rounded to a whole number of units, where the unit is the power of two that leaves 53
binary digits. Away from the ends of the range of exponents this is the number nearest to the
quotient, and the even one of two that are equally near: `Binary64.IsNearest` says so by the ends of
the interval of the quotients that are rounded to the number. The statements are about rational
numbers, and carry over to the program, which computes with numerators and denominators.

A decimal of few digits is a quotient of two numbers that are exact, so a single rounding is all
that is made when it is read.

## Results

* `Binary64.exists_isNearest`: the nearest number to a quotient is found.
* `Binary64.exists_div`: a quotient of two numbers is rounded once.
* `Binary64.exists_ofDecimal`: a decimal with few digits is read as the number nearest to it.
-/

set_option autoImplicit false

namespace VersionAlignment.Decimal

/-! ## Rounded quotients -/

theorem abs_roundDiv_sub_le {num den : Nat} (h : 0 < den) :
    |(roundDiv num den : ℚ) - num / den| ≤ 1 / 2 := by
  have hden : (0 : ℚ) < den := by exact_mod_cast h
  have hlow : (2 * (roundDiv num den * den) : ℚ) ≤ 2 * num + den := by
    exact_mod_cast roundDiv_mul_le h
  have hhigh : (2 * num : ℚ) ≤ 2 * (roundDiv num den * den) + den := by
    exact_mod_cast le_roundDiv_mul h
  rw [abs_le]
  constructor
  · rw [neg_le_sub_iff_le_add, div_le_iff₀ hden]
    linarith
  · rw [sub_le_iff_le_add, ← sub_le_iff_le_add', le_div_iff₀ hden]
    linarith

/-- A quotient half way between two natural numbers is rounded to the even one. -/
theorem even_roundDiv {num den : Nat} (h : 0 < den)
    (htie : |(roundDiv num den : ℚ) - num / den| = 1 / 2) : roundDiv num den % 2 = 0 := by
  have hden : (0 : ℚ) < den := by exact_mod_cast h
  have hdiv := Nat.div_add_mod num den
  have hmod := Nat.mod_lt num h
  have hties : 2 * (num % den) = den := by
    have hcases : 2 * (roundDiv num den * den) = 2 * num + den ∨
        2 * num = 2 * (roundDiv num den * den) + den := by
      rcases (abs_eq (by norm_num : (0 : ℚ) ≤ 1 / 2)).1 htie with hup | hdown
      · left
        have hq : (roundDiv num den : ℚ) = num / den + 1 / 2 := by linarith
        have : (2 * (roundDiv num den * den) : ℚ) = 2 * num + den := by
          rw [hq]
          field_simp
        exact_mod_cast this
      · right
        have hq : (roundDiv num den : ℚ) = num / den - 1 / 2 := by linarith
        have : (2 * num : ℚ) = 2 * (roundDiv num den * den) + den := by
          rw [hq]
          field_simp
          ring
        exact_mod_cast this
    have hvalue : roundDiv num den = num / den ∨ roundDiv num den = num / den + 1 := by
      unfold roundDiv
      dsimp only
      split <;> simp
    rw [Nat.mul_comm den] at hdiv
    rcases hvalue with hvalue | hvalue
    · rw [hvalue] at hcases
      omega
    · rw [hvalue, Nat.add_mul, Nat.one_mul] at hcases
      omega
  unfold roundDiv
  dsimp only
  split <;> omega

/-- What is less than half a unit away from a natural number is rounded to it. -/
theorem roundDiv_eq {num den n : Nat} (h : 0 < den) (hnear : |(num / den : ℚ) - n| < 1 / 2) :
    roundDiv num den = n := by
  have hround : |(roundDiv num den : ℚ) - num / den| ≤ 1 / 2 := abs_roundDiv_sub_le h
  have hclose : |((roundDiv num den : ℤ) : ℚ) - (n : ℤ)| < 1 := by
    have htriangle := abs_sub_le (roundDiv num den : ℚ) (num / den) n
    push_cast
    linarith
  have hint : |(roundDiv num den : ℤ) - n| < 1 := by exact_mod_cast hclose
  have hzero := Int.abs_lt_one_iff.1 hint
  omega

/-! ## Powers of two -/

theorem two_zpow_pos (e : Int) : (0 : ℚ) < 2 ^ e := by positivity

/-- A power of two with an exponent of either sign, as the program computes it. -/
theorem two_zpow_of_nonneg {e : Int} (h : 0 ≤ e) : (2 : ℚ) ^ e = (Nat.pow 2 e.toNat : Nat) := by
  obtain ⟨n, rfl⟩ := Int.eq_ofNat_of_zero_le h
  simp

theorem two_zpow_of_neg {e : Int} (h : ¬ 0 ≤ e) :
    (2 : ℚ) ^ e = 1 / (Nat.pow 2 (-e).toNat : Nat) := by
  obtain ⟨n, hn⟩ := Int.eq_ofNat_of_zero_le (a := -e) (by omega)
  obtain rfl : e = -(n : ℤ) := by omega
  simp

namespace Binary64

/-- The rational number that a floating-point number stands for. -/
def toRat (x : Binary64) : ℚ := x.significand * 2 ^ x.exponent

theorem ratio_pos (x : Binary64) : 0 < x.ratio.2 := by
  unfold ratio
  split
  · exact Nat.one_pos
  · exact Nat.two_pow_pos _

theorem ratio_eq (x : Binary64) : (x.ratio.1 : ℚ) / x.ratio.2 = x.toRat := by
  unfold ratio toRat
  split
  · next h =>
    rw [two_zpow_of_nonneg h]
    push_cast
    ring
  · next h =>
    rw [two_zpow_of_neg h]
    push_cast
    ring

theorem abs_roundAt_sub_le {num den : Nat} (h : 0 < den) (e : Int) :
    |(roundAt num den e : ℚ) - num / den / 2 ^ e| ≤ 1 / 2 ∧
      (|(roundAt num den e : ℚ) - num / den / 2 ^ e| = 1 / 2 → roundAt num den e % 2 = 0) := by
  unfold roundAt
  split
  · next he =>
    have hden : 0 < den * Nat.pow 2 e.toNat := Nat.mul_pos h (Nat.two_pow_pos _)
    have hquot : (num / den / 2 ^ e : ℚ) = num / (den * Nat.pow 2 e.toNat : Nat) := by
      rw [two_zpow_of_nonneg he, div_div]
      push_cast
      rfl
    rw [hquot]
    exact ⟨abs_roundDiv_sub_le hden, even_roundDiv hden⟩
  · next he =>
    have hquot : (num / den / 2 ^ e : ℚ) = (num * Nat.pow 2 (-e).toNat : Nat) / den := by
      rw [two_zpow_of_neg he]
      push_cast
      field_simp
    rw [hquot]
    exact ⟨abs_roundDiv_sub_le h, even_roundDiv h⟩

theorem reaches_iff {num den : Nat} (h : 0 < den) (e : Int) :
    reaches num den e = true ↔ (2 : ℚ) ^ e ≤ num / den := by
  have hden : (0 : ℚ) < den := by exact_mod_cast h
  unfold reaches
  split
  · next he =>
    rw [decide_eq_true_iff, two_zpow_of_nonneg he, le_div_iff₀ hden, mul_comm]
    exact_mod_cast Iff.rfl
  · next he =>
    have hpow : (0 : ℚ) < (Nat.pow 2 (-e).toNat : Nat) := by exact_mod_cast Nat.two_pow_pos _
    rw [decide_eq_true_iff, two_zpow_of_neg he, le_div_iff₀ hden, div_mul_eq_mul_div, one_mul,
      div_le_iff₀ hpow]
    exact_mod_cast Iff.rfl

/-- The binary logarithms of both numbers tell the quotient up to a factor of two. -/
theorem two_zpow_log2_sub {num den : Nat} (hnum : 0 < num) (hden : 0 < den) :
    (2 : ℚ) ^ ((Nat.log2 num : ℤ) - Nat.log2 den - 1) < num / den ∧
      (num / den : ℚ) < 2 ^ ((Nat.log2 num : ℤ) - Nat.log2 den + 1) := by
  have bounds : ∀ {n : Nat}, 0 < n →
      (2 : ℚ) ^ (Nat.log2 n : ℤ) ≤ n ∧ (n : ℚ) < 2 ^ ((Nat.log2 n : ℤ) + 1) := by
    intro n hn
    constructor
    · rw [zpow_natCast]
      exact_mod_cast Nat.log2_self_le (Nat.ne_of_gt hn)
    · rw [← Nat.cast_succ, zpow_natCast]
      exact_mod_cast Nat.lt_log2_self
  obtain ⟨hnlow, hnhigh⟩ := bounds hnum
  obtain ⟨hdlow, hdhigh⟩ := bounds hden
  have hd : (0 : ℚ) < den := by exact_mod_cast hden
  have hadd : ∀ a b : ℤ, (2 : ℚ) ^ (a + b) = 2 ^ a * 2 ^ b := fun a b =>
    zpow_add₀ (by norm_num) a b
  constructor
  · rw [lt_div_iff₀ hd]
    calc (2 : ℚ) ^ ((Nat.log2 num : ℤ) - Nat.log2 den - 1) * den
        < 2 ^ ((Nat.log2 num : ℤ) - Nat.log2 den - 1) * 2 ^ ((Nat.log2 den : ℤ) + 1) :=
          mul_lt_mul_of_pos_left hdhigh (two_zpow_pos _)
      _ = 2 ^ (Nat.log2 num : ℤ) := by
          rw [← hadd]
          congr 1
          omega
      _ ≤ num := hnlow
  · rw [div_lt_iff₀ hd]
    calc (num : ℚ) < 2 ^ ((Nat.log2 num : ℤ) + 1) := hnhigh
      _ = 2 ^ ((Nat.log2 num : ℤ) - Nat.log2 den + 1) * 2 ^ (Nat.log2 den : ℤ) := by
          rw [← hadd]
          congr 1
          omega
      _ ≤ 2 ^ ((Nat.log2 num : ℤ) - Nat.log2 den + 1) * den :=
          mul_le_mul_of_nonneg_left hdlow (two_zpow_pos _).le

/-- The place of the highest binary digit. -/
theorem binaryPlace_spec {num den : Nat} (hnum : 0 < num) (hden : 0 < den) :
    (2 : ℚ) ^ binaryPlace num den ≤ num / den ∧
      (num / den : ℚ) < 2 ^ (binaryPlace num den + 1) := by
  obtain ⟨hlow, hhigh⟩ := two_zpow_log2_sub hnum hden
  unfold binaryPlace
  dsimp only
  split
  · next h => exact ⟨(reaches_iff hden _).1 h, hhigh⟩
  · next h =>
    refine ⟨hlow.le, ?_⟩
    rw [Int.sub_add_cancel]
    rw [reaches_iff hden] at h
    exact not_le.1 h

/-! ## The nearest number -/

/-- The number that stands half way down from `x` to the next lower one: the lower one is only half
as far away if `x` is a power of two. -/
def lowerEnd (x : Binary64) : ℚ :=
  x.toRat - 2 ^ (x.exponent - if x.significand = 2 ^ 52 then 2 else 1)

/-- The number that stands half way up from `x` to the next higher one. -/
def upperEnd (x : Binary64) : ℚ := x.toRat + 2 ^ (x.exponent - 1)

/-- The number `x`, which has all 53 digits and is not one of the smallest, is the nearest one to
`q`; of two that are equally near it is the even one. -/
structure IsNearest (x : Binary64) (q : ℚ) : Prop where
  least : 2 ^ 52 ≤ x.significand
  most : x.significand < 2 ^ 53
  exponent : minExponent < x.exponent
  above : x.lowerEnd ≤ q
  below : q ≤ x.upperEnd
  even : q = x.lowerEnd ∨ q = x.upperEnd → x.significand % 2 = 0

/-- The upper end of the interval is half a unit of the last binary digit above the number. -/
theorem upperEnd_eq (x : Binary64) : x.upperEnd = x.toRat + 2 ^ x.exponent / 2 := by
  rw [upperEnd, zpow_sub₀ (by norm_num), zpow_one]

/-- The lower end is half a unit below the number, or a quarter of one below a power of two. -/
theorem lowerEnd_eq (x : Binary64) :
    x.lowerEnd = x.toRat - 2 ^ x.exponent / if x.significand = 2 ^ 52 then 4 else 2 := by
  unfold lowerEnd
  rw [zpow_sub₀ (by norm_num)]
  split <;> norm_num

theorem le_lowerEnd (x : Binary64) : x.toRat - 2 ^ x.exponent / 2 ≤ x.lowerEnd := by
  have hpos := two_zpow_pos x.exponent
  rw [lowerEnd_eq]
  split <;> linarith

/-- The numbers from 2 ^ -100 up to 2 ^ 100: none of them is too large or too small for 53
digits. -/
def InRange (q : ℚ) : Prop := (2 : ℚ) ^ (-100 : ℤ) ≤ q ∧ q < 2 ^ (100 : ℤ)

/-- A quotient and its significand at the place of its 53rd digit. -/
theorem roundAt_bounds {num den : Nat} (hnum : 0 < num) (hden : 0 < den) :
    2 ^ 52 ≤ roundAt num den (binaryPlace num den - 52) ∧
      roundAt num den (binaryPlace num den - 52) ≤ 2 ^ 53 := by
  obtain ⟨hlow, hhigh⟩ := binaryPlace_spec hnum hden
  obtain ⟨hround, -⟩ := @abs_roundAt_sub_le num den hden (binaryPlace num den - 52)
  generalize roundAt num den (binaryPlace num den - 52) = m at hround
  generalize binaryPlace num den = p at hlow hhigh hround
  have hscale : ∀ k : ℤ, (2 : ℚ) ^ (p + k) / 2 ^ (p - 52) = 2 ^ (k + 52) := by
    intro k
    rw [← zpow_sub₀ (by norm_num)]
    congr 1
    omega
  have hlow' : (2 : ℚ) ^ (52 : ℤ) ≤ num / den / 2 ^ (p - 52) := by
    have h := div_le_div_of_nonneg_right hlow (two_zpow_pos (p - 52)).le
    have hs := hscale 0
    rw [add_zero] at hs
    rwa [hs, zero_add] at h
  have hhigh' : (num / den / 2 ^ (p - 52) : ℚ) < 2 ^ (53 : ℤ) := by
    have h := div_lt_div_of_pos_right hhigh (two_zpow_pos (p - 52))
    rwa [hscale 1] at h
  rw [abs_le] at hround
  norm_num at hlow' hhigh'
  constructor
  · have h : ((2 ^ 52 : ℕ) : ℚ) < m + 1 := by
      push_cast
      linarith
    exact Nat.lt_succ_iff.1 (by exact_mod_cast h)
  · have h : (m : ℚ) < ((2 ^ 53 : ℕ) : ℚ) + 1 := by
      push_cast
      linarith
    exact Nat.lt_succ_iff.1 (by exact_mod_cast h)

theorem two_zpow_add (e k : ℤ) : (2 : ℚ) ^ (e + k) = 2 ^ e * 2 ^ k :=
  zpow_add₀ (by norm_num) e k

/-- A significand that is off by at most half a unit, a tie going to the even one. -/
theorem isNearest_mk {m : Nat} {e : ℤ} {q : ℚ} (hleast : 2 ^ 52 ≤ m) (hmost : m < 2 ^ 53)
    (hexponent : minExponent < e) (hq : 2 ^ 52 * 2 ^ e ≤ q) (hround : |(m : ℚ) - q / 2 ^ e| ≤ 1 / 2)
    (heven : |(m : ℚ) - q / 2 ^ e| = 1 / 2 → m % 2 = 0) : IsNearest ⟨m, e⟩ q := by
  have hpos := two_zpow_pos e
  have hscaled : q / 2 ^ e * 2 ^ e = q := div_mul_cancel₀ q hpos.ne'
  generalize hv : q / (2 : ℚ) ^ e = v at hround heven hscaled
  have hbounds := abs_le.1 hround
  have hupper : upperEnd ⟨m, e⟩ = (m + 1 / 2) * 2 ^ e := by
    rw [upperEnd_eq, toRat]
    ring
  have hlower : lowerEnd ⟨m, e⟩ = (m - if m = 2 ^ 52 then 1 / 4 else 1 / 2) * 2 ^ e := by
    rw [lowerEnd_eq, toRat]
    dsimp only
    split <;> ring
  have hlowest : (m = 2 ^ 52) → (m : ℚ) ≤ v := by
    rintro rfl
    rw [← hscaled] at hq
    exact_mod_cast le_of_mul_le_mul_right hq hpos
  refine ⟨hleast, hmost, hexponent, ?_, ?_, ?_⟩
  · rw [hlower, ← hscaled]
    refine mul_le_mul_of_nonneg_right ?_ hpos.le
    split
    · next hm =>
      have := hlowest hm
      linarith
    · linarith
  · rw [hupper, ← hscaled]
    refine mul_le_mul_of_nonneg_right ?_ hpos.le
    linarith
  · rintro (htie | htie)
    · rw [hlower, ← hscaled] at htie
      have htie := mul_right_cancel₀ hpos.ne' htie
      split at htie
      · next hm =>
        have := hlowest hm
        linarith
      · refine heven ?_
        rw [htie]
        norm_num
    · rw [hupper, ← hscaled] at htie
      have htie := mul_right_cancel₀ hpos.ne' htie
      refine heven ?_
      rw [htie]
      norm_num

/-- A quotient whose significand is rounded up to the next power of two. -/
theorem isNearest_carry {e : ℤ} {q : ℚ} (hexponent : minExponent < e + 1) (hq : q < 2 ^ 53 * 2 ^ e)
    (hround : |(2 ^ 53 : ℚ) - q / 2 ^ e| ≤ 1 / 2) : IsNearest ⟨2 ^ 52, e + 1⟩ q := by
  have hpos := two_zpow_pos e
  have hdouble : (2 : ℚ) ^ (e + 1) = 2 ^ e * 2 := by rw [two_zpow_add, zpow_one]
  have hscaled : q / 2 ^ e * 2 ^ e = q := div_mul_cancel₀ q hpos.ne'
  generalize hv : q / (2 : ℚ) ^ e = v at hround hscaled
  have hbounds := abs_le.1 hround
  have hrat : toRat ⟨2 ^ 52, e + 1⟩ = 2 ^ 53 * 2 ^ e := by
    unfold toRat
    rw [hdouble]
    push_cast
    ring
  refine ⟨le_refl _, by norm_num, hexponent, ?_, ?_, fun _ => by norm_num⟩
  · rw [lowerEnd_eq, hrat, if_pos rfl]
    dsimp only
    rw [hdouble, ← hscaled]
    have hlow : (2 ^ 53 - 1 / 2 : ℚ) * 2 ^ e ≤ v * 2 ^ e :=
      mul_le_mul_of_nonneg_right (by linarith) hpos.le
    linarith
  · rw [upperEnd_eq, hrat]
    have hunit := two_zpow_pos (⟨2 ^ 52, e + 1⟩ : Binary64).exponent
    linarith

/-- The number that is found for a quotient in range. -/
theorem ofRatio?_eq {num den : Nat} (hnum : 0 < num) (hden : 0 < den)
    (hrange : InRange (num / den)) :
    minExponent < binaryPlace num den - 52 ∧
      ofRatio? num den =
        if roundAt num den (binaryPlace num den - 52) = 2 ^ 53 then
          some ⟨2 ^ 52, binaryPlace num den - 52 + 1⟩
        else some ⟨roundAt num den (binaryPlace num den - 52), binaryPlace num den - 52⟩ := by
  obtain ⟨hlow, hhigh⟩ := binaryPlace_spec hnum hden
  have hplace : binaryPlace num den < 100 ∧ -100 < binaryPlace num den + 1 :=
    ⟨(zpow_lt_zpow_iff_right₀ (by norm_num)).1 (hlow.trans_lt hrange.2),
      (zpow_lt_zpow_iff_right₀ (by norm_num)).1 (hrange.1.trans_lt hhigh)⟩
  have he : max (binaryPlace num den - (precision - 1 : Nat)) minExponent =
      binaryPlace num den - 52 := by
    rw [precision, minExponent]
    omega
  refine ⟨by rw [minExponent]; omega, ?_⟩
  unfold ofRatio?
  rw [if_neg (by omega), he]
  dsimp only
  by_cases hcarry : roundAt num den (binaryPlace num den - 52) = 2 ^ 53
  · have hcarry' : roundAt num den (binaryPlace num den - 52) = Nat.pow 2 precision := hcarry
    rw [if_pos hcarry', if_pos hcarry, if_neg (by rw [maxExponent]; dsimp only; omega)]
    rfl
  · have hcarry' : ¬ roundAt num den (binaryPlace num den - 52) = Nat.pow 2 precision := hcarry
    rw [if_neg hcarry', if_neg hcarry, if_neg (by rw [maxExponent]; dsimp only; omega)]

/-- **The nearest number to a quotient is found.** -/
theorem exists_isNearest {num den : Nat} (hnum : 0 < num) (hden : 0 < den)
    (hrange : InRange (num / den)) :
    ∃ x, ofRatio? num den = some x ∧ x.IsNearest (num / den) := by
  obtain ⟨hlow, hhigh⟩ := binaryPlace_spec hnum hden
  obtain ⟨hleast, hmost⟩ := roundAt_bounds hnum hden
  obtain ⟨hround, heven⟩ := @abs_roundAt_sub_le num den hden (binaryPlace num den - 52)
  obtain ⟨hexponent, hfound⟩ := ofRatio?_eq hnum hden hrange
  rw [hfound]
  generalize roundAt num den (binaryPlace num den - 52) = m at hleast hmost hround heven
  generalize binaryPlace num den = p at hlow hhigh hexponent hround heven
  have hscaled : ∀ k : Nat, (2 : ℚ) ^ k * 2 ^ (p - 52) = 2 ^ (p + (k - 52)) := by
    intro k
    rw [mul_comm, ← zpow_natCast, ← two_zpow_add]
    congr 1
    omega
  split
  · next hcarry =>
    subst hcarry
    refine ⟨_, rfl, isNearest_carry (by omega) ?_ (by exact_mod_cast hround)⟩
    rw [hscaled]
    exact hhigh
  · next hcarry =>
    refine ⟨_, rfl, isNearest_mk hleast (Nat.lt_of_le_of_ne hmost hcarry) hexponent ?_ hround heven⟩
    rw [hscaled]
    norm_num
    exact hlow

/-! ## Numbers that are exact -/

theorem roundDiv_one (n : Nat) : roundDiv n 1 = n := by
  unfold roundDiv
  dsimp only
  rw [Nat.mod_one, Nat.div_one, if_neg (by omega)]

theorem inRange_of_le {q : ℚ} (hlow : 1 / 10 ^ 30 ≤ q) (hhigh : q < 10 ^ 30) : InRange q := by
  refine ⟨le_trans ?_ hlow, hhigh.trans_le ?_⟩
  · rw [zpow_neg, one_div]
    exact inv_anti₀ (by norm_num) (by norm_num)
  · norm_num

/-- A natural number of at most 53 binary digits is exact. -/
theorem exists_ofNat {n : Nat} (h : n < 2 ^ 53) : ∃ x, ofNat? n = some x ∧ x.toRat = n := by
  rcases Nat.eq_zero_or_pos n with rfl | hn
  · exact ⟨zero, rfl, by simp [toRat, zero]⟩
  have hquot : ((n : ℚ) / (1 : Nat)) = n := by simp
  obtain ⟨hlow, hhigh⟩ := binaryPlace_spec hn Nat.one_pos
  have hlt : (n : ℚ) < 2 ^ (53 : ℤ) := by exact_mod_cast h
  have hone : (1 : ℚ) ≤ n := by exact_mod_cast hn
  rw [hquot] at hlow hhigh
  have hplace : binaryPlace n 1 < 53 :=
    (zpow_lt_zpow_iff_right₀ (by norm_num : (1 : ℚ) < 2)).1 (hlow.trans_lt hlt)
  have hrange : InRange ((n : ℚ) / (1 : Nat)) := by
    rw [hquot]
    refine inRange_of_le (by linarith) (hlt.trans ?_)
    norm_num
  have hround : roundAt n 1 (binaryPlace n 1 - 52) = n * 2 ^ (52 - binaryPlace n 1).toNat := by
    unfold roundAt
    split
    · next he =>
      have hp : binaryPlace n 1 = 52 := by omega
      rw [hp]
      simp [roundDiv_one]
    · next he =>
      rw [roundDiv_one, neg_sub]
      rfl
  have hcast : ((n * 2 ^ (52 - binaryPlace n 1).toNat : Nat) : ℚ) =
      n * 2 ^ (52 - binaryPlace n 1) := by
    push_cast
    rw [← zpow_natCast, Int.toNat_of_nonneg (by omega)]
  have hcarry : ¬ n * 2 ^ (52 - binaryPlace n 1).toNat = 2 ^ 53 := by
    intro hcarry
    have hm : (n : ℚ) * 2 ^ (52 - binaryPlace n 1) = 2 ^ (53 : ℤ) := by
      rw [← hcast, hcarry]
      norm_num
    have hlt := mul_lt_mul_of_pos_right hhigh (two_zpow_pos (52 - binaryPlace n 1))
    rw [hm, ← two_zpow_add] at hlt
    have := (zpow_lt_zpow_iff_right₀ (by norm_num : (1 : ℚ) < 2)).1 hlt
    omega
  obtain ⟨-, hfound⟩ := ofRatio?_eq hn Nat.one_pos hrange
  rw [hround, if_neg hcarry] at hfound
  refine ⟨_, hfound, ?_⟩
  unfold toRat
  dsimp only
  rw [hcast, mul_assoc, ← two_zpow_add]
  simp

/-- The powers of ten up to 10 ^ 22 are exact. -/
theorem toRat_powerOfTen {k : Nat} (h : k < 23) : (powerOfTen k).toRat = 10 ^ k := by
  have hcheck : ∀ k < 23,
      (powerOfTen k).ratio.1 = Nat.pow 10 k * (powerOfTen k).ratio.2 := by decide +kernel
  have hpos : ((powerOfTen k).ratio.2 : ℚ) ≠ 0 := by
    exact_mod_cast Nat.ne_of_gt (ratio_pos (powerOfTen k))
  rw [← ratio_eq, hcheck k h, Nat.cast_mul, mul_div_cancel_right₀ _ hpos]
  exact Nat.cast_pow 10 k

/-! ## Quotients of numbers -/

section
variable {x y : Binary64}

theorem isZero_eq_false (h : 0 < x.toRat) : x.isZero = false := by
  have hne : x.significand ≠ 0 := by
    intro hzero
    rw [toRat, hzero, Nat.cast_zero, zero_mul] at h
    exact lt_irrefl 0 h
  simpa [isZero] using hne

theorem ratio_fst_pos (h : 0 < x.toRat) : 0 < x.ratio.1 := by
  rw [← ratio_eq] at h
  rw [Nat.pos_iff_ne_zero]
  intro hzero
  rw [hzero, Nat.cast_zero, zero_div] at h
  exact lt_irrefl 0 h

/-- **A quotient of two numbers** is rounded to the number nearest to it. -/
theorem exists_div (hx : 0 < x.toRat) (hy : 0 < y.toRat) (hrange : InRange (x.toRat / y.toRat)) :
    ∃ z, x.div? y = some z ∧ z.IsNearest (x.toRat / y.toRat) := by
  have hquot : ((x.ratio.1 * y.ratio.2 : Nat) : ℚ) / (x.ratio.2 * y.ratio.1 : Nat) =
      x.toRat / y.toRat := by
    rw [← ratio_eq x, ← ratio_eq y]
    push_cast
    rw [div_div_div_eq]
  have hnum : 0 < x.ratio.1 * y.ratio.2 := Nat.mul_pos (ratio_fst_pos hx) (ratio_pos y)
  have hden : 0 < x.ratio.2 * y.ratio.1 := Nat.mul_pos (ratio_pos x) (ratio_fst_pos hy)
  rw [← hquot] at hrange ⊢
  exact exists_isNearest hnum hden hrange

/-- A number is scaled down by dividing it by a power of ten. -/
theorem scale?_neg {k : Nat} (hx : 0 < x.toRat) (hkpos : 0 < k) (hk : k ≤ maxPowerOfTen) :
    x.scale? (-k) = x.div? (powerOfTen k) := by
  have hsteps : (k - 1) / maxPowerOfTen = 0 := Nat.div_eq_of_lt (by omega)
  unfold scale?
  rw [if_neg (by omega), neg_neg, Int.toNat_natCast]
  dsimp only
  rw [hsteps]
  show (if x.isZero then some x else x.div? (powerOfTen k)) = x.div? (powerOfTen k)
  rw [isZero_eq_false hx]
  rfl

end

/-! ## Reading -/

/-- A decimal with few digits is neither too small nor too large. -/
theorem inRange_decimal {n k : Nat} (hpos : 0 < n) (hn : n < 2 ^ 53) (hk : k < 23) :
    InRange ((n : ℚ) / 10 ^ k) := by
  have hone : (1 : ℚ) ≤ n := by exact_mod_cast hpos
  refine inRange_of_le ?_ ?_
  · have hten : (10 : ℚ) ^ k ≤ 10 ^ 30 := pow_le_pow_right₀ (by norm_num) (by omega)
    exact div_le_div₀ (by positivity) hone (by positivity) hten
  · have hten : (1 : ℚ) ≤ 10 ^ k := one_le_pow₀ (by norm_num)
    have hlt : (n : ℚ) < 10 ^ 30 := by
      have : (n : ℚ) < (2 ^ 53 : ℕ) := by exact_mod_cast hn
      norm_num at this ⊢
      linarith
    exact (div_le_self (by positivity) hten).trans_lt hlt

/-- **A decimal with few digits is read as the number nearest to it.** -/
theorem exists_ofDecimal {n k : Nat} (hpos : 0 < n) (hn : n < 2 ^ 53) (hkpos : 0 < k)
    (hk : k < 23) :
    ∃ x, ofDecimal? n (-k) = some x ∧ x.IsNearest (n / 10 ^ k) := by
  obtain ⟨y, hy, hyrat⟩ := exists_ofNat hn
  have hten := toRat_powerOfTen hk
  have hypos : 0 < y.toRat := by
    rw [hyrat]
    exact_mod_cast hpos
  have htenpos : 0 < (powerOfTen k).toRat := by
    rw [hten]
    positivity
  have hquot : y.toRat / (powerOfTen k).toRat = n / 10 ^ k := by rw [hyrat, hten]
  obtain ⟨x, hx, hnearest⟩ := exists_div hypos htenpos (hquot ▸ inRange_decimal hpos hn hk)
  refine ⟨x, ?_, hquot ▸ hnearest⟩
  have hmax : k ≤ maxPowerOfTen := by
    rw [maxPowerOfTen]
    omega
  rw [ofDecimal?, hy, Option.bind_some, scale?_neg hypos hkpos hmax, hx]

end Binary64

end VersionAlignment.Decimal
