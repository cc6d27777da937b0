import VersionAlignment.Proofs.Decimal.Rounding

/-!
# The shortest decimal

A number is written with the fewest digits that are read as it again. They are searched for place by
place, the coarsest first: of the two multiples of the power of ten that enclose the number, one is
taken that lies in the interval that is rounded to the number. A decimal of at most fifteen digits
is found at the place of its last digit. There it is the nearer one, since the number differs from
it by less than half a unit of that place; and at a coarser place no multiple lies in the interval,
since two decimals of so few digits are never rounded to the same number.

## Results

* `Interval.surrounds_around`: the interval around a number, in rational numbers.
* `shortest_eq`: a decimal of at most fifteen digits is the shortest one.
-/

set_option autoImplicit false

namespace VersionAlignment.Decimal

/-! ## Powers of ten -/

theorem ten_zpow_pos (e : Int) : (0 : ℚ) < 10 ^ e := by positivity

/-- A power of ten with an exponent of either sign, as the program computes it. -/
theorem ten_zpow_of_nonneg {e : Int} (h : 0 ≤ e) : (10 : ℚ) ^ e = (Nat.pow 10 e.toNat : Nat) := by
  obtain ⟨n, rfl⟩ := Int.eq_ofNat_of_zero_le h
  simp

theorem ten_zpow_of_neg {e : Int} (h : ¬ 0 ≤ e) :
    (10 : ℚ) ^ e = 1 / (Nat.pow 10 (-e).toNat : Nat) := by
  obtain ⟨n, hn⟩ := Int.eq_ofNat_of_zero_le (a := -e) (by omega)
  obtain rfl : e = -(n : ℤ) := by omega
  simp

theorem ten_zpow_add (a b : ℤ) : (10 : ℚ) ^ (a + b) = 10 ^ a * 10 ^ b :=
  zpow_add₀ (by norm_num) a b

/-- The rational number that a decimal stands for. -/
def Digits.toRat (d : Digits) : ℚ := d.digits * 10 ^ d.exponent

/-! ## The interval around a number -/

namespace Interval

variable {i : Interval}

/-- The decimal lies between the ends, which count if the interval is closed. -/
theorem holds_iff (hunit : 0 < i.unit) (d : Digits) :
    i.holds d = true ↔
      if i.closed = true then (i.below : ℚ) / i.unit ≤ d.toRat ∧ d.toRat ≤ (i.above : ℚ) / i.unit
      else (i.below : ℚ) / i.unit < d.toRat ∧ d.toRat < (i.above : ℚ) / i.unit := by
  have hu : (0 : ℚ) < i.unit := by exact_mod_cast hunit
  obtain ⟨num, den, hden, hratio, hholds⟩ : ∃ num den : Nat, 0 < den ∧
      (num : ℚ) / den = d.toRat * i.unit ∧
      i.holds d = (if i.closed then i.below * den ≤ num && num ≤ i.above * den
        else i.below * den < num && num < i.above * den) := by
    unfold Digits.toRat
    by_cases he : 0 ≤ d.exponent
    · refine ⟨d.digits * Nat.pow 10 d.exponent.toNat * i.unit, 1, Nat.one_pos, ?_, ?_⟩
      · rw [ten_zpow_of_nonneg he]
        push_cast
        ring
      · unfold holds
        rw [if_pos he]
    · refine ⟨d.digits * i.unit, Nat.pow 10 (-d.exponent).toNat, Nat.pow_pos (by decide), ?_, ?_⟩
      · rw [ten_zpow_of_neg he]
        push_cast
        ring
      · unfold holds
        rw [if_neg he]
  have hd : (0 : ℚ) < den := by exact_mod_cast hden
  have hle : ∀ a : Nat, (a : ℚ) / i.unit ≤ d.toRat ↔ a * den ≤ num := by
    intro a
    rw [div_le_iff₀ hu, ← hratio, le_div_iff₀ hd]
    exact_mod_cast Iff.rfl
  have hge : ∀ a : Nat, d.toRat ≤ (a : ℚ) / i.unit ↔ num ≤ a * den := by
    intro a
    rw [le_div_iff₀ hu, ← hratio, div_le_iff₀ hd]
    exact_mod_cast Iff.rfl
  rw [hholds]
  split
  · rw [hle, hge, Bool.and_eq_true, decide_eq_true_iff, decide_eq_true_iff]
  · have hlt : (i.below : ℚ) / i.unit < d.toRat ↔ i.below * den < num := by
      rw [← not_le, hge, not_le]
    have hgt : d.toRat < (i.above : ℚ) / i.unit ↔ num < i.above * den := by
      rw [← not_le, hle, not_le]
    rw [hlt, hgt, Bool.and_eq_true, decide_eq_true_iff, decide_eq_true_iff]

theorem reachesTen_iff (hunit : 0 < i.unit) (e : Int) :
    i.reachesTen e = true ↔ (10 : ℚ) ^ e ≤ i.value / i.unit := by
  have hu : (0 : ℚ) < i.unit := by exact_mod_cast hunit
  unfold reachesTen
  split
  · next he =>
    rw [decide_eq_true_iff, ten_zpow_of_nonneg he, le_div_iff₀ hu, mul_comm]
    exact_mod_cast Iff.rfl
  · next he =>
    have hpow : (0 : ℚ) < (Nat.pow 10 (-e).toNat : Nat) := by
      exact_mod_cast Nat.pow_pos (by decide)
    rw [decide_eq_true_iff, ten_zpow_of_neg he, le_div_iff₀ hu, div_mul_eq_mul_div, one_mul,
      div_le_iff₀ hpow]
    exact_mod_cast Iff.rfl

end Interval

/-- **The interval around a number**, in rational numbers. -/
structure Interval.Surrounds (i : Interval) (x : Binary64) : Prop where
  unit : 0 < i.unit
  value : (i.value : ℚ) / i.unit = x.toRat
  below : (i.below : ℚ) / i.unit = x.lowerEnd
  above : (i.above : ℚ) / i.unit = x.upperEnd
  closed : i.closed = true ↔ x.significand % 2 = 0

theorem surrounds_around {x : Binary64} (hleast : 2 ^ 52 ≤ x.significand)
    (hexponent : Binary64.minExponent < x.exponent) : (Interval.around x).Surrounds x := by
  have hunit := Binary64.ratio_pos ⟨4, x.exponent - 2⟩
  have hstep : (((⟨4, x.exponent - 2⟩ : Binary64).ratio.1 / 4 : Nat) : ℚ) /
      (⟨4, x.exponent - 2⟩ : Binary64).ratio.2 = 2 ^ (x.exponent - 2) := by
    unfold Binary64.ratio
    split
    · next he =>
      rw [Nat.mul_div_cancel_left _ (Nat.succ_pos 3), two_zpow_of_nonneg he]
      simp
    · next he =>
      rw [two_zpow_of_neg he]
      simp
  have hquarter : (2 : ℚ) ^ x.exponent = 4 * 2 ^ (x.exponent - 2) := by
    rw [show x.exponent = x.exponent - 2 + 2 by ring, Binary64.two_zpow_add]
    norm_num
    ring
  generalize hratio : (⟨4, x.exponent - 2⟩ : Binary64).ratio = ratio at hunit hstep
  have haround : Interval.around x =
      { value := x.significand * 4 * (ratio.1 / 4)
        below := (x.significand * 4 -
          if x.significand = Nat.pow 2 52 ∧ Binary64.minExponent < x.exponent then 1 else 2) *
            (ratio.1 / 4)
        above := (x.significand * 4 + 2) * (ratio.1 / 4)
        unit := ratio.2
        closed := x.significand % 2 = 0 } := by
    unfold Interval.around
    rw [hratio]
    rfl
  rw [haround]
  refine ⟨hunit, ?_, ?_, ?_, by simp⟩
  · dsimp only
    rw [Nat.cast_mul, mul_div_assoc, hstep, Binary64.toRat, hquarter]
    push_cast
    ring
  · dsimp only
    rw [Nat.cast_mul, mul_div_assoc, hstep, Binary64.lowerEnd_eq, Binary64.toRat, hquarter]
    by_cases hm : x.significand = 2 ^ 52
    · rw [if_pos ⟨hm, hexponent⟩, if_pos hm, Nat.cast_sub (by omega)]
      push_cast
      ring
    · rw [if_neg fun h => hm h.1, if_neg hm, Nat.cast_sub (by omega)]
      push_cast
      ring
  · dsimp only
    rw [Nat.cast_mul, mul_div_assoc, hstep, Binary64.upperEnd_eq, Binary64.toRat, hquarter]
    push_cast
    ring

namespace Binary64.IsNearest

variable {x : Binary64} {q : ℚ} {d : Digits}

/-- A decimal is read as the number if it lies in the interval around it. -/
theorem holds (h : x.IsNearest q) (hd : d.toRat = q) : (Interval.around x).holds d = true := by
  obtain ⟨hunit, -, hbelow, habove, hclosed⟩ := surrounds_around h.least h.exponent
  rw [Interval.holds_iff hunit, hbelow, habove, hd]
  split
  · exact ⟨h.above, h.below⟩
  · next hopen =>
    rw [hclosed] at hopen
    exact ⟨lt_of_le_of_ne h.above fun heq => hopen (h.even (.inl heq.symm)),
      lt_of_le_of_ne h.below fun heq => hopen (h.even (.inr heq))⟩

/-- The last binary digit of the number is small. -/
theorem two_zpow_le (h : x.IsNearest q) : (2 : ℚ) ^ x.exponent ≤ q / 2 ^ 51 := by
  have hpos := two_zpow_pos x.exponent
  have habove := x.le_lowerEnd.trans h.above
  unfold toRat at habove
  have hleast : ((2 ^ 52 : Nat) : ℚ) * 2 ^ x.exponent ≤ x.significand * 2 ^ x.exponent :=
    mul_le_mul_of_nonneg_right (by exact_mod_cast h.least) hpos.le
  push_cast at hleast
  rw [le_div_iff₀ (by positivity)]
  linarith

/-- Two decimals in the interval are less than a unit apart. -/
theorem abs_sub_le (h : x.IsNearest q) (hd : (Interval.around x).holds d = true) :
    |d.toRat - q| ≤ 2 ^ x.exponent := by
  obtain ⟨hunit, -, hbelow, habove, -⟩ := surrounds_around h.least h.exponent
  rw [Interval.holds_iff hunit, hbelow, habove] at hd
  have hends : x.lowerEnd ≤ d.toRat ∧ d.toRat ≤ x.upperEnd := by
    split at hd
    · exact hd
    · exact ⟨hd.1.le, hd.2.le⟩
  have hlower := x.le_lowerEnd
  have hupper := x.upperEnd_eq
  have hq := h.above
  have hq' := h.below
  rw [abs_le]
  constructor <;> linarith [hends.1, hends.2]

/-- The number itself is as near. -/
theorem abs_toRat_sub_le (h : x.IsNearest q) : |x.toRat - q| ≤ 2 ^ x.exponent / 2 := by
  have hlower := x.le_lowerEnd
  have hupper := x.upperEnd_eq
  have habove := h.above
  have hbelow := h.below
  rw [abs_le]
  constructor <;> linarith

end Binary64.IsNearest

/-! ## Grids -/

section
variable {x : Binary64} {q : ℚ} {n : Nat} {e g : ℤ}

/-- The distance of what is read as the same number, in units of the last of at most fifteen
digits. -/
theorem last_digit_lt (h : x.IsNearest q) (hq : q = n * 10 ^ e) (hn : n < 10 ^ 15) :
    (2 : ℚ) ^ x.exponent < 10 ^ e / 2 := by
  have hsmall := h.two_zpow_le
  have hlt : (n : ℚ) < 10 ^ 15 := by exact_mod_cast hn
  have hscaled : q < 10 ^ 15 * 10 ^ e := by
    rw [hq]
    exact mul_lt_mul_of_pos_right hlt (ten_zpow_pos e)
  have hpos := ten_zpow_pos e
  rw [le_div_iff₀ (by positivity)] at hsmall
  norm_num at hsmall hscaled
  linarith

/-- On a coarser grid no decimal is read as the number. -/
theorem gridPoint?_coarse (h : x.IsNearest q) (hq : q = n * 10 ^ e) (hn : n < 10 ^ 15)
    (hlast : n % 10 ≠ 0) (hg : e < g) : (Interval.around x).gridPoint? g = none := by
  have hfine := last_digit_lt h hq hn
  have hnone : ∀ k, (Interval.around x).holds ⟨k, g⟩ = false := by
    intro k
    rw [Bool.eq_false_iff]
    intro hholds
    have hnear := h.abs_sub_le hholds
    obtain ⟨j, hj⟩ := Int.eq_ofNat_of_zero_le (a := g - e - 1) (by omega)
    have hg' : g = e + ((j + 1 : ℕ) : ℤ) := by
      push_cast
      omega
    have hpoint : (⟨k, g⟩ : Digits).toRat = (k * 10 ^ (j + 1) : ℕ) * 10 ^ e := by
      unfold Digits.toRat
      dsimp only
      rw [hg', ten_zpow_add, zpow_natCast]
      push_cast
      ring
    rw [hpoint, hq, ← sub_mul, abs_mul, abs_of_pos (ten_zpow_pos e)] at hnear
    have hpos := ten_zpow_pos e
    have hclose : |((k * 10 ^ (j + 1) : ℕ) : ℚ) - n| < 1 := by
      by_contra hfar
      have := mul_le_mul_of_nonneg_right (not_lt.1 hfar) hpos.le
      linarith
    have hint : |((k * 10 ^ (j + 1) : ℕ) : ℤ) - n| < 1 := by exact_mod_cast hclose
    have hzero := Int.abs_lt_one_iff.1 hint
    have heq : n = k * 10 ^ j * 10 := by
      rw [mul_assoc, ← pow_succ]
      omega
    omega
  unfold Interval.gridPoint?
  dsimp only
  simp [List.findSome?, hnone]

/-- On a grid on which the decimal has at most fifteen digits it is found. -/
theorem gridPoint?_hit (h : x.IsNearest q) (hq : q = n * 10 ^ e) (hn : n < 10 ^ 15) :
    (Interval.around x).gridPoint? e = some ⟨n, e⟩ := by
  obtain ⟨hunit, hvalue, -, -, -⟩ := surrounds_around h.least h.exponent
  have hholds : (Interval.around x).holds ⟨n, e⟩ = true := h.holds hq.symm
  have hpos := ten_zpow_pos e
  have hnear : |x.toRat / 10 ^ e - n| < 1 / 2 := by
    have hfine := last_digit_lt h hq hn
    have hclose := h.abs_toRat_sub_le
    have hscaled : x.toRat / 10 ^ e - n = (x.toRat - q) / 10 ^ e := by
      rw [hq, sub_div, mul_div_cancel_right₀ _ hpos.ne']
    rw [hscaled, abs_div, abs_of_pos hpos, div_lt_iff₀ hpos]
    linarith
  generalize Interval.around x = i at hunit hvalue hholds
  obtain ⟨num, den, hden, hquot, hgrid⟩ : ∃ num den : Nat, 0 < den ∧
      (num : ℚ) / den = x.toRat / 10 ^ e ∧
      i.gridPoint? e = [roundDiv num den, if roundDiv num den = num / den then num / den + 1
        else num / den].findSome? fun k => if i.holds ⟨k, e⟩ then some ⟨k, e⟩ else none := by
    unfold Interval.gridPoint?
    by_cases he : 0 ≤ e
    · refine ⟨i.value, i.unit * Nat.pow 10 e.toNat, Nat.mul_pos hunit (Nat.pow_pos (by decide)), ?_,
        by rw [if_pos he]⟩
      rw [← hvalue, ten_zpow_of_nonneg he, div_div]
      push_cast
      rfl
    · refine ⟨i.value * Nat.pow 10 (-e).toNat, i.unit, hunit, ?_, by rw [if_neg he]⟩
      rw [← hvalue, ten_zpow_of_neg he]
      push_cast
      field_simp
  have hround : roundDiv num den = n := roundDiv_eq hden (by rwa [hquot])
  rw [hgrid, hround, List.findSome?_cons, if_pos hholds]

end

/-! ## The first decimal digit -/

/-- Powers of ten between powers of two, over the range in which the program estimates them. -/
theorem ten_zpow_estimate {b : ℤ} (hlow : -20 ≤ b) (hhigh : b ≤ 60) :
    (10 : ℚ) ^ (b * 30103 / 100000 - 1) ≤ 2 ^ (b - 1) ∧
      (2 : ℚ) ^ (b + 1) ≤ 10 ^ (b * 30103 / 100000 - 1 + 3) := by
  -- all exponents are raised by twenty or more, so that they are natural numbers
  have hcheck : ∀ k : ℕ, k < 81 →
      10 ^ (((k : ℤ) - 20) * 30103 / 100000 - 1 + 20).toNat * 2 ^ 21 ≤ 2 ^ k * 10 ^ 20 ∧
        2 ^ (k + 1) * 10 ^ 20 ≤ 10 ^ (((k : ℤ) - 20) * 30103 / 100000 - 1 + 23).toNat * 2 ^ 20 ∧
        0 ≤ ((k : ℤ) - 20) * 30103 / 100000 - 1 + 20 := by
    decide +kernel
  obtain ⟨k, hk⟩ := Int.eq_ofNat_of_zero_le (a := b + 20) (by omega)
  obtain ⟨h₁, h₂, hnonneg⟩ := hcheck k (by omega)
  obtain rfl : b = (k : ℤ) - 20 := by omega
  generalize ((k : ℤ) - 20) * 30103 / 100000 - 1 = g at h₁ h₂ hnonneg
  have hten : ∀ j : ℕ, ((10 ^ (g + j).toNat : ℕ) : ℚ) = 10 ^ g * 10 ^ j ∨ g + j < 0 := by
    intro j
    by_cases hj : 0 ≤ g + j
    · left
      rw [Nat.cast_pow, ← zpow_natCast, Int.toNat_of_nonneg hj]
      push_cast
      rw [ten_zpow_add, zpow_natCast]
    · exact .inr (by omega)
  have htwo : ∀ j : ℤ, (2 : ℚ) ^ ((k : ℤ) - 20 + j) = 2 ^ k / 2 ^ 20 * 2 ^ j := by
    intro j
    rw [Binary64.two_zpow_add, zpow_sub₀ (by norm_num), zpow_natCast]
    norm_num
  constructor
  · have hg := (hten 20).resolve_right (by push_cast; omega)
    have h₁ : ((10 ^ (g + (20 : ℕ)).toNat : ℕ) : ℚ) * 2 ^ 21 ≤ 2 ^ k * 10 ^ 20 := by
      exact_mod_cast h₁
    rw [hg] at h₁
    rw [show (k : ℤ) - 20 - 1 = k - 20 + (-1) by ring, htwo]
    norm_num at h₁ ⊢
    linarith
  · have hg := (hten 23).resolve_right (by push_cast; omega)
    have h₂ : (2 : ℚ) ^ (k + 1) * 10 ^ 20 ≤ ((10 ^ (g + (23 : ℕ)).toNat : ℕ) : ℚ) * 2 ^ 20 := by
      exact_mod_cast h₂
    rw [hg, pow_succ] at h₂
    rw [htwo, ten_zpow_add]
    norm_num at h₂ ⊢
    linarith

/-- The place of the first digit of a number that is neither small nor large. -/
theorem decimalPlace_spec {i : Interval} (hunit : 0 < i.unit)
    (hlow : (2 : ℚ) ^ (-19 : ℤ) ≤ i.value / i.unit)
    (hhigh : (i.value / i.unit : ℚ) ≤ 2 ^ (59 : ℤ)) :
    (10 : ℚ) ^ i.decimalPlace ≤ i.value / i.unit ∧
      (i.value / i.unit : ℚ) < 10 ^ (i.decimalPlace + 1) := by
  have hvalue : 0 < i.value := by
    rw [Nat.pos_iff_ne_zero]
    intro hzero
    rw [hzero] at hlow
    norm_num at hlow
  obtain ⟨hbelow, habove⟩ := Binary64.two_zpow_log2_sub hvalue hunit
  have hb₁ := (zpow_lt_zpow_iff_right₀ (by norm_num : (1 : ℚ) < 2)).1 (hbelow.trans_le hhigh)
  have hb₂ := (zpow_lt_zpow_iff_right₀ (by norm_num : (1 : ℚ) < 2)).1 (hlow.trans_lt habove)
  obtain ⟨hguess, hguess'⟩ := ten_zpow_estimate (b := (Nat.log2 i.value : ℤ) - Nat.log2 i.unit)
    (by omega) (by omega)
  unfold Interval.decimalPlace
  dsimp only
  generalize ((Nat.log2 i.value : ℤ) - Nat.log2 i.unit) * 30103 / 100000 - 1 = guess
    at hguess hguess'
  split
  · next h₂ =>
    refine ⟨(Interval.reachesTen_iff hunit _).1 h₂, ?_⟩
    rw [add_assoc]
    exact habove.trans_le hguess'
  · next h₂ =>
    rw [Interval.reachesTen_iff hunit, not_le] at h₂
    split
    · next h₁ => exact ⟨(Interval.reachesTen_iff hunit _).1 h₁, by rwa [add_assoc]⟩
    · next h₁ =>
      rw [Interval.reachesTen_iff hunit, not_le] at h₁
      exact ⟨hguess.trans hbelow.le, h₁⟩

/-! ## The shortest decimal -/

theorem findSome?_range {α : Type} {f : ℕ → Option α} {a : α} {m k : ℕ} (hk : k < m)
    (hnone : ∀ j < k, f j = none) (hsome : f k = some a) : (List.range m).findSome? f = some a := by
  have hsplit : List.range m = List.range k ++ k :: (List.range' (k + 1) (m - (k + 1))) := by
    have happend : List.range' 0 k ++ List.range' (0 + k) (m - k) = List.range' 0 (k + (m - k)) :=
      List.range'_append_1
    rw [Nat.zero_add, Nat.add_sub_cancel' hk.le] at happend
    rw [List.range_eq_range', List.range_eq_range', ← happend, ← List.range'_succ]
    congr 2
    omega
  have hfirst : (List.range k).findSome? f = none :=
    List.findSome?_eq_none_iff.2 fun j hj => hnone j (List.mem_range.1 hj)
  rw [hsplit, List.findSome?_append, hfirst, List.findSome?_cons, hsome]
  rfl

theorem strip_of_last {n : ℕ} (hlast : n % 10 ≠ 0) (fuel : ℕ) (e : ℤ) :
    Digits.strip fuel ⟨n, e⟩ = ⟨n, e⟩ := by
  cases fuel with
  | zero => rfl
  | succ fuel =>
    unfold Digits.strip
    rw [if_neg fun h => hlast h.2]

section
variable {x : Binary64} {q : ℚ} {n : ℕ} {e place : ℤ}

/-- A number of at most fifteen digits has its first digit less than fifteen places above the
last. -/
theorem place_lt (h : x.IsNearest q) (hq : q = n * 10 ^ e) (hn : n < 10 ^ 15)
    (hfirst : 10 ^ place ≤ x.toRat) : place < e + 15 := by
  have hfine := last_digit_lt h hq hn
  have hclose := abs_le.1 (h.abs_toRat_sub_le)
  refine (zpow_lt_zpow_iff_right₀ (by norm_num : (1 : ℚ) < 10)).1 (hfirst.trans_lt ?_)
  have hscaled : ((n : ℚ) + 1) * 10 ^ e ≤ 10 ^ 15 * 10 ^ e :=
    mul_le_mul_of_nonneg_right (by exact_mod_cast hn) (ten_zpow_pos e).le
  rw [add_comm e 15, ten_zpow_add]
  norm_num at hscaled ⊢
  linarith

/-- It has it at the last place or above, but for one that is a little less than a power of ten. -/
theorem place_cases (h : x.IsNearest q) (hq : q = n * 10 ^ e) (hn : n < 10 ^ 15) (hpos : n ≠ 0)
    (hfirst : x.toRat < 10 ^ (place + 1)) : e ≤ place ∨ place = e - 1 ∧ n = 1 := by
  have hfine := last_digit_lt h hq hn
  have hclose := abs_le.1 (h.abs_toRat_sub_le)
  have hten := ten_zpow_pos e
  have hlower : ((n : ℚ) - 1 / 4) * 10 ^ e < 10 ^ (place + 1) := by
    rw [sub_mul, ← hq]
    linarith
  have hbelow : e - 1 < place + 1 := by
    have hone : (1 : ℚ) ≤ n := by exact_mod_cast Nat.pos_of_ne_zero hpos
    have hscaled : (1 - 1 / 4) * (10 : ℚ) ^ e ≤ (n - 1 / 4) * 10 ^ e :=
      mul_le_mul_of_nonneg_right (by linarith) hten.le
    refine (zpow_lt_zpow_iff_right₀ (by norm_num : (1 : ℚ) < 10)).1 (lt_of_le_of_lt ?_ hlower)
    rw [zpow_sub₀ (by norm_num), zpow_one]
    linarith
  by_cases hle : e ≤ place
  · exact .inl hle
  · obtain rfl : place = e - 1 := by omega
    rw [sub_add_cancel] at hlower
    have hscaled := lt_of_mul_lt_mul_right (hlower.trans_eq (one_mul _).symm) hten.le
    have hlt : (n : ℚ) < (2 : ℕ) := by
      push_cast
      linarith
    have hlt' : n < 2 := by exact_mod_cast hlt
    exact .inr ⟨rfl, by omega⟩

/-- The search comes down to the grid of the last digit. -/
theorem findSome?_gridPoint? (h : x.IsNearest q) (hq : q = n * 10 ^ e) (hn : n < 10 ^ 15)
    (hlast : n % 10 ≠ 0) (hle : e ≤ place) (hlt : place < e + 15) :
    (List.range 17).findSome? (fun k : ℕ => (Interval.around x).gridPoint? (place - k)) =
      some ⟨n, e⟩ := by
  refine findSome?_range (k := (place - e).toNat) (by omega)
    (fun j hj => gridPoint?_coarse h hq hn hlast (by omega)) ?_
  rw [Int.toNat_of_nonneg (by omega), sub_sub_cancel]
  exact gridPoint?_hit h hq hn

/-- Where the number is a little less than a power of ten, the search starts below its grid. -/
theorem findSome?_gridPoint?_ten (h : x.IsNearest q) (hq : q = (1 : ℕ) * 10 ^ e) :
    (List.range 17).findSome? (fun k : ℕ => (Interval.around x).gridPoint? (e - 1 - k)) =
      some ⟨10, e - 1⟩ := by
  have hq' : q = (10 : ℕ) * 10 ^ (e - 1) := by
    rw [hq, zpow_sub₀ (by norm_num), zpow_one]
    push_cast
    ring
  refine findSome?_range (k := 0) (by omega) (fun j hj => absurd hj (Nat.not_lt_zero j)) ?_
  rw [Nat.cast_zero, sub_zero]
  exact gridPoint?_hit h hq' (by norm_num)

/-- **A decimal of at most fifteen digits is the shortest one** that is read as the number nearest
to it. -/
theorem shortest_eq (h : x.IsNearest q) (hq : q = n * 10 ^ e) (hn : n < 10 ^ 15)
    (hlast : n % 10 ≠ 0) (hlow : 1 / 10 ^ 5 ≤ q) (hhigh : q ≤ 10 ^ 16) : shortest x = ⟨n, e⟩ := by
  obtain ⟨hunit, hvalue, -, -, -⟩ := surrounds_around h.least h.exponent
  have hclose := abs_le.1 (h.abs_toRat_sub_le)
  have hsmall := h.two_zpow_le
  have hplace : (10 : ℚ) ^ (Interval.around x).decimalPlace ≤ x.toRat ∧
      x.toRat < 10 ^ ((Interval.around x).decimalPlace + 1) := by
    rw [← hvalue]
    refine decimalPlace_spec hunit ?_ ?_
    · rw [hvalue]
      norm_num at hlow hsmall ⊢
      linarith
    · rw [hvalue]
      norm_num at hhigh hsmall ⊢
      linarith
  unfold shortest
  dsimp only
  generalize (Interval.around x).decimalPlace = place at hplace
  obtain hle | ⟨rfl, rfl⟩ := place_cases h hq hn (by rintro rfl; exact hlast rfl) hplace.2
  · rw [findSome?_gridPoint? h hq hn hlast hle (place_lt h hq hn hplace.1), Option.getD_some]
    exact strip_of_last hlast 20 e
  · have hstrip : Digits.strip 20 ⟨10, e - 1⟩ = Digits.strip 19 ⟨1, e - 1 + 1⟩ := by
      simp [Digits.strip]
    rw [findSome?_gridPoint?_ten h hq, Option.getD_some, hstrip, sub_add_cancel]
    exact strip_of_last (by decide) 19 e

end

end VersionAlignment.Decimal
