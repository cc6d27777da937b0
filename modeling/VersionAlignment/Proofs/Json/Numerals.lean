import VersionAlignment.Proofs.Decimal.Shortest
import VersionAlignment.Proofs.Json.Locality

/-!
# Numerals that keep their spelling

A number of a JSON text is taken for an integer or for a floating-point number, and its text is
written down from that: an integer by its digits, a floating-point number by the fewest digits that
are read as it. A numeral without an exponent is its own text if it is an integer that fits 64 bits,
or has a point, no more than fifteen digits and no zero at its end that could be left out.

## Results

* `digitsText_ofDigitChars`: digits without a zero in front are the digits of their value.
* `Numeral.exists_text_eq`: a short numeral is its own text.
-/

set_option autoImplicit false

namespace VersionAlignment.Decimal

variable {ds : List Char} {d : Char} {n : Nat}

/-! ## Digits of a value -/

theorem toNat_sub_lt (hd : d.isDigit = true) : d.toNat - '0'.toNat < 10 := by
  simp only [Char.isDigit, Bool.and_eq_true, decide_eq_true_eq] at hd
  have hhigh : d.toNat ≤ 57 := hd.2
  have hzero : '0'.toNat = 48 := rfl
  omega

theorem digitChar_toNat_sub (hd : d.isDigit = true) : Nat.digitChar (d.toNat - '0'.toNat) = d := by
  have hlt := toNat_sub_lt hd
  simp only [Char.isDigit, Bool.and_eq_true, decide_eq_true_eq] at hd
  have hlow : 48 ≤ d.toNat := hd.1
  have hzero : '0'.toNat = 48 := rfl
  rw [← Char.toNat_inj, Nat.toNat_digitChar_of_lt_ten hlt]
  omega

theorem ofDigitChars_concat (b init : Nat) :
    Nat.ofDigitChars b (ds ++ [d]) init =
      b * Nat.ofDigitChars b ds init + (d.toNat - '0'.toNat) := by
  rw [Nat.ofDigitChars_append, Nat.ofDigitChars_cons, Nat.ofDigitChars_nil]

/-- Digits without a zero in front spell a positive number, and are its digits. -/
theorem digitsText_ofDigitChars (hds : ∀ d ∈ ds, d.isDigit = true) (hne : ds ≠ [])
    (hhead : ds.head? ≠ some '0') :
    0 < Nat.ofDigitChars 10 ds 0 ∧ digitsText (Nat.ofDigitChars 10 ds 0) = ds := by
  induction ds using List.reverseRecOn with
  | nil => exact absurd rfl hne
  | append_singleton ds d ih =>
    have hd : d.isDigit = true := hds d (List.mem_append_right _ List.mem_cons_self)
    have hlt := toNat_sub_lt hd
    rw [ofDigitChars_concat]
    by_cases hnil : ds = []
    · subst hnil
      rw [Nat.ofDigitChars_nil, Nat.mul_zero, Nat.zero_add]
      have hpos : d.toNat - '0'.toNat ≠ 0 := by
        intro hzero
        have hchar := digitChar_toNat_sub hd
        rw [hzero] at hchar
        exact hhead (by rw [List.nil_append, List.head?_cons, ← hchar]; rfl)
      refine ⟨Nat.pos_of_ne_zero hpos, ?_⟩
      unfold digitsText
      rw [Nat.toDigits_of_lt_base hlt, digitChar_toNat_sub hd, List.nil_append]
    · obtain ⟨hpos, htext⟩ := ih (fun x hx => hds x (List.mem_append_left _ hx)) hnil
        (by rwa [List.head?_append_of_ne_nil _ hnil] at hhead)
      refine ⟨by omega, ?_⟩
      unfold digitsText at htext ⊢
      rw [← Nat.toDigits_append_toDigits (by decide) hpos hlt, htext,
        Nat.toDigits_of_lt_base hlt, digitChar_toNat_sub hd]

/-- Zeros behind the digits of a number. -/
theorem digitsText_mul_pow (hn : 0 < n) (e : Nat) :
    digitsText (n * 10 ^ e) = digitsText n ++ List.replicate e '0' := by
  induction e with
  | zero => simp
  | succ e ih =>
    have hpos : 0 < n * 10 ^ e := Nat.mul_pos hn (by positivity)
    have hsplit : n * 10 ^ (e + 1) = 10 * (n * 10 ^ e) + 0 := by ring
    unfold digitsText at ih ⊢
    rw [hsplit, ← Nat.toDigits_append_toDigits (by decide) hpos (by decide), ih,
      List.replicate_succ', List.append_assoc, Nat.toDigits_zero]

theorem digitsText_ne_nil (n : Nat) : digitsText n ≠ [] := Nat.toDigits_ne_nil

/-- The first of the zeros at the end of a number. -/
theorem exists_eq_mul_pow (hn : 0 < n) : ∃ m e : Nat, n = m * 10 ^ e ∧ 0 < m ∧ m % 10 ≠ 0 := by
  induction n using Nat.strongRecOn with
  | ind n ih =>
    by_cases hlast : n % 10 = 0
    · obtain ⟨m, e, hm, hpos, hmlast⟩ := ih (n / 10) (by omega) (by omega)
      refine ⟨m, e + 1, ?_, hpos, hmlast⟩
      rw [pow_succ, ← mul_assoc, ← hm]
      omega
    · exact ⟨n, 0, by simp, hn, hlast⟩

end VersionAlignment.Decimal

namespace VersionAlignment.Json

open Decimal

/-! ## Numerals -/

/-- A numeral without sign and exponent: digits, and behind a point more digits if there are any. No
zero stands in front of other digits. -/
structure Numeral where
  whole : List Char
  fraction : List Char
  isDigit_whole : ∀ d ∈ whole, d.isDigit = true
  isDigit_fraction : ∀ d ∈ fraction, d.isDigit = true
  whole_ne_nil : whole ≠ []
  eq_zero_of_head : whole.head? = some '0' → whole = ['0']

namespace Numeral

/-- The text of a numeral. -/
def spelled (n : Numeral) : List Char :=
  n.whole ++ if n.fraction = [] then [] else '.' :: n.fraction

/-- The number that a numeral spells without its point. -/
def digits (n : Numeral) : Nat := Nat.ofDigitChars 10 (n.whole ++ n.fraction) 0

/-- A numeral is its own text if it is an integer that fits 64 bits, or if it has no more than
fifteen digits, no zero at its end but for the one behind the point of an integer, and is zero or no
less than 0.00001. -/
def IsShort (n : Numeral) : Prop :=
  if n.fraction = [] then n.digits < significandLimit
  else (n.fraction = ['0'] ∨ n.fraction.getLast? ≠ some '0') ∧ n.digits < 10 ^ 15 ∧
    (n.digits = 0 ∨ 10 ^ n.fraction.length ≤ n.digits * 10 ^ 5)

instance (n : Numeral) : Decidable n.IsShort := by unfold IsShort; infer_instance

/-- A numeral starts with a digit, and is made of digits and a point. -/
theorem exists_spelled_eq_cons (n : Numeral) : ∃ d s, n.spelled = d :: s ∧ d.isDigit = true ∧
    ∀ c ∈ s, c.isDigit = true ∨ c = '.' := by
  obtain ⟨d, s, hwhole⟩ := List.exists_cons_of_ne_nil n.whole_ne_nil
  have hdigit : ∀ c ∈ d :: s, c.isDigit = true := hwhole ▸ n.isDigit_whole
  rw [List.forall_mem_cons] at hdigit
  refine ⟨d, s ++ if n.fraction = [] then [] else '.' :: n.fraction, ?_, hdigit.1, ?_⟩
  · rw [spelled, hwhole]
    rfl
  · rw [List.forall_mem_append]
    refine ⟨fun c hc => .inl (hdigit.2 c hc), ?_⟩
    split
    · simp
    · rw [List.forall_mem_cons]
      exact ⟨.inr rfl, fun c hc => .inl (n.isDigit_fraction c hc)⟩

theorem isDigit_or_point {n : Numeral} {c : Char} (hc : c ∈ n.spelled) :
    c.isDigit = true ∨ c = '.' := by
  obtain ⟨d, s, hspelled, hd, hs⟩ := n.exists_spelled_eq_cons
  rw [hspelled] at hc
  rcases List.mem_cons.1 hc with rfl | hc
  · exact .inl hd
  · exact hs c hc

end Numeral

/-! ## Reading a numeral -/

section
variable {ds : List Char} {n k : Nat}

theorem le_ofDigitChars (n : Nat) (ds : List Char) : n ≤ Nat.ofDigitChars 10 ds n := by
  rw [Nat.ofDigitChars_eq_ofDigitChars_zero]
  have : 1 * n ≤ 10 ^ ds.length * n := Nat.mul_le_mul_right n (Nat.one_le_pow _ _ (by decide))
  omega

/-- Digits that fit are gathered into their value. -/
theorem gather_eq {limit : Nat} (h : Nat.ofDigitChars 10 ds n < limit) :
    gather limit n ds = (Nat.ofDigitChars 10 ds n, []) := by
  induction ds generalizing n with
  | nil => rfl
  | cons d ds ih =>
    have hvalue : n * 10 + digitValue d = 10 * n + (d.toNat - '0'.toNat) := by
      rw [Nat.mul_comm]
      rfl
    rw [Nat.ofDigitChars_cons] at h
    have hfits : n * 10 + digitValue d < limit := by
      rw [hvalue]
      exact (le_ofDigitChars _ ds).trans_lt h
    unfold gather
    dsimp only
    rw [if_pos hfits, hvalue, ih h, Nat.ofDigitChars_cons]

end

namespace Numeral

variable (n : Numeral)

/-- The value of the digits before the point. -/
theorem exists_readUnsigned (hfits : Nat.ofDigitChars 10 n.whole 0 < significandLimit)
    {tail : List Char} (htail : ∀ d t, d.isDigit = true → tail ≠ d :: t) (line column : Nat) :
    ∃ line' column', readUnsigned false ⟨n.whole ++ tail, line, column⟩ =
      readUnsigned.go false (Nat.ofDigitChars 10 n.whole 0) 0 ⟨tail, line', column'⟩ := by
  obtain ⟨ch, more, hwhole⟩ := List.exists_cons_of_ne_nil n.whole_ne_nil
  by_cases hzero : ch = '0'
  · subst hzero
    have hall := n.eq_zero_of_head (by rw [hwhole]; rfl)
    rw [hall]
    exact readUnsigned_zero false line column htail
  · have hch : ch.isDigit = true := n.isDigit_whole ch (by rw [hwhole]; exact List.mem_cons_self)
    have hrun := digitRun_append n.isDigit_whole htail line column
    refine ⟨line, column + n.whole.length, ?_⟩
    rw [hwhole] at hrun hfits ⊢
    rw [List.cons_append] at hrun ⊢
    rw [readUnsigned.eq_def]
    simp only [hch, hrun, gather_eq hfits, if_true, List.length_nil]

/-- A numeral is read as a number. -/
theorem atom?_spelled : atom? n.spelled =
    match readUnsigned false ⟨n.spelled, 1, 0⟩ with
    | .ok (x, c) => if c.rest = [] then some (.number x) else none
    | .error _ => none := by
  obtain ⟨ch, rest, hspelled, hch, -⟩ := n.exists_spelled_eq_cons
  have hquote : ch ≠ '"' := by
    rintro rfl
    exact absurd hch (by decide)
  have hminus : ch ≠ '-' := by
    rintro rfl
    exact absurd hch (by decide)
  rw [hspelled]
  simp only [atom?, readScalar, if_neg hquote, if_neg hminus, hch, if_true, bind, Except.bind]
  cases readUnsigned false ⟨ch :: rest, 1, 0⟩ with
  | ok _ => rfl
  | error _ => rfl

theorem exists_number_of_atom? {v : Value} (h : atom? n.spelled = some v) : ∃ x, v = .number x := by
  rw [atom?_spelled] at h
  split at h
  · split at h
    · cases h
      exact ⟨_, rfl⟩
    · cases h
  · cases h

/-- A numeral is read as what its digits before the point and those behind it stand for. -/
theorem atom?_of_readUnsigned {x : Number}
    (h : ∃ line column, readUnsigned false ⟨n.spelled, 1, 0⟩ = .ok (x, ⟨[], line, column⟩)) :
    atom? n.spelled = some (.number x) := by
  obtain ⟨line, column, h⟩ := h
  rw [atom?_spelled, h]
  rfl

theorem exists_integer (hnone : n.fraction = []) (hfits : n.digits < significandLimit) :
    atom? n.spelled = some (.number (.natural n.digits)) := by
  have hwhole : n.digits = Nat.ofDigitChars 10 n.whole 0 := by
    unfold digits
    rw [hnone, List.append_nil]
  have hend : ∀ d t, d.isDigit = true → ([] : List Char) ≠ d :: t := by simp
  obtain ⟨line, column, hread⟩ := n.exists_readUnsigned (hwhole ▸ hfits) hend 1 0
  refine n.atom?_of_readUnsigned ⟨line, column, ?_⟩
  unfold spelled
  rw [if_pos hnone, hread, hwhole]
  rfl

theorem exists_decimal (hsome : n.fraction ≠ []) (hfits : n.digits < significandLimit)
    {x : Binary64} (hx : Binary64.ofDecimal? n.digits (-n.fraction.length) = some x) :
    atom? n.spelled = some (.number (.decimal false x)) := by
  have hdigits : n.digits = Nat.ofDigitChars 10 n.fraction (Nat.ofDigitChars 10 n.whole 0) := by
    unfold digits
    rw [Nat.ofDigitChars_append]
  have hwhole : Nat.ofDigitChars 10 n.whole 0 < significandLimit := by
    rw [hdigits] at hfits
    exact (le_ofDigitChars _ _).trans_lt hfits
  have hpoint : ∀ d t, d.isDigit = true → '.' :: n.fraction ≠ d :: t := by
    rintro d t hd heq
    rw [← (List.cons.inj heq).1] at hd
    exact absurd hd (by decide)
  obtain ⟨line, column, hread⟩ := n.exists_readUnsigned hwhole hpoint 1 0
  obtain ⟨l, k, hnext⟩ := Cursor.exists_next_eq (c := ⟨'.' :: n.fraction, line, column⟩) rfl
  have hend : ∀ d t, d.isDigit = true → ([] : List Char) ≠ d :: t := by simp
  have hrun := digitRun_append n.isDigit_fraction hend l k
  rw [List.append_nil] at hrun
  have hgather : gather significandLimit (Nat.ofDigitChars 10 n.whole 0) n.fraction =
      (n.digits, []) := by
    rw [hdigits] at hfits ⊢
    exact gather_eq hfits
  refine n.atom?_of_readUnsigned ⟨l, k + n.fraction.length, ?_⟩
  have hspelled : n.spelled = n.whole ++ '.' :: n.fraction := by
    unfold spelled
    rw [if_neg hsome]
  rw [hspelled, hread]
  show readFraction false (Nat.ofDigitChars 10 n.whole 0) 0 _ = _
  unfold readFraction
  simp only [hnext, hrun, hgather]
  rw [List.length_nil, Nat.sub_zero, Nat.cast_zero, zero_sub]
  unfold readRest decimalOf
  dsimp only
  rw [hx]

end Numeral

/-! ## Writing a number -/

section
variable {m k z : Nat} {ds ds' : List Char}

theorem length_digitsText_le (hk : 0 < k) (hm : m < 10 ^ k) : (digitsText m).length ≤ k :=
  (Nat.length_toDigits_le_iff (by decide) hk).2 hm

/-- A decimal without a digit behind the point gets a zero there. -/
theorem text_whole (hlength : (digitsText m).length + k ≤ 16) :
    numberLayout.text ⟨m, k⟩ = digitsText m ++ List.replicate k '0' ++ ['.', '0'] := by
  have hpos := List.length_pos_iff.2 (digitsText_ne_nil m)
  unfold Notation.text numberLayout
  dsimp only
  rw [if_neg (by omega), if_pos (by omega), Int.toNat_natCast]

/-- A decimal with digits on either side of the point. -/
theorem text_point (htext : digitsText m = ds ++ ds') (hds : ds ≠ []) (hds' : ds' ≠ [])
    (hlength : ds.length ≤ 16) :
    numberLayout.text ⟨m, -ds'.length⟩ = ds ++ '.' :: ds' := by
  have hpos := List.length_pos_iff.2 hds
  have hpos' := List.length_pos_iff.2 hds'
  unfold Notation.text numberLayout
  dsimp only
  have hplace : -(ds'.length : Int) + (digitsText m).length - 1 = (ds.length : Int) - 1 := by
    rw [htext, List.length_append]
    push_cast
    omega
  rw [hplace, if_neg (by omega), if_neg (by omega), if_pos (by omega), htext]
  have hwhole : ((ds.length : Int) - 1 + 1).toNat = ds.length := by omega
  rw [hwhole, List.take_left, List.drop_left]

/-- A decimal below one gets a zero before the point. -/
theorem text_small (hz : z ≤ 4) (hk : k = z + (digitsText m).length) :
    numberLayout.text ⟨m, -k⟩ = '0' :: '.' :: (List.replicate z '0' ++ digitsText m) := by
  have hpos := List.length_pos_iff.2 (digitsText_ne_nil m)
  unfold Notation.text numberLayout
  dsimp only
  have hplace : -(k : Int) + (digitsText m).length - 1 = -(z : Int) - 1 := by omega
  rw [hplace, if_neg (by omega), if_neg (by omega), if_neg (by omega)]
  have hzeros : (-(-(z : Int) - 1) - 1).toNat = z := by omega
  rw [hzeros]

end

theorem Number.text_ne_nil (x : Number) : x.text ≠ [] := by
  cases x with
  | natural n => exact digitsText_ne_nil n
  | negative n => exact List.cons_ne_nil _ _
  | decimal isNegative x =>
    apply List.append_ne_nil_of_right_ne_nil
    unfold Notation.numberText
    split
    · exact List.cons_ne_nil _ _
    · unfold Notation.text Notation.exponentText
      dsimp only
      split
      · simp
      · split
        · simp
        · split <;> simp

/-! ## Numerals that are their own text -/

namespace Numeral

variable {n : Numeral}

theorem isDigit_of_mem {d : Char} (hd : d ∈ n.whole ++ n.fraction) : d.isDigit = true := by
  rcases List.mem_append.1 hd with hd | hd
  · exact n.isDigit_whole d hd
  · exact n.isDigit_fraction d hd

/-- The digits of a numeral that does not start with zero. -/
theorem digitsText_digits (h : n.whole.head? ≠ some '0') :
    0 < n.digits ∧ digitsText n.digits = n.whole ++ n.fraction := by
  apply digitsText_ofDigitChars (fun d hd => isDigit_of_mem hd)
  · simp [n.whole_ne_nil]
  · rwa [List.head?_append_of_ne_nil _ n.whole_ne_nil]

theorem last_ne_zero (hsome : n.fraction ≠ []) (hlast : n.fraction.getLast? ≠ some '0') :
    n.digits % 10 ≠ 0 := by
  obtain ⟨init, d, hconcat⟩ := (List.eq_nil_or_concat n.fraction).resolve_left hsome
  have hd : d.isDigit = true := n.isDigit_fraction d (by simp [hconcat])
  have hlt := toNat_sub_lt hd
  have hne : d.toNat - '0'.toNat ≠ 0 := by
    intro hzero
    have hchar := digitChar_toNat_sub hd
    rw [hzero] at hchar
    exact hlast (by rw [hconcat, ← hchar]; simp)
  unfold digits
  rw [hconcat, List.concat_eq_append, ← List.append_assoc, ofDigitChars_concat]
  omega

/-- The only short numeral with a point for zero. -/
theorem eq_zero_of_digits (hsome : n.fraction ≠ [])
    (hlast : n.fraction = ['0'] ∨ n.fraction.getLast? ≠ some '0') (hzero : n.digits = 0) :
    n.whole = ['0'] ∧ n.fraction = ['0'] := by
  refine ⟨n.eq_zero_of_head ?_, hlast.resolve_right fun hlast => ?_⟩
  · by_contra hhead
    exact absurd hzero (digitsText_digits hhead).1.ne'
  · exact last_ne_zero hsome hlast (by rw [hzero])

theorem isNearest_text {x : Binary64} {q : ℚ} (h : x.IsNearest q) :
    (Number.decimal false x).text = numberLayout.text (shortest x) := by
  have hnonzero : x.isZero = false := by
    have hne : x.significand ≠ 0 := by
      have := h.least
      omega
    simpa [Binary64.isZero] using hne
  show numberLayout.numberText x = _
  unfold Notation.numberText
  rw [hnonzero]
  rfl

/-- A number of at most fifteen digits, no less than 0.00001. -/
theorem bounds_of_digits {m k : Nat} (hfew : m < 10 ^ 15) (hsmall : 10 ^ k ≤ m * 10 ^ 5) :
    k < 20 ∧ (1 / 10 ^ 5 : ℚ) ≤ m / 10 ^ k ∧ (m / 10 ^ k : ℚ) ≤ 10 ^ 16 := by
  have hten : (0 : ℚ) < 10 ^ k := by positivity
  refine ⟨?_, ?_, ?_⟩
  · have hlt : 10 ^ k < 10 ^ 20 := by omega
    exact (Nat.pow_lt_pow_iff_right (by decide)).1 hlt
  · rw [div_le_div_iff₀ (by norm_num) hten, one_mul]
    exact_mod_cast hsmall
  · have hone : (1 : ℚ) ≤ 10 ^ k := one_le_pow₀ (by norm_num)
    have hm : (m : ℚ) ≤ 10 ^ 16 := by
      have : m ≤ 10 ^ 16 := by omega
      exact_mod_cast this
    exact (div_le_self (Nat.cast_nonneg m) hone).trans hm

/-- An integer with a zero behind its point. -/
theorem text_of_zero_fraction {x : Binary64} (hx : x.IsNearest (n.digits / 10 ^ n.fraction.length))
    (hzero : n.fraction = ['0']) (hpos : 0 < n.digits) (hfew : n.digits < 10 ^ 15)
    (hsmall : 10 ^ n.fraction.length ≤ n.digits * 10 ^ 5) :
    (Number.decimal false x).text = n.spelled := by
  obtain ⟨-, hlow, hhigh⟩ := bounds_of_digits hfew hsmall
  have hvalue : n.digits = 10 * Nat.ofDigitChars 10 n.whole 0 := by
    unfold digits
    rw [hzero, ofDigitChars_concat]
    rfl
  have hhead : n.whole.head? ≠ some '0' := by
    intro hhead
    rw [hvalue, n.eq_zero_of_head hhead] at hpos
    exact absurd hpos (by decide)
  obtain ⟨hwhole, htext⟩ := digitsText_ofDigitChars n.isDigit_whole n.whole_ne_nil hhead
  obtain ⟨m, e, hm, hmpos, hmlast⟩ := exists_eq_mul_pow hwhole
  have hq : (n.digits / 10 ^ n.fraction.length : ℚ) = m * 10 ^ (e : ℤ) := by
    rw [hvalue, hzero, hm]
    simp
  have hmfew : m < 10 ^ 15 := by
    have : m * 1 ≤ m * 10 ^ e := Nat.mul_le_mul_left m (Nat.one_le_pow _ _ (by decide))
    omega
  have hsplit : n.whole = digitsText m ++ List.replicate e '0' := by
    rw [← htext, hm, digitsText_mul_pow hmpos]
  have hlength : (digitsText m).length + e ≤ 16 := by
    have hle : (digitsText (Nat.ofDigitChars 10 n.whole 0)).length ≤ 15 :=
      length_digitsText_le (by decide) (by omega)
    rw [htext, hsplit, List.length_append, List.length_replicate] at hle
    omega
  rw [isNearest_text hx, shortest_eq hx hq hmfew hmlast hlow hhigh, text_whole hlength, ← hsplit]
  unfold spelled
  rw [hzero]
  rfl

theorem exists_replicate_append (c : Char) (s : List Char) :
    ∃ z t, s = List.replicate z c ++ t ∧ t.head? ≠ some c := by
  induction s with
  | nil => exact ⟨0, [], rfl, by simp⟩
  | cons d s ih =>
    by_cases hd : d = c
    · obtain ⟨z, t, hs, ht⟩ := ih
      exact ⟨z + 1, t, by rw [hd, hs]; rfl, ht⟩
    · exact ⟨0, d :: s, rfl, by simpa using hd⟩

/-- A number below one: its first digit stands behind the zeros that follow the point. -/
theorem text_of_zero_whole (hwhole : n.whole = ['0'])
    (hsmall : 10 ^ n.fraction.length ≤ n.digits * 10 ^ 5) :
    numberLayout.text ⟨n.digits, -n.fraction.length⟩ = '0' :: '.' :: n.fraction := by
  obtain ⟨z, ds, hfraction, hhead⟩ := exists_replicate_append '0' n.fraction
  have hvalue : n.digits = Nat.ofDigitChars 10 ds 0 := by
    unfold digits
    rw [hwhole, hfraction, Nat.ofDigitChars_append, Nat.ofDigitChars_append,
      Nat.ofDigitChars_replicate_zero]
    simp [Nat.ofDigitChars_cons]
  have hds : ds ≠ [] := by
    rintro rfl
    rw [hvalue, Nat.ofDigitChars_nil, Nat.zero_mul] at hsmall
    exact absurd hsmall (Nat.not_le.2 (by positivity))
  have hdigits : ∀ d ∈ ds, d.isDigit = true := fun d hd =>
    n.isDigit_fraction d (hfraction ▸ List.mem_append_right _ hd)
  have htext := (digitsText_ofDigitChars hdigits hds hhead).2
  rw [← hvalue] at htext
  have hlength : n.fraction.length = z + (digitsText n.digits).length := by
    rw [hfraction, htext, List.length_append, List.length_replicate]
  have hz : z ≤ 4 := by
    have hpos : 0 < (digitsText n.digits).length := List.length_pos_iff.2 (digitsText_ne_nil _)
    have hlt := (Nat.length_toDigits_le_iff (by decide) hpos).1 (Nat.le_refl _)
    have hpow : 10 ^ n.fraction.length < 10 ^ ((digitsText n.digits).length + 5) := by
      rw [pow_add]
      exact hsmall.trans_lt (Nat.mul_lt_mul_of_pos_right hlt (by decide))
    have := (Nat.pow_lt_pow_iff_right (by decide)).1 hpow
    omega
  rw [text_small hz hlength, htext, ← hfraction]

/-- A number with a digit other than zero at its end. -/
theorem text_of_last {x : Binary64} (hx : x.IsNearest (n.digits / 10 ^ n.fraction.length))
    (hsome : n.fraction ≠ []) (hlast : n.fraction.getLast? ≠ some '0') (hfew : n.digits < 10 ^ 15)
    (hsmall : 10 ^ n.fraction.length ≤ n.digits * 10 ^ 5) :
    (Number.decimal false x).text = n.spelled := by
  obtain ⟨-, hlow, hhigh⟩ := bounds_of_digits hfew hsmall
  have hq : (n.digits / 10 ^ n.fraction.length : ℚ) =
      n.digits * 10 ^ (-(n.fraction.length : ℤ)) := by
    rw [zpow_neg, zpow_natCast, div_eq_mul_inv]
  have hspelled : n.spelled = n.whole ++ '.' :: n.fraction := by
    unfold spelled
    rw [if_neg hsome]
  rw [isNearest_text hx, shortest_eq hx hq hfew (last_ne_zero hsome hlast) hlow hhigh, hspelled]
  by_cases hhead : n.whole.head? = some '0'
  · have hwhole := n.eq_zero_of_head hhead
    rw [text_of_zero_whole hwhole hsmall, hwhole]
    rfl
  · have htext := (digitsText_digits hhead).2
    have hlength : (digitsText n.digits).length ≤ 15 := length_digitsText_le (by decide) hfew
    rw [htext, List.length_append] at hlength
    exact text_point htext n.whole_ne_nil hsome (by omega)

/-- **A short numeral is its own text.** -/
theorem exists_text_eq (h : n.IsShort) :
    ∃ x, atom? n.spelled = some (.number x) ∧ x.text = n.spelled := by
  unfold IsShort at h
  split at h
  · next hnone =>
    refine ⟨_, n.exists_integer hnone h, ?_⟩
    have hspelled : n.spelled = n.whole ++ n.fraction := by
      unfold spelled
      rw [if_pos hnone, hnone]
    show digitsText n.digits = n.spelled
    by_cases hhead : n.whole.head? = some '0'
    · unfold digits
      rw [hspelled, hnone, n.eq_zero_of_head hhead]
      rfl
    · rw [(digitsText_digits hhead).2, hspelled]
  · next hsome =>
    obtain ⟨hlast, hfew, hsmall⟩ := h
    have hfits : n.digits < significandLimit := hfew.trans_le (by decide)
    rcases Nat.eq_zero_or_pos n.digits with hzero | hpos
    · obtain ⟨hwhole, hfraction⟩ := eq_zero_of_digits hsome hlast hzero
      have hx : Binary64.ofDecimal? n.digits (-n.fraction.length) = some Binary64.zero := by
        rw [hzero, hfraction]
        decide
      refine ⟨_, n.exists_decimal hsome hfits hx, ?_⟩
      unfold spelled
      rw [hwhole, hfraction]
      rfl
    · have hsmall := hsmall.resolve_left hpos.ne'
      obtain ⟨hlength, -, -⟩ := bounds_of_digits hfew hsmall
      obtain ⟨x, hx, hnearest⟩ := Binary64.exists_ofDecimal hpos (hfew.trans (by decide))
        (List.length_pos_iff.2 hsome) (by omega)
      refine ⟨_, n.exists_decimal hsome hfits hx, ?_⟩
      rcases hlast with hfraction | hlast
      · exact text_of_zero_fraction hnearest hfraction hpos hfew hsmall
      · exact text_of_last hnearest hsome hlast hfew hsmall

/-- The number that a short numeral is read as is written as the numeral. -/
theorem text_eq_of_atom? {x : Number} (h : n.IsShort) (hx : atom? n.spelled = some (.number x)) :
    x.text = n.spelled := by
  obtain ⟨x', hx', htext⟩ := exists_text_eq h
  rw [hx] at hx'
  cases hx'
  exact htext

end Numeral

end VersionAlignment.Json
