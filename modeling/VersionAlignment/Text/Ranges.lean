/-!
# Ranges of code points

A property of characters is given by the closed ranges of the code points that have it.

## Results

* `inRanges_eq_false`: a character is in no range of a list that avoids its code point.
-/

set_option autoImplicit false

namespace VersionAlignment.Text

/-- Does the code point of the character lie in one of the closed ranges? -/
def inRanges (ranges : List (Nat × Nat)) (c : Char) : Bool :=
  ranges.any fun r => r.1 ≤ c.toNat && c.toNat ≤ r.2

/-- Does every range end before `first` or begin at `last` or behind it? -/
def avoids (first last : Nat) (ranges : List (Nat × Nat)) : Bool :=
  ranges.all fun r => r.2 < first || last ≤ r.1

theorem inRanges_eq_false {first last : Nat} {ranges : List (Nat × Nat)} {c : Char}
    (h : avoids first last ranges = true) (hf : first ≤ c.toNat) (hl : c.toNat < last) :
    inRanges ranges c = false := by
  simp only [avoids, List.all_eq_true, Bool.or_eq_true, decide_eq_true_eq] at h
  simp only [inRanges, List.any_eq_false, Bool.and_eq_true, decide_eq_true_eq]
  rintro r hr ⟨hlow, hhigh⟩
  rcases h r hr with hb | hb
  · exact absurd (Nat.le_trans hf hhigh) (Nat.not_le.2 hb)
  · exact absurd (Nat.le_trans hb hlow) (Nat.not_le.2 hl)

end VersionAlignment.Text
