import VersionAlignment.Text.Blank

/-!
# Names

Services, the fields that hold their versions and the constants of Go tests have names made of
letters, digits, underscores and hyphens. Such a name does without every character that structures
an artifact, so where a name ends in a text can be told from what follows it.

## Results

* `IsName.notMem`: a name does without the characters that no name has.
* `isKeyChar_of_isNameChar`: a name ends at a blank or an equals sign at the latest.
-/

set_option autoImplicit false

namespace VersionAlignment.Text

/-- A letter, a digit, an underscore or a hyphen; beyond ASCII, every character that is not blank
may be a letter. -/
def isNameChar (c : Char) : Bool :=
  c.isAlphanum || c == '_' || c == '-' || (decide (0x80 ≤ c.toNat) && !isBlank c)

/-- A text made of letters, digits, underscores and hyphens. -/
def IsName (name : String) : Prop := ∀ c ∈ name.toList, isNameChar c = true

instance (name : String) : Decidable (IsName name) :=
  decidable_of_iff (name.toList.all isNameChar = true) List.all_eq_true

/-- A character that may stand in front of an equals sign and the blanks before it. -/
def isKeyChar (c : Char) : Bool := !isBlank c && c != '='

theorem isBlank_of_isAlphanum {c : Char} (h : c.isAlphanum = true) : isBlank c = false := by
  change (decide ('A'.val ≤ c.val ∧ c.val ≤ 'Z'.val) ||
    (decide ('a'.val ≤ c.val) && decide (c.val ≤ 'z'.val)) ||
    (decide ('0'.val ≤ c.val) && decide (c.val ≤ '9'.val))) = true at h
  simp only [Bool.or_eq_true, Bool.and_eq_true, decide_eq_true_eq] at h
  change ((65 ≤ c.toNat ∧ c.toNat ≤ 90) ∨ (97 ≤ c.toNat ∧ c.toNat ≤ 122)) ∨
    (48 ≤ c.toNat ∧ c.toNat ≤ 57) at h
  exact @inRanges_eq_false 0x21 0x7f _ _ (by decide) (by omega) (by omega)

theorem isBlank_of_isNameChar {c : Char} (h : isNameChar c = true) : isBlank c = false := by
  simp only [isNameChar, Bool.or_eq_true, Bool.and_eq_true, beq_iff_eq, Bool.not_eq_true'] at h
  rcases h with ((h | rfl) | rfl) | h
  · exact isBlank_of_isAlphanum h
  · decide
  · decide
  · exact h.2

theorem isKeyChar_of_isNameChar {c : Char} (h : isNameChar c = true) : isKeyChar c = true := by
  have hne : c ≠ '=' := by
    rintro rfl
    exact absurd h (by decide)
  simp [isKeyChar, isBlank_of_isNameChar h, hne]

/-- A name does without the characters that structure an artifact. -/
theorem IsName.notMem {name : String} (h : IsName name) {c : Char} (hc : isNameChar c = false) :
    c ∉ name.toList := by
  intro hmem
  rw [h c hmem] at hc
  cases hc

end VersionAlignment.Text
