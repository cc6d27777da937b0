import Mathlib.Data.List.DropRight
import Mathlib.Data.Nat.Digits.Defs
import VersionAlignment.Proofs.Text.Pieces
import VersionAlignment.Proofs.Version.Stability

/-!
# The order of versions through their components

Comparing two versions reads both texts at once, the shorter one continued by zeros. Here the order
is said without that walk: a version has a list of component values (`HasComponents`), two such
lists are brought to one length by zeros behind the shorter one and compared lexicographically, and
two versions are tied exactly if their lists agree up to zeros at the end.

## Results

* `components_eq_iff`: the components of a version are the ones it has.
* `compareComponents_eq_compare`: the comparison is the lexicographic one of the padded lists.
* `compareComponents_eq_eq_iff`: what it means that two lists of components are tied.
* `comparesComponents_compareVersions`: the order of versions.
-/

set_option autoImplicit false

namespace VersionAlignment.Version

open Text

/-! ## Components -/

/-- The number that digits spell in base ten. -/
def decimal (ds : List Char) : Nat := Nat.ofDigits 10 (ds.reverse.map fun d => d.toNat - '0'.toNat)

/-- A component counts as the number that its leading digits spell, and as zero where there are none
or where 64 bits do not hold the number. -/
def CountsAs (part : List Char) (n : Nat) : Prop :=
  ∃ ds rest, part = ds ++ rest ∧ (∀ d ∈ ds, d.isDigit = true) ∧
    (∀ c cs, rest = c :: cs → c.isDigit = false) ∧ n = if decimal ds < 2 ^ 64 then decimal ds else 0

/-- The version is written as components with a dot between neighbours, and they count as `ns`. -/
def HasComponents (v : String) (ns : List Nat) : Prop :=
  ∃ parts, parts ≠ [] ∧ (∀ part ∈ parts, '.' ∉ part) ∧ joinWith ['.'] parts = v.toList ∧
    List.Forall₂ CountsAs parts ns

theorem digitsValue_eq_decimal (ds : List Char) : digitsValue ds = decimal ds := by
  induction ds using List.reverseRecOn with
  | nil => rfl
  | append_singleton ds d ih =>
    have hlast : digitsValue (ds ++ [d]) = 10 * digitsValue ds + (d.toNat - '0'.toNat) := by
      rw [digitsValue, List.foldl_append]
      rfl
    unfold decimal at ih ⊢
    rw [hlast, ih, List.reverse_append, List.reverse_singleton, List.singleton_append,
      List.map_cons, Nat.ofDigits_cons, Nat.add_comm]

theorem countsAs_iff {part : List Char} {n : Nat} : CountsAs part n ↔ componentValue part = n := by
  constructor
  · rintro ⟨ds, rest, rfl, hds, hrest, rfl⟩
    have hleading : (ds ++ rest).takeWhile Char.isDigit = ds := by
      rw [List.takeWhile_append_of_pos hds]
      cases rest with
      | nil => simp
      | cons c cs => simp [hrest c cs rfl]
    rw [componentValue, hleading, digitsValue_eq_decimal]
    rfl
  · rintro rfl
    refine ⟨part.takeWhile Char.isDigit, part.dropWhile Char.isDigit,
      List.takeWhile_append_dropWhile.symm, fun d hd => List.mem_takeWhile_imp hd, ?_, ?_⟩
    · intro c cs hrest
      have hhead := List.head?_dropWhile_not Char.isDigit part
      rw [hrest] at hhead
      simpa using hhead
    · rw [componentValue, digitsValue_eq_decimal]
      rfl

/-- The components of a version are the ones it has. -/
theorem components_eq_iff {v : String} {ns : List Nat} :
    components v = ns ↔ HasComponents v ns := by
  constructor
  · rintro rfl
    refine ⟨splitAt '.' v.toList, splitAt_ne_nil _ _, fun part => not_mem_of_mem_splitAt,
      joinWith_splitAt _ _, ?_⟩
    rw [components, List.forall₂_map_right_iff]
    exact List.forall₂_same.2 fun part _ => countsAs_iff.2 rfl
  · rintro ⟨parts, hne, hdots, hjoin, hcounts⟩
    rw [components, ← hjoin, splitAt_joinWith hne hdots]
    refine List.forall₂_eq_eq_eq ▸ List.forall₂_map_left_iff.2 (hcounts.imp fun part n h => ?_)
    exact countsAs_iff.1 h

/-- A version with `.0` behind it has one more component, and that counts as zero. -/
theorem components_append_zero (v : String) : components (v ++ ".0") = components v ++ [0] := by
  have htext : (v ++ ".0").toList = v.toList ++ '.' :: ['0'] := String.toList_append
  rw [components, htext, splitAt_append_sep, List.map_append]
  rfl

/-! ## Padded lists -/

variable {as bs : List Nat} {n k : Nat}

/-- The components without zeros at the end. -/
def significant (ns : List Nat) : List Nat := ns.rdropWhile (· == 0)

theorem rightpad_succ (h : as.length ≤ n + 1) :
    as.rightpad (n + 1) 0 = as.headD 0 :: as.tail.rightpad n 0 := by
  cases as with
  | nil => simp [List.rightpad, List.replicate_succ]
  | cons a as => simp [List.rightpad]

/-- The comparison is the lexicographic one of lists of one length, with zeros behind the shorter
list. -/
theorem compareComponents_eq_compare (ha : as.length ≤ n) (hb : bs.length ≤ n) :
    compareComponents as bs = List.compareLex compare (as.rightpad n 0) (bs.rightpad n 0) := by
  induction n generalizing as bs with
  | zero =>
    rw [List.length_eq_zero_iff.1 (Nat.le_zero.1 ha), List.length_eq_zero_iff.1 (Nat.le_zero.1 hb)]
    rfl
  | succ n ih =>
    have htail : ∀ {l : List Nat}, l.length ≤ n + 1 → l.tail.length ≤ n := by
      intro l hl
      rw [List.length_tail]
      omega
    rw [compareComponents_step, rightpad_succ ha, rightpad_succ hb, List.compareLex_cons_cons,
      ih (htail ha) (htail hb)]

theorem rightpad_append_replicate (h : as.length + k ≤ n) :
    (as ++ List.replicate k 0).rightpad n 0 = as.rightpad n 0 := by
  unfold List.rightpad
  rw [List.append_assoc, List.replicate_append_replicate, List.length_append, List.length_replicate]
  congr 2
  omega

theorem significant_append_replicate (as : List Nat) (k : Nat) :
    significant (as ++ List.replicate k 0) = significant as := by
  induction k with
  | zero => rw [List.replicate_zero, List.append_nil]
  | succ k ih =>
    rw [List.replicate_succ', ← List.append_assoc, significant,
      List.rdropWhile_concat_pos _ _ _ rfl]
    exact ih

theorem exists_eq_significant_append (as : List Nat) :
    ∃ k, as = significant as ++ List.replicate k 0 := by
  induction as using List.reverseRecOn with
  | nil => exact ⟨0, rfl⟩
  | append_singleton as a ih =>
    by_cases ha : a = 0
    · obtain ⟨k, hk⟩ := ih
      refine ⟨k + 1, ?_⟩
      rw [ha, List.replicate_succ', ← List.append_assoc, significant,
        List.rdropWhile_concat_pos _ _ _ rfl]
      exact congrArg (· ++ [0]) hk
    · refine ⟨0, ?_⟩
      rw [significant, List.rdropWhile_concat_neg _ _ _ (by simpa using ha), List.replicate_zero,
        List.append_nil]

/-- Padded to one length, two lists are the same exactly if they are so without zeros at the
end. -/
theorem rightpad_eq_rightpad_iff (ha : as.length ≤ n) (hb : bs.length ≤ n) :
    as.rightpad n 0 = bs.rightpad n 0 ↔ significant as = significant bs := by
  constructor
  · intro h
    have := congrArg significant h
    unfold List.rightpad at this
    rwa [significant_append_replicate, significant_append_replicate] at this
  · intro h
    have hpad : ∀ {l : List Nat}, l.length ≤ n → l.rightpad n 0 = (significant l).rightpad n 0 := by
      intro l hl
      obtain ⟨k, hk⟩ := exists_eq_significant_append l
      have hlength := congrArg List.length hk
      rw [List.length_append, List.length_replicate] at hlength
      conv_lhs => rw [hk]
      exact rightpad_append_replicate (by omega)
    rw [hpad ha, hpad hb, h]

/-- Two lists of components are tied exactly if they are the same without zeros at the end. -/
theorem compareComponents_eq_eq_iff :
    compareComponents as bs = .eq ↔ significant as = significant bs := by
  have ha : as.length ≤ max as.length bs.length := Nat.le_max_left _ _
  have hb : bs.length ≤ max as.length bs.length := Nat.le_max_right _ _
  rw [compareComponents_eq_compare ha hb, Std.LawfulEqCmp.compare_eq_iff_eq,
    rightpad_eq_rightpad_iff ha hb]

theorem compareComponents_append_zero (as bs : List Nat) :
    compareComponents (as ++ [0]) bs = compareComponents as bs := by
  have ha : as.length + 1 ≤ max (as.length + 1) bs.length := Nat.le_max_left _ _
  have hb : bs.length ≤ max (as.length + 1) bs.length := Nat.le_max_right _ _
  have happend : (as ++ [0]).length ≤ max (as.length + 1) bs.length := by
    rw [List.length_append]
    exact ha
  rw [compareComponents_eq_compare happend hb,
    compareComponents_eq_compare (Nat.le_of_succ_le ha) hb]
  exact congrArg (List.compareLex compare · _) (rightpad_append_replicate ha)

/-! ## The order of versions -/

/-- An order of versions by their components: a total preorder that is lexicographic on lists of
one length, in which two versions are tied exactly if their components are the same without zeros at
the end. -/
structure ComparesComponents (cmp : String → String → Ordering) : Prop where
  self : ∀ a, cmp a a = .eq
  swap : ∀ a b, cmp b a = (cmp a b).swap
  trans : ∀ a b c, cmp a b ≠ .gt → cmp b c ≠ .gt → cmp a c ≠ .gt
  unique_components : ∀ a, ∃! ns, HasComponents a ns
  lexicographic : ∀ a b as bs, HasComponents a as → HasComponents b bs →
    cmp a b = List.compareLex compare (as.rightpad (max as.length bs.length) 0)
      (bs.rightpad (max as.length bs.length) 0)
  tied_iff : ∀ a b as bs, HasComponents a as → HasComponents b bs →
    (cmp a b = .eq ↔ significant as = significant bs)
  zeros : ∀ (k : Nat) (a b : String), cmp ((· ++ ".0")^[k] a) b = cmp a b ∧
    cmp a ((· ++ ".0")^[k] b) = cmp a b

theorem compareVersions_swap (a b : String) : compareVersions b a = (compareVersions a b).swap :=
  (compareComponents_swap (components a) (components b)).symm

theorem compareVersions_iterate_zero (k : Nat) (a b : String) :
    compareVersions ((· ++ ".0")^[k] a) b = compareVersions a b := by
  induction k with
  | zero => rfl
  | succ k ih =>
    rw [Function.iterate_succ_apply', ← ih, compareVersions, components_append_zero,
      compareComponents_append_zero]
    rfl

/-- **Versions are ordered by their components.** -/
theorem comparesComponents_compareVersions : ComparesComponents compareVersions where
  self a := compareComponents_self (components a)
  swap := compareVersions_swap
  trans a b c hab hbc :=
    notAbove_iff.1 (notAbove_trans (notAbove_iff.2 hab) (notAbove_iff.2 hbc))
  unique_components a :=
    ⟨components a, components_eq_iff.1 rfl, fun ns h => (components_eq_iff.2 h).symm⟩
  lexicographic a b as bs ha hb := by
    rw [← components_eq_iff] at ha hb
    rw [compareVersions, ha, hb]
    exact compareComponents_eq_compare (Nat.le_max_left _ _) (Nat.le_max_right _ _)
  tied_iff a b as bs ha hb := by
    rw [← components_eq_iff] at ha hb
    rw [compareVersions, ha, hb]
    exact compareComponents_eq_eq_iff
  zeros k a b := by
    refine ⟨compareVersions_iterate_zero k a b, ?_⟩
    rw [compareVersions_swap, compareVersions_iterate_zero, ← compareVersions_swap]

/-- Versions that are written apart may be tied: a component without digits and one that 64 bits do
not hold count as zero, and zeros at the end do not count. -/
example : compareVersions "8.0.0" "8" = .eq ∧ compareVersions "8.10" "8.7" = .gt ∧
    compareVersions "18446744073709551616.x" "0" = .eq := by decide +kernel

end VersionAlignment.Version
