import VersionAlignment.Text.Lines

/-!
# The order of versions

A version is a text such as `17` or `8.10`. Its components are the pieces between its dots; the
value of a component is the number that its leading digits spell. Versions are compared component
by component, a missing component counting as zero, so `8` and `8.0` are tied and any text at all
can be compared.

Sorting is stable: tied versions keep the order in which they came, whichever way the list is
sorted.

## Results

* `compareComponents_self`, `compareComponents_swap`: the order is reflexive, and comparing the
  other way round gives the reversed answer.
* `mem_distinct`, `nodup_distinct`: `distinct` keeps every token and keeps it once.
* `sortBy_perm`: sorting permutes the list.
-/

set_option autoImplicit false

namespace VersionAlignment.Version

/-- Component values are held in 64 bits. -/
def componentLimit : Nat := Nat.pow 2 64

/-- The number that a list of ASCII digits spells. -/
def digitsValue (ds : List Char) : Nat :=
  ds.foldl (fun n d => 10 * n + (d.toNat - '0'.toNat)) 0

/-- The number that the leading digits of a component spell; zero without any, and zero when the
number does not fit below `componentLimit`. -/
def componentValue (part : List Char) : Nat :=
  let n := digitsValue (part.takeWhile Char.isDigit)
  if n < componentLimit then n else 0

/-- The component values of a version, first to last. -/
def components (v : String) : List Nat := (Text.splitAt '.' v.toList).map componentValue

/-- Lexicographic comparison, the shorter list continued by zeros. -/
def compareComponents : List Nat → List Nat → Ordering
  | [], bs => if bs.all (· == 0) then .eq else .lt
  | a :: as, bs => (compare a (bs.headD 0)).then (compareComponents as bs.tail)

/-- Comparison of two versions. -/
def compareVersions (a b : String) : Ordering := compareComponents (components a) (components b)

/-- Is the first version lower than, or tied with, the second? -/
def notAbove (a b : String) : Bool := (compareVersions a b).isLE

/-- Put `v` before the first member that it may precede. -/
def insertBy (mayPrecede : String → String → Bool) (v : String) : List String → List String
  | [] => [v]
  | w :: ws => if mayPrecede v w then v :: w :: ws else w :: insertBy mayPrecede v ws

/-- Stable sort: a member stays before every later member that it may precede. -/
def sortBy (mayPrecede : String → String → Bool) : List String → List String
  | [] => []
  | v :: vs => insertBy mayPrecede v (sortBy mayPrecede vs)

/-- The versions, lowest first; tied versions keep their order. -/
def sortAscending (vs : List String) : List String := sortBy notAbove vs

/-- The versions, highest first; tied versions keep their order. -/
def sortDescending (vs : List String) : List String := sortBy (fun a b => notAbove b a) vs

/-- The list without repetitions: each token stays where it occurs first. -/
def distinct : List String → List String
  | [] => []
  | v :: vs => v :: (distinct vs).filter (· ≠ v)

/-- The highest version; of several tied ones the last. -/
def latestOf? : List String → Option String
  | [] => none
  | v :: vs => some (vs.foldl (fun best w => if notAbove best w then w else best) v)

/-! ## The order -/

theorem compareComponents_self (as : List Nat) : compareComponents as as = .eq := by
  induction as with
  | nil => rfl
  | cons a as ih => simp [compareComponents, ih]

theorem compareComponents_nil_right (as : List Nat) :
    compareComponents as [] = if as.all (· == 0) then .eq else .gt := by
  induction as with
  | nil => rfl
  | cons a as ih =>
    cases a with
    | zero => simp [compareComponents, ih]
    | succ a => simp [compareComponents, Nat.compare_eq_gt.2 (Nat.succ_pos a)]

theorem compareComponents_swap (as bs : List Nat) :
    (compareComponents as bs).swap = compareComponents bs as := by
  induction as generalizing bs with
  | nil =>
    rw [compareComponents_nil_right]
    simp only [compareComponents]
    split <;> rfl
  | cons a as ih =>
    cases bs with
    | nil =>
      rw [compareComponents_nil_right]
      simp only [compareComponents]
      split <;> rfl
    | cons b bs => simp [compareComponents, Ordering.swap_then, ih, Nat.compare_swap]

/-! ## Lists of versions -/

theorem mem_distinct {v : String} {vs : List String} : v ∈ distinct vs ↔ v ∈ vs := by
  induction vs with
  | nil => simp [distinct]
  | cons w ws ih =>
    by_cases h : v = w
    · simp [distinct, h]
    · simp [distinct, h, ih]

theorem nodup_distinct (vs : List String) : (distinct vs).Nodup := by
  induction vs with
  | nil => simp [distinct]
  | cons w ws ih =>
    simp only [distinct, List.nodup_cons]
    exact ⟨by simp, ih.filter _⟩

theorem insertBy_perm (r : String → String → Bool) (v : String) (vs : List String) :
    (insertBy r v vs).Perm (v :: vs) := by
  induction vs with
  | nil => exact List.Perm.refl _
  | cons w ws ih =>
    simp only [insertBy]
    split
    · exact List.Perm.refl _
    · exact (ih.cons w).trans (List.Perm.swap v w ws)

theorem sortBy_perm (r : String → String → Bool) (vs : List String) : (sortBy r vs).Perm vs := by
  induction vs with
  | nil => exact List.Perm.refl _
  | cons v vs ih => exact (insertBy_perm r v _).trans (ih.cons v)

theorem sortBy_eq_nil_iff {r : String → String → Bool} {vs : List String} :
    sortBy r vs = [] ↔ vs = [] := by
  constructor
  · intro h
    have := (sortBy_perm r vs).length_eq
    rw [h] at this
    exact List.length_eq_zero_iff.1 this.symm
  · rintro rfl; rfl

theorem latestOf?_eq_none_iff {vs : List String} : latestOf? vs = none ↔ vs = [] := by
  cases vs <;> simp [latestOf?]

end VersionAlignment.Version
