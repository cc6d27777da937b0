import VersionAlignment.Text.Shape

/-!
# Searching a text

`dissect` walks a text from its front. Where the reader finds something the find is one segment,
and the walk goes on behind it; every other character is a segment of its own. Reading all finds of
a text and replacing them are two uses of one dissection, so they always agree on what was found.

## Results

* `substitute_eq_self`: if every find is written as the text it was read from, the text stays the
  same.
* `substitute_eq_self_of_hits_eq_nil`: a text without finds is left as it is.
-/

set_option autoImplicit false

namespace VersionAlignment.Text

/-- A reader looks at the front of a text, and gives its find and what is left of the text. -/
abbrev Reader (α : Type) := List Char → Option (α × List Char)

/-- A part of a text: something found, or a character that belongs to no find. -/
inductive Segment (α : Type) where
  | plain (c : Char)
  | hit (a : α)
  deriving Repr, DecidableEq

/-- The text of a segment, with the finds written by `write`. -/
def Segment.text {α : Type} (write : α → List Char) : Segment α → List Char
  | .plain c => [c]
  | .hit a => write a

/-- The find in a segment. -/
def Segment.hit? {α : Type} : Segment α → Option α
  | .plain _ => none
  | .hit a => some a

/-- The segments of a text, first to last. A find that takes no character does not count. -/
def dissect {α : Type} (read : Reader α) : List Char → List (Segment α)
  | [] => []
  | c :: cs =>
    match read (c :: cs) with
    | some (a, rest) =>
      if rest.length ≤ cs.length then .hit a :: dissect read rest
      else .plain c :: dissect read cs
    | none => .plain c :: dissect read cs
termination_by s => s.length
decreasing_by all_goals simp only [List.length_cons]; omega

/-- Everything that the reader finds, first to last. -/
def hits {α : Type} (read : Reader α) (s : List Char) : List α :=
  (dissect read s).filterMap Segment.hit?

/-- The text with every find replaced. -/
def substitute {α : Type} (read : Reader α) (write : α → List Char) (s : List Char) : List Char :=
  (dissect read s).flatMap (Segment.text write)

/-- The place, counted in characters, of the first find. -/
def firstHit? {α : Type} (read : Reader α) : List Char → Option Nat
  | [] => none
  | c :: cs => if (read (c :: cs)).isSome then some 0 else (firstHit? read cs).map (· + 1)

theorem substitute_eq_self {α : Type} (read : Reader α) (write : α → List Char)
    (law : ∀ {s a rest}, read s = some (a, rest) → write a ++ rest = s) (s : List Char) :
    substitute read write s = s := by
  unfold substitute
  fun_induction dissect read s with
  | case1 => rfl
  | case2 c cs a rest h hle ih =>
    rw [List.flatMap_cons, ih]
    exact law h
  | case3 c cs a rest h hle ih => rw [List.flatMap_cons, ih]; rfl
  | case4 c cs h ih => rw [List.flatMap_cons, ih]; rfl

theorem substitute_eq_self_of_hits_eq_nil {α : Type} {read : Reader α} {write : α → List Char}
    {s : List Char} (h : hits read s = []) : substitute read write s = s := by
  unfold hits at h
  unfold substitute
  fun_induction dissect read s with
  | case1 => rfl
  | case2 c cs a rest hr hle ih => simp [Segment.hit?] at h
  | case3 c cs a rest hr hle ih =>
    rw [List.filterMap_cons] at h
    rw [List.flatMap_cons, ih h]; rfl
  | case4 c cs hr ih =>
    rw [List.filterMap_cons] at h
    rw [List.flatMap_cons, ih h]; rfl

end VersionAlignment.Text
