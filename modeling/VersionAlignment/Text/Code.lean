import VersionAlignment.Text.Blank

/-!
# Characters outside quotes

The code of a line is what stands outside its double-quoted literals. A literal opens at a double
quote, ends at the next one that no backslash escapes, and otherwise at the end of the line. Its
opening quote counts as code and its closing quote does not, so a literal shows as one quote.

## Results

* `totalDepth_append`: depths of texts that stand one after the other add up.
-/

set_option autoImplicit false

namespace VersionAlignment.Text

/-- Where a scan of a line stands. -/
inductive QuoteState where
  | outside
  | inside
  /-- Inside a literal, behind a backslash. -/
  | escaped
  deriving Repr, DecidableEq

/-- The code of a line scanned from the given state, each character with its place; `i` is the
place of the first character. -/
def codeFrom : QuoteState → Nat → List Char → List (Nat × Char)
  | _, _, [] => []
  | .outside, i, c :: cs =>
    (i, c) :: codeFrom (if c = '"' then .inside else .outside) (i + 1) cs
  | .inside, i, c :: cs =>
    codeFrom (if c = '\\' then .escaped else if c = '"' then .outside else .inside) (i + 1) cs
  | .escaped, i, _ :: cs => codeFrom .inside (i + 1) cs

/-- The code of a line, each character with its place in the line. -/
def code (line : List Char) : List (Nat × Char) := codeFrom .outside 0 line

/-- How a code character changes the depth of a bracket pair. -/
def depthStep (opening closing c : Char) : Int :=
  if c = opening then 1 else if c = closing then -1 else 0

/-- How much a text changes the depth of a bracket pair, every character counted. -/
def totalDepth (opening closing : Char) : List Char → Int
  | [] => 0
  | c :: cs => depthStep opening closing c + totalDepth opening closing cs

/-- How many more `opening` than `closing` brackets the code of the line holds. -/
def depthChange (opening closing : Char) (line : List Char) : Int :=
  totalDepth opening closing ((code line).map Prod.snd)

theorem totalDepth_append (opening closing : Char) (s t : List Char) :
    totalDepth opening closing (s ++ t) =
      totalDepth opening closing s + totalDepth opening closing t := by
  induction s with
  | nil => simp [totalDepth]
  | cons c cs ih => simp [totalDepth, ih, Int.add_assoc]

end VersionAlignment.Text
