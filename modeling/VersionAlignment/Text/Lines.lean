/-!
# Splitting a text at a character

A line ends at a line feed and nowhere else; a carriage return before it belongs to the line.
A text with `n` separators has `n + 1` pieces, so joining the pieces gives the text back.

## Results

* `joinWith_splitAt`: splitting and joining with the same separator is the identity.
* `not_mem_of_mem_splitAt`: no piece holds the separator.
-/

set_option autoImplicit false

namespace VersionAlignment.Text

/-- The pieces between the occurrences of `sep`; never the empty list. -/
def splitAt (sep : Char) : List Char → List (List Char)
  | [] => [[]]
  | c :: cs =>
    if c = sep then [] :: splitAt sep cs
    else match splitAt sep cs with
      | [] => [[c]]
      | piece :: pieces => (c :: piece) :: pieces

/-- The pieces one after the other with `sep` between neighbours. -/
def joinWith (sep : List Char) : List (List Char) → List Char
  | [] => []
  | [piece] => piece
  | piece :: next :: pieces => piece ++ sep ++ joinWith sep (next :: pieces)

/-- How many bytes a text takes. -/
def byteLength : List Char → Nat
  | [] => 0
  | c :: cs => c.utf8Size + byteLength cs

/-- The lines of a text. -/
def lines (s : List Char) : List (List Char) := splitAt '\n' s

/-- The text with the given lines. -/
def unlines (ls : List (List Char)) : List Char := joinWith ['\n'] ls

/-- Does a line of the text end in a carriage return and a line feed? -/
def hasCarriageReturn : List Char → Bool
  | '\r' :: '\n' :: _ => true
  | _ :: cs => hasCarriageReturn cs
  | [] => false

/-- What stands before the line feed at the end of a line: a carriage return if the text has
one before any of its line feeds, else nothing. -/
def lineEnding (s : List Char) : List Char := if hasCarriageReturn s then ['\r'] else []

theorem splitAt_ne_nil (sep : Char) (s : List Char) : splitAt sep s ≠ [] := by
  cases s with
  | nil => simp [splitAt]
  | cons c cs =>
    simp only [splitAt]
    split
    · simp
    · split <;> simp

theorem joinWith_cons_of_ne_nil (sep piece : List Char) {pieces : List (List Char)}
    (h : pieces ≠ []) : joinWith sep (piece :: pieces) = piece ++ sep ++ joinWith sep pieces := by
  cases pieces with
  | nil => exact absurd rfl h
  | cons _ _ => rfl

/-- Joining the pieces with the separator gives the text back. -/
theorem joinWith_splitAt (sep : Char) (s : List Char) : joinWith [sep] (splitAt sep s) = s := by
  induction s with
  | nil => rfl
  | cons c cs ih =>
    simp only [splitAt]
    split
    · next h => rw [joinWith_cons_of_ne_nil _ _ (splitAt_ne_nil sep cs), ih, h]; rfl
    · split
      · next h => exact absurd h (splitAt_ne_nil sep cs)
      · next piece pieces h =>
        rw [h] at ih
        cases pieces with
        | nil => simp only [joinWith] at ih ⊢; rw [ih]
        | cons _ _ => simp only [joinWith, List.cons_append] at ih ⊢; rw [ih]

/-- No piece holds the separator. -/
theorem not_mem_of_mem_splitAt {sep : Char} {s piece : List Char} (h : piece ∈ splitAt sep s) :
    sep ∉ piece := by
  induction s generalizing piece with
  | nil => simp only [splitAt, List.mem_singleton] at h; simp [h]
  | cons c cs ih =>
    simp only [splitAt] at h
    split at h
    · rcases List.mem_cons.1 h with rfl | h
      · simp
      · exact ih h
    · next hc =>
      split at h
      · next he => exact absurd he (splitAt_ne_nil sep cs)
      · next first rest he =>
        rcases List.mem_cons.1 h with rfl | h
        · have : sep ∉ first := ih (by simp [he])
          simp only [List.mem_cons, not_or]
          exact ⟨fun e => hc e.symm, this⟩
        · exact ih (by simp [he, h])

/-- The lines of a text, joined again, are the text. -/
theorem unlines_lines (s : List Char) : unlines (lines s) = s := joinWith_splitAt '\n' s

end VersionAlignment.Text
