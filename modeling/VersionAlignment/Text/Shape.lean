import VersionAlignment.Text.Blank

/-!
# Shapes

A `Shape` takes a piece of text off the front of an input, or refuses the input. Shapes are built
from literal words and runs of a character class, and are put one after the other with `++`. What a
shape takes and what it leaves always make up the input again: that law is a field of the type, so
every text that is found by a shape is a text of the input.

Runs are longest runs. Where the text that follows a run may begin with a character of the run's
own class, `Shape.runThen` gives characters back, the longest run that works being preferred.

## Results

* `Shape.take?_literal_append`: a literal word takes itself.
-/

set_option autoImplicit false

namespace VersionAlignment.Text

/-- The rest of the input behind the given word, if the input starts with it. -/
def stripWord : List Char → List Char → Option (List Char)
  | [], s => some s
  | _ :: _, [] => none
  | w :: ws, c :: cs => if c = w then stripWord ws cs else none

theorem append_of_stripWord {w s r : List Char} (h : stripWord w s = some r) : w ++ r = s := by
  induction w generalizing s with
  | nil => simpa [stripWord] using h.symm
  | cons a ws ih =>
    cases s with
    | nil => simp [stripWord] at h
    | cons c cs =>
      simp only [stripWord] at h
      split at h
      · next hc => subst hc; simp [ih h]
      · cases h

theorem stripWord_append (w r : List Char) : stripWord w (w ++ r) = some r := by
  induction w with
  | nil => rfl
  | cons a ws ih => simp [stripWord, ih]

/-- Does the word stand somewhere in the text? -/
def containsWord (w : List Char) : List Char → Bool
  | [] => w.isEmpty
  | c :: cs => (stripWord w (c :: cs)).isSome || containsWord w cs

/-- A way to take a piece of text off the front of an input. -/
structure Shape where
  /-- The piece taken and what is left of the input. -/
  take? : List Char → Option (List Char × List Char)
  /-- The two make up the input. -/
  append_of_take? : ∀ {s t r : List Char}, take? s = some (t, r) → t ++ r = s

namespace Shape

/-- Exactly the given characters. -/
def literal (w : List Char) : Shape where
  take? s := (stripWord w s).map fun r => (w, r)
  append_of_take? h := by
    obtain ⟨r', h', he⟩ := Option.map_eq_some_iff.1 h
    cases he
    exact append_of_stripWord h'

/-- Exactly the given word. -/
def word (w : String) : Shape := literal w.toList

/-- The longest run, possibly empty, of characters in a class. -/
def run (p : Char → Bool) : Shape where
  take? s := some (s.takeWhile p, s.dropWhile p)
  append_of_take? h := by cases h; exact List.takeWhile_append_dropWhile

/-- The longest run of characters in a class, refused if it is empty. -/
def run1 (p : Char → Bool) : Shape where
  take? s := if (s.takeWhile p).isEmpty then none else some (s.takeWhile p, s.dropWhile p)
  append_of_take? h := by
    split at h
    · cases h
    · cases h; exact List.takeWhile_append_dropWhile

/-- One character of a class. -/
def one (p : Char → Bool) : Shape where
  take? s :=
    match s with
    | [] => none
    | c :: cs => if p c then some ([c], cs) else none
  append_of_take? {s t r} h := by
    split at h
    · cases h
    · split at h
      · cases h; rfl
      · cases h

/-- Nothing at all. -/
def nothing : Shape where
  take? s := some ([], s)
  append_of_take? h := by cases h; rfl

/-- One shape after the other. -/
def andThen (a b : Shape) : Shape where
  take? s :=
    match a.take? s with
    | none => none
    | some (t, r) =>
      match b.take? r with
      | none => none
      | some (t', r') => some (t ++ t', r')
  append_of_take? h := by
    split at h
    · cases h
    · next t r ha =>
      split at h
      · cases h
      · next t' r' hb =>
        cases h
        rw [List.append_assoc, b.append_of_take? hb, a.append_of_take? ha]

instance : Append Shape := ⟨andThen⟩

/-- The first shape, or the second if the first refuses. -/
def orElse (a b : Shape) : Shape where
  take? s :=
    match a.take? s with
    | some found => some found
    | none => b.take? s
  append_of_take? h := by
    split at h
    · next ha => cases h; exact a.append_of_take? ha
    · exact b.append_of_take? h

instance : HOr Shape Shape Shape := ⟨orElse⟩

/-- The shape if it is there. -/
def optional (a : Shape) : Shape := a ||| nothing

/-- As many repetitions as there are, possibly none. A repetition that takes nothing is not
counted. -/
def takeMany (a : Shape) (s : List Char) : List Char × List Char :=
  match a.take? s with
  | none => ([], s)
  | some (t, r) =>
    if r.length < s.length then
      let rest := takeMany a r
      (t ++ rest.1, rest.2)
    else ([], s)
termination_by s.length

theorem append_takeMany (a : Shape) (s : List Char) :
    (takeMany a s).1 ++ (takeMany a s).2 = s := by
  fun_induction takeMany a s with
  | case1 s h => rfl
  | case2 s t r h hlt rest ih =>
    show (t ++ (takeMany a r).1) ++ (takeMany a r).2 = s
    rw [List.append_assoc, ih, a.append_of_take? h]
  | case3 s t r h hlt => rfl

/-- As many repetitions as there are, possibly none. -/
def many (a : Shape) : Shape where
  take? s := some (takeMany a s)
  append_of_take? {s t r} h := by
    have := append_takeMany a s
    rw [Option.some.inj h] at this
    exact this

/-- As many repetitions as there are, at least one. -/
def many1 (a : Shape) : Shape where
  take? s := if (takeMany a s).1.isEmpty then none else some (takeMany a s)
  append_of_take? {s t r} h := by
    split at h
    · cases h
    · have := append_takeMany a s
      rw [Option.some.inj h] at this
      exact this

/-- The longest run of a class that leaves the front of a text that `next` takes, followed by what
`next` takes. -/
def takeRunThen (p : Char → Bool) (next : Shape) : List Char → Option (List Char × List Char)
  | [] => next.take? []
  | c :: cs =>
    match if p c then takeRunThen p next cs else none with
    | some (t, r) => some (c :: t, r)
    | none => next.take? (c :: cs)

theorem append_of_takeRunThen {p : Char → Bool} {next : Shape} {s t r : List Char}
    (h : takeRunThen p next s = some (t, r)) : t ++ r = s := by
  induction s generalizing t r with
  | nil => exact next.append_of_take? h
  | cons c cs ih =>
    simp only [takeRunThen] at h
    split at h
    · next t' r' hr =>
      cases h
      split at hr
      · simp [ih hr]
      · cases hr
    · exact next.append_of_take? h

/-- A non-empty run of a class, and after it what `next` takes; the longest run that leaves `next`
its text. -/
def runThen (p : Char → Bool) (next : Shape) : Shape where
  take? s :=
    match s with
    | [] => none
    | c :: cs =>
      if p c then (takeRunThen p next cs).map fun found => (c :: found.1, found.2) else none
  append_of_take? {s t r} h := by
    split at h
    · cases h
    · split at h
      · obtain ⟨found, hf, he⟩ := Option.map_eq_some_iff.1 h
        cases he
        simp [append_of_takeRunThen hf]
      · cases h

theorem take?_literal_append (w r : List Char) : (literal w).take? (w ++ r) = some (w, r) := by
  simp [literal, stripWord_append]

/-! ## Shapes that every artifact format uses -/

/-- Blanks of any kind, line ends included; possibly none. -/
def blanks : Shape := run isBlank

/-- Spaces and tabs; possibly none. -/
def inlineBlanks : Shape := run isInlineBlank

/-- The end of a line, with or without a carriage return. -/
def lineEnd : Shape := optional (word "\r") ++ word "\n"

/-- A text in double quotes; it has no escapes. -/
def quotedText : Shape := word "\"" ++ run (· ≠ '"') ++ word "\""

/-- A dot and the digits after it. -/
def dotDigits : Shape := word "." ++ run1 Char.isDigit

/-- A dotted number: groups of digits with single dots between them. -/
def dottedNumber : Shape := run1 Char.isDigit ++ many dotDigits

end Shape

/-- Is the text, as a whole, groups of digits with single dots between them? -/
def isDottedNumber (s : List Char) : Bool := Shape.dottedNumber.take? s = some (s, [])

end VersionAlignment.Text
