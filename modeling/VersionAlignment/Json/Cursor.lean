import VersionAlignment.Json.Fault

/-!
# Places in a JSON text

A `Cursor` is the unread rest of a text together with the line and the byte column reached. A
fault is reported either at the cursor, when the byte at fault has been read, or one byte further,
when it has only been looked at.

## Results

* `Cursor.rest_skipBlanks`: skipping blanks drops them from the rest.
-/

set_option autoImplicit false

namespace VersionAlignment.Json

/-- The unread rest of a text and the place reached. -/
structure Cursor where
  rest : List Char
  line : Nat
  column : Nat
  deriving Repr, DecidableEq

namespace Cursor

/-- The start of a text. -/
def start (text : List Char) : Cursor := ⟨text, 1, 0⟩

/-- The cursor behind the character `ch`, `rest` being what is left. -/
def past (c : Cursor) (ch : Char) (rest : List Char) : Cursor :=
  if ch = '\n' then ⟨rest, c.line + 1, 0⟩ else ⟨rest, c.line, c.column + ch.utf8Size⟩

/-- The cursor behind the first unread character. -/
def next (c : Cursor) : Cursor :=
  match c.rest with
  | [] => c
  | ch :: rest => c.past ch rest

/-- A problem with what has been read. -/
def fault (c : Cursor) (p : Problem) : Fault := ⟨p, c.line, c.column⟩

/-- A problem with the first unread byte, which counts as read; with the end of the text if
nothing is left. -/
def faultAhead (c : Cursor) (p : Problem) : Fault :=
  match c.rest with
  | [] => c.fault p
  | ch :: _ => if ch = '\n' then ⟨p, c.line + 1, 0⟩ else ⟨p, c.line, c.column + 1⟩

/-- Move over the given number of bytes; the place may lie inside a character. -/
def advanceBytes : Nat → Cursor → Cursor
  | 0, c => c
  | n + 1, c =>
    match c.rest with
    | [] => c
    | ch :: rest =>
      if ch = '\n' then advanceBytes n ⟨rest, c.line + 1, 0⟩
      else if ch.utf8Size ≤ n + 1 then
        advanceBytes (n + 1 - ch.utf8Size) ⟨rest, c.line, c.column + ch.utf8Size⟩
      else ⟨rest, c.line, c.column + n + 1⟩
termination_by n => n
decreasing_by
  · omega
  · have : 0 < ch.utf8Size := Char.utf8Size_pos ch
    omega

/-- The end of the text. -/
def finish (c : Cursor) : Cursor := go c.rest c
where
  /-- Move over the given characters. -/
  go : List Char → Cursor → Cursor
    | [], c => c
    | ch :: rest, c => go rest (c.past ch rest)

/-- The blanks that may stand between the parts of a JSON text. -/
def isBlank (ch : Char) : Bool := ch = ' ' || ch = '\n' || ch = '\t' || ch = '\r'

/-- Move over blanks. -/
def skipBlanks (c : Cursor) : Cursor := go c.rest c
where
  /-- Move over the blanks at the front of the given characters. -/
  go : List Char → Cursor → Cursor
    | [], c => c
    | ch :: rest, c => if isBlank ch then go rest (c.past ch rest) else c

theorem rest_past (c : Cursor) (ch : Char) (rest : List Char) : (c.past ch rest).rest = rest := by
  unfold past; split <;> rfl

theorem rest_skipBlanks_go (s : List Char) (c : Cursor) (h : c.rest = s) :
    (skipBlanks.go s c).rest = s.dropWhile isBlank := by
  induction s generalizing c with
  | nil => simpa [skipBlanks.go] using h
  | cons ch rest ih =>
    simp only [skipBlanks.go, List.dropWhile_cons]
    split
    · exact ih _ (rest_past c ch rest)
    · exact h

theorem rest_skipBlanks (c : Cursor) : c.skipBlanks.rest = c.rest.dropWhile isBlank :=
  rest_skipBlanks_go c.rest c rfl

end Cursor

end VersionAlignment.Json
