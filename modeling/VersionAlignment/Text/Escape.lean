import VersionAlignment.Text.Extending
import VersionAlignment.Text.Graphic

/-!
# Texts in messages

A message shows a text between double quotes. Characters that a reader would not see, or would see
as part of something else, are escaped: by a backslash and a letter where there is a letter for
them, and otherwise by their code point in braces.

## Results

* `escapeChar_ascii`: the graphic ASCII characters but the quote and the backslash are shown as
  they are.
* `inQuotes_plain`: a text of characters that are shown as they are is put between quotes, and
  nothing else happens to it.
-/

set_option autoImplicit false

namespace VersionAlignment.Text

/-- The character that stands behind the backslash for a character that has one. -/
def escapeLetter? : Char → Option Char
  | '\x00' => some '0'
  | '\t' => some 't'
  | '\n' => some 'n'
  | '\r' => some 'r'
  | '"' => some '"'
  | '\\' => some '\\'
  | _ => none

/-- The code point of a character in braces, as a hexadecimal number without leading zeros. -/
def codePointEscape (c : Char) : List Char :=
  ['\\', 'u', '\x7b'] ++ Nat.toDigits 16 c.toNat ++ ['\x7d']

/-- A character as a message shows it. -/
def escapeChar (c : Char) : List Char :=
  match escapeLetter? c with
  | some letter => ['\\', letter]
  | none => if isGraphic c && !isExtending c then [c] else codePointEscape c

/-- A text as a message shows it. -/
def inQuotes (s : String) : String :=
  String.ofList ('"' :: (s.toList.flatMap escapeChar ++ ['"']))

theorem escapeLetter?_eq_none {c : Char} (h : 0x20 ≤ c.toNat) (hq : c ≠ '"') (hb : c ≠ '\\') :
    escapeLetter? c = none := by
  unfold escapeLetter?
  split
  · exact absurd h (by decide)
  · exact absurd h (by decide)
  · exact absurd h (by decide)
  · exact absurd h (by decide)
  · exact absurd rfl hq
  · exact absurd rfl hb
  · rfl

theorem escapeChar_ascii {c : Char} (h : 0x20 ≤ c.toNat) (h' : c.toNat < 0x7f) (hq : c ≠ '"')
    (hb : c ≠ '\\') : escapeChar c = [c] := by
  simp [escapeChar, escapeLetter?_eq_none h hq hb, isGraphic_ascii h h', isExtending_ascii h']

theorem inQuotes_plain {s : String} (h : ∀ c ∈ s.toList, escapeChar c = [c]) :
    inQuotes s = "\"" ++ s ++ "\"" := by
  have hs (cs : List Char) (hcs : ∀ c ∈ cs, escapeChar c = [c]) : cs.flatMap escapeChar = cs := by
    induction cs with
    | nil => rfl
    | cons c cs ih =>
      rw [List.flatMap_cons, hcs c (by simp), ih fun d hd => hcs d (by simp [hd])]
      rfl
  apply String.toList_inj.1
  simp [inQuotes, hs s.toList h]

end VersionAlignment.Text
