import VersionAlignment.Web.Percent

/-!
# Forms

A form is sent as pairs of a name and a value. A space becomes a plus sign; letters, digits and four
marks stand for themselves; the bytes of every other character are escaped.

## Results

* `Form.encodeText_plain`: a text of letters, digits and the four marks stays as it is.
-/

set_option autoImplicit false

namespace VersionAlignment.Form

/-- Does the character stand for itself? -/
def isPlain (c : Char) : Bool := c.isAlphanum || ['*', '-', '.', '_'].contains c

/-- The written form of a character. -/
def encodeChar (c : Char) : List Char := if c = ' ' then ['+'] else Web.percentEncode isPlain [c]

/-- The written form of a text. -/
def encodeText (s : String) : String := String.ofList (s.toList.flatMap encodeChar)

/-- The written form of pairs of a name and a value. -/
def encode (pairs : List (String × String)) : String :=
  String.intercalate "&" (pairs.map fun p => encodeText p.1 ++ "=" ++ encodeText p.2)

theorem encodeChar_plain {c : Char} (h : isPlain c = true) : encodeChar c = [c] := by
  have hs : c ≠ ' ' := fun he => by rw [he] at h; exact absurd h (by decide)
  rw [encodeChar, if_neg hs]
  exact Web.percentEncode_plain fun d hd => by rw [List.mem_singleton.1 hd]; exact h

theorem encodeText_plain {s : String} (h : ∀ c ∈ s.toList, isPlain c = true) :
    encodeText s = s := by
  have hs (cs : List Char) (hcs : ∀ c ∈ cs, isPlain c = true) : cs.flatMap encodeChar = cs := by
    induction cs with
    | nil => rfl
    | cons c cs ih =>
      rw [List.flatMap_cons, encodeChar_plain (hcs c List.mem_cons_self),
        ih fun d hd => hcs d (List.mem_cons_of_mem c hd)]
      rfl
  apply String.toList_inj.1
  simp [encodeText, hs s.toList h]

end VersionAlignment.Form
