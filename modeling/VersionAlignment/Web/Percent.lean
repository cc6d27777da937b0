import VersionAlignment.Text.Digits

/-!
# Percent escapes

A byte can be written as a percent sign and two hex digits. Which characters are written so depends
on the place of the text; all others are plain and stand for themselves.

## Results

* `percentEncode_plain`: a text of plain characters stays as it is.
* `percentDecode_percentByte`: an escape that was written is read back as its byte.
* `percentDecode_percentEncode`: where the percent sign is not plain, the bytes of the text are read
  back.
-/

set_option autoImplicit false

namespace VersionAlignment.Web

open VersionAlignment.Text

/-- A byte as a percent sign and two hex digits. -/
def percentByte (b : UInt8) : List Char :=
  ['%', hexDigit (b.toNat / 16), hexDigit (b.toNat % 16)]

/-- The text with the bytes of the characters that are not plain escaped. -/
def percentEncode (isPlain : Char → Bool) (s : List Char) : List Char :=
  s.flatMap fun c => if isPlain c then [c] else (String.utf8EncodeChar c).flatMap percentByte

/-- The bytes that a text stands for. A percent sign without two hex digits stands for itself. -/
def percentDecode : List Char → List UInt8
  | [] => []
  | '%' :: a :: b :: more =>
    match hexValue? a, hexValue? b with
    | some high, some low => UInt8.ofNat (16 * high + low) :: percentDecode more
    | _, _ => String.utf8EncodeChar '%' ++ percentDecode (a :: b :: more)
  | c :: more => String.utf8EncodeChar c ++ percentDecode more

theorem percentEncode_plain {isPlain : Char → Bool} {s : List Char}
    (h : ∀ c ∈ s, isPlain c = true) : percentEncode isPlain s = s := by
  induction s with
  | nil => rfl
  | cons c s ih =>
    have hs := ih fun d hd => h d (List.mem_cons_of_mem c hd)
    rw [percentEncode] at hs
    simp [percentEncode, h c List.mem_cons_self, hs]

theorem percentDecode_percentByte (b : UInt8) (s : List Char) :
    percentDecode (percentByte b ++ s) = b :: percentDecode s := by
  have hb : b.toNat < 256 := b.toNat_lt
  have high := hexValue?_hexDigit (n := b.toNat / 16) (by omega)
  have low := hexValue?_hexDigit (n := b.toNat % 16) (by omega)
  simp only [percentByte, List.cons_append, List.nil_append, percentDecode, high, low]
  rw [Nat.div_add_mod]
  simp

theorem percentDecode_cons_of_ne {c : Char} (h : c ≠ '%') (s : List Char) :
    percentDecode (c :: s) = String.utf8EncodeChar c ++ percentDecode s := by
  rw [percentDecode]
  exact fun _ _ _ he _ => h he

theorem percentDecode_percentEncode {isPlain : Char → Bool} (h : isPlain '%' = false)
    (s : List Char) :
    percentDecode (percentEncode isPlain s) = s.flatMap String.utf8EncodeChar := by
  have bytes (bs : List UInt8) (more : List Char) :
      percentDecode (bs.flatMap percentByte ++ more) = bs ++ percentDecode more := by
    induction bs with
    | nil => rfl
    | cons b bs ih => simp [percentDecode_percentByte, ih]
  induction s with
  | nil => rfl
  | cons c s ih =>
    rw [percentEncode] at ih
    cases hc : isPlain c with
    | true =>
      have hne : c ≠ '%' := fun he => by simp [he, h] at hc
      simp [percentEncode, hc, percentDecode_cons_of_ne hne, ih]
    | false => simp [percentEncode, hc, bytes, ih]

end VersionAlignment.Web
