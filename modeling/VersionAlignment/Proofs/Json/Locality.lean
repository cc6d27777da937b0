import VersionAlignment.Proofs.Json.Places

/-!
# What the readers of JSON look at

A reader of a string, a number or a literal name gives the same answer to the piece of text that it
takes wherever that piece stands. For strings it does not matter what stands behind their closing
quote; numbers and literal names end before the first character that could not belong to one.

## Results

* `readChars_takes`: strings.
* `readScalar_takes`: numbers and literal names.
* `text?_of_readString`, `atom?_of_readScalar`: the value of a piece is that of the piece alone.
* `text?_takes`: what has a string between two quotes is read as that string.
-/

set_option autoImplicit false

namespace VersionAlignment.Json

/-- The reader takes the text `w` for `a`, whatever stands behind it. -/
def Takes {α : Type} (f : Cursor → Except Fault (α × Cursor)) (w : List Char) (a : α) : Prop :=
  ∀ rest line column, ∃ line' column',
    f ⟨w ++ rest, line, column⟩ = .ok (a, ⟨rest, line', column'⟩)

/-- The text does not go on with a character of numbers and literal names. -/
def Breaks (s : List Char) : Prop := ∀ c ∈ s.head?, isAtomChar c = false

-- named, as the search for instances may come up with one that tries all characters
instance (s : List Char) : Decidable (Breaks s) :=
  (Option.decidableForallMem s.head? : Decidable (∀ c ∈ s.head?, isAtomChar c = false))

/-- The reader takes the text `w` for `a` if what stands behind it breaks. -/
def TakesAtom {α : Type} (f : Cursor → Except Fault (α × Cursor)) (w : List Char) (a : α) : Prop :=
  ∀ rest line column, Breaks rest → ∃ line' column',
    f ⟨w ++ rest, line, column⟩ = .ok (a, ⟨rest, line', column'⟩)

theorem bind_eq_ok_iff {ε α β : Type} {x : Except ε α} {f : α → Except ε β} {b : β} :
    (x >>= f) = .ok b ↔ ∃ a, x = .ok a ∧ f a = .ok b := by
  cases x with
  | error e => simp [bind, Except.bind]
  | ok a => simp [bind, Except.bind]

theorem Cursor.exists_past_eq (c : Cursor) (ch : Char) (rest : List Char) :
    ∃ line column, c.past ch rest = ⟨rest, line, column⟩ := by
  rw [Cursor.past]
  split
  · exact ⟨_, _, rfl⟩
  · exact ⟨_, _, rfl⟩

theorem Cursor.exists_next_eq {c : Cursor} {ch : Char} {rest : List Char}
    (h : c.rest = ch :: rest) :
    ∃ line column, c.next = ⟨rest, line, column⟩ := by
  rw [Cursor.next, h]
  exact c.exists_past_eq ch rest

theorem rest_next {c : Cursor} {ch : Char} {s : List Char} (h : c.rest = ch :: s) :
    c.next.rest = s := by
  obtain ⟨line, column, hnext⟩ := Cursor.exists_next_eq h
  rw [hnext]

/-! ## Strings -/

/-- The characters of a string, scanned behind a backslash or not: the answer tells whether a
backslash comes last. A quote without a backslash or a control character is refused. -/
def scanText : Bool → List Char → Option Bool
  | escaped, [] => some escaped
  | escaped, c :: cs =>
    if isControl c then none
    else if !escaped && c == '"' then none
    else scanText (!escaped && c == '\\') cs

theorem scanText_append (escaped : Bool) (s t : List Char) :
    scanText escaped (s ++ t) = (scanText escaped s).bind fun e => scanText e t := by
  induction s generalizing escaped with
  | nil => rfl
  | cons c s ih =>
    simp only [List.cons_append, scanText]
    split
    · rfl
    · split
      · rfl
      · exact ih _

/-- The text is made of the characters and escapes of a string. -/
def IsText (raw : List Char) : Prop := scanText false raw = some false

theorem IsText.append {s t : List Char} (hs : IsText s) (ht : IsText t) : IsText (s ++ t) := by
  rw [IsText, scanText_append, hs]
  exact ht

theorem isText_singleton {c : Char} (hcontrol : isControl c = false) (hquote : c ≠ '"')
    (hslash : c ≠ '\\') : IsText [c] := by
  simp [IsText, scanText, hcontrol, hquote, hslash]

theorem isText_escape {c : Char} {w : List Char} (hcontrol : isControl c = false) (hw : IsText w) :
    IsText ('\\' :: c :: w) := by
  have hslash : isControl '\\' = false := by decide
  rw [IsText] at hw ⊢
  simpa [scanText, hcontrol, hslash] using hw

theorem isText_of_hexValue? {c : Char} {n : Nat} (h : Text.hexValue? c = some n) : IsText [c] := by
  have hcontrol : isControl c = false := by
    simp only [Text.hexValue?, Char.le_def, UInt32.le_iff_toNat_le] at h
    have a0 : ('0' : Char).val.toNat = 48 := rfl
    have la : ('a' : Char).val.toNat = 97 := rfl
    have ua : ('A' : Char).val.toNat = 65 := rfl
    have hn : c.toNat = c.val.toNat := rfl
    simp only [isControl, decide_eq_false_iff_not, Nat.not_lt]
    split at h
    · omega
    · split at h
      · omega
      · split at h
        · omega
        · cases h
  refine isText_singleton hcontrol ?_ ?_
  · rintro rfl
    cases h
  · rintro rfl
    cases h

theorem ne_quote_of_hexValue? {c : Char} {n : Nat} (h : Text.hexValue? c = some n) : '"' ≠ c := by
  rintro rfl
  cases h

theorem readHex_takes {c c' : Cursor} {n : Nat} (h : readHex c = .ok (n, c')) :
    ∃ w, c.rest = w ++ c'.rest ∧ IsText w ∧ '"' ∉ w ∧ Takes readHex w n := by
  rw [readHex] at h
  split at h
  · next a b d e rest hrest =>
    split at h
    · next na nb nd ne ha hb hd he =>
      cases h
      refine ⟨[a, b, d, e], hrest, ?_, ?_, fun rest line column => ?_⟩
      · exact (isText_of_hexValue? ha).append ((isText_of_hexValue? hb).append
          ((isText_of_hexValue? hd).append (isText_of_hexValue? he)))
      · simp [ne_quote_of_hexValue? ha, ne_quote_of_hexValue? hb, ne_quote_of_hexValue? hd,
          ne_quote_of_hexValue? he]
      · exact ⟨line, column + 4, by simp [readHex, ha, hb, hd, he]⟩
    · cases h
  · split at h <;> cases h

theorem readLowSurrogate_takes {high : Nat} {c c' : Cursor} {e : Char}
    (h : readLowSurrogate high c = .ok (e, c')) :
    ∃ w, c.rest = w ++ c'.rest ∧ IsText w ∧ '"' ∉ w ∧ Takes (readLowSurrogate high) w e := by
  rw [readLowSurrogate] at h
  split at h
  · cases h
  · next rest hrest =>
    obtain ⟨line₁, column₁, hnext⟩ := Cursor.exists_next_eq hrest
    simp only [hnext] at h
    split at h
    · cases h
    · next rest' =>
      obtain ⟨line₂, column₂, hnext'⟩ :=
        Cursor.exists_next_eq (c := ⟨'u' :: rest', line₁, column₁⟩) rfl
      rw [hnext', bind_eq_ok_iff] at h
      obtain ⟨⟨low, c₂⟩, hhex, h⟩ := h
      obtain ⟨w, hw, htext, hquote, htakes⟩ := readHex_takes hhex
      simp only at h hw
      split at h
      · next hlow =>
        rw [Except.ok.injEq, Prod.mk.injEq] at h
        obtain ⟨rfl, rfl⟩ := h
        refine ⟨'\\' :: 'u' :: w, by rw [hrest, hw]; rfl,
          isText_escape (by decide) htext, by simp [hquote], fun after line column => ?_⟩
        obtain ⟨l₁, k₁, h₁⟩ := htakes after line (column + '\\'.utf8Size + 'u'.utf8Size)
        refine ⟨l₁, k₁, ?_⟩
        show (readHex ⟨w ++ after, line, column + '\\'.utf8Size + 'u'.utf8Size⟩ >>= _) = _
        rw [h₁]
        exact if_pos hlow
      · cases h
    · cases h
  · cases h

theorem readHexEscape_takes {c c' : Cursor} {e : Char} (h : readHexEscape c = .ok (e, c')) :
    ∃ w, c.rest = w ++ c'.rest ∧ IsText w ∧ '"' ∉ w ∧ Takes readHexEscape w e := by
  rw [readHexEscape, bind_eq_ok_iff] at h
  obtain ⟨⟨n, c₁⟩, hhex, h⟩ := h
  obtain ⟨w, hw, htext, hquote, htakes⟩ := readHex_takes hhex
  simp only at h
  split at h
  · cases h
  · next hlow =>
    split at h
    · next hhigh =>
      obtain ⟨w', hw', htext', hquote', htakes'⟩ := readLowSurrogate_takes h
      refine ⟨w ++ w', by rw [hw, hw', List.append_assoc], htext.append htext',
        by simp [hquote, hquote'], fun after line column => ?_⟩
      obtain ⟨l₁, k₁, h₁⟩ := htakes (w' ++ after) line column
      obtain ⟨l₂, k₂, h₂⟩ := htakes' after l₁ k₁
      refine ⟨l₂, k₂, ?_⟩
      rw [List.append_assoc, readHexEscape, h₁]
      simp only [bind, Except.bind, hlow, hhigh, and_self, if_true, if_false, h₂]
    · next hhigh =>
      cases h
      refine ⟨w, hw, htext, hquote, fun after line column => ?_⟩
      obtain ⟨l₁, k₁, h₁⟩ := htakes after line column
      refine ⟨l₁, k₁, ?_⟩
      rw [readHexEscape, h₁]
      simp only [bind, Except.bind, hlow, hhigh, if_false]

/-- An escape is told by what stands behind its backslash; only that of a quote holds one. -/
theorem readEscape_takes {c c' : Cursor} {e : Char} (h : readEscape c = .ok (e, c')) :
    ∃ w, c.rest = w ++ c'.rest ∧ IsText ('\\' :: w) ∧ ('"' ∈ w → e = '"') ∧
      Takes readEscape w e := by
  rw [readEscape] at h
  split at h
  · cases h
  · next rest hrest =>
    obtain ⟨line₁, column₁, hnext⟩ := Cursor.exists_next_eq hrest
    rw [hnext] at h
    obtain ⟨w, hw, htext, hquote, htakes⟩ := readHexEscape_takes h
    simp only at hw
    refine ⟨'u' :: w, by rw [hrest, hw]; rfl, isText_escape (by decide) htext,
      fun hmem => absurd hmem (by simp [hquote]), fun after line column => ?_⟩
    obtain ⟨l₁, k₁, h₁⟩ :=
      Cursor.exists_next_eq (c := ⟨'u' :: (w ++ after), line, column⟩) rfl
    obtain ⟨l₂, k₂, h₂⟩ := htakes after l₁ k₁
    refine ⟨l₂, k₂, ?_⟩
    simp only [readEscape, List.cons_append, h₁, h₂]
  · next ch rest _ hrest =>
    split at h
    · next e' he =>
      cases h
      obtain ⟨line₁, column₁, hnext⟩ := Cursor.exists_next_eq hrest
      have hcontrol : isControl ch = false := by
        unfold escapedChar? at he
        split at he <;> first | decide | cases he
      have hescape : '"' ∈ [ch] → e = '"' := by
        rintro hmem
        obtain rfl := List.mem_singleton.1 hmem
        cases he
        rfl
      refine ⟨[ch], by rw [hrest, hnext]; rfl, isText_escape hcontrol rfl, hescape,
        fun after line column => ?_⟩
      obtain ⟨l₁, k₁, h₁⟩ := Cursor.exists_next_eq (c := ⟨ch :: after, line, column⟩) rfl
      refine ⟨l₁, k₁, ?_⟩
      simp only [readEscape, List.cons_append, List.nil_append, he, h₁]
    · cases h

/-- The characters of a string are told by what stands before its closing quote. Where a quote
stands, there is one among them. -/
theorem readChars_takes {fuel : Nat} {c c' : Cursor} {s : List Char}
    (h : readChars fuel c = .ok (s, c')) :
    ∃ raw, c.rest = raw ++ '"' :: c'.rest ∧ IsText raw ∧ ('"' ∈ raw → '"' ∈ s) ∧
      ∀ fuel', raw.length < fuel' → Takes (readChars fuel') (raw ++ ['"']) s := by
  induction fuel generalizing c s with
  | zero => cases h
  | succ fuel ih =>
    rw [readChars] at h
    split at h
    · cases h
    · next ch rest hrest =>
      split at h
      · next hquote =>
        cases h
        obtain ⟨line₁, column₁, hnext⟩ := Cursor.exists_next_eq hrest
        subst hquote
        refine ⟨[], by rw [hrest, hnext]; rfl, rfl, by simp,
          fun fuel' hfuel after line column => ?_⟩
        obtain ⟨fuel', rfl⟩ : ∃ n, fuel' = n + 1 := ⟨fuel' - 1, by omega⟩
        obtain ⟨l₁, k₁, h₁⟩ := Cursor.exists_next_eq (c := ⟨'"' :: after, line, column⟩) rfl
        exact ⟨l₁, k₁, by simp [readChars, h₁]⟩
      · next hquote =>
        split at h
        · next hslash =>
          subst hslash
          obtain ⟨line₁, column₁, hnext⟩ := Cursor.exists_next_eq hrest
          rw [hnext, bind_eq_ok_iff] at h
          obtain ⟨⟨e, c₁⟩, hescape, h⟩ := h
          simp only [bind_eq_ok_iff] at h
          obtain ⟨⟨s', c₂⟩, hchars, h⟩ := h
          cases h
          obtain ⟨w, hw, htext, hquote, htakes⟩ := readEscape_takes hescape
          obtain ⟨raw, hraw, htext', hquote', htakes'⟩ := ih hchars
          simp only at hw
          have hmem : '"' ∈ '\\' :: w ++ raw → '"' ∈ e :: s' := by
            simp only [List.cons_append, List.mem_cons, List.mem_append]
            rintro (hslash | hmem | hmem)
            · exact absurd hslash (by decide)
            · exact .inl (hquote hmem).symm
            · exact .inr (hquote' hmem)
          refine ⟨'\\' :: w ++ raw, by rw [hrest, hw, hraw]; simp, htext.append htext', hmem,
            fun fuel' hfuel after line column => ?_⟩
          obtain ⟨fuel', rfl⟩ : ∃ n, fuel' = n + 1 := ⟨fuel' - 1, by omega⟩
          obtain ⟨l₁, k₁, h₁⟩ := Cursor.exists_next_eq
            (c := ⟨'\\' :: (w ++ (raw ++ ['"'] ++ after)), line, column⟩) rfl
          obtain ⟨l₂, k₂, h₂⟩ := htakes (raw ++ ['"'] ++ after) l₁ k₁
          obtain ⟨l₃, k₃, h₃⟩ := htakes' fuel' (by simp at hfuel; omega) after l₂ k₂
          refine ⟨l₃, k₃, ?_⟩
          simp only [List.cons_append, List.nil_append, List.append_assoc] at h₁ h₂ h₃ ⊢
          simp [readChars, h₁, h₂, h₃, bind, Except.bind]
        · next hslash =>
          split at h
          · cases h
          · next hcontrol =>
            simp only [bind_eq_ok_iff] at h
            obtain ⟨⟨s', c₂⟩, hchars, h⟩ := h
            cases h
            obtain ⟨line₁, column₁, hpast⟩ := Cursor.exists_past_eq c ch rest
            rw [hpast] at hchars
            obtain ⟨raw, hraw, htext', hquote', htakes'⟩ := ih hchars
            simp only at hraw
            rw [Bool.not_eq_true] at hcontrol
            have hmem : '"' ∈ ch :: raw → '"' ∈ ch :: s' := by
              rw [List.mem_cons, List.mem_cons]
              exact Or.imp_right hquote'
            refine ⟨ch :: raw, by rw [hrest, hraw]; rfl,
              (isText_singleton hcontrol hquote hslash).append htext', hmem,
              fun fuel' hfuel after line column => ?_⟩
            obtain ⟨fuel', rfl⟩ : ∃ n, fuel' = n + 1 := ⟨fuel' - 1, by omega⟩
            obtain ⟨l₁, k₁, h₁⟩ := Cursor.exists_past_eq
              ⟨ch :: (raw ++ ['"'] ++ after), line, column⟩ ch (raw ++ ['"'] ++ after)
            obtain ⟨l₂, k₂, h₂⟩ := htakes' fuel' (by simp at hfuel; omega) after l₁ k₁
            refine ⟨l₂, k₂, ?_⟩
            simp only [List.cons_append, List.nil_append, List.append_assoc] at h₁ h₂ ⊢
            simp [readChars, hquote, hslash, hcontrol, h₁, h₂, bind, Except.bind]

/-- A string is the value of what stands between its quotes. -/
theorem text?_of_readString {c c' : Cursor} {s : String} (h : readString c = .ok (s, c')) :
    ∃ raw, c.rest = raw ++ '"' :: c'.rest ∧ IsText raw ∧ text? raw = some s := by
  rw [readString, bind_eq_ok_iff] at h
  obtain ⟨⟨cs, c₁⟩, hchars, h⟩ := h
  cases h
  obtain ⟨raw, hraw, htext, -, htakes⟩ := readChars_takes hchars
  refine ⟨raw, hraw, htext, ?_⟩
  obtain ⟨line, column, halone⟩ := htakes ((raw ++ ['"']).length + 1)
    (by rw [List.length_append]; omega) [] 1 0
  rw [List.append_nil] at halone
  simp only [text?, readString, halone, bind, Except.bind, if_true]

/-- What has a string between two quotes is read as the characters of the string. -/
theorem exists_chars_of_text? {raw : List Char} {s : String} (h : text? raw = some s) :
    IsText raw ∧ ('"' ∈ raw → '"' ∈ s.toList) ∧
      ∀ fuel, raw.length < fuel → Takes (readChars fuel) (raw ++ ['"']) s.toList := by
  rw [text?] at h
  split at h
  · next t c hread =>
    split at h
    · next hrest =>
      cases h
      rw [readString, bind_eq_ok_iff] at hread
      obtain ⟨⟨cs, c₁⟩, hchars, h⟩ := hread
      cases h
      obtain ⟨raw', hraw, htakes⟩ := readChars_takes hchars
      rw [hrest] at hraw
      obtain rfl := List.append_inj_left' hraw rfl
      rwa [String.toList_ofList]
    · cases h
  · cases h

/-- What has a string between two quotes is made of the characters and escapes of a string, and is
read as that string wherever it stands. -/
theorem text?_takes {raw : List Char} {s : String} (h : text? raw = some s) :
    IsText raw ∧ Takes readString (raw ++ ['"']) s := by
  obtain ⟨htext, -, htakes⟩ := exists_chars_of_text? h
  refine ⟨htext, fun rest line column => ?_⟩
  have hfuel : raw.length < (raw ++ ['"'] ++ rest).length + 1 := by
    rw [List.length_append, List.length_append]
    omega
  obtain ⟨line', column', hread⟩ := htakes _ hfuel rest line column
  refine ⟨line', column', ?_⟩
  simp only [readString, hread, bind, Except.bind, String.ofList_toList]

/-- Where a quote stands in a string, it is one of the characters of the string. -/
theorem quote_mem_of_text? {raw : List Char} {s : String} (h : text? raw = some s)
    (hquote : '"' ∈ raw) : '"' ∈ s.toList := (exists_chars_of_text? h).2.1 hquote

/-! ## Numbers and literal names -/

/-- Whatever the reader takes, it takes wherever that stands. -/
def ReadsAtom {α : Type} (f : Cursor → Except Fault (α × Cursor)) : Prop :=
  ∀ ⦃c c' a⦄, f c = .ok (a, c') →
    ∃ w, c.rest = w ++ c'.rest ∧ (∀ ch ∈ w, isAtomChar ch = true) ∧ TakesAtom f w a

theorem isAtomChar_of_isDigit {c : Char} (h : c.isDigit = true) : isAtomChar c = true := by
  simp [isAtomChar, Char.isAlphanum, h]

/-- How a text starts does not depend on what stands behind its first piece, if that breaks. -/
theorem Breaks.append_ne_cons {w s rest : List Char} {c : Char} (hbreaks : Breaks rest)
    (hc : isAtomChar c = true) (h : ∀ t, w ++ s ≠ c :: t) (t : List Char) : w ++ rest ≠ c :: t := by
  intro heq
  cases w with
  | nil =>
    rw [List.nil_append] at heq
    simpa [hc] using hbreaks c (by rw [heq]; rfl)
  | cons d w =>
    obtain ⟨rfl, -⟩ := List.cons.inj heq
    exact h (w ++ s) rfl

theorem rest_digitRun (c : Cursor) : (digitRun c).2.rest = c.rest.dropWhile Char.isDigit := by
  have hsplit := congrArg (List.drop (c.rest.takeWhile Char.isDigit).length)
    (List.takeWhile_append_dropWhile (p := Char.isDigit) (l := c.rest))
  rw [List.drop_left] at hsplit
  exact hsplit.symm

theorem digitRun_spec (c : Cursor) :
    c.rest = (digitRun c).1 ++ (digitRun c).2.rest ∧
      ∀ ch ∈ (digitRun c).1, isAtomChar ch = true := by
  refine ⟨?_, fun ch hch => isAtomChar_of_isDigit (isDigit_of_mem_digitRun hch)⟩
  rw [rest_digitRun]
  exact List.takeWhile_append_dropWhile.symm

theorem not_digit_behind_digitRun (c : Cursor) (d : Char) (t : List Char)
    (hd : d.isDigit = true) : (digitRun c).2.rest ≠ d :: t := by
  intro heq
  rw [rest_digitRun] at heq
  have := List.head?_dropWhile_not Char.isDigit c.rest
  rw [heq] at this
  simp [hd] at this

theorem digitRun_append {ds rest : List Char} (hds : ∀ d ∈ ds, d.isDigit = true)
    (hrest : ∀ d t, d.isDigit = true → rest ≠ d :: t) (line column : Nat) :
    digitRun ⟨ds ++ rest, line, column⟩ = (ds, ⟨rest, line, column + ds.length⟩) := by
  have htake : (ds ++ rest).takeWhile Char.isDigit = ds := by
    rw [List.takeWhile_append_of_pos hds]
    cases rest with
    | nil => simp
    | cons d rest =>
      have hd : ¬ d.isDigit = true := fun hd => hrest d rest hd rfl
      simp [hd]
  simp [digitRun, htake]

theorem digitRun_eq_cons {c : Cursor} {ch : Char} {more : List Char} (hc : c.rest = ch :: more)
    (hch : ch.isDigit = true) : ∃ ds, (digitRun c).1 = ch :: ds :=
  ⟨more.takeWhile Char.isDigit, by simp [digitRun, hc, hch]⟩

theorem readsAtom_done {α : Type} (a : α) : ReadsAtom fun c => .ok (a, c) := by
  intro c c' a h
  cases h
  exact ⟨[], rfl, by simp, fun rest line column _ => ⟨line, column, rfl⟩⟩

theorem decimalOf_reads (isNegative : Bool) (digits : Nat) (exponent : Int) :
    ReadsAtom (decimalOf isNegative digits exponent) := by
  unfold decimalOf
  split
  · exact readsAtom_done _
  · intro c c' a h
    cases h

theorem integerOf_reads (isNegative : Bool) (n : Nat) : ReadsAtom (integerOf isNegative n) := by
  unfold integerOf
  split
  · split
    · exact readsAtom_done _
    · exact decimalOf_reads _ _ _
  · exact readsAtom_done _

/-- Digits, and then what another reader takes. -/
theorem readsAtom_behind_digits {g : Cursor → Except Fault (Number × Cursor)} (hg : ReadsAtom g)
    {c c' : Cursor} {a : Number} {ds : List Char} {behind : Cursor}
    (hrun : digitRun c = (ds, behind)) (h : g behind = .ok (a, c')) :
    ∃ w, c.rest = ds ++ w ++ c'.rest ∧ (∀ ch ∈ ds ++ w, isAtomChar ch = true) ∧
      ∀ rest line column, Breaks rest →
        digitRun ⟨ds ++ w ++ rest, line, column⟩ = (ds, ⟨w ++ rest, line, column + ds.length⟩) ∧
        ∃ line' column', g ⟨w ++ rest, line, column + ds.length⟩ = .ok (a, ⟨rest, line', column'⟩)
    := by
  obtain ⟨hrest, hatom⟩ := digitRun_spec c
  have hends := not_digit_behind_digitRun c
  have hdigits : ∀ ch ∈ ds, ch.isDigit = true := fun ch hch =>
    isDigit_of_mem_digitRun (c := c) (by rw [hrun]; exact hch)
  simp only [hrun] at hrest hatom hends
  obtain ⟨w, hw, hatom', htakes⟩ := hg h
  refine ⟨w, by rw [hrest, hw, List.append_assoc], ?_, fun rest line column hbreaks => ⟨?_, ?_⟩⟩
  · intro ch hch
    rcases List.mem_append.1 hch with hch | hch
    · exact hatom ch hch
    · exact hatom' ch hch
  · rw [List.append_assoc]
    refine digitRun_append hdigits (fun d t hd => ?_) line column
    rw [hw] at hends
    exact hbreaks.append_ne_cons (isAtomChar_of_isDigit hd) (fun t => hends d t hd) t
  · exact htakes rest line _ hbreaks

theorem readExponentDigits_reads (isNegative : Bool) (digits : Nat) (before : Int)
    (upwards : Bool) : ReadsAtom (readExponentDigits isNegative digits before upwards) := by
  intro c c' a h
  rw [readExponentDigits] at h
  split at h
  · cases h
  · next ch more hch =>
    split at h
    · next hdigit =>
      obtain ⟨ds, hds⟩ := digitRun_eq_cons hch hdigit
      cases hrun : digitRun c with
      | mk ds' behind =>
        obtain rfl : ds' = ch :: ds := by rw [hrun] at hds; exact hds
        cases hgather : gather exponentLimit 0 (ch :: ds) with
        | mk e leftOut =>
          simp only [hrun, hgather] at h
          cases leftOut with
          | nil =>
            obtain ⟨w, hw, hatom, htakes⟩ :=
              readsAtom_behind_digits (decimalOf_reads _ _ _) hrun h
            refine ⟨_, hw, hatom, fun rest line column hbreaks => ?_⟩
            obtain ⟨hrun', hread⟩ := htakes rest line column hbreaks
            simp only [List.cons_append] at hrun'
            simpa only [readExponentDigits, List.cons_append, hdigit, if_true, hrun', hgather]
              using hread
          | cons _ tail =>
            simp only at h
            split at h
            · cases h
            · next hzero =>
              obtain ⟨w, hw, hatom, htakes⟩ := readsAtom_behind_digits (readsAtom_done _) hrun h
              refine ⟨_, hw, hatom, fun rest line column hbreaks => ?_⟩
              obtain ⟨hrun', hread⟩ := htakes rest line column hbreaks
              simp only [List.cons_append] at hrun'
              simpa only [readExponentDigits, List.cons_append, hdigit, if_true, hrun', hgather,
                if_neg hzero] using hread
    · cases h

/-- The letter of an exponent is not looked at again. -/
theorem readExponent_reads {isNegative : Bool} {digits : Nat} {before : Int} {c c' : Cursor}
    {a : Number} {ch : Char} {more : List Char} (hc : c.rest = ch :: more)
    (h : readExponent isNegative digits before c = .ok (a, c')) :
    ∃ w, more = w ++ c'.rest ∧ (∀ x ∈ w, isAtomChar x = true) ∧
      TakesAtom (readExponent isNegative digits before) (ch :: w) a := by
  obtain ⟨line, column, hnext⟩ := Cursor.exists_next_eq hc
  simp only [readExponent, hnext] at h
  split at h
  · next more' =>
    obtain ⟨line, column, hnext'⟩ := Cursor.exists_next_eq (c := ⟨'+' :: more', line, column⟩) rfl
    rw [hnext'] at h
    obtain ⟨w, hw, hatom, htakes⟩ := readExponentDigits_reads _ _ _ _ h
    refine ⟨'+' :: w, congrArg _ hw, by simpa [isAtomChar] using hatom, ?_⟩
    intro rest line column hbreaks
    obtain ⟨l₁, k₁, h₁⟩ :=
      Cursor.exists_next_eq (c := ⟨ch :: '+' :: (w ++ rest), line, column⟩) rfl
    obtain ⟨l₂, k₂, h₂⟩ := Cursor.exists_next_eq (c := ⟨'+' :: (w ++ rest), l₁, k₁⟩) rfl
    simpa only [readExponent, List.cons_append, h₁, h₂] using htakes rest l₂ k₂ hbreaks
  · next more' =>
    obtain ⟨line, column, hnext'⟩ := Cursor.exists_next_eq (c := ⟨'-' :: more', line, column⟩) rfl
    rw [hnext'] at h
    obtain ⟨w, hw, hatom, htakes⟩ := readExponentDigits_reads _ _ _ _ h
    refine ⟨'-' :: w, congrArg _ hw, by simpa [isAtomChar] using hatom, ?_⟩
    intro rest line column hbreaks
    obtain ⟨l₁, k₁, h₁⟩ :=
      Cursor.exists_next_eq (c := ⟨ch :: '-' :: (w ++ rest), line, column⟩) rfl
    obtain ⟨l₂, k₂, h₂⟩ := Cursor.exists_next_eq (c := ⟨'-' :: (w ++ rest), l₁, k₁⟩) rfl
    simpa only [readExponent, List.cons_append, h₁, h₂] using htakes rest l₂ k₂ hbreaks
  · next hplus hminus =>
    obtain ⟨w, hw, hatom, htakes⟩ := readExponentDigits_reads _ _ _ _ h
    refine ⟨w, hw, hatom, fun rest line column hbreaks => ?_⟩
    obtain ⟨l₁, k₁, h₁⟩ := Cursor.exists_next_eq (c := ⟨ch :: (w ++ rest), line, column⟩) rfl
    obtain ⟨l₂, k₂, h₂⟩ := htakes rest l₁ k₁ hbreaks
    refine ⟨l₂, k₂, ?_⟩
    simp only [readExponent, List.cons_append, h₁]
    split
    · next heq =>
        exact absurd heq (hbreaks.append_ne_cons rfl (fun t ht => hplus t (hw.trans ht)) _)
    · next heq =>
        exact absurd heq (hbreaks.append_ne_cons rfl (fun t ht => hminus t (hw.trans ht)) _)
    · exact h₂

theorem readRest_reads (isNegative : Bool) (digits : Nat) (exponent : Int) :
    ReadsAtom (readRest isNegative digits exponent) := by
  intro c c' a h
  rw [readRest] at h
  split at h
  · next more hc =>
    obtain ⟨w, hw, hatom, htakes⟩ := readExponent_reads hc h
    exact ⟨'e' :: w, by rw [hc, hw]; rfl, by simpa [isAtomChar] using hatom, htakes⟩
  · next more hc =>
    obtain ⟨w, hw, hatom, htakes⟩ := readExponent_reads hc h
    exact ⟨'E' :: w, by rw [hc, hw]; rfl, by simpa [isAtomChar] using hatom, htakes⟩
  · next he hE =>
    obtain ⟨w, hw, hatom, htakes⟩ := decimalOf_reads _ _ _ h
    refine ⟨w, hw, hatom, fun rest line column hbreaks => ?_⟩
    rw [readRest]
    split
    · next heq => exact absurd heq (hbreaks.append_ne_cons rfl (fun t ht => he t (hw.trans ht)) _)
    · next heq => exact absurd heq (hbreaks.append_ne_cons rfl (fun t ht => hE t (hw.trans ht)) _)
    · exact htakes rest line column hbreaks

/-- The point is not looked at again. -/
theorem readFraction_reads {isNegative : Bool} {digits before : Nat} {c c' : Cursor} {a : Number}
    {ch : Char} {more : List Char} (hc : c.rest = ch :: more)
    (h : readFraction isNegative digits before c = .ok (a, c')) :
    ∃ w, more = w ++ c'.rest ∧ (∀ x ∈ w, isAtomChar x = true) ∧
      TakesAtom (readFraction isNegative digits before) (ch :: w) a := by
  obtain ⟨line, column, hnext⟩ := Cursor.exists_next_eq hc
  simp only [readFraction, hnext] at h
  cases hrun : digitRun ⟨more, line, column⟩ with
  | mk ds behind =>
    simp only [hrun] at h
    cases ds with
    | nil =>
      simp only at h
      split at h <;> cases h
    | cons d ds =>
      simp only at h
      obtain ⟨w, hw, hatom, htakes⟩ := readsAtom_behind_digits (readRest_reads _ _ _) hrun h
      refine ⟨_, hw, hatom, fun rest line column hbreaks => ?_⟩
      obtain ⟨l₁, k₁, h₁⟩ :=
        Cursor.exists_next_eq (c := ⟨ch :: (d :: ds ++ w ++ rest), line, column⟩) rfl
      obtain ⟨hrun', hread⟩ := htakes rest l₁ k₁ hbreaks
      simp only [List.cons_append] at h₁ hrun'
      simpa only [readFraction, List.cons_append, h₁, hrun'] using hread

/-- Behind the whole part of a number. -/
theorem readUnsigned_go_reads (isNegative : Bool) (n before : Nat) :
    ReadsAtom (readUnsigned.go isNegative n before) := by
  intro c c' a h
  rw [readUnsigned.go] at h
  split at h
  · next more hc =>
    obtain ⟨w, hw, hatom, htakes⟩ := readFraction_reads hc h
    exact ⟨'.' :: w, by rw [hc, hw]; rfl, by simpa [isAtomChar] using hatom, htakes⟩
  · next more hc =>
    obtain ⟨w, hw, hatom, htakes⟩ := readExponent_reads hc h
    exact ⟨'e' :: w, by rw [hc, hw]; rfl, by simpa [isAtomChar] using hatom, htakes⟩
  · next more hc =>
    obtain ⟨w, hw, hatom, htakes⟩ := readExponent_reads hc h
    exact ⟨'E' :: w, by rw [hc, hw]; rfl, by simpa [isAtomChar] using hatom, htakes⟩
  · next hdot he hE =>
    have hplain : ReadsAtom fun c => if before = 0 then integerOf isNegative n c
        else decimalOf isNegative n before c := by
      split
      · exact integerOf_reads _ _
      · exact decimalOf_reads _ _ _
    obtain ⟨w, hw, hatom, htakes⟩ := hplain h
    refine ⟨w, hw, hatom, fun rest line column hbreaks => ?_⟩
    rw [readUnsigned.go]
    split
    · next heq => exact absurd heq (hbreaks.append_ne_cons rfl (fun t ht => hdot t (hw.trans ht)) _)
    · next heq => exact absurd heq (hbreaks.append_ne_cons rfl (fun t ht => he t (hw.trans ht)) _)
    · next heq => exact absurd heq (hbreaks.append_ne_cons rfl (fun t ht => hE t (hw.trans ht)) _)
    · exact htakes rest line column hbreaks

/-- A number that starts with a zero has no further digit before its point. -/
theorem readUnsigned_zero (isNegative : Bool) {s : List Char} (line column : Nat)
    (hs : ∀ d t, d.isDigit = true → s ≠ d :: t) :
    ∃ line' column', readUnsigned isNegative ⟨'0' :: s, line, column⟩ =
      readUnsigned.go isNegative 0 0 ⟨s, line', column'⟩ := by
  obtain ⟨l₁, k₁, h₁⟩ := Cursor.exists_next_eq (c := ⟨'0' :: s, line, column⟩) rfl
  refine ⟨l₁, k₁, ?_⟩
  simp only [readUnsigned, h₁]
  cases s with
  | nil => rfl
  | cons d t =>
    have hd : ¬ d.isDigit = true := fun hd => hs d t hd rfl
    simp only [hd]
    rfl

theorem readUnsigned_reads (isNegative : Bool) : ReadsAtom (readUnsigned isNegative) := by
  intro c c' a h
  rw [readUnsigned] at h
  split at h
  · cases h
  · next more hc =>
    have hgo : (∀ d t, d.isDigit = true → more ≠ d :: t) ∧
        readUnsigned.go isNegative 0 0 c.next = .ok (a, c') := by
      cases more with
      | nil => exact ⟨fun d t _ => (List.cons_ne_nil d t).symm, h⟩
      | cons d t =>
        simp only at h
        split at h
        · cases h
        · next hd =>
          refine ⟨fun d' t' hd' heq => hd ?_, h⟩
          rw [(List.cons.inj heq).1]
          exact hd'
    obtain ⟨line, column, hnext⟩ := Cursor.exists_next_eq hc
    rw [hnext] at hgo
    obtain ⟨w, hw, hatom, htakes⟩ := readUnsigned_go_reads _ _ _ hgo.2
    refine ⟨'0' :: w, by rw [hc]; exact congrArg _ hw, by simpa [isAtomChar] using hatom, ?_⟩
    intro rest line column hbreaks
    have hmore : ∀ d t, d.isDigit = true → w ++ rest ≠ d :: t := fun d t hd =>
      hbreaks.append_ne_cons (isAtomChar_of_isDigit hd) (fun t ht => hgo.1 d t hd (hw.trans ht)) t
    obtain ⟨line', column', hzero⟩ := readUnsigned_zero isNegative line column hmore
    rw [List.cons_append, hzero]
    exact htakes rest line' column' hbreaks
  · next ch more hzero hc =>
    split at h
    · next hdigit =>
      obtain ⟨ds, hds⟩ := digitRun_eq_cons hc hdigit
      cases hrun : digitRun c with
      | mk ds' behind =>
        obtain rfl : ds' = ch :: ds := by rw [hrun] at hds; exact hds
        simp only [hrun] at h
        obtain ⟨w, hw, hatom, htakes⟩ :=
          readsAtom_behind_digits (readUnsigned_go_reads _ _ _) hrun h
        refine ⟨_, hw, hatom, fun rest line column hbreaks => ?_⟩
        obtain ⟨hrun', hread⟩ := htakes rest line column hbreaks
        simp only [List.cons_append] at hrun' ⊢
        rw [readUnsigned]
        split
        · next heq => cases heq
        · next heq => exact absurd (List.cons.inj heq).1 hzero
        · next heq =>
          obtain ⟨rfl, -⟩ := List.cons.inj heq
          simpa only [hdigit, if_true, hrun'] using hread
    · cases h

theorem readLetters_reads (letters : List Char) (hletters : ∀ x ∈ letters, isAtomChar x = true)
    {c c' : Cursor} (h : readLetters letters c = .ok c') :
    c.rest = letters ++ c'.rest ∧ ∀ rest line column, ∃ line' column',
      readLetters letters ⟨letters ++ rest, line, column⟩ = .ok ⟨rest, line', column'⟩ := by
  induction letters generalizing c with
  | nil =>
    cases h
    exact ⟨rfl, fun rest line column => ⟨line, column, rfl⟩⟩
  | cons expected more ih =>
    rw [readLetters] at h
    split at h
    · cases h
    · next ch tail hc =>
      split at h
      · next heq =>
        subst heq
        obtain ⟨line, column, hnext⟩ := Cursor.exists_next_eq hc
        rw [hnext] at h
        obtain ⟨hrest, htakes⟩ := ih (fun x hx => hletters x (List.mem_cons_of_mem _ hx)) h
        refine ⟨by rw [hc]; exact congrArg _ hrest, fun rest line column => ?_⟩
        obtain ⟨l₁, k₁, h₁⟩ :=
          Cursor.exists_next_eq (c := ⟨ch :: (more ++ rest), line, column⟩) rfl
        obtain ⟨l₂, k₂, h₂⟩ := htakes rest l₁ k₁
        refine ⟨l₂, k₂, ?_⟩
        simp only [readLetters, List.cons_append, if_true, h₁, h₂]
      · cases h

theorem readName_reads {ch : Char} {letters : List Char} {v a : Value} {c c' : Cursor}
    {more : List Char} (hletters : ∀ x ∈ letters, isAtomChar x = true) (hc : c.rest = ch :: more)
    (h : readName letters v c = .ok (a, c')) :
    ∃ w, more = w ++ c'.rest ∧ (∀ x ∈ w, isAtomChar x = true) ∧
      TakesAtom (readName letters v) (ch :: w) a := by
  rw [readName, bind_eq_ok_iff] at h
  obtain ⟨c₁, hread, h⟩ := h
  cases h
  obtain ⟨line, column, hnext⟩ := Cursor.exists_next_eq hc
  rw [hnext] at hread
  obtain ⟨hrest, htakes⟩ := readLetters_reads letters hletters hread
  refine ⟨letters, hrest, hletters, fun rest line column _ => ?_⟩
  obtain ⟨l₁, k₁, h₁⟩ := Cursor.exists_next_eq (c := ⟨ch :: (letters ++ rest), line, column⟩) rfl
  obtain ⟨l₂, k₂, h₂⟩ := htakes rest l₁ k₁
  refine ⟨l₂, k₂, ?_⟩
  rw [readName, List.cons_append, h₁, h₂]
  rfl

theorem readUnsigned_ne_nil {isNegative : Bool} {w : List Char} {n : Number}
    (h : TakesAtom (readUnsigned isNegative) w n) : w ≠ [] := by
  rintro rfl
  obtain ⟨line, column, hread⟩ := h [] 1 0 (by simp [Breaks])
  cases hread

/-- A value that starts with no quote is told by the characters up to the next one that could not
belong to it. -/
theorem readScalar_takes {ch : Char} {c c' : Cursor} {v : Value} {more : List Char}
    (hquote : ch ≠ '"') (hc : c.rest = ch :: more) (h : readScalar ch c = .ok (v, c')) :
    ∃ w, more = w ++ c'.rest ∧ (∀ x ∈ ch :: w, isAtomChar x = true) ∧
      TakesAtom (readScalar ch) (ch :: w) v := by
  rw [readScalar, if_neg hquote] at h
  split at h
  · next hsign =>
    subst hsign
    rw [bind_eq_ok_iff] at h
    obtain ⟨⟨n, c₁⟩, hread, h⟩ := h
    cases h
    obtain ⟨line, column, hnext⟩ := Cursor.exists_next_eq hc
    rw [hnext] at hread
    obtain ⟨w, hw, hatom, htakes⟩ := readUnsigned_reads _ hread
    refine ⟨w, hw, by simpa [isAtomChar] using hatom, fun rest line column hbreaks => ?_⟩
    obtain ⟨l₁, k₁, h₁⟩ := Cursor.exists_next_eq (c := ⟨'-' :: (w ++ rest), line, column⟩) rfl
    obtain ⟨l₂, k₂, h₂⟩ := htakes rest l₁ k₁ hbreaks
    refine ⟨l₂, k₂, ?_⟩
    show (readUnsigned true (Cursor.next ⟨'-' :: (w ++ rest), line, column⟩) >>= _) = _
    rw [h₁, h₂]
    rfl
  · next hsign =>
    split at h
    · next hdigit =>
      rw [bind_eq_ok_iff] at h
      obtain ⟨⟨n, c₁⟩, hread, h⟩ := h
      cases h
      obtain ⟨w, hw, hatom, htakes⟩ := readUnsigned_reads _ hread
      obtain ⟨x, w, rfl⟩ := List.exists_cons_of_ne_nil (readUnsigned_ne_nil htakes)
      obtain ⟨rfl, hmore⟩ := List.cons.inj (hc.symm.trans hw)
      refine ⟨w, hmore, hatom, fun rest line column hbreaks => ?_⟩
      obtain ⟨l₁, k₁, h₁⟩ := htakes rest line column hbreaks
      refine ⟨l₁, k₁, ?_⟩
      rw [readScalar, if_neg hquote, if_neg hsign, if_pos hdigit, h₁]
      rfl
    · next hdigit =>
      split at h
      · next hname =>
        subst hname
        obtain ⟨w, hw, hatom, htakes⟩ := readName_reads (by simp [isAtomChar]) hc h
        exact ⟨w, hw, by simpa [isAtomChar] using hatom, htakes⟩
      · split at h
        · next hname =>
          subst hname
          obtain ⟨w, hw, hatom, htakes⟩ := readName_reads (by simp [isAtomChar]) hc h
          exact ⟨w, hw, by simpa [isAtomChar] using hatom, htakes⟩
        · split at h
          · next hname =>
            subst hname
            obtain ⟨w, hw, hatom, htakes⟩ := readName_reads (by simp [isAtomChar]) hc h
            exact ⟨w, hw, by simpa [isAtomChar] using hatom, htakes⟩
          · cases h

theorem atom?_of_readScalar {ch : Char} {c c' : Cursor} {v : Value} {more : List Char}
    (hquote : ch ≠ '"') (hc : c.rest = ch :: more) (h : readScalar ch c = .ok (v, c')) :
    ∃ raw, more = raw ++ c'.rest ∧ (∀ x ∈ ch :: raw, isAtomChar x = true) ∧
      atom? (ch :: raw) = some v := by
  obtain ⟨raw, hraw, hatom, htakes⟩ := readScalar_takes hquote hc h
  refine ⟨raw, hraw, hatom, ?_⟩
  obtain ⟨line, column, halone⟩ := htakes [] 1 0 (by simp [Breaks])
  rw [List.append_nil] at halone
  simp only [atom?, halone, if_true]

end VersionAlignment.Json
