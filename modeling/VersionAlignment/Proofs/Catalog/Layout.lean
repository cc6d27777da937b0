import VersionAlignment.Proofs.Catalog.ListLines

/-!
# Members that start a line

What the scan reads of a member that is the first thing on its line and whose value starts there too
(`StartsLine`) is told by its text. It reads a default value that is a string up to the next quote,
and one that is a number up to its exponent (`shownDefault`). It starts to gather an array, and
comes to the lines on which this array stands.

## Results

* `StartsLine.exists_onLine`: a member that starts a line, read off the line.
* `OnLine.newDefault?_eq_none_iff`: when a default value is left as it is.
* `OnLine.isSome_start?`, `OnLine.listIn`: an array is gathered, and stands on its lines.
-/

set_option autoImplicit false

namespace VersionAlignment.Json

theorem Stands.exists_list {a b : Spot} {n : Node} (h : Stands a n b)
    (hlist : n.value.isList = true) : ∃ opened closed items, n = .list opened closed items := by
  cases h with
  | list => exact ⟨_, _, _, rfl⟩
  | object => cases hlist
  | text => cases hlist
  | @atom _ _ _ value _ hatom =>
    have hscalar := isScalar_of_atom? hatom
    rw [Node.value] at hlist
    cases value with
    | list => cases hscalar
    | _ => cases hlist

end VersionAlignment.Json

namespace VersionAlignment.Artifact.Catalog

open Text Json

variable {text line lead rest spelling s w : List Char} {m : Member Node} {v b : Spot}
  {value : Value} {c : Char}

/-! ## Lines -/

/-- The member is the first thing on its line, and its value starts there too. -/
def StartsLine (ls : List (List Char)) (m : Member Node) : Prop :=
  ∃ line ∈ lineFrom? ls m.place, StartsMember m.name line

instance (ls : List (List Char)) (m : Member Node) : Decidable (StartsLine ls m) :=
  inferInstanceAs (Decidable (∃ line ∈ _, _))

/-- The member starts a line with a lead, and its value stands behind the lead. -/
structure OnLine (text : List Char) (m : Member Node) (line lead rest : List Char) (v b : Spot) :
    Prop where
  atLine : lineFrom? (lines text) m.place = some line
  take : (memberLead m.name).take? line = some (lead, rest)
  place : v.place.line = m.place.line
  spot : SpotIn text v
  stands : Stands v m.node b
  follows : Follows b.rest
  rest : ∃ pieces, lines v.rest = rest :: pieces

/-- **A member that starts a line**, read off the line. -/
theorem StartsLine.exists_onLine (h : StartsLine (lines text) m) (hm : MemberIn text m)
    (hname : IsPlain m.name.toList) : ∃ line lead rest v b, OnLine text m line lead rest v b := by
  obtain ⟨line, hline, hstarts⟩ := h
  obtain ⟨a, b, ha, hstands, hfollows⟩ := hm
  obtain ⟨⟨lead, rest⟩, htake, hne⟩ := startsMember_iff.1 hstarts
  obtain ⟨c, x, rfl⟩ := List.exists_cons_of_ne_nil hne
  have hc := isBlank_of_take?_memberLead htake
  obtain ⟨hsplit, l, hleading⟩ := Catalog.exists_lead htake
  obtain ⟨hat, hcolumn⟩ := lineFrom?_eq_some.1 hline
  rw [hleading, (exists_quote_of_memberStands hstands).1] at hcolumn
  rw [(exists_quote_of_memberStands hstands).1] at hat
  -- the line without the blanks before the member
  obtain ⟨l', hbefore⟩ : ∃ l' : Lead m.name (quoted m.name ++ (l.between ++ ':' :: l.behind)),
      l'.before = [] :=
    ⟨⟨[], l.between, l.behind, by simp, l.isBlank_between, l.isBlank_behind, rfl⟩, rfl⟩
  obtain ⟨s, piece, pieces, hpieces, hlength, hdrop⟩ := ha.exists_line
  obtain rfl : line = s ++ piece := Option.some.inj (hat.symm.trans (getElem?_of_drop hdrop).1)
  rw [l.text_eq, List.append_assoc] at hsplit
  obtain ⟨hs, hpiece⟩ := List.append_inj hsplit (hcolumn.trans hlength.symm)
  rw [← hpiece] at hpieces
  obtain ⟨v, hcovers, hvalue, hnewline, hrest⟩ :=
    exists_value_of_line l' hbefore hname hstands hc hpieces
  refine ⟨_, lead, c :: x, v, b, hline, htake, ?_, ha.reaches hcovers.reaches, hvalue, hfollows, _,
    hrest⟩
  rw [hcovers.2, line_behind _ hnewline, (exists_quote_of_memberStands hstands).1]

/-- A line that starts with a member of the given name is the line of this member. -/
theorem startsLine_of_take? {name : String} (hm : MemberIn text m) (hname : IsPlain name.toList)
    (hline : lineFrom? (lines text) m.place = some line)
    (htake : (memberLead name).take? line = some (lead, rest)) (hne : rest ≠ []) :
    m.name = name ∧ StartsLine (lines text) m := by
  obtain ⟨a, b, ha, hstands, -⟩ := hm
  obtain ⟨hsplit, l, hleading⟩ := Catalog.exists_lead htake
  obtain ⟨hat, hcolumn⟩ := lineFrom?_eq_some.1 hline
  have hplace := (exists_quote_of_memberStands hstands).1
  rw [hleading, hplace] at hcolumn
  obtain ⟨s, piece, pieces, hpieces, hlength, hdrop⟩ := ha.exists_line
  obtain rfl : line = s ++ piece :=
    Option.some.inj ((hplace ▸ hat).symm.trans (getElem?_of_drop hdrop).1)
  rw [l.text_eq, List.append_assoc] at hsplit
  obtain ⟨-, hpiece⟩ := List.append_inj hsplit (hcolumn.trans hlength.symm)
  obtain ⟨more, hmore⟩ := prefix_of_lines hpieces
  have hsame : m.name = name := by
    cases hstands with
    | mk hnamed _ =>
      obtain ⟨raw, d, _, _, hraw, hquoted, -⟩ := hnamed
      have htext : raw ++ '"' :: d.rest =
          name.toList ++ '"' :: (l.between ++ ':' :: (l.behind ++ (rest ++ more))) := by
        have hstart := hquoted.1.symm.trans (hmore.symm.trans (congrArg (· ++ more) hpiece.symm))
        simpa [quoted] using hstart
      obtain rfl := eq_of_isText (text?_takes hraw).1 (isText_plain hname) htext
      rw [text?_plain hname] at hraw
      exact (Option.some.inj hraw).symm
  subst hsame
  exact ⟨rfl, _, hline, startsMember_iff.2 ⟨_, htake, hne⟩⟩

namespace OnLine

/-- What stands on the line from the value on is the text of the value as far as it is on one
line. -/
theorem exists_rest (h : OnLine text m line lead rest v b) (hw : '\n' ∉ w)
    (hcovers : Covers w v b) :
    ∃ x, rest = w ++ x ∧ x <+: b.rest := by
  obtain ⟨pieces, hpieces⟩ := h.rest
  obtain ⟨x, pieces', hx⟩ := exists_splitAt_eq_cons '\n' b.rest
  have hlines := lines_append hw hx
  rw [← hcovers.1, hpieces] at hlines
  obtain ⟨rfl, -⟩ := List.cons.inj hlines
  exact ⟨x, rfl, prefix_of_lines hx⟩

theorem exists_head (h : OnLine text m line lead rest v b) (hrest : rest = c :: s) :
    ∃ t, v.rest = c :: t := by
  obtain ⟨pieces, hpieces⟩ := h.rest
  obtain ⟨more, hmore⟩ := prefix_of_lines hpieces
  exact ⟨s ++ more, by rw [← hmore, hrest]; rfl⟩

theorem of_head (h : OnLine text m line lead rest v b) {t : List Char} (hv : v.rest = c :: t)
    (hc : c ≠ '\n') : ∃ s, rest = c :: s := by
  obtain ⟨pieces, hpieces⟩ := h.rest
  obtain ⟨x, pieces', hx⟩ := exists_splitAt_eq_cons '\n' t
  have hlines := lines_append (List.not_mem_cons_of_ne_of_not_mem (Ne.symm hc) List.not_mem_nil) hx
  rw [List.singleton_append, ← hv, hpieces] at hlines
  exact ⟨x, (List.cons.inj hlines).1⟩

/-- An array that starts a line is taken up as one. -/
theorem isSome_start? (h : OnLine text m line lead rest v b) (hname : m.name = "options")
    (hlist : m.node.value.isList = true) : (Gathering.start? line).isSome = true := by
  have hstands := h.stands
  obtain ⟨opened, closed, items, hnode⟩ := hstands.exists_list hlist
  rw [hnode] at hstands
  obtain ⟨t, hv⟩ : ∃ t, v.rest = '[' :: t := by
    cases hstands with
    | list hopen => exact ⟨_, hopen.1⟩
  obtain ⟨s, rfl⟩ := h.of_head hv (by decide)
  have htake := h.take
  rw [hname] at htake
  have hstart : optionsStart.take? line = some (lead ++ ['['], s) := by
    rw [optionsStart_eq]
    exact Shape.take?_append_iff.2
      ⟨lead, _, ['['], htake, Shape.take?_literal_append ['['] s, rfl⟩
  rw [Gathering.start?, hstart]
  rfl

/-- A value that starts with a bracket is an array. -/
theorem isList (h : OnLine text m line lead ('[' :: rest) v b) : m.node.value.isList = true := by
  obtain ⟨t, hv⟩ := h.exists_head rfl
  have hstands := h.stands
  generalize m.node = node at hstands
  cases hstands with
  | text _ hcovers => exact absurd (List.cons.inj (hcovers.1.symm.trans hv)).1 (by decide)
  | @atom _ _ raw _ hraw hatom hcovers =>
    cases raw with
    | nil => cases hatom
    | cons c raw =>
      obtain ⟨rfl, -⟩ := List.cons.inj (hcovers.1.symm.trans hv)
      exact absurd (hraw '[' List.mem_cons_self) (by decide)
  | list => rfl
  | object hopen => exact absurd (List.cons.inj (hopen.1.symm.trans hv)).1 (by decide)

/-- The array stands on its lines. -/
theorem listIn {opened closed : Position} {items : List Node}
    (h : OnLine text m line lead rest v b) (hname : IsPlain m.name.toList)
    (hnode : m.node = .list opened closed items) : ListIn text v closed b where
  spot := h.spot
  stands := ⟨opened, items, hnode ▸ h.stands⟩
  lead := by
    intro line' hline'
    obtain ⟨hat, -⟩ := lineFrom?_eq_some.1 h.atLine
    obtain rfl : line = line' := Option.some.inj (hat.symm.trans (h.place ▸ hline'))
    obtain ⟨hsplit, l, -⟩ := Catalog.exists_lead h.take
    obtain ⟨pieces, hpieces⟩ := h.rest
    obtain ⟨s, hlength, hdrop⟩ := h.spot.drop_lines hpieces
    obtain rfl : line = s ++ rest :=
      Option.some.inj ((h.place ▸ hat).symm.trans (getElem?_of_drop hdrop).1)
    rw [← hlength, List.take_left, ← List.append_cancel_right hsplit]
    exact l.balanced hname

end OnLine

/-! ## Default values -/

/-- What a line shows of a default value that starts on it: the text behind a quote, up to the next
one, or a number up to its exponent. -/
def shownDefault : List Char → List Char
  | [] => []
  | c :: s => if c = '"' then s.takeWhile (· ≠ '"') else c :: s.takeWhile isNumberChar

/-- A default value starts with a quote, a minus sign or a digit. -/
theorem head_of_defaultValue {found : List Char × List Char}
    (h : defaultValue.take? s = some found) :
    ∃ c t, s = c :: t ∧ (c = '"' ∨ c = '-' ∨ c.isDigit = true) := by
  obtain ⟨value, trail⟩ := found
  rcases Shape.take?_orElse_iff.1 h with h | ⟨-, h⟩
  · obtain ⟨_, _, _, h, -, -⟩ := Shape.take?_append_iff.1 h
    obtain ⟨_, s₁, _, hquote, -, -⟩ := Shape.take?_append_iff.1 h
    obtain ⟨rfl, rfl⟩ := (Shape.recognizes_word "\"" _ _ _).1 hquote
    exact ⟨'"', s₁, rfl, .inl rfl⟩
  · obtain ⟨_, _, _, h, -, -⟩ := Shape.take?_append_iff.1 h
    obtain ⟨_, s₁, digit, hsign, hdigit, -⟩ := Shape.take?_append_iff.1 h
    rcases Shape.take?_orElse_iff.1 hsign with hminus | ⟨-, hnone⟩
    · obtain ⟨rfl, rfl⟩ := (Shape.recognizes_word "-" _ _ _).1 hminus
      exact ⟨'-', s₁, rfl, .inr (.inl rfl)⟩
    · cases hnone
      simp only [Shape.one] at hdigit
      split at hdigit
      · cases hdigit
      · split at hdigit
        · next hd => exact ⟨_, _, rfl, .inr (.inr hd)⟩
        · cases hdigit

/-- A number that is read behind its sign starts with a digit. -/
theorem exists_digit_of_readUnsigned {isNegative : Bool} {c : Cursor} {found : Number × Cursor}
    (h : readUnsigned isNegative c = .ok found) : ∃ d t, c.rest = d :: t ∧ d.isDigit = true := by
  rw [readUnsigned] at h
  split at h
  · cases h
  · next hrest => exact ⟨_, _, hrest, rfl⟩
  · next hrest =>
    split at h
    · next hd => exact ⟨_, _, hrest, hd⟩
    · cases h

theorem exists_readScalar (h : atom? (c :: s) = some value) :
    ∃ c', readScalar c ⟨c :: s, 1, 0⟩ = .ok (value, c') := by
  rw [atom?] at h
  split at h
  · next v c' hread =>
    split at h
    · cases h
      exact ⟨c', hread⟩
    · cases h
  · cases h

/-- What starts with a minus sign or a digit is read as a number. -/
theorem exists_number_of_head (h : atom? (c :: s) = some value)
    (hc : c = '-' ∨ c.isDigit = true) : ∃ x, value = .number x := by
  obtain ⟨c', hread⟩ := exists_readScalar h
  have hquote : c ≠ '"' := by
    rintro rfl
    exact absurd hc (by decide)
  rw [readScalar, if_neg hquote] at hread
  by_cases hminus : c = '-'
  · rw [if_pos hminus] at hread
    obtain ⟨_, -, hv⟩ := bind_eq_ok_iff.1 hread
    cases hv
    exact ⟨_, rfl⟩
  · rw [if_neg hminus, if_pos (hc.resolve_left hminus)] at hread
    obtain ⟨_, -, hv⟩ := bind_eq_ok_iff.1 hread
    cases hv
    exact ⟨_, rfl⟩

/-- **What is read as a version** and is no string is a number: it is spelled with a sign or none,
and then with a digit. -/
theorem exists_digit_of_atom? {raw : List Char} (hraw : ∀ c ∈ raw, isAtomChar c = true)
    (h : atom? raw = some value) (htoken : (token? value).isSome = true) :
    ∃ sign d t, raw = sign ++ d :: t ∧ (sign = [] ∨ sign = ['-']) ∧ d.isDigit = true := by
  cases raw with
  | nil => cases h
  | cons c s =>
    obtain ⟨c', hread⟩ := exists_readScalar h
    have hname : ∀ {letters u}, readName letters u ⟨c :: s, 1, 0⟩ = .ok (value, c') →
        (token? u).isSome = true := by
      intro letters u hread
      obtain ⟨_, -, hu⟩ := bind_eq_ok_iff.1 hread
      cases hu
      exact htoken
    have hquote : c ≠ '"' := ne_of_isAtomChar (hraw c List.mem_cons_self) rfl
    rw [readScalar, if_neg hquote] at hread
    split at hread
    · next hminus =>
      obtain ⟨_, hunsigned, -⟩ := bind_eq_ok_iff.1 hread
      obtain ⟨d, t, hrest, hd⟩ := exists_digit_of_readUnsigned hunsigned
      rw [rest_next rfl] at hrest
      exact ⟨['-'], d, t, by rw [hminus, ← hrest]; rfl, .inr rfl, hd⟩
    split at hread
    · next hd => exact ⟨[], c, s, rfl, .inl rfl, hd⟩
    split at hread
    · cases hname hread
    split at hread
    · cases hname hread
    split at hread
    · cases hname hread
    · cases hread

/-- A value that is read as a version is a scalar. -/
theorem exists_scalar_of_token? {a b : Spot} {node : Node} (h : Stands a node b)
    (htoken : (token? node.value).isSome = true) :
    ∃ spelling value, node = .scalar spelling value := by
  cases h with
  | text => exact ⟨_, _, rfl⟩
  | atom => exact ⟨_, _, rfl⟩
  | list => cases htoken
  | object => cases htoken

theorem isNumberChar_of_follows {x : List Char} (hb : Follows (c :: x)) :
    isNumberChar c = false := by
  cases hblank : Cursor.isBlank c with
  | true =>
    simp only [Cursor.isBlank, Bool.or_eq_true, decide_eq_true_eq] at hblank
    rcases hblank with ((rfl | rfl) | rfl) | rfl <;> decide
  | false =>
    rw [Follows, List.dropWhile_cons_of_neg (by simp [hblank])] at hb
    rcases hb c rfl with rfl | rfl | rfl <;> decide

/-- A string is taken up to the first quote in it, or to its end. -/
theorem exists_take?_quoted (raw x : List Char) :
    ∃ behind, defaultValue.take? ('"' :: raw ++ ['"'] ++ x) =
      some ('"' :: (raw ++ ['"']).takeWhile (· ≠ '"') ++ ['"'], behind) := by
  obtain ⟨behind, hsplit, -⟩ := exists_takeWhile_quote raw x
  have hquote : '"' ∉ (raw ++ ['"']).takeWhile (· ≠ '"') := fun hmem => by
    simpa using List.mem_takeWhile_imp hmem
  have htext : '"' :: raw ++ ['"'] ++ x =
      '"' :: ((raw ++ ['"']).takeWhile (· ≠ '"') ++ '"' :: behind) := by
    rw [← hsplit]
    simp
  rw [htext]
  exact ⟨behind, Shape.take?_orElse_iff.2 (.inl (take?_quotedText hquote behind))⟩

section
variable {sign t x : List Char} {d : Char}

/-- A number is taken up to its exponent, if what stands behind it is no part of a number. -/
theorem take?_numeral_append (hsign : sign = [] ∨ sign = ['-']) (hd : d.isDigit = true)
    (hends : ∀ c cs, x = c :: cs → isNumberChar c = false) :
    defaultValue.take? (sign ++ d :: t ++ x) =
      some (sign ++ d :: t.takeWhile isNumberChar, t.dropWhile isNumberChar ++ x) := by
  have htext : sign ++ d :: t ++ x = sign ++ d :: (t.takeWhile isNumberChar ++
      (t.dropWhile isNumberChar ++ x)) := by
    rw [← List.append_assoc (t.takeWhile _), List.takeWhile_append_dropWhile, List.append_assoc,
      List.cons_append]
  rw [htext]
  refine take?_numeral hsign hd (fun c hc => List.mem_takeWhile_imp hc) fun c cs hcs => ?_
  cases hmore : t.dropWhile isNumberChar with
  | nil =>
    rw [hmore, List.nil_append] at hcs
    exact hends c cs hcs
  | cons d' t' =>
    rw [hmore] at hcs
    obtain ⟨rfl, -⟩ := List.cons.inj hcs
    have hhead := List.head?_dropWhile_not isNumberChar t
    rw [hmore] at hhead
    simpa using hhead

theorem shownDefault_numeral (hsign : sign = [] ∨ sign = ['-']) (hd : d.isDigit = true) :
    shownDefault (sign ++ d :: t) = sign ++ d :: t.takeWhile isNumberChar := by
  rcases hsign with rfl | rfl
  · have hne : d ≠ '"' := by
      rintro rfl
      exact absurd hd (by decide)
    exact if_neg hne
  · have hd : isNumberChar d = true := by rw [isNumberChar, hd, Bool.true_or]
    simp [shownDefault, hd]

end

namespace OnLine

/-- **A default value on its line** is read as the line shows it. -/
theorem exists_default (h : OnLine text m line lead rest v b) (hname : m.name = "default_value")
    (hnode : m.node = .scalar spelling value) (htoken : (token? value).isSome = true) :
    ∃ l, DefaultLine.ofLine? line = some l ∧ l.token = shownDefault spelling := by
  have htake := h.take
  have hstands := h.stands
  rw [hname] at htake
  rw [hnode] at hstands
  rw [DefaultLine.ofLine?, defaultLead_eq, htake]
  cases hstands with
  | @text _ _ raw _ hvalue hcovers =>
    have hraw := (text?_takes hvalue).1
    obtain ⟨x, rfl, -⟩ := h.exists_rest (by simp [newline_notMem_of_isText hraw]) hcovers
    obtain ⟨behind, hquoted⟩ := exists_take?_quoted raw x
    simp only [hquoted, Option.map_some]
    refine ⟨_, rfl, DefaultLine.token_of_quotes (fun hmem => ?_) rfl⟩
    simpa using List.mem_takeWhile_imp hmem
  | atom hraw hatom hcovers =>
    obtain ⟨sign, d, t, rfl, hsign, hd⟩ := exists_digit_of_atom? hraw hatom htoken
    have hnewline : '\n' ∉ sign ++ d :: t := fun hmem => absurd (hraw _ hmem) (by decide)
    obtain ⟨x, rfl, more, hmore⟩ := h.exists_rest hnewline hcovers
    have hends : ∀ c cs, x = c :: cs → isNumberChar c = false := by
      rintro c cs rfl
      have hfollows := h.follows
      rw [← hmore] at hfollows
      exact isNumberChar_of_follows hfollows
    simp only [take?_numeral_append hsign hd hends, Option.map_some]
    have hquote : '"' ∉ sign ++ d :: t.takeWhile isNumberChar := fun hmem => by
      have hmem' : '"' ∈ sign ++ d :: t := by
        simp only [List.mem_append, List.mem_cons] at hmem ⊢
        exact hmem.imp_right (Or.imp_right fun hm => List.takeWhile_subset _ hm)
      exact absurd (hraw _ hmem') (by decide)
    exact ⟨_, rfl, (DefaultLine.token_of_notMem hquote).trans (shownDefault_numeral hsign hd).symm⟩

/-- Only a string or a number is read as a default value. -/
theorem isSome_token? (h : OnLine text m line lead rest v b) (hname : m.name = "default_value")
    (hread : (DefaultLine.ofLine? line).isSome = true) : (token? m.node.value).isSome = true := by
  have htake := h.take
  have hstands := h.stands
  rw [hname] at htake
  rw [DefaultLine.ofLine?, defaultLead_eq, htake] at hread
  simp only [Option.isSome_map] at hread
  obtain ⟨found, hfound⟩ := Option.isSome_iff_exists.1 hread
  obtain ⟨c, s, hrest, hc⟩ := head_of_defaultValue hfound
  obtain ⟨t, hv⟩ := h.exists_head hrest
  generalize m.node = node at hstands
  cases hstands with
  | text => rfl
  | @atom _ _ raw value hraw hatom hcovers =>
    cases raw with
    | nil => cases hatom
    | cons d raw =>
      obtain ⟨rfl, -⟩ := List.cons.inj (hcovers.1.symm.trans hv)
      have hquote : d ≠ '"' := ne_of_isAtomChar (hraw d List.mem_cons_self) rfl
      obtain ⟨x, rfl⟩ := exists_number_of_head hatom (hc.resolve_left hquote)
      rfl
  | list hopen =>
    obtain ⟨rfl, -⟩ := List.cons.inj (hopen.1.symm.trans hv)
    exact absurd hc (by decide)
  | object hopen =>
    obtain ⟨rfl, -⟩ := List.cons.inj (hopen.1.symm.trans hv)
    exact absurd hc (by decide)

/-- The line of a default value is written anew unless it shows the latest version. -/
theorem newDefault?_eq_none_iff {latest : String} (h : OnLine text m line lead rest v b)
    (hname : m.name = "default_value") (hnode : m.node = .scalar spelling value)
    (htoken : (token? value).isSome = true) :
    newDefault? latest line = none ↔ latest = "" ∨ shownDefault spelling = latest.toList := by
  obtain ⟨l, hl, hshown⟩ := h.exists_default hname hnode htoken
  rw [newDefault?, hl, ← hshown]
  simp [Decidable.imp_iff_not_or]

end OnLine

end VersionAlignment.Artifact.Catalog
