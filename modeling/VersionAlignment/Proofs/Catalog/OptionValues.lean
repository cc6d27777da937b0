import VersionAlignment.Proofs.Catalog.Editing
import VersionAlignment.Proofs.Catalog.Owners

/-!
# The values that the scan finds

The scan takes for the value of an option whatever stands in quotes behind a `value` in quotes and a
colon, on one line. In the text of a document that is a string as it is spelled, up to its first
quote, if it is the value of a member of that name, and the name, the colon and the string are on
one line. Nothing else in the text is taken for one: a string that is a value is followed by no
colon, and a name in which no quote stands does not end with what looks like another name.

## Results

* `readOptionValue_eq_some_iff`: what the scan takes for a value.
* `valuesIn_of_stands`: the values that it finds in the text of a value.
* `valuesOn_eq`: those that it finds on the lines of an array.
-/

set_option autoImplicit false

namespace VersionAlignment.Json.Node

/-- A value that is neither a list nor an object, as it is spelled. -/
def spelling? : Node → Option (List Char)
  | .scalar spelling _ => some spelling
  | _ => none

end VersionAlignment.Json.Node

namespace VersionAlignment.Artifact.Catalog

open Text Json

variable {s t u w x raw : List Char} {c : Char} {piece : List Char} {pieces : List (List Char)}
  {text d : List Char} {a b v : Spot} {n : Node} {m : Member Node}

/-! ## One value -/

theorem recognizes_optionValueLead :
    optionValueLead.Recognizes (namings (quoted "value") ['"']) :=
  recognizes_naming "\"value\"" rfl (by decide)

/-- **What the scan takes for a value.** -/
theorem readOptionValue_eq_some_iff : readOptionValue s = some (d, t) ↔ '"' ∉ d ∧
    ∃ u ∈ namings (quoted "value") ['"'], s = u ++ (d ++ '"' :: t) := by
  constructor
  · intro h
    rw [readOptionValue] at h
    split at h
    · cases h
    · next u rest hlead =>
      obtain ⟨hmem, rfl⟩ := (recognizes_optionValueLead _ _ _).1 hlead
      split at h
      · next more hmore =>
        cases h
        refine ⟨fun hquote => ?_, u, hmem, ?_⟩
        · simpa using List.mem_takeWhile_imp hquote
        · rw [← hmore, List.takeWhile_append_dropWhile]
      · cases h
  · rintro ⟨hd, u, hmem, rfl⟩
    have hne : ∀ c ∈ d, decide (c ≠ '"') = true := by
      intro c hc
      rw [decide_eq_true_eq]
      rintro rfl
      exact hd hc
    rw [readOptionValue, recognizes_optionValueLead.take?_append hmem]
    simp only [List.dropWhile_append_of_pos hne, List.takeWhile_append_of_pos hne]
    simp

theorem exists_of_readOptionValue {found : List Char × List Char}
    (h : readOptionValue s = some found) : ∃ between behind,
      (∀ c ∈ between, Text.isBlank c = true) ∧ (∀ c ∈ behind, Text.isBlank c = true) ∧
        s = quoted "value" ++
          (between ++ ':' :: (behind ++ '"' :: (found.1 ++ '"' :: found.2))) := by
  obtain ⟨-, u, hu, rfl⟩ := readOptionValue_eq_some_iff.1 h
  obtain ⟨between, behind, hbetween, hbehind, rfl⟩ := mem_namings.1 hu
  exact ⟨between, behind, hbetween, hbehind, by simp⟩

theorem readOptionValue_eq_none (h : ∀ more, s ≠ '"' :: 'v' :: more) :
    readOptionValue s = none := by
  rw [Option.eq_none_iff_forall_ne_some]
  intro found hfound
  obtain ⟨between, behind, -, -, rfl⟩ := exists_of_readOptionValue hfound
  exact h _ rfl

theorem readOptionValue_cons_of_ne (hc : c ≠ '"') (s : List Char) :
    readOptionValue (c :: s) = none := by
  refine readOptionValue_eq_none ?_
  rintro more ⟨⟩
  exact hc rfl

/-- Behind a quote that does not end it, the text of a string is one of a string. -/
theorem isText_behind_quote (h : IsText (s ++ '"' :: t)) : IsText t := by
  rw [IsText, scanText_append] at h
  obtain ⟨escaped, -, hquote⟩ := Option.bind_eq_some_iff.1 h
  cases escaped with
  | false => cases hquote
  | true => exact hquote

/-- Nothing is read from a place in a string, unless it ends with what looks like the name of a
value and is followed by what makes it one. -/
theorem readOptionValue_of_suffix (hraw : IsText raw) (hs : ∀ more, s ≠ 'v' :: more)
    (hname : '"' :: "value".toList <:+ '"' :: raw → readOptionValue (quoted "value" ++ s) = none)
    (hu : u <:+ '"' :: raw ++ ['"']) (hne : u ≠ []) : readOptionValue (u ++ s) = none := by
  rw [Option.eq_none_iff_forall_ne_some]
  intro found hfound
  obtain ⟨between, behind, -, -, hvalue⟩ := exists_of_readOptionValue hfound
  rcases List.suffix_concat_iff.1 hu with rfl | ⟨t, rfl, ht⟩
  · exact hne rfl
  · rw [List.append_assoc, List.singleton_append] at hvalue hfound
    cases t with
    | nil =>
      -- the quote that closes the string
      exact hs _ (List.cons.inj hvalue).2
    | cons c t =>
      obtain ⟨rfl, hrest⟩ := List.cons.inj hvalue
      have htext : IsText t := by
        rcases List.suffix_cons_iff.1 ht with heq | ⟨w, hw⟩
        · obtain ⟨-, rfl⟩ := List.cons.inj heq
          exact hraw
        · exact isText_behind_quote (hw ▸ hraw)
      have hvaluetext : IsText "value".toList := isText_plain (by decide)
      obtain rfl : t = "value".toList := eq_of_isText htext hvaluetext (by simpa using hrest)
      have hnone := hname ht
      rw [show quoted "value" ++ s = '"' :: "value".toList ++ '"' :: s by simp [quoted], hfound]
        at hnone
      cases hnone

/-! ## The values in a text -/

/-- The values that the scan finds on those of the lines that `on` picks. -/
def linesValues (on : Nat → Bool) : Nat → List (List Char) → List (List Char)
  | _, [] => []
  | n, line :: ls =>
    (if on n then hits readOptionValue line else []) ++ linesValues on (n + 1) ls

/-- The values that the scan finds from the spot on. -/
def valuesIn (on : Nat → Bool) (a : Spot) : List (List Char) :=
  linesValues on a.place.line (lines a.rest)

theorem lines_append (hu : '\n' ∉ u) (hs : lines s = piece :: pieces) :
    lines (u ++ s) = (u ++ piece) :: pieces := by
  obtain ⟨front, last, hfront, happend⟩ := exists_splitAt_append u hs
  rw [splitAt_of_notMem hu] at hfront
  obtain ⟨rfl, hlast⟩ := List.append_inj' (show [] ++ [u] = front ++ [last] from hfront) rfl
  cases hlast
  exact happend

theorem line_behind (p : Position) (hw : '\n' ∉ w) : (p.behind w).line = p.line := by
  induction w generalizing p with
  | nil => rfl
  | cons c w ih =>
    rw [List.mem_cons, not_or] at hw
    have hpast : p.past c = ⟨p.line, p.column + 1⟩ := if_neg (Ne.symm hw.1)
    exact (ih (p.past c) hw.2).trans (by rw [hpast])

section
variable {on : Nat → Bool}

/-- What is found in a text without line feeds. -/
theorem valuesIn_of_line {found : List (List Char)} (h : Covers w a b) (hw : '\n' ∉ w)
    (hhits : on a.place.line = true → ∀ piece, piece <+: b.rest → '\n' ∉ piece →
      hits readOptionValue (w ++ piece) = found ++ hits readOptionValue piece) :
    valuesIn on a = (if on a.place.line then found else []) ++ valuesIn on b := by
  obtain ⟨piece, pieces, hpieces⟩ := exists_splitAt_eq_cons '\n' b.rest
  have hline : b.place.line = a.place.line := by rw [h.2, line_behind _ hw]
  have hfeed : '\n' ∉ piece := not_mem_of_mem_splitAt (hpieces ▸ List.mem_cons_self)
  rw [valuesIn, valuesIn, h.1, lines_append hw hpieces, show lines b.rest = piece :: pieces from
    hpieces, linesValues, linesValues, hline]
  cases hon : on a.place.line with
  | true => simp [hhits hon piece (prefix_of_lines hpieces) hfeed]
  | false => rfl

/-- Where no quote stands, nothing is found. -/
theorem valuesIn_of_covers (h : Covers w a b) (hw : '"' ∉ w) : valuesIn on a = valuesIn on b := by
  induction w generalizing a with
  | nil => rw [eq_of_covers_nil h]
  | cons c w ih =>
    rw [List.mem_cons, not_or] at hw
    obtain ⟨m, hfirst, hmore⟩ := h.split
    rw [← ih hmore hw.2]
    by_cases hnewline : c = '\n'
    · have hline : m.place.line = a.place.line + 1 := by
        rw [hfirst.2, hnewline]
        rfl
      rw [valuesIn, valuesIn, hfirst.1, hnewline, lines, lines, List.singleton_append,
        splitAt_cons_self, linesValues, hits_nil, ite_self, hline, List.nil_append]
    · have hnone : ∀ piece, hits readOptionValue ([c] ++ piece) =
          [] ++ hits readOptionValue piece := fun piece =>
        hits_of_none (readOptionValue_cons_of_ne (Ne.symm hw.1) piece)
      have hsilent : valuesIn on a = (if on a.place.line then [] else []) ++ valuesIn on m :=
        valuesIn_of_line hfirst
          (List.not_mem_cons_of_ne_of_not_mem (Ne.symm hnewline) List.not_mem_nil)
          fun _ piece _ _ => hnone piece
      rwa [ite_self, List.nil_append] at hsilent

theorem valuesIn_of_blanks (h : Blanks a b) : valuesIn on a = valuesIn on b := by
  obtain ⟨w, hw, hcovers⟩ := h
  exact valuesIn_of_covers hcovers fun hmem => absurd (hw _ hmem) (by decide)

theorem valuesIn_of_lead {first : Bool} (h : Json.Lead first a b) :
    valuesIn on a = valuesIn on b := by
  cases h with
  | first h => exact valuesIn_of_blanks h
  | next hbefore hcomma hbehind =>
    rw [valuesIn_of_blanks hbefore, valuesIn_of_covers hcomma (by simp), valuesIn_of_blanks hbehind]

theorem newline_notMem_of_isText (hraw : IsText raw) : '\n' ∉ raw := by
  intro hmem
  obtain ⟨s, t, rfl⟩ := List.append_of_mem hmem
  rw [IsText, scanText_append] at hraw
  obtain ⟨escaped, -, hscan⟩ := Option.bind_eq_some_iff.1 hraw
  cases hscan

/-- A string in a text is silent. -/
theorem valuesIn_of_text (hraw : IsText raw) (h : Covers ('"' :: raw ++ ['"']) a b)
    (hb : ∀ more, b.rest ≠ 'v' :: more)
    (hname : on a.place.line = true → '"' :: "value".toList <:+ '"' :: raw →
      ∀ piece, piece <+: b.rest → '\n' ∉ piece →
        readOptionValue (quoted "value" ++ piece) = none) : valuesIn on a = valuesIn on b := by
  have hnewline : '\n' ∉ '"' :: raw ++ ['"'] := by simp [newline_notMem_of_isText hraw]
  have hnone : on a.place.line = true → ∀ piece, piece <+: b.rest → '\n' ∉ piece →
      hits readOptionValue ('"' :: raw ++ ['"'] ++ piece) =
        [] ++ hits readOptionValue piece := by
    intro hon piece hpiece hfeed
    refine hits_append_of_none fun u hu hne => ?_
    refine readOptionValue_of_suffix hraw ?_
      (fun hsuffix => hname hon hsuffix piece hpiece hfeed) hu hne
    rintro more rfl
    obtain ⟨rest, hrest⟩ := hpiece
    exact hb (more ++ rest) hrest.symm
  have hsilent := valuesIn_of_line h hnewline hnone
  rwa [ite_self, List.nil_append] at hsilent

/-- Behind a value stands nothing that makes it a name. -/
theorem not_value_of_follows (hs : Follows s) :
    (∀ more, s ≠ 'v' :: more) ∧ ∀ t, t <+: s → readOptionValue (quoted "value" ++ t) = none := by
  constructor
  · rintro more rfl
    rcases hs 'v' rfl with hv | hv | hv <;> exact absurd hv (by decide)
  · rintro t ⟨rest, rfl⟩
    rw [Option.eq_none_iff_forall_ne_some]
    intro found hfound
    obtain ⟨between, behind, hbetween, -, hvalue⟩ := exists_of_readOptionValue hfound
    rw [List.append_cancel_left hvalue, List.append_assoc, List.cons_append] at hs
    exact not_follows_of_colon hbetween _ hs

end

/-! ## Members on one line -/

/-- The member is named on its line as it is, and its value starts there too. -/
def OnOneLine (ls : List (List Char)) (m : Member Node) : Prop :=
  ∃ line ∈ ls[m.place.line]?, StartsMember m.name (line.drop m.place.column)

instance (ls : List (List Char)) (m : Member Node) : Decidable (OnOneLine ls m) :=
  inferInstanceAs (Decidable (∃ line ∈ _, _))

theorem exists_quote_of_memberStands (h : MemberStands a m b) :
    m.place = a.place ∧ ∃ rest, a.rest = '"' :: rest := by
  cases h with
  | mk hname _ =>
    obtain ⟨_, _, _, _, -, hquoted, -⟩ := hname
    exact ⟨rfl, _, hquoted.1⟩

/-- A member that is on one line, read off the line. -/
theorem OnOneLine.exists_lead (h : OnOneLine (lines text) m) (ha : SpotIn text a)
    (hm : MemberStands a m b) : ∃ (lead : List Char) (l : Lead m.name lead) (c : Char)
      (x : List Char) (pieces : List (List Char)), l.before = [] ∧ Text.isBlank c = false ∧
        lines a.rest = (lead ++ c :: x) :: pieces := by
  obtain ⟨line, hline, lead, c, x, ⟨l⟩, hc, hlead⟩ := h
  obtain ⟨hplace, rest, hrest⟩ := exists_quote_of_memberStands hm
  obtain ⟨s, piece, pieces, hpieces, hlength, hdrop⟩ := ha.exists_line
  rw [hplace] at hline hlead
  obtain rfl : line = s ++ piece :=
    Option.some.inj (hline.symm.trans (getElem?_of_drop hdrop).1)
  rw [← hlength, List.drop_left] at hlead
  subst hlead
  refine ⟨lead, l, c, x, pieces, ?_, hc, hpieces⟩
  -- the member starts with a quote
  obtain ⟨more, hmore⟩ := prefix_of_lines hpieces
  rw [hrest, l.text_eq] at hmore
  cases hbefore : l.before with
  | nil => rfl
  | cons d w =>
    rw [hbefore] at hmore
    have hd := l.isBlank_before d (by rw [hbefore]; exact List.mem_cons_self)
    obtain ⟨rfl, -⟩ := List.cons.inj hmore
    exact absurd hd (by decide)

theorem onOneLine_of_prefix {lead : List Char} (l : Lead m.name lead) (hc : Text.isBlank c = false)
    (ha : SpotIn text a) (hplace : m.place = a.place) (hnewline : '\n' ∉ lead ++ [c])
    (hstarts : lead ++ [c] <+: a.rest) : OnOneLine (lines text) m := by
  obtain ⟨rest, hrest⟩ := hstarts
  obtain ⟨s, piece, pieces, hpieces, hlength, hdrop⟩ := ha.exists_line
  obtain ⟨x, pieces', hx⟩ := exists_splitAt_eq_cons '\n' rest
  have hlines := lines_append hnewline hx
  rw [hrest, hpieces] at hlines
  obtain ⟨rfl, -⟩ := List.cons.inj hlines
  refine ⟨_, hplace ▸ (getElem?_of_drop hdrop).1, lead, c, x, ⟨l⟩, hc, ?_⟩
  rw [hplace, ← hlength, List.drop_left, List.append_assoc, List.singleton_append]

theorem Lead.eq_of_before {name : String} {lead : List Char} (l : Lead name lead)
    (hbefore : l.before = []) : lead = quoted name ++ (l.between ++ ':' :: l.behind) := by
  have htext := l.text_eq
  rwa [hbefore, List.nil_append] at htext

/-- **The value of a member that is on one line.** -/
theorem exists_value_of_line {lead : List Char} (l : Lead m.name lead) (hbefore : l.before = [])
    (hname : Json.IsPlain m.name.toList) (hm : MemberStands a m b) (hc : Text.isBlank c = false)
    (hlines : lines a.rest = (lead ++ c :: x) :: pieces) :
    ∃ v, Covers lead a v ∧ Stands v m.node b ∧ '\n' ∉ lead ∧ lines v.rest = (c :: x) :: pieces := by
  have hnewline : '\n' ∉ lead ++ c :: x :=
    not_mem_of_mem_splitAt (s := a.rest) (by rw [show splitAt '\n' a.rest = _ from hlines]; simp)
  have hnewline : '\n' ∉ lead := fun hmem => hnewline (List.mem_append_left _ hmem)
  obtain ⟨more, hmore⟩ := prefix_of_lines hlines
  have hlead := l.eq_of_before hbefore
  have htext : a.rest = '"' :: (m.name.toList ++ '"' :: (l.between ++ ':' ::
      (l.behind ++ c :: (x ++ more)))) := by
    rw [← hmore]
    exact (congrArg (· ++ c :: x ++ more) hlead).trans (by simp [quoted])
  obtain ⟨-, v, -, hrest, hvalue, hplace⟩ := exists_value_of_text hm (isText_plain hname)
    l.isBlank_between l.isBlank_behind hc htext
  have hcovers : Covers lead a v := by
    refine ⟨?_, ?_⟩
    · rw [← hmore, hrest]
      simp
    · rw [hplace]
      exact congrArg a.place.behind (hlead.trans (by simp [quoted])).symm
  refine ⟨v, hcovers, hvalue, hnewline, ?_⟩
  obtain ⟨piece, pieces', hv⟩ := exists_splitAt_eq_cons '\n' v.rest
  have happend := lines_append hnewline hv
  rw [← hcovers.1, hlines] at happend
  obtain ⟨hpiece, rfl⟩ := List.cons.inj happend
  rw [show lines v.rest = piece :: pieces from hv, List.append_cancel_left hpiece]

/-! ## What the lines show of a document -/

/-- What a line shows of a member as the value of an option: the text behind the quote with which
the value starts, up to the next quote. -/
def shownValue? (ls : List (List Char)) (m : Member Node) : Option (List Char) :=
  match m.node with
  | .scalar ('"' :: s) _ =>
    if m.name = "value" ∧ OnOneLine ls m then some (s.takeWhile (· ≠ '"')) else none
  | _ => none

/-- What the lines that `on` picks show of the members. -/
def shownValues (ls : List (List Char)) (on : Nat → Bool) (ms : List (Member Node)) :
    List (List Char) :=
  (ms.filter fun m => on m.place.line).filterMap (shownValue? ls)

section
variable {ls : List (List Char)} {on : Nat → Bool} {ms ms' : List (Member Node)}

theorem shownValues_cons (m : Member Node) (ms : List (Member Node)) :
    shownValues ls on (m :: ms) =
      (if on m.place.line then (shownValue? ls m).toList else []) ++ shownValues ls on ms := by
  rw [shownValues, List.filter_cons]
  cases on m.place.line with
  | false => rfl
  | true =>
    rw [if_pos rfl, if_pos rfl, List.filterMap_cons]
    cases shownValue? ls m <;> rfl

theorem shownValues_append : shownValues ls on (ms ++ ms') =
    shownValues ls on ms ++ shownValues ls on ms' := by
  rw [shownValues, List.filter_append, List.filterMap_append]
  rfl

theorem shownValue?_eq_some (h : shownValue? ls m = some d) :
    m.name = "value" ∧ OnOneLine ls m ∧ ∃ s v, m.node = .scalar ('"' :: s) v ∧
      d = s.takeWhile (· ≠ '"') := by
  rw [shownValue?.eq_def] at h
  split at h
  · next s v hnode =>
    split at h
    · next hshown =>
      cases h
      exact ⟨hshown.1, hshown.2, s, v, hnode, rfl⟩
    · cases h
  · cases h

/-- A string in the text, up to its first quote and behind it. -/
theorem exists_takeWhile_quote (s t : List Char) :
    ∃ rest, s ++ '"' :: t = (s ++ ['"']).takeWhile (· ≠ '"') ++ '"' :: rest ∧
      (rest = t ∨ ∃ r, s = (s ++ ['"']).takeWhile (· ≠ '"') ++ '"' :: r ∧
        rest = r ++ '"' :: t) := by
  by_cases hquote : '"' ∈ s
  · obtain ⟨d, r, rfl, hd⟩ := List.eq_append_cons_of_mem hquote
    have htake : (d ++ '"' :: r ++ ['"']).takeWhile (· ≠ '"') = d := by
      rw [List.append_assoc, List.takeWhile_append_of_pos, List.cons_append,
        List.takeWhile_cons_of_neg (by simp), List.append_nil]
      intro c hc
      have hne : c ≠ '"' := by
        rintro rfl
        exact hd hc
      simpa using hne
    rw [htake]
    exact ⟨r ++ '"' :: t, by simp, .inr ⟨r, rfl, rfl⟩⟩
  · have htake : (s ++ ['"']).takeWhile (· ≠ '"') = s := by
      rw [List.takeWhile_append_of_pos, List.takeWhile_cons_of_neg (by simp), List.append_nil]
      intro c hc
      have hne : c ≠ '"' := by
        rintro rfl
        exact hquote hc
      simpa using hne
    rw [htake]
    exact ⟨t, rfl, .inl rfl⟩

end

section
variable {on : Nat → Bool}

/-- A string is found behind the name of a value, up to its first quote, and nothing else in it. -/
theorem hits_namedValue {lead : List Char} (hlead : lead ++ ['"'] ∈ namings (quoted "value") ['"'])
    (hraw : IsText raw) (hv : ∀ more, piece ≠ 'v' :: more)
    (hcolon : readOptionValue (quoted "value" ++ piece) = none) :
    hits readOptionValue (lead ++ ('"' :: raw ++ ['"']) ++ piece) =
      [(raw ++ ['"']).takeWhile (· ≠ '"')] ++ hits readOptionValue piece := by
  obtain ⟨rest, hsplit, hrest⟩ := exists_takeWhile_quote raw piece
  have hread : readOptionValue (lead ++ ('"' :: raw ++ ['"']) ++ piece) =
      some ((raw ++ ['"']).takeWhile (· ≠ '"'), rest) := by
    refine readOptionValue_eq_some_iff.2 ⟨fun hmem => ?_, lead ++ ['"'], hlead, ?_⟩
    · simpa using List.mem_takeWhile_imp hmem
    · rw [← hsplit]
      simp
  have hlength : rest.length < (lead ++ ('"' :: raw ++ ['"']) ++ piece).length := by
    have := congrArg List.length hsplit
    simp only [List.length_append, List.length_cons, List.length_nil] at this ⊢
    omega
  rw [hits_of_some hread hlength, List.singleton_append, List.cons.injEq]
  refine ⟨rfl, ?_⟩
  rcases hrest with rfl | ⟨r, hr, rfl⟩
  · rfl
  · -- the rest of the string behind an escaped quote
    have hsuffix : r ++ ['"'] <:+ '"' :: raw ++ ['"'] := by
      refine ⟨'"' :: (raw ++ ['"']).takeWhile (· ≠ '"') ++ ['"'], ?_⟩
      conv_rhs => rw [hr]
      simp
    have hnone : ∀ u, u <:+ r ++ ['"'] → u ≠ [] → readOptionValue (u ++ piece) = none :=
      fun u hu hne => readOptionValue_of_suffix hraw hv (fun _ => hcolon) (hu.trans hsuffix) hne
    have hhits := hits_append_of_none hnone
    rwa [List.append_assoc, List.singleton_append] at hhits

/-- The value of an option is found. -/
theorem valuesIn_of_shown (ha : SpotIn text a) (hm : MemberStands a m b) (hb : Follows b.rest)
    (hshown : shownValue? (lines text) m = some d) :
    valuesIn on a = (if on a.place.line then [d] else []) ++ valuesIn on b := by
  obtain ⟨hname, hline, s, value, hnode, rfl⟩ := shownValue?_eq_some hshown
  have hnameplain : Json.IsPlain m.name.toList := by
    rw [hname]
    decide
  obtain ⟨lead, l, c, x, pieces, hbefore, hc, hlines⟩ := hline.exists_lead ha hm
  obtain ⟨v, hcovers, hstands, hnewline, -⟩ :=
    exists_value_of_line l hbefore hnameplain hm hc hlines
  rw [hnode] at hstands
  obtain ⟨raw, rfl, hraw, htext⟩ : ∃ raw, s = raw ++ ['"'] ∧ IsText raw ∧
      Covers ('"' :: raw ++ ['"']) v b := by
    cases hstands with
    | text hvalue htext => exact ⟨_, rfl, (text?_takes hvalue).1, htext⟩
    | atom hraw _ _ => exact absurd (hraw '"' List.mem_cons_self) (by decide)
  have hlead : lead ++ ['"'] ∈ namings (quoted "value") ['"'] := by
    refine mem_namings.2 ⟨l.between, l.behind, l.isBlank_between, l.isBlank_behind, ?_⟩
    exact (congrArg (· ++ ['"']) (l.eq_of_before hbefore)).trans (by simp [hname])
  have hfeed : '\n' ∉ lead ++ ('"' :: raw ++ ['"']) := by
    simp [hnewline, newline_notMem_of_isText hraw]
  obtain ⟨hv, hcolon⟩ := not_value_of_follows hb
  refine valuesIn_of_line (hcovers.trans htext) hfeed fun _ piece hpiece _ =>
    hits_namedValue hlead hraw ?_ (hcolon piece hpiece)
  rintro more rfl
  obtain ⟨more', hmore⟩ := hpiece
  exact hv _ hmore.symm

/-- **What reads like the value of an option** is shown by its line as one. -/
theorem isSome_shownValue? {more : List Char} (ha : SpotIn text a) (hm : MemberStands a m b)
    (htext : a.rest = quoted "value" ++ (piece ++ more)) (hpiece : '\n' ∉ piece)
    (hread : (readOptionValue (quoted "value" ++ piece)).isSome = true) :
    (shownValue? (lines text) m).isSome = true := by
  obtain ⟨found, hfound⟩ := Option.isSome_iff_exists.1 hread
  obtain ⟨between, behind, hbetween, hbehind, hfront⟩ := exists_of_readOptionValue hfound
  rw [List.append_cancel_left hfront] at htext hpiece
  have hrest : a.rest = '"' :: ("value".toList ++ '"' :: (between ++ ':' :: (behind ++ '"' ::
      (found.1 ++ '"' :: (found.2 ++ more))))) := by
    rw [htext]
    simp [quoted]
  obtain ⟨hname, v, -, hv, hvalue, -⟩ := exists_value_of_text (c := '"') hm
    (isText_plain (by decide)) hbetween hbehind (by decide) hrest
  rw [text?_plain (by decide)] at hname
  have hname : m.name = "value" := (Option.some.inj hname).symm
  obtain ⟨raw, s, -, hnode, -⟩ := exists_text_of_stands hvalue hv
  have l : Lead m.name (quoted "value" ++ (between ++ ':' :: behind)) :=
    ⟨[], between, behind, by simp, hbetween, hbehind, by rw [hname]; rfl⟩
  have hline : OnOneLine (lines text) m := by
    refine onOneLine_of_prefix l (c := '"') (by decide) ha (exists_quote_of_memberStands hm).1 ?_ ?_
    · simp only [List.mem_append, List.mem_cons, not_or] at hpiece
      simp [quoted, hpiece.1, hpiece.2.2.1]
    · rw [htext]
      exact ⟨found.1 ++ '"' :: (found.2 ++ more), by simp⟩
  rw [shownValue?, hnode]
  simp [hname, hline]

/-- The name of a member is silent, unless its line shows it as the value of an option. -/
theorem valuesIn_of_name (ha : SpotIn text a) (hname : NameStands a m.name v)
    (hvalue : Stands v m.node b) (hplace : m.place = a.place)
    (hquote : on m.place.line = true → '"' ∉ m.name.toList)
    (hnone : shownValue? (lines text) m = none) : valuesIn on a = valuesIn on v := by
  have hm : MemberStands a m b := by
    obtain ⟨name, place, n⟩ := m
    obtain rfl : place = a.place := hplace
    exact .mk hname hvalue
  obtain ⟨raw, c, d, e, hraw, hquoted, hbefore, hcolon, hbehind⟩ := hname
  have hsilent : valuesIn on a = valuesIn on c := by
    refine valuesIn_of_text (text?_takes hraw).1 hquoted ?_ fun hon hsuffix piece hpiece hfeed => ?_
    · intro more hmore
      obtain ⟨w, hw, hrest, -⟩ := hbefore
      rw [hcolon.1, hmore] at hrest
      cases w with
      | nil => exact absurd (List.cons.inj hrest).1 (by decide)
      | cons f w =>
        have hf := hw f List.mem_cons_self
        rw [← (List.cons.inj hrest).1] at hf
        exact absurd hf (by decide)
    · obtain rfl : raw = "value".toList := by
        rcases List.suffix_cons_iff.1 hsuffix with heq | hsuffix
        · exact (List.cons.inj heq).2.symm
        · exact absurd (quote_mem_of_text? hraw (hsuffix.subset List.mem_cons_self))
            (hquote (hplace ▸ hon))
      obtain ⟨more, hmore⟩ := hpiece
      have htext : a.rest = quoted "value" ++ (piece ++ more) := by
        rw [hquoted.1, hmore]
        rfl
      rw [← Option.not_isSome_iff_eq_none]
      intro hread
      have hshown := isSome_shownValue? ha hm htext hfeed hread
      rw [hnone] at hshown
      cases hshown
  rw [hsilent, valuesIn_of_blanks hbefore, valuesIn_of_covers hcolon (by simp),
    valuesIn_of_blanks hbehind]

mutual

/-- **The values in the text of a value** are those that its lines show of its members. -/
theorem valuesIn_of_stands {a b : Spot} {n : Node} : Stands a n b → SpotIn text a →
    Follows b.rest → (∀ m ∈ n.members, on m.place.line = true → '"' ∉ m.name.toList) →
      valuesIn on a = shownValues (lines text) on n.members ++ valuesIn on b
  | .text hvalue htext, _, hb, _ =>
    valuesIn_of_text (text?_takes hvalue).1 htext (not_value_of_follows hb).1
      fun _ _ piece hpiece _ => (not_value_of_follows hb).2 piece hpiece
  | .atom hraw _ htext, _, _, _ =>
    valuesIn_of_covers htext fun hmem => absurd (hraw _ hmem) (by decide)
  | .list hopen hitems hclose, ha, _, hms => by
    have hitems := valuesIn_of_items hitems (ha.reaches hopen.reaches)
      (follows_of_covers (by simp) hclose) hms
    rw [valuesIn_of_covers hopen (by simp), hitems, valuesIn_of_covers hclose (by simp),
      Node.members]
  | .object hopen hentries hclose, ha, _, hms => by
    have hentries := valuesIn_of_members hentries (ha.reaches hopen.reaches)
      (follows_of_covers (by simp) hclose) hms
    rw [valuesIn_of_covers hopen (by simp), hentries, valuesIn_of_covers hclose (by simp),
      Node.members]

theorem valuesIn_of_items {a b : Spot} {first : Bool} {ns : List Node} :
    Entries Stands first a ns b → SpotIn text a → Follows b.rest →
      (∀ m ∈ Node.itemsMembers ns, on m.place.line = true → '"' ∉ m.name.toList) →
      valuesIn on a = shownValues (lines text) on (Node.itemsMembers ns) ++ valuesIn on b
  | .nil h, _, _, _ => valuesIn_of_blanks h
  | .cons hlead hitem hmore, ha, hb, hms => by
    rw [Node.itemsMembers, List.forall_mem_append] at hms
    have hentry := ha.reaches hlead.reaches
    rw [valuesIn_of_lead hlead, valuesIn_of_stands hitem hentry (follows_of_entries hmore hb) hms.1,
      valuesIn_of_items hmore (hentry.reaches hitem.reaches) hb hms.2, Node.itemsMembers,
      shownValues_append, List.append_assoc]

theorem valuesIn_of_members {a b : Spot} {first : Bool} {ms : List (Member Node)} :
    Entries MemberStands first a ms b → SpotIn text a → Follows b.rest →
      (∀ m ∈ Node.ownMembers ms, on m.place.line = true → '"' ∉ m.name.toList) →
      valuesIn on a = shownValues (lines text) on (Node.ownMembers ms) ++ valuesIn on b
  | .nil h, _, _, _ => valuesIn_of_blanks h
  | .cons hlead (.mk hname hvalue) hmore, ha, hb, hms => by
    rename_i c _ name n _ _
    rw [Node.ownMembers, List.forall_mem_cons, List.forall_mem_append] at hms
    obtain ⟨hfirst, hinner, hrest⟩ := hms
    have hentry := ha.reaches hlead.reaches
    have hinside := hentry.reaches hname.reaches
    have hfollows := follows_of_entries hmore hb
    have hmore := valuesIn_of_members hmore (hinside.reaches hvalue.reaches) hb hrest
    rw [valuesIn_of_lead hlead, Node.ownMembers, shownValues_cons, shownValues_append]
    cases hshown : shownValue? (lines text) ⟨name, c.place, n⟩ with
    | some d =>
      have hscalar : n.members = [] := by
        obtain ⟨-, -, s, v, hnode, -⟩ := shownValue?_eq_some hshown
        obtain rfl : n = .scalar ('"' :: s) v := hnode
        rfl
      rw [valuesIn_of_shown hentry (.mk hname hvalue) hfollows hshown, hmore, hscalar]
      simp [shownValues]
    | none =>
      rw [valuesIn_of_name (m := ⟨name, c.place, n⟩) hentry hname hvalue rfl hfirst hshown,
        valuesIn_of_stands hvalue hinside hfollows hinner, hmore]
      simp

end

end

/-! ## The values on lines -/

/-- The lines from `first` to `last`. -/
def within (first last : Nat) (n : Nat) : Bool := first ≤ n && n ≤ last

theorem linesValues_within (first last n : Nat) (ls : List (List Char)) :
    linesValues (within first last) n ls =
      ((ls.take (last + 1 - n)).drop (first - n)).flatMap (hits readOptionValue) := by
  induction ls generalizing n with
  | nil => simp [linesValues]
  | cons line ls ih =>
    rw [linesValues, ih, within]
    rcases Nat.lt_or_ge last n with hlast | hlast
    · have hzero : last + 1 - n = 0 := by omega
      have hzero' : last + 1 - (n + 1) = 0 := by omega
      rw [hzero, hzero']
      simp [Nat.not_le.2 hlast]
    have hsucc : last + 1 - n = last + 1 - (n + 1) + 1 := by omega
    rw [hsucc, List.take_succ_cons]
    rcases Nat.lt_or_ge n first with hfirst | hfirst
    · have hsucc' : first - n = first - (n + 1) + 1 := by omega
      rw [hsucc', List.drop_succ_cons]
      simp [Nat.not_le.2 hfirst]
    · have hzero : first - n = 0 := by omega
      have hzero' : first - (n + 1) = 0 := by omega
      rw [hzero, hzero', List.drop_zero, List.drop_zero, List.flatMap_cons]
      simp [hfirst, hlast]

/-- What the lines from `first` to `last` show of a document. -/
def shownOn (ls : List (List Char)) (doc : Node) (first last : Nat) : List String :=
  (shownValues ls (within first last) doc.members).map String.ofList

/-- **The values that the scan finds on lines** are those that the lines show of the document, if no
quote stands in the names on them. -/
theorem valuesOn_eq {doc : Node} {first last : Nat} (h : StandsIn text doc)
    (hnames : ∀ m ∈ doc.members, within first last m.place.line = true → '"' ∉ m.name.toList) :
    valuesOn (lines text) first last = shownOn (lines text) doc first last := by
  obtain ⟨a, b, finish, hbefore, hstands, hbehind⟩ := h
  have hfollows : Follows b.rest := follows_of_blanks hbehind fun d hd => by cases hd
  have hvalues := (valuesIn_of_blanks hbefore).trans
    (valuesIn_of_stands hstands hbefore.reaches hfollows hnames)
  have hnil : valuesIn (within first last) ⟨finish, []⟩ = [] := by
    simp [valuesIn, lines, splitAt, linesValues, hits_nil]
  rw [valuesIn_of_blanks hbehind, hnil, List.append_nil, valuesIn, linesValues_within] at hvalues
  have hrange : ((lines text).drop first).take (last + 1 - first) =
      ((lines text).take (last + 1)).drop first := by
    rw [List.take_drop]
    rcases Nat.le_total first (last + 1) with hle | hle
    · rw [Nat.add_sub_cancel' hle]
    · rw [List.drop_eq_nil_of_le, List.drop_eq_nil_of_le] <;> rw [List.length_take] <;> omega
  rw [shownOn, ← hvalues, valuesOn, OptionsBlock.values, hrange]
  exact List.map_flatMap.symm

end VersionAlignment.Artifact.Catalog
