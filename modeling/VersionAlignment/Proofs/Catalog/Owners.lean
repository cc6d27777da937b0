import VersionAlignment.Proofs.Catalog.Structure
import VersionAlignment.Proofs.Json.Standing
import VersionAlignment.Proofs.Text.Dissection

/-!
# The objects that own the key

An object owns the key of a field if one of its own members is named `key` and has the field as its
value. The scan knows no members. It takes the first text on each line that reads like such a
member, and marks the innermost object that is open there. In a document the two go together: where
the scan finds the text, a member of that name starts, and the object that is open innermost is the
one that the member stands in. So the lines that the scan finds are those of the objects that have a
member at such a place (`exists_owningSpans_eq`), in the order in which the objects are closed.

That is less than all owners. A member is not found if its name or its value is spelled with an
escape, or if they are not on one line, or if another one like it stands before it on the line
(`NamesKey`).

## Results

* `runs_of_stands`: the scan over one value.
* `mem_owningSpans_iff`: the lines that the scan finds in a document.
* `any_holds_iff`: they are those of the objects in which the key is named.
* `OnNamed.onOwner`: these own the key.
-/

set_option autoImplicit false

open scoped Computability

namespace VersionAlignment.Artifact.Catalog

open Text Json

/-! ## The text of a member -/

section
variable {a b : Spot} {n : Node} {m : Member Node} {name s t x y : List Char} {c : Char}

/-- The text has neither quotes nor backslashes. -/
def IsUnescaped (s : List Char) : Prop := ∀ c ∈ s, c ≠ '"' ∧ c ≠ '\\'

instance (s : List Char) : Decidable (IsUnescaped s) := List.decidableBAll _ s

/-- Two strings are the same if each is followed by its quote. -/
theorem eq_of_isText (hs : IsText s) (ht : IsText t) (h : s ++ '"' :: x = t ++ '"' :: y) :
    s = t := by
  have hback : ∀ {s t w : List Char}, IsText s → IsText t → t = s ++ w → w.head? ≠ some '"' := by
    rintro s t (_ | ⟨c, w⟩) hs ht rfl hhead
    · cases hhead
    · cases hhead
      rw [IsText, scanText_append, hs] at ht
      cases ht
  rcases List.append_eq_append_iff.1 h with ⟨w, hw, hrest⟩ | ⟨w, hw, hrest⟩
  · cases w with
    | nil => simpa using hw.symm
    | cons c w =>
      cases hrest
      exact absurd rfl (hback hs ht hw)
  · cases w with
    | nil => simpa using hw
    | cons c w =>
      cases hrest
      exact absurd rfl (hback ht hs hw)

theorem isBlank_of_cursor (h : Cursor.isBlank c = true) : Text.isBlank c = true := by
  simp only [Cursor.isBlank, Bool.or_eq_true, decide_eq_true_eq] at h
  rcases h with ((rfl | rfl) | rfl) | rfl <;> decide

theorem scanText_cons_of_ne {escaped : Bool} (hquote : c ≠ '"') (hslash : c ≠ '\\')
    (h : scanText false (c :: s) = some escaped) :
    isControl c = false ∧ scanText false s = some escaped := by
  have hslash : (c == '\\') = false := beq_eq_false_iff_ne.2 hslash
  rw [scanText] at h
  split at h
  · cases h
  · next hcontrol => exact ⟨Bool.eq_false_iff.2 hcontrol, by simpa [hquote, hslash] using h⟩

/-- Without quotes and backslashes, the characters of a string are their own spelling. -/
theorem isPlain_of_scanText {escaped : Bool} (hs : IsUnescaped s)
    (h : scanText false s = some escaped) : Json.IsPlain s ∧ escaped = false := by
  induction s with
  | nil => exact ⟨by simp [Json.IsPlain], (Option.some.inj h).symm⟩
  | cons c s ih =>
    obtain ⟨⟨hquote, hslash⟩, hs⟩ := List.forall_mem_cons.1 hs
    obtain ⟨hcontrol, hmore⟩ := scanText_cons_of_ne hquote hslash h
    obtain ⟨hplain, hescaped⟩ := ih hs hmore
    exact ⟨List.forall_mem_cons.2 ⟨⟨hcontrol, hquote, hslash⟩, hplain⟩, hescaped⟩

/-- A value that starts with a quote is a string. -/
theorem exists_text_of_stands (h : Stands a n b) (htext : a.rest = '"' :: x) :
    ∃ raw s, text? raw = some s ∧ n = .scalar ('"' :: raw ++ ['"']) (.string s) ∧
      Covers ('"' :: raw ++ ['"']) a b := by
  cases h with
  | text hvalue hcovers => exact ⟨_, _, hvalue, rfl, hcovers⟩
  | @atom _ _ raw _ hraw hvalue hcovers =>
    cases raw with
    | nil => cases hvalue
    | cons c raw =>
      have hstart := hcovers.1.symm.trans htext
      obtain ⟨rfl, -⟩ := List.cons.inj hstart
      exact absurd (hraw '"' List.mem_cons_self) (by decide)
  | list hopen => exact absurd (List.cons.inj (hopen.1.symm.trans htext)).1 (by decide)
  | object hopen => exact absurd (List.cons.inj (hopen.1.symm.trans htext)).1 (by decide)

/-- **A string without escapes, read off the text.** -/
theorem eq_of_stands_quoted (hs : IsUnescaped s) (h : Stands a n b)
    (htext : a.rest = '"' :: (s ++ '"' :: x)) :
    n = .scalar ('"' :: s ++ ['"']) (.string (String.ofList s)) ∧ Json.IsPlain s ∧ b.rest = x := by
  obtain ⟨raw, text, hvalue, rfl, hcovers⟩ := exists_text_of_stands h htext
  have hraw := (text?_takes hvalue).1
  have hquotes : raw ++ '"' :: b.rest = s ++ '"' :: x := by
    have hstart := hcovers.1.symm.trans htext
    simpa using hstart
  have hsame : raw = s := by
    rcases List.append_eq_append_iff.1 hquotes with ⟨w, rfl, hw⟩ | ⟨w, rfl, hw⟩
    · cases w with
      | nil => rw [List.append_nil]
      | cons d w =>
        obtain ⟨rfl, -⟩ := List.cons.inj hw
        exact absurd rfl (hs '"' (by simp)).1
    · cases w with
      | nil => rw [List.append_nil]
      | cons d w =>
        -- a quote that no backslash stands before ends the string
        obtain ⟨rfl, -⟩ := List.cons.inj hw
        rw [IsText, scanText_append] at hraw
        obtain ⟨escaped, hscan, hrest⟩ := Option.bind_eq_some_iff.1 hraw
        rw [(isPlain_of_scanText hs hscan).2] at hrest
        cases hrest
  subst hsame
  have hplain := (isPlain_of_scanText hs hraw).1
  have htext := text?_plain (s := String.ofList raw) (by rwa [String.toList_ofList])
  rw [String.toList_ofList, hvalue] at htext
  exact ⟨by rw [Option.some.inj htext], hplain,
    (List.cons.inj (List.append_cancel_left hquotes)).2⟩

/-- A value starts with no blank of any kind. -/
theorem exists_head_of_stands (h : Stands a n b) :
    ∃ c s, a.rest = c :: s ∧ Text.isBlank c = false := by
  cases h with
  | text _ htext => exact ⟨_, _, htext.1, by decide⟩
  | list hopen => exact ⟨_, _, hopen.1, by decide⟩
  | object hopen => exact ⟨_, _, hopen.1, by decide⟩
  | @atom _ _ raw v hraw hvalue htext =>
    cases raw with
    | nil => cases hvalue
    | cons c raw =>
      refine ⟨c, raw ++ b.rest, htext.1, ?_⟩
      have hatom := hraw c List.mem_cons_self
      cases hc : Text.isBlank c with
      | false => rfl
      | true => rw [not_isAtomChar_of_isBlank hc] at hatom; cases hatom

/-- **A member, read off the text**: a name, a colon and a value, with blanks of any kind around the
colon. -/
theorem exists_value_of_text {between behind : List Char} (h : MemberStands a m b)
    (hname : IsText name) (hbetween : ∀ d ∈ between, Text.isBlank d = true)
    (hbehind : ∀ d ∈ behind, Text.isBlank d = true) (hc : Text.isBlank c = false)
    (htext : a.rest = '"' :: (name ++ '"' :: (between ++ ':' :: (behind ++ c :: x)))) :
    text? name = some m.name ∧ ∃ v, a.Reaches v ∧ v.rest = c :: x ∧ Stands v m.node b ∧
      v.place = a.place.behind ('"' :: (name ++ '"' :: (between ++ ':' :: behind))) := by
  cases h with
  | mk hnamed hvalue =>
    obtain ⟨raw, a₁, a₂, a₃, hraw, hquoted, ⟨w, hw, hbefore⟩, hcolon, ⟨w', hw', hlast⟩⟩ := hnamed
    have hblank : ∀ {w : List Char}, (∀ d ∈ w, Cursor.isBlank d = true) →
        ∀ d ∈ w, Text.isBlank d = true := fun hw d hd => isBlank_of_cursor (hw d hd)
    have hrest : raw ++ '"' :: a₁.rest =
        name ++ '"' :: (between ++ ':' :: (behind ++ c :: x)) := by
      have hstart := hquoted.1.symm.trans htext
      simpa using hstart
    obtain rfl := eq_of_isText (text?_takes hraw).1 hname hrest
    have hbehindName := (List.cons.inj (List.append_cancel_left hrest)).2
    rw [hbefore.1, hcolon.1] at hbehindName
    obtain ⟨rfl, hbehindColon⟩ := run_append_unique (hblank hw) hbetween ⟨':', _, rfl, by decide⟩
      ⟨':', _, rfl, by decide⟩ hbehindName
    have hbehindColon : a₃.rest = behind ++ c :: x := (List.cons.inj hbehindColon).2
    rw [hlast.1] at hbehindColon
    obtain ⟨rfl, hstarts⟩ := run_append_unique (hblank hw') hbehind (exists_head_of_stands hvalue)
      ⟨c, _, rfl, hc⟩ hbehindColon
    have hcovers := hquoted.trans (hbefore.trans (hcolon.trans hlast))
    refine ⟨hraw, _, hcovers.reaches, hstarts, hvalue, ?_⟩
    rw [hcovers.2]
    simp

end

/-! ## The texts of the key -/

/-- The texts of a name and of what its value starts with, with blanks of any kind around the
colon. -/
def namings (name value : List Char) : Language Char :=
  {name} * (runsOf Text.isBlank * ({[':']} * (runsOf Text.isBlank * {value})))

theorem mem_namings {name value t : List Char} : t ∈ namings name value ↔ ∃ between behind,
    (∀ d ∈ between, Text.isBlank d = true) ∧ (∀ d ∈ behind, Text.isBlank d = true) ∧
      t = name ++ (between ++ ':' :: (behind ++ value)) := by
  simp only [namings, Language.mem_mul, mem_word, mem_runsOf]
  constructor
  · rintro ⟨_, rfl, _, ⟨between, hbetween, _, ⟨_, rfl, _, ⟨behind, hbehind, _, rfl, rfl⟩, rfl⟩,
      rfl⟩, rfl⟩
    exact ⟨between, behind, hbetween, hbehind, rfl⟩
  · rintro ⟨between, behind, hbetween, hbehind, rfl⟩
    exact ⟨_, rfl, _, ⟨between, hbetween, _, ⟨_, rfl, _, ⟨behind, hbehind, _, rfl, rfl⟩, rfl⟩,
      rfl⟩, rfl⟩

theorem recognizes_naming (name : String) {value : String} {c : Char} {w : List Char}
    (hvalue : value.toList = c :: w) (hc : Text.isBlank c = false) :
    (Shape.word name ++ .blanks ++ .word ":" ++ .blanks ++ .word value).Recognizes
      (namings name.toList value.toList) := by
  have hword := Shape.recognizes_word value
  rw [hvalue] at hword ⊢
  have hbehind := Shape.recognizes_run_append (p := Text.isBlank) hword (startsOutside_word hc)
  have hcolon := (Shape.recognizes_word ":").append hbehind
  have hbetween := Shape.recognizes_run_append (p := Text.isBlank) hcolon
    (StartsOutside.mul (startsOutside_word (by decide)))
  have hall := (Shape.recognizes_word name).append hbetween
  rw [Shape.append_assoc, Shape.append_assoc, Shape.append_assoc]
  exact hall

/-- The texts of a member that names the field as its object's key. -/
def keyMembers (field : String) : Language Char := namings (quoted "key") (quoted field)

theorem recognizes_keyMember (field : String) :
    (keyMember field).Recognizes (keyMembers field) := by
  have hfield : ("\"" ++ field ++ "\"").toList = quoted field := by simp [quoted]
  have hnaming := recognizes_naming "\"key\"" hfield (by decide)
  rwa [hfield] at hnaming

section
variable {field : String} {s t text : List Char} {ls : List (List Char)} {p : Position}
  {a b : Spot} {m : Member Node}

theorem isSome_keyMember_iff :
    ((keyMember field).take? s).isSome = true ↔ ∃ t ∈ keyMembers field, t <+: s := by
  rw [Option.isSome_iff_exists]
  constructor
  · rintro ⟨⟨t, r⟩, htake⟩
    exact ⟨t, (recognizes_keyMember field).mem htake,
      ⟨r, (keyMember field).append_of_take? htake⟩⟩
  · rintro ⟨t, ht, r, rfl⟩
    exact ⟨_, (recognizes_keyMember field).take?_append ht r⟩

/-- At the place stands the first text on the line that names the field as a key. -/
structure NamesKey (field : String) (ls : List (List Char)) (p : Position) : Prop where
  names : ∃ line ∈ ls[p.line]?, ∃ t ∈ keyMembers field, t <+: line.drop p.column
  first : ∀ line ∈ ls[p.line]?, ∀ i < p.column, ∀ t ∈ keyMembers field, ¬ t <+: line.drop i

/-- **The first key on a line** is the one that the scan takes. -/
theorem keyHit_eq_true_iff : keyHit field ls p = true ↔ NamesKey field ls p := by
  rw [keyHit, decide_eq_true_eq, firstHit?_eq_some_iff]
  simp only [isSome_keyMember_iff, Bool.eq_false_iff, ne_eq]
  constructor
  · rintro ⟨hlt, hnames, hfirst⟩
    cases hline : ls[p.line]? with
    | none =>
      rw [hline] at hlt
      exact absurd hlt (Nat.not_lt_zero _)
    | some line =>
      rw [hline, Option.getD_some] at hnames hfirst
      refine ⟨⟨line, hline, hnames⟩, fun line' hline' i hi t ht hstarts => ?_⟩
      obtain rfl : line = line' := Option.some.inj (hline.symm.trans hline')
      exact hfirst i hi ⟨t, ht, hstarts⟩
  · rintro ⟨⟨line, hline, t, ht, hstarts⟩, hfirst⟩
    have hget : ls[p.line]? = some line := hline
    rw [hget, Option.getD_some]
    refine ⟨?_, ⟨t, ht, hstarts⟩, ?_⟩
    · by_contra hle
      rw [List.drop_eq_nil_of_le (Nat.not_lt.1 hle), List.prefix_nil] at hstarts
      obtain ⟨_, _, -, -, rfl⟩ := mem_namings.1 ht
      cases hstarts
    · rintro i hi ⟨u, hu, hstarts'⟩
      exact hfirst line hline i hi u hu hstarts'

instance (field : String) (ls : List (List Char)) (p : Position) :
    Decidable (NamesKey field ls p) :=
  decidable_of_iff (keyHit field ls p = true) keyHit_eq_true_iff

end

/-! ## Where the key is named -/

section
variable {field : String} {text s : List Char} {ls : List (List Char)} {a b : Spot} {n : Node}
  {m : Member Node}

/-- The text of the key, from the spot on. -/
theorem NamesKey.exists_prefix (h : NamesKey field (lines text) a.place) (ha : SpotIn text a) :
    ∃ t ∈ keyMembers field, t <+: a.rest := by
  obtain ⟨line, hline, t, ht, hstarts⟩ := h.names
  obtain ⟨s, piece, pieces, hrest, hlength, hdrop⟩ := ha.exists_line
  obtain rfl : line = s ++ piece :=
    Option.some.inj (hline.symm.trans (getElem?_of_drop hdrop).1)
  rw [← hlength, List.drop_left] at hstarts
  exact ⟨t, ht, hstarts.trans (prefix_of_lines hrest)⟩

/-- Behind a value there is no colon. -/
theorem not_follows_of_colon (hs : ∀ d ∈ s, Text.isBlank d = true) (x : List Char) :
    ¬ Follows (s ++ ':' :: x) := by
  intro h
  induction s with
  | nil => exact absurd (h ':' rfl) (by decide)
  | cons d s ih =>
    rw [List.forall_mem_cons] at hs
    cases hd : Cursor.isBlank d with
    | true =>
      refine ih hs.2 ?_
      rw [Follows, List.cons_append, List.dropWhile_cons_of_pos hd] at h
      exact h
    | false =>
      rw [Follows, List.cons_append, List.dropWhile_cons_of_neg (by simp [hd])] at h
      have hblank := hs.1
      rcases h d rfl with rfl | rfl | rfl <;> exact absurd hblank (by decide)

/-- A string that is a value does not name the key. -/
theorem not_namesKey_of_text {raw : List Char} (ha : SpotIn text a) (hraw : IsText raw)
    (h : Covers ('"' :: raw ++ ['"']) a b) (hb : Follows b.rest) :
    keyHit field (lines text) a.place = false := by
  rw [Bool.eq_false_iff, ne_eq, keyHit_eq_true_iff]
  intro hnames
  obtain ⟨t, ht, r, htext⟩ := hnames.exists_prefix ha
  obtain ⟨between, behind, hbetween, -, rfl⟩ := mem_namings.1 ht
  rw [h.1] at htext
  have hquotes : "key".toList ++ '"' :: (between ++ ':' :: (behind ++ quoted field ++ r)) =
      raw ++ '"' :: b.rest := by simpa [quoted] using htext
  obtain rfl := eq_of_isText (isText_plain (by decide)) hraw hquotes
  rw [← (List.cons.inj (List.append_cancel_left hquotes)).2] at hb
  exact not_follows_of_colon hbetween _ hb

/-- Where the key is named, a member stands that names it. -/
theorem string?_of_namesKey (hfield : IsUnescaped field.toList) (ha : SpotIn text a)
    (h : MemberStands a m b) (hnames : NamesKey field (lines text) a.place) :
    m.name = "key" ∧ m.node.value.string? = some field := by
  obtain ⟨t, ht, r, htext⟩ := hnames.exists_prefix ha
  obtain ⟨between, behind, hbetween, hbehind, rfl⟩ := mem_namings.1 ht
  have hkey : IsText "key".toList := isText_plain (by decide)
  obtain ⟨hname, v, -, hv, hvalue, -⟩ := exists_value_of_text (c := '"')
    (x := field.toList ++ '"' :: r) h hkey hbetween hbehind (by decide)
    (by rw [← htext]; simp [quoted])
  rw [text?_plain (by decide)] at hname
  refine ⟨(Option.some.inj hname).symm, ?_⟩
  rw [(eq_of_stands_quoted hfield hvalue hv).1, Node.value, String.ofList_toList, Value.string?]

end

/-! ## The scan of a document -/

section
variable {hit : Position → Bool} {a b c d : Spot} {os os' : List ObjectAt} {owns owns' : Bool}
  {w text : List Char}

/-- Between the spots the scan finds the lines of these objects and, if `owns` is set, that the
innermost object which is open at the first spot owns the key. -/
def Runs (hit : Position → Bool) (a : Spot) (owns : Bool) (os : List ObjectAt) (b : Spot) : Prop :=
  ∃ (code : List (Position × Char)) (found : List ObjectAt),
    codeAt .outside a.place a.rest = code ++ codeAt .outside b.place b.rest ∧ found.Perm os ∧
      ∀ scan : SpanScan, scan.replay hit code =
        ⟨mark owns scan.opened, scan.spans ++ found.map objectSpan⟩

theorem Runs.trans (h : Runs hit a owns os b) (h' : Runs hit b owns' os' c) :
    Runs hit a (owns || owns') (os ++ os') c := by
  obtain ⟨code, found, hcode, hfound, hscan⟩ := h
  obtain ⟨code', found', hcode', hfound', hscan'⟩ := h'
  refine ⟨code ++ code', found ++ found', ?_, hfound.append hfound', fun scan => ?_⟩
  · rw [hcode, hcode', List.append_assoc]
  · rw [replay_append, hscan, hscan', mark_mark, List.map_append, List.append_assoc]

/-- A part in which nothing is found, in front of another one. -/
theorem Runs.lead (h : Runs hit a false [] b) (h' : Runs hit b owns os c) : Runs hit a owns os c :=
  h.trans h'

theorem replay_of_plain {code : List (Position × Char)}
    (h : ∀ x ∈ code, x.2 ≠ '"' ∧ isBracket x.2 = false) (scan : SpanScan) :
    scan.replay hit code = scan := by
  induction code with
  | nil => rfl
  | cons x code ih =>
    obtain ⟨⟨hquote, hbracket⟩, hcode⟩ := List.forall_mem_cons.1 h
    simp only [isBracket, Bool.or_eq_false_iff, decide_eq_false_iff_not] at hbracket
    rw [← List.singleton_append, replay_append, replay_other hquote hbracket.1.2 hbracket.2,
      ih hcode]

theorem runs_of_plain (h : PlainBetween a b) : Runs hit a false [] b := by
  obtain ⟨code, hcode, hplain⟩ := h
  refine ⟨code, [], hcode.codeAt_eq, .nil, fun scan => ?_⟩
  rw [replay_of_plain hplain, mark_false, List.map_nil, List.append_nil]

/-- A string shows as its first quote. -/
theorem runs_of_text {raw : List Char} (hraw : IsText raw) (h : Covers ('"' :: raw ++ ['"']) a b) :
    Runs hit a (hit a.place) [] b := by
  refine ⟨_, [], (Nested.text h hraw).codeAt_eq, .nil, fun scan => ?_⟩
  rw [replay_quote, List.map_nil, List.append_nil]

theorem runs_of_name {name : String} (h : NameStands a name b) :
    Runs hit a (hit a.place) [] b := by
  obtain ⟨raw, m, hvalue, htext, hplain⟩ := h.exists_text
  rw [← Bool.or_false (hit a.place)]
  exact (runs_of_text (text?_takes hvalue).1 htext).trans (runs_of_plain hplain)

theorem runs_of_bracket {ch : Char} (hch : ch = '[' ∨ ch = ']') (h : Covers [ch] a b) :
    Runs hit a false [] b := by
  have hne : ch ≠ '\n' ∧ ch ≠ '"' ∧ ch ≠ '\x7b' ∧ ch ≠ '\x7d' := by
    rcases hch with rfl | rfl <;> decide
  refine ⟨[(a.place, ch)], [], codeAt_char h hne.1 hne.2.1, .nil, fun scan => ?_⟩
  rw [replay_other hne.2.1 hne.2.2.1 hne.2.2.2, mark_false, List.map_nil, List.append_nil]

/-- The object has a member that is hit. -/
def isHit (hit : Position → Bool) (o : ObjectAt) : Bool := o.members.any fun m => hit m.place

/-- **An object**: what marks it stands in it, and its closing brace gives its lines if it is
marked. -/
theorem Runs.object {ms : List (Member Node)} (hopen : Covers ['\x7b'] a b)
    (h : Runs hit b (ms.any fun m => hit m.place) (os.filter (isHit hit)) c)
    (hclose : Covers ['\x7d'] c d) :
    Runs hit a false ((⟨a.place, c.place, ms⟩ :: os).filter (isHit hit)) d := by
  obtain ⟨code, found, hcode, hfound, hscan⟩ := h
  have hown : isHit hit ⟨a.place, c.place, ms⟩ = ms.any fun m => hit m.place := rfl
  have hall : codeAt .outside a.place a.rest =
    ((a.place, '\x7b') :: (code ++ [(c.place, '\x7d')])) ++
      codeAt .outside d.place d.rest := by
    rw [codeAt_char hopen (by decide) (by decide), hcode,
      codeAt_char hclose (by decide) (by decide)]
    simp
  have hopened : ∀ scan : SpanScan, scan.replay hit ((a.place, '\x7b') :: code) =
      ⟨⟨a.place.line, ms.any fun m => hit m.place⟩ :: scan.opened,
        scan.spans ++ found.map objectSpan⟩ := by
    intro scan
    rw [← List.singleton_append, replay_append, hscan, replay_open, mark, Bool.false_or]
  rw [List.filter_cons, hown]
  cases hmarked : ms.any fun m => hit m.place with
  | false =>
    refine ⟨_, found, hall, hfound, fun scan => ?_⟩
    rw [← List.cons_append, replay_append, hopened, hmarked, replay_close rfl, mark_false]
    rfl
  | true =>
    refine ⟨_, found ++ [⟨a.place, c.place, ms⟩], hall,
      (List.perm_append_singleton _ _).trans (hfound.cons _), fun scan => ?_⟩
    rw [← List.cons_append, replay_append, hopened, hmarked, replay_close rfl, mark_false]
    simp [objectSpan]

end

section
variable {field : String} {text : List Char}

mutual

/-- **The scan over a value** finds the lines of the objects in it that have a member by which the
key is named. -/
theorem runs_of_stands {a b : Spot} {n : Node} : Stands a n b → SpotIn text a → Follows b.rest →
    Runs (keyHit field (lines text)) a false
      (n.objectsAt.filter (isHit (keyHit field (lines text)))) b
  | .text hvalue htext, ha, hb => by
    have hraw := (text?_takes hvalue).1
    rw [← not_namesKey_of_text ha hraw htext hb]
    exact runs_of_text hraw htext
  | .atom hraw _ htext, _, _ => runs_of_plain (plainBetween_of_atom hraw htext)
  | .list hopen hitems hclose, ha, _ => by
    have hitems := runs_of_items hitems (ha.reaches hopen.reaches)
      (follows_of_covers (by simp) hclose)
    have hrest := hitems.trans (runs_of_bracket (.inr rfl) hclose)
    rw [List.append_nil] at hrest
    exact (runs_of_bracket (.inl rfl) hopen).lead hrest
  | .object hopen hms hclose, ha, _ =>
    Runs.object hopen (runs_of_members hms (ha.reaches hopen.reaches)
      (follows_of_covers (by simp) hclose)) hclose

theorem runs_of_items {a b : Spot} {first : Bool} {ns : List Node} :
    Entries Stands first a ns b → SpotIn text a → Follows b.rest →
      Runs (keyHit field (lines text)) a false
        ((Node.itemsObjectsAt ns).filter (isHit (keyHit field (lines text)))) b
  | .nil h, _, _ => runs_of_plain (plainBetween_of_blanks h)
  | .cons hlead hitem hmore, ha, hb => by
    have hentry := ha.reaches hlead.reaches
    have hfirst := runs_of_stands hitem hentry (follows_of_entries hmore hb)
    have hrest := runs_of_items hmore (hentry.reaches hitem.reaches) hb
    rw [Node.itemsObjectsAt, List.filter_append]
    exact (runs_of_plain (plainBetween_of_lead hlead)).lead (hfirst.trans hrest)

theorem runs_of_members {a b : Spot} {first : Bool} {ms : List (Member Node)} :
    Entries MemberStands first a ms b → SpotIn text a → Follows b.rest →
      Runs (keyHit field (lines text)) a (ms.any fun m => keyHit field (lines text) m.place)
        ((Node.membersObjectsAt ms).filter (isHit (keyHit field (lines text)))) b
  | .nil h, _, _ => runs_of_plain (plainBetween_of_blanks h)
  | .cons hlead (.mk hname hvalue) hmore, ha, hb => by
    have hentry := ha.reaches (hlead.reaches.trans hname.reaches)
    have hfirst := (runs_of_name hname).trans
      (runs_of_stands hvalue hentry (follows_of_entries hmore hb))
    have hrest := runs_of_members hmore (hentry.reaches hvalue.reaches) hb
    rw [Node.membersObjectsAt, List.filter_append, List.any_cons]
    have hall := (runs_of_plain (plainBetween_of_lead hlead)).lead (hfirst.trans hrest)
    rwa [Bool.or_false] at hall

end

/-- **The lines that the scan finds in a document** are those of the objects that have a member by
which the key is named, of each of them once. -/
theorem exists_owningSpans_eq {doc : Node} (field : String) (h : StandsIn text doc) :
    ∃ found : List ObjectAt,
      found.Perm (doc.objectsAt.filter (isHit (keyHit field (lines text)))) ∧
        owningSpans field (lines text) = found.map objectSpan := by
  obtain ⟨a, b, finish, hbefore, hstands, hbehind⟩ := h
  have hfollows : Follows b.rest := follows_of_blanks hbehind fun d hd => by cases hd
  have hdoc : Runs (keyHit field (lines text)) ⟨⟨0, 0⟩, text⟩ false _ b :=
    (runs_of_plain (plainBetween_of_blanks hbefore)).lead
      (runs_of_stands hstands hbefore.reaches hfollows)
  obtain ⟨code, found, hcode, hfound, hscan⟩ :=
    hdoc.trans (runs_of_plain (plainBetween_of_blanks hbehind))
  rw [List.append_nil] at hfound
  rw [codeAt_eq_linesCode, codeAt, List.append_nil] at hcode
  have hlines : linesCode 0 (lines text) = code := hcode
  have hreplay : SpanScan.lines (keyMember field) ⟨[], []⟩ 0 (lines text) =
      SpanScan.replay (keyHit field (lines text)) ⟨[], []⟩ (linesCode 0 (lines text)) :=
    lines_eq_replay [] rfl ⟨[], []⟩
  rw [hlines, hscan] at hreplay
  exact ⟨found, hfound, by rw [owningSpans, hreplay, List.nil_append]⟩

/-- **What the scan finds**: the lines of the objects that have a member by which the key is
named. -/
theorem mem_owningSpans_iff {doc : Node} (h : StandsIn text doc) {s : Span} :
    s ∈ owningSpans field (lines text) ↔ ∃ o ∈ doc.objectsAt, objectSpan o = s ∧
      ∃ m ∈ o.members, NamesKey field (lines text) m.place := by
  obtain ⟨found, hfound, hspans⟩ := exists_owningSpans_eq field h
  rw [hspans, List.mem_map]
  simp only [hfound.mem_iff, List.mem_filter, isHit, List.any_eq_true, keyHit_eq_true_iff]
  constructor
  · rintro ⟨o, ⟨ho, hnames⟩, hs⟩
    exact ⟨o, ho, hs, hnames⟩
  · rintro ⟨o, ho, hs, hnames⟩
    exact ⟨o, ⟨ho, hnames⟩, hs⟩

end

/-! ## Lines of owners -/

/-- Does the object own the key of the field? -/
def ownsKey (field : String) (ms : List (String × Value)) : Bool :=
  ms.any fun m => m.1 == "key" && m.2.string? == some field

/-- The line is one of an object that owns the key. -/
def OnOwner (field : String) (doc : Node) (n : Nat) : Prop :=
  ∃ o ∈ doc.objectsAt, ownsKey field (Node.memberValues o.members) = true ∧
    o.opened.line ≤ n ∧ n ≤ o.closed.line

instance (field : String) (doc : Node) (n : Nat) : Decidable (OnOwner field doc n) :=
  List.decidableBEx _ _

/-- The line is one of an object in which the key is named. -/
def OnNamed (field : String) (ls : List (List Char)) (doc : Node) (n : Nat) : Prop :=
  ∃ o ∈ doc.objectsAt, (∃ m ∈ o.members, NamesKey field ls m.place) ∧
    o.opened.line ≤ n ∧ n ≤ o.closed.line

instance (field : String) (ls : List (List Char)) (doc : Node) (n : Nat) :
    Decidable (OnNamed field ls doc n) :=
  List.decidableBEx _ _

section
variable {field : String} {text : List Char} {doc : Node} {o : ObjectAt} {m : Member Node} {n : Nat}

/-- **The lines that the scan finds** are those of the objects in which the key is named. -/
theorem any_holds_iff (h : StandsIn text doc) :
    ((owningSpans field (lines text)).any fun s => s.holds n) = true ↔
      OnNamed field (lines text) doc n := by
  rw [List.any_eq_true]
  constructor
  · rintro ⟨s, hs, hn⟩
    obtain ⟨o, ho, rfl, hnames⟩ := (mem_owningSpans_iff h).1 hs
    exact ⟨o, ho, hnames, Span.holds_iff.1 hn⟩
  · rintro ⟨o, ho, hnames, hn⟩
    exact ⟨objectSpan o, (mem_owningSpans_iff h).2 ⟨o, ho, rfl, hnames⟩, Span.holds_iff.2 hn⟩

theorem ownsKey_of_namesKey (hfield : IsUnescaped field.toList) (h : ObjectIn text o)
    (hm : m ∈ o.members) (hnames : NamesKey field (lines text) m.place) :
    ownsKey field (Node.memberValues o.members) = true := by
  obtain ⟨⟨a, b, ha, hstands, -⟩, -⟩ := h.member hm
  have hplace : m.place = a.place := by
    cases hstands
    rfl
  rw [hplace] at hnames
  obtain ⟨hname, hvalue⟩ := string?_of_namesKey hfield ha hstands hnames
  rw [ownsKey, List.any_eq_true]
  refine ⟨(m.name, m.node.value), ?_, by simp [hname, hvalue]⟩
  rw [Node.memberValues_eq_map]
  exact List.mem_map_of_mem hm

/-- **An object in which the key is named** owns it, if the field needs no escapes. -/
theorem OnNamed.onOwner (hfield : IsUnescaped field.toList) (h : StandsIn text doc)
    (hn : OnNamed field (lines text) doc n) : OnOwner field doc n := by
  obtain ⟨o, ho, ⟨m, hm, hnames⟩, hlines⟩ := hn
  exact ⟨o, ho, ownsKey_of_namesKey hfield (h.objectIn ho) hm hnames, hlines⟩

end

end VersionAlignment.Artifact.Catalog
