import VersionAlignment.Proofs.Json.Grammar
import VersionAlignment.Proofs.Json.Openings

/-!
# Brackets of a document

The brackets and braces of a JSON text that belong to its lists and objects are told by the grammar
(`Node.brackets`). What a scan of code characters sees of a text is less: a string shows as its
first quote, and no more is known of the other characters than whether they are brackets (`Nested`).
It is enough to find the brackets, and to see that they are nested.

The code of a text is scanned anew on each of its lines. Nothing is lost by that, for no string goes
beyond a line.

## Results

* `shows_of_standsIn`: the brackets in the code of a document are those of its lists and objects.
* `Nested.codeAt_eq`: the code of nested brackets, in a text.
* `Nested.level`: the depth of either kind of brackets is never negative, and zero at the end.
-/

set_option autoImplicit false

namespace VersionAlignment.Json

open Text Json.Reading

/-! ## Brackets -/

/-- Is the character a bracket or a brace? -/
def isBracket (c : Char) : Bool := c = '[' || c = ']' || c = '\x7b' || c = '\x7d'

namespace Node

mutual

/-- The brackets and braces of a node with their places, in the order of the text. -/
def brackets : Node → List (Position × Char)
  | .scalar _ _ => []
  | .list opened closed items => (opened, '[') :: (itemsBrackets items ++ [(closed, ']')])
  | .object opened closed ms => (opened, '\x7b') :: (membersBrackets ms ++ [(closed, '\x7d')])

/-- The brackets and braces in the items of a list. -/
def itemsBrackets : List Node → List (Position × Char)
  | [] => []
  | n :: ns => n.brackets ++ itemsBrackets ns

/-- The brackets and braces in the members of an object. -/
def membersBrackets : List (Member Node) → List (Position × Char)
  | [] => []
  | ⟨_, _, n⟩ :: ms => n.brackets ++ membersBrackets ms

end

end Node

/-- The code between two spots, its brackets nested. A string shows as its first quote, and a line
feed does not show. The objects are those that are opened and closed between the spots. -/
inductive Nested : Spot → List (Position × Char) → List ObjectAt → Spot → Prop
  | refl {a} : Nested a [] [] a
  | trans {a b c code code' os os'} (h : Nested a code os b) (h' : Nested b code' os' c) :
    Nested a (code ++ code') (os ++ os') c
  | feed {a b} (h : Covers ['\n'] a b) : Nested a [] [] b
  | char {a b c} (h : Covers [c] a b) (hfeed : c ≠ '\n') (hquote : c ≠ '"')
    (hbracket : isBracket c = false) : Nested a [(a.place, c)] [] b
  | text {a b raw} (h : Covers ('"' :: raw ++ ['"']) a b) (hraw : IsText raw) :
    Nested a [(a.place, '"')] [] b
  | list {a b c d code os} (hopen : Covers ['['] a b) (h : Nested b code os c)
    (hclose : Covers [']'] c d) :
    Nested a ((a.place, '[') :: (code ++ [(c.place, ']')])) os d
  | object {a b c d code os} (ms : List (Member Node)) (hopen : Covers ['\x7b'] a b)
    (h : Nested b code os c) (hclose : Covers ['\x7d'] c d) :
    Nested a ((a.place, '\x7b') :: (code ++ [(c.place, '\x7d')])) (⟨a.place, c.place, ms⟩ :: os) d

/-- Between the spots there is nested code with these brackets. -/
def Shows (a : Spot) (brackets : List (Position × Char)) (os : List ObjectAt) (b : Spot) : Prop :=
  ∃ code, Nested a code os b ∧ (code.filter fun x => isBracket x.2) = brackets

variable {a b c d : Spot} {bs bs' : List (Position × Char)} {os os' : List ObjectAt}
  {w s : List Char}

theorem Shows.trans (h : Shows a bs os b) (h' : Shows b bs' os' c) :
    Shows a (bs ++ bs') (os ++ os') c := by
  obtain ⟨code, hcode, rfl⟩ := h
  obtain ⟨code', hcode', rfl⟩ := h'
  exact ⟨_, hcode.trans hcode', List.filter_append ..⟩

/-- A part without brackets in front of another one. -/
theorem Shows.lead (h : Shows a [] [] b) (h' : Shows b bs os c) : Shows a bs os c := h.trans h'

/-- Between the spots there is code without quotes and brackets. -/
def PlainBetween (a b : Spot) : Prop :=
  ∃ code, Nested a code [] b ∧ ∀ x ∈ code, x.2 ≠ '"' ∧ isBracket x.2 = false

theorem PlainBetween.trans (h : PlainBetween a b) (h' : PlainBetween b c) : PlainBetween a c := by
  obtain ⟨code, hcode, hplain⟩ := h
  obtain ⟨code', hcode', hplain'⟩ := h'
  exact ⟨code ++ code', hcode.trans hcode', List.forall_mem_append.2 ⟨hplain, hplain'⟩⟩

theorem PlainBetween.shows (h : PlainBetween a b) : Shows a [] [] b := by
  obtain ⟨code, hcode, hplain⟩ := h
  exact ⟨code, hcode, List.filter_eq_nil_iff.2 fun x hx => by simp [(hplain x hx).2]⟩

/-- A text without quotes and brackets. -/
theorem plainBetween_of_covers (hw : ∀ ch ∈ w, ch ≠ '"' ∧ isBracket ch = false)
    (h : Covers w a b) : PlainBetween a b := by
  induction w generalizing a with
  | nil => exact eq_of_covers_nil h ▸ ⟨[], .refl, by simp⟩
  | cons ch w ih =>
    rw [List.forall_mem_cons] at hw
    obtain ⟨m, hfirst, hmore⟩ := h.split
    refine PlainBetween.trans ?_ (ih hw.2 hmore)
    by_cases hfeed : ch = '\n'
    · subst hfeed
      exact ⟨[], .feed hfirst, by simp⟩
    · exact ⟨_, .char hfirst hfeed hw.1.1 hw.1.2, List.forall_mem_singleton.2 hw.1⟩

theorem plainBetween_of_blanks (h : Blanks a b) : PlainBetween a b := by
  obtain ⟨w, hw, hcovers⟩ := h
  refine plainBetween_of_covers (fun ch hch => ?_) hcovers
  have hblank := hw ch hch
  simp only [Cursor.isBlank, Bool.or_eq_true, decide_eq_true_eq] at hblank
  rcases hblank with ((rfl | rfl) | rfl) | rfl <;> decide

theorem plainBetween_of_lead {first : Bool} (h : Lead first a b) : PlainBetween a b := by
  cases h with
  | first h => exact plainBetween_of_blanks h
  | next hbefore hcomma hbehind =>
    have hcomma := plainBetween_of_covers (by simp [isBracket]) hcomma
    exact (plainBetween_of_blanks hbefore).trans (hcomma.trans (plainBetween_of_blanks hbehind))

/-- The name of a member is a string, and nothing else that shows stands before the value. -/
theorem NameStands.exists_text {name : String} (h : NameStands a name b) :
    ∃ raw m, text? raw = some name ∧ Covers ('"' :: raw ++ ['"']) a m ∧ PlainBetween m b := by
  obtain ⟨raw, m, m', m'', hvalue, htext, hbefore, hcolon, hbehind⟩ := h
  have hcolon := plainBetween_of_covers (by simp [isBracket]) hcolon
  exact ⟨raw, m, hvalue, htext,
    (plainBetween_of_blanks hbefore).trans (hcolon.trans (plainBetween_of_blanks hbehind))⟩

theorem shows_of_text {raw : List Char} {text : String} (hvalue : text? raw = some text)
    (h : Covers ('"' :: raw ++ ['"']) a b) : Shows a [] [] b :=
  ⟨_, .text h (text?_takes hvalue).1, by simp [isBracket]⟩

theorem shows_of_name {name : String} (h : NameStands a name b) : Shows a [] [] b := by
  obtain ⟨raw, m, hvalue, htext, hplain⟩ := h.exists_text
  exact (shows_of_text hvalue htext).lead hplain.shows

/-- The characters of a number or a literal name. -/
theorem plainBetween_of_atom (hraw : ∀ ch ∈ w, isAtomChar ch = true) (h : Covers w a b) :
    PlainBetween a b := by
  refine plainBetween_of_covers (fun ch hch => ⟨ne_of_isAtomChar (hraw ch hch) rfl, ?_⟩) h
  have hne : ∀ d, isAtomChar d = false → ch ≠ d := fun d => ne_of_isAtomChar (hraw ch hch)
  simp [isBracket, hne '[' rfl, hne ']' rfl, hne '\x7b' rfl, hne '\x7d' rfl]

theorem Shows.list (hopen : Covers ['['] a b) (h : Shows b bs os c) (hclose : Covers [']'] c d) :
    Shows a ((a.place, '[') :: (bs ++ [(c.place, ']')])) os d := by
  obtain ⟨code, hcode, rfl⟩ := h
  exact ⟨_, .list hopen hcode hclose, by simp [isBracket]⟩

theorem Shows.object (ms : List (Member Node)) (hopen : Covers ['\x7b'] a b) (h : Shows b bs os c)
    (hclose : Covers ['\x7d'] c d) : Shows a ((a.place, '\x7b') :: (bs ++ [(c.place, '\x7d')]))
      (⟨a.place, c.place, ms⟩ :: os) d := by
  obtain ⟨code, hcode, rfl⟩ := h
  exact ⟨_, .object ms hopen hcode hclose, by simp [isBracket]⟩

mutual

/-- **The brackets of a value** are those of its lists and objects. -/
theorem shows_of_stands {a b : Spot} {n : Node} : Stands a n b → Shows a n.brackets n.objectsAt b
  | .text hvalue htext => shows_of_text hvalue htext
  | .atom hraw _ htext => (plainBetween_of_atom hraw htext).shows
  | .list hopen hitems hclose => (shows_of_items hitems).list hopen hclose
  | .object hopen hms hclose => (shows_of_members hms).object _ hopen hclose

theorem shows_of_items {first : Bool} {a b : Spot} {ns : List Node} :
    Entries Stands first a ns b → Shows a (Node.itemsBrackets ns) (Node.itemsObjectsAt ns) b
  | .nil h => (plainBetween_of_blanks h).shows
  | .cons hlead hitem hmore =>
    (plainBetween_of_lead hlead).shows.lead ((shows_of_stands hitem).trans (shows_of_items hmore))

theorem shows_of_members {first : Bool} {a b : Spot} {ms : List (Member Node)} :
    Entries MemberStands first a ms b →
      Shows a (Node.membersBrackets ms) (Node.membersObjectsAt ms) b
  | .nil h => (plainBetween_of_blanks h).shows
  | .cons hlead (.mk hname hvalue) hmore =>
    (plainBetween_of_lead hlead).shows.lead ((shows_of_name hname).lead
      ((shows_of_stands hvalue).trans (shows_of_members hmore)))

end

/-- **The brackets of a document** are those of its lists and objects. -/
theorem shows_of_standsIn {text : List Char} {doc : Node} (h : StandsIn text doc) :
    ∃ finish, Shows ⟨⟨0, 0⟩, text⟩ doc.brackets doc.objectsAt ⟨finish, []⟩ := by
  obtain ⟨a, b, finish, hbefore, hstands, hbehind⟩ := h
  have hdoc := (plainBetween_of_blanks hbefore).shows.lead (shows_of_stands hstands)
  have htext := hdoc.trans (plainBetween_of_blanks hbehind).shows
  rw [List.append_nil, List.append_nil] at htext
  exact ⟨finish, htext⟩

/-! ## The code of a text -/

/-- The code of a text, each character with its line and column. The scan starts anew on each
line. -/
def codeAt : QuoteState → Position → List Char → List (Position × Char)
  | _, _, [] => []
  | q, p, c :: s =>
    if c = '\n' then codeAt .outside (p.past c) s
    else (if q = .outside then [(p, c)] else []) ++ codeAt (nextQuoteState q c) (p.past c) s

theorem codeAt_char {ch : Char} (h : Covers [ch] a b) (hfeed : ch ≠ '\n') (hquote : ch ≠ '"') :
    codeAt .outside a.place a.rest = (a.place, ch) :: codeAt .outside b.place b.rest := by
  obtain ⟨hrest, hplace⟩ := h
  rw [hrest, hplace, List.singleton_append, codeAt, if_neg hfeed, nextQuoteState, if_neg hquote]
  rfl

/-- A string that has been opened ends at its closing quote, on the same line. -/
theorem codeAt_scanText {escaped : Bool} (h : scanText escaped w = some false) (p : Position)
    (s : List Char) : codeAt (if escaped then .escaped else .inside) p (w ++ '"' :: s) =
      codeAt .outside (p.behind (w ++ ['"'])) s := by
  induction w generalizing escaped p with
  | nil =>
    cases h
    rfl
  | cons ch w ih =>
    rw [scanText] at h
    split at h
    · cases h
    · next hcontrol =>
      split at h
      · cases h
      · next hquote =>
        have hfeed : ch ≠ '\n' := by
          rintro rfl
          exact hcontrol rfl
        have hnext : nextQuoteState (if escaped then .escaped else .inside) ch =
            if !escaped && ch == '\\' then QuoteState.escaped else .inside := by
          cases escaped with
          | true => simp [nextQuoteState]
          | false =>
            have hne : ch ≠ '"' := by simpa using hquote
            by_cases hslash : ch = '\\' <;> simp [nextQuoteState, hslash, hne]
        have hinside : (if escaped then QuoteState.escaped else .inside) ≠ .outside := by
          cases escaped <;> simp
        rw [List.cons_append, codeAt, if_neg hfeed, if_neg hinside, List.nil_append, hnext,
          ih h]
        rfl

/-- **The code of nested brackets** is what a scan finds, with the code of the rest behind it. -/
theorem Nested.codeAt_eq {code : List (Position × Char)} (h : Nested a code os b) :
    codeAt .outside a.place a.rest = code ++ codeAt .outside b.place b.rest := by
  induction h with
  | refl => rfl
  | trans _ _ ih ih' => rw [ih, ih', List.append_assoc]
  | feed h =>
    rw [h.1, h.2]
    rfl
  | char h hfeed hquote _ => exact codeAt_char h hfeed hquote
  | @text a b raw h hraw =>
    have hinside := codeAt_scanText hraw (a.place.past '"') b.rest
    rw [h.1, h.2, List.append_assoc, List.cons_append, codeAt, if_neg (by decide)]
    exact congrArg ((a.place, '"') :: ·) hinside
  | list hopen _ hclose ih =>
    rw [codeAt_char hopen (by decide) (by decide), ih,
      codeAt_char hclose (by decide) (by decide)]
    simp
  | object _ hopen _ hclose ih =>
    rw [codeAt_char hopen (by decide) (by decide), ih,
      codeAt_char hclose (by decide) (by decide)]
    simp

/-! ## Depth -/

/-- The depth of the brackets is never negative, and zero at the end. -/
structure Level (opening closing : Char) (s : List Char) : Prop where
  nonneg : ∀ t, t <+: s → 0 ≤ totalDepth opening closing t
  zero : totalDepth opening closing s = 0

section
variable {opening closing : Char} {t : List Char}

theorem level_nil : Level opening closing [] where
  nonneg t ht := by
    rw [List.prefix_nil.1 ht]
    exact Int.le_refl 0
  zero := rfl

theorem level_singleton (ch : Char) (hopening : ch ≠ opening) (hclosing : ch ≠ closing) :
    Level opening closing [ch] := by
  have hzero : totalDepth opening closing [ch] = 0 := by
    rw [totalDepth, depthStep, if_neg hopening, if_neg hclosing]
    rfl
  refine ⟨fun t ht => ?_, hzero⟩
  rcases List.prefix_cons_iff.1 ht with rfl | ⟨t', rfl, ht'⟩
  · exact Int.le_refl 0
  · rw [List.prefix_nil.1 ht']
    exact Int.le_of_eq hzero.symm

theorem Level.append (hs : Level opening closing s) (ht : Level opening closing t) :
    Level opening closing (s ++ t) := by
  constructor
  · rintro u ⟨v, huv⟩
    rcases List.append_eq_append_iff.1 huv with ⟨u', rfl, -⟩ | ⟨u', rfl, hv⟩
    · exact hs.nonneg u (List.prefix_append u u')
    · rw [totalDepth_append, hs.zero, Int.zero_add]
      exact ht.nonneg u' ⟨v, hv.symm⟩
  · rw [totalDepth_append, hs.zero, ht.zero]
    rfl

/-- A pair of brackets around a text. -/
theorem Level.wrap (hs : Level opening closing s) (hne : closing ≠ opening) :
    Level opening closing (opening :: (s ++ [closing])) := by
  have hopen : ∀ t, totalDepth opening closing (opening :: t) =
      1 + totalDepth opening closing t := by
    intro t
    rw [totalDepth, depthStep, if_pos rfl]
  have hclose : totalDepth opening closing (s ++ [closing]) = -1 := by
    rw [totalDepth_append, hs.zero, totalDepth, depthStep, if_neg hne, if_pos rfl]
    rfl
  constructor
  · intro t ht
    rcases List.prefix_cons_iff.1 ht with rfl | ⟨t', rfl, ht'⟩
    · exact Int.le_refl 0
    · rw [hopen]
      rcases List.prefix_concat_iff.1 ht' with rfl | hstarts
      · rw [hclose]
        decide
      · have := hs.nonneg t' hstarts
        omega
  · rw [hopen, hclose]
    rfl

/-- Brackets of the other kind around a text. -/
theorem Level.wrap_other {ch ch' : Char} (hs : Level opening closing s)
    (h : Level opening closing [ch]) (h' : Level opening closing [ch']) :
    Level opening closing (ch :: (s ++ [ch'])) := h.append (hs.append h')

/-- The brackets are of one kind. -/
def IsPair (opening closing : Char) : Prop :=
  opening = '[' ∧ closing = ']' ∨ opening = '\x7b' ∧ closing = '\x7d'

/-- **The depth of nested brackets** of either kind is never negative, and zero at the end. -/
theorem Nested.level {code : List (Position × Char)} (hpair : IsPair opening closing)
    (h : Nested a code os b) : Level opening closing (code.map Prod.snd) := by
  induction h with
  | refl => exact level_nil
  | trans _ _ ih ih' =>
    rw [List.map_append]
    exact ih.append ih'
  | feed => exact level_nil
  | char _ _ _ hbracket =>
    simp only [isBracket, Bool.or_eq_false_iff, decide_eq_false_iff_not] at hbracket
    rcases hpair with ⟨rfl, rfl⟩ | ⟨rfl, rfl⟩
    · exact level_singleton _ hbracket.1.1.1 hbracket.1.1.2
    · exact level_singleton _ hbracket.1.2 hbracket.2
  | text =>
    rw [List.map_singleton]
    rcases hpair with ⟨rfl, rfl⟩ | ⟨rfl, rfl⟩
    · exact level_singleton '"' (by decide) (by decide)
    · exact level_singleton '"' (by decide) (by decide)
  | list _ _ _ ih =>
    rw [List.map_cons, List.map_append, List.map_singleton]
    rcases hpair with ⟨rfl, rfl⟩ | ⟨rfl, rfl⟩
    · exact ih.wrap (by decide)
    · exact ih.wrap_other (level_singleton '[' (by decide) (by decide))
        (level_singleton ']' (by decide) (by decide))
  | object _ _ _ _ ih =>
    rw [List.map_cons, List.map_append, List.map_singleton]
    rcases hpair with ⟨rfl, rfl⟩ | ⟨rfl, rfl⟩
    · exact ih.wrap_other (level_singleton '\x7b' (by decide) (by decide))
        (level_singleton '\x7d' (by decide) (by decide))
    · exact ih.wrap (by decide)

end

end VersionAlignment.Json
