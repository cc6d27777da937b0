import VersionAlignment.Artifact.Catalog.Update
import VersionAlignment.Proofs.Catalog.Rendering
import VersionAlignment.Proofs.Json.Edits
import VersionAlignment.Proofs.Text.Names
import VersionAlignment.Proofs.Text.Recognition

/-!
# Lines that start with a member

A line that starts with the name of a member, and a colon, can be read by the machine in one way
only: the line stands in an object, and the name is that of the object's next member. The blanks of
such a line, which are any blanks for the scan, are blanks of JSON then.

## Results

* `run_memberLead`: what stands behind the lead of a member.
* `run_defaultValue`: what stands behind the value of a default.
-/

set_option autoImplicit false

namespace VersionAlignment.Artifact.Catalog

open Text Json Json.Reading

/-- A name in quotes. -/
def quoted (name : String) : List Char := '"' :: name.toList ++ ['"']

/-- The name of a member up to its value. -/
def memberLead (name : String) : Shape :=
  .blanks ++ .literal (quoted name) ++ .blanks ++ .word ":" ++ .blanks

theorem defaultLead_eq : defaultLead = memberLead "default_value" := rfl

theorem optionsStart_eq : optionsStart = memberLead "options" ++ .word "[" := rfl

/-- The parts of the lead of a member. -/
structure Lead (name : String) (text : List Char) where
  before : List Char
  between : List Char
  behind : List Char
  isBlank_before : ∀ c ∈ before, Text.isBlank c = true
  isBlank_between : ∀ c ∈ between, Text.isBlank c = true
  isBlank_behind : ∀ c ∈ behind, Text.isBlank c = true
  text_eq : text = before ++ (quoted name ++ (between ++ ':' :: behind))

theorem Lead.leadingBlanks_append {name : String} {text : List Char} (l : Lead name text)
    (s : List Char) : leadingBlanks (text ++ s) = l.before := by
  obtain ⟨before, between, behind, hbefore, -, -, rfl⟩ := l
  have hquote : Text.isBlank '"' = false := by decide
  rw [List.append_assoc, leadingBlanks, List.takeWhile_append_of_pos hbefore]
  simp [quoted, hquote]

/-- The characters of a lead. -/
theorem Lead.forall_mem {name : String} {text : List Char} {p : Char → Prop} (l : Lead name text)
    (hblank : ∀ c, Text.isBlank c = true → p c) (hquote : p '"') (hcolon : p ':')
    (hname : ∀ c ∈ name.toList, p c) : ∀ c ∈ text, p c := by
  obtain ⟨before, between, behind, hbefore, hbetween, hbehind, rfl⟩ := l
  simp only [quoted, List.forall_mem_append, List.forall_mem_cons]
  exact ⟨fun c hc => hblank c (hbefore c hc), ⟨⟨hquote, hname⟩, hquote, by simp⟩,
    fun c hc => hblank c (hbetween c hc), hcolon, fun c hc => hblank c (hbehind c hc)⟩

theorem exists_lead {name : String} {line text rest : List Char}
    (h : (memberLead name).take? line = some (text, rest)) :
    text ++ rest = line ∧ ∃ l : Lead name text, leadingBlanks line = l.before := by
  have hsplit := (memberLead name).append_of_take? h
  refine ⟨hsplit, ?_⟩
  simp only [memberLead, Shape.take?_append_iff] at h
  obtain ⟨_, s₄, behind, ⟨_, s₃, _, ⟨_, s₂, between, ⟨before, s₁, _, hbefore, hname, rfl⟩, hbetween,
    rfl⟩, hcolon, rfl⟩, hbehind, rfl⟩ := h
  obtain ⟨rfl, -⟩ := (Shape.recognizes_literal (quoted name) _ _ _).1 hname
  obtain ⟨rfl, -⟩ := (Shape.recognizes_word ":" _ _ _).1 hcolon
  have htext : before ++ quoted name ++ between ++ ":".toList ++ behind =
      before ++ (quoted name ++ (between ++ ':' :: behind)) := by simp
  have l : Lead name (before ++ quoted name ++ between ++ ":".toList ++ behind) :=
    ⟨before, between, behind, (Shape.take?_run_iff.1 hbefore).1,
      (Shape.take?_run_iff.1 hbetween).1, (Shape.take?_run_iff.1 hbehind).1, htext⟩
  rw [← hsplit]
  exact ⟨l, l.leadingBlanks_append rest⟩

/-- The lead of a member is taken whatever stands behind it, blanks apart. -/
theorem Lead.take? {name : String} {lead : List Char} (l : Lead name lead)
    {s : List Char} (hs : ∀ c cs, s = c :: cs → Text.isBlank c = false) :
    (memberLead name).take? (lead ++ s) = some (lead, s) := by
  obtain ⟨before, between, behind, hbefore, hbetween, hbehind, rfl⟩ := l
  have hquote : Text.isBlank '"' = false := by decide
  have hcolon : Text.isBlank ':' = false := by decide
  have hfirst : Shape.blanks.take? (before ++ (quoted name ++ (between ++ ':' :: behind)) ++ s) =
      some (before, quoted name ++ (between ++ ':' :: (behind ++ s))) :=
    Shape.take?_run_iff.2 ⟨hbefore, by simp, by rintro c cs ⟨⟩; exact hquote⟩
  have hsecond : Shape.blanks.take? (between ++ ':' :: (behind ++ s)) =
      some (between, ':' :: (behind ++ s)) :=
    Shape.take?_run_iff.2 ⟨hbetween, rfl, by rintro c cs ⟨⟩; exact hcolon⟩
  have hthird : Shape.blanks.take? (behind ++ s) = some (behind, s) :=
    Shape.take?_run_iff.2 ⟨hbehind, rfl, hs⟩
  simp only [memberLead, Shape.take?_append_iff]
  refine ⟨before ++ quoted name ++ between ++ [':'], behind ++ s, behind,
    ⟨before ++ quoted name ++ between, ':' :: (behind ++ s), [':'],
      ⟨before ++ quoted name, between ++ ':' :: (behind ++ s), between,
        ⟨before, _, quoted name, hfirst, Shape.take?_literal_append _ _, rfl⟩, hsecond, rfl⟩,
      Shape.take?_literal_append [':'] _, rfl⟩, hthird, by simp⟩

theorem isBlank_of_take?_memberLead {name : String} {line lead rest : List Char} {c : Char}
    (h : (memberLead name).take? line = some (lead, c :: rest)) : Text.isBlank c = false := by
  obtain ⟨_, _, _, -, hbehind, -⟩ := Shape.take?_append_iff.1 h
  obtain ⟨-, -, hrest⟩ := Shape.take?_run_iff.1 hbehind
  exact hrest c rest rfl

/-- The text starts with a member of the given name, and goes on with its value. -/
def StartsMember (name : String) (s : List Char) : Prop :=
  ∃ lead c rest, Nonempty (Lead name lead) ∧ Text.isBlank c = false ∧ s = lead ++ c :: rest

theorem startsMember_iff {name : String} {s : List Char} : StartsMember name s ↔
    ∃ found ∈ (memberLead name).take? s, found.2 ≠ [] := by
  constructor
  · rintro ⟨lead, c, rest, ⟨l⟩, hc, rfl⟩
    exact ⟨(lead, c :: rest), l.take? (by rintro _ _ ⟨⟩; exact hc), List.cons_ne_nil _ _⟩
  · rintro ⟨⟨lead, rest⟩, htake, hne⟩
    obtain ⟨c, rest, rfl⟩ := List.exists_cons_of_ne_nil hne
    obtain ⟨hsplit, l, -⟩ := exists_lead htake
    exact ⟨lead, c, rest, ⟨l⟩, isBlank_of_take?_memberLead htake, hsplit.symm⟩

instance (name : String) (s : List Char) : Decidable (StartsMember name s) :=
  decidable_of_iff (∃ found ∈ (memberLead name).take? s, found.2 ≠ []) startsMember_iff.symm

/-- What stands behind the blanks of a line that starts with a member. -/
theorem dropWhile_isBlank_of_lead {name : String} {line lead rest : List Char}
    (h : (memberLead name).take? line = some (lead, rest)) :
    ∃ more, line.dropWhile Text.isBlank = '"' :: (name.toList ++ more) := by
  obtain ⟨hsplit, ⟨before, between, behind, hbefore, -, -, rfl⟩, -⟩ := exists_lead h
  have hquote : Text.isBlank '"' = false := by decide
  refine ⟨'"' :: (between ++ ':' :: (behind ++ rest)), ?_⟩
  rw [← hsplit, List.append_assoc, List.dropWhile_append_of_pos hbefore]
  simp [quoted, hquote]

/-! ## Blanks -/

variable {σ τ : Reading}

theorem not_isAtomChar_of_isBlank {c : Char} (h : Text.isBlank c = true) :
    isAtomChar c = false := by
  cases hc : isAtomChar c with
  | false => rfl
  | true =>
    exfalso
    simp only [isAtomChar, Bool.or_eq_true, beq_iff_eq] at hc
    rcases hc with ((hc | rfl) | rfl) | rfl
    · rw [isBlank_of_isAlphanum hc] at h
      cases h
    · exact absurd h (by decide)
    · exact absurd h (by decide)
    · exact absurd h (by decide)

/-- Blanks of any kind that the machine takes between two tokens are blanks of JSON. -/
theorem run_of_isBlank {s : List Char} (hidle : σ.mode = .idle)
    (hs : ∀ c ∈ s, Text.isBlank c = true) (h : σ.run s = some τ) :
    AllBlank s ∧ τ.frames = σ.frames ∧ τ.phase = σ.phase ∧ τ.mode = .idle := by
  induction s generalizing σ with
  | nil =>
    cases h
    exact ⟨by simp [AllBlank], rfl, rfl, hidle⟩
  | cons c s ih =>
    obtain ⟨ρ, hstep, hrun⟩ := run_cons_eq_some.1 h
    have hc := hs c List.mem_cons_self
    have hstart : Cursor.isBlank c = true ∧ ρ.frames = σ.frames ∧ ρ.phase = σ.phase ∧
        ρ.mode = .idle := by
      have hbetween := between_of_step hidle hstep
      generalize σ.frames = frames, σ.phase = phase, ρ.frames = frames', ρ.phase = phase',
        ρ.mode = mode at hbetween ⊢
      cases hbetween with
      | blank hblank => exact ⟨hblank, rfl, rfl, rfl⟩
      | atom hatom =>
        rw [not_isAtomChar_of_isBlank hc] at hatom
        cases hatom
      | _ hchar =>
        -- the character is a quote, a bracket, a comma or a colon
        rw [hchar] at hc
        exact absurd hc (by decide)
    obtain ⟨hblank, hframes, hphase, hmode⟩ := hstart
    obtain ⟨hall, hframes', hphase', hmode'⟩ :=
      ih hmode (fun d hd => hs d (List.mem_cons_of_mem _ hd)) hrun
    refine ⟨?_, hframes'.trans hframes, hphase'.trans hphase, hmode'⟩
    intro d hd
    rcases List.mem_cons.1 hd with rfl | hd
    · exact hblank
    · exact hall d hd

/-! ## The lead of a member -/

theorem quote_of_step (hidle : σ.mode = .idle) (h : σ.step '"' = some τ) :
    (σ.phase.takesValue || σ.phase.takesName) = true ∧ τ.frames = σ.frames ∧ τ.phase = σ.phase ∧
      τ.mode = .text σ.place [] false := by
  have hbetween := between_of_step hidle h
  generalize σ.frames = frames, σ.phase = phase, τ.frames = frames', τ.phase = phase',
    τ.mode = mode at hbetween ⊢
  cases hbetween with
  | quote _ hphase => exact ⟨hphase, rfl, rfl, rfl⟩
  | blank hc => exact absurd hc (by decide)
  | atom hc => exact absurd hc (by decide)
  | _ hc => exact absurd hc (by decide)

theorem colon_of_step (hidle : σ.mode = .idle) (h : σ.step ':' = some τ) :
    σ.phase = .colon ∧ τ.frames = σ.frames ∧ τ.phase = .value ∧ τ.mode = .idle := by
  have hbetween := between_of_step hidle h
  generalize σ.frames = frames, σ.phase = phase, τ.frames = frames', τ.phase = phase',
    τ.mode = mode at hbetween
  cases hbetween with
  | colon _ => exact ⟨rfl, rfl, rfl, rfl⟩
  | blank hc => exact absurd hc (by decide)
  | atom hc => exact absurd hc (by decide)
  | _ hc => exact absurd hc (by decide)

/-- A quoted name is a member's name or a value; behind a value there is no colon. -/
theorem run_quoted_cases {name : String} (hname : IsPlain name.toList) (hidle : σ.mode = .idle)
    (h : σ.run (quoted name) = some τ) :
    τ.mode = .idle ∧ (τ.phase = .done ∨ (σ.phase.takesName = true ∧ τ.phase = .colon ∧
      ∃ opened ms outer, σ.frames = .object opened ms none :: outer ∧
        τ.frames = .object opened ms (some (name, σ.place)) :: outer)) := by
  obtain ⟨frames, phase, mode, place⟩ := σ
  obtain rfl : mode = .idle := hidle
  obtain ⟨ρ, hstep, -⟩ := run_cons_eq_some.1 h
  have hphase := (quote_of_step rfl hstep).1
  obtain ⟨place₁, place₂, hrun⟩ := run_quoted frames place (isText_plain hname) hphase
  rw [quoted, hrun, Reading.giveText, text?_plain hname] at h
  obtain ⟨ρ, hgive, rfl⟩ := Option.map_eq_some_iff.1 h
  simp only at hgive
  split at hgive
  · next hname =>
    split at hgive
    · next opened ms outer =>
      cases hgive
      exact ⟨rfl, .inr ⟨hname, rfl, opened, ms, outer, rfl, rfl⟩⟩
    · cases hgive
  · rw [Reading.give] at hgive
    split at hgive
    · obtain ⟨frames', _, rfl⟩ := Option.map_eq_some_iff.1 hgive
      exact ⟨rfl, .inl rfl⟩
    · cases hgive

/-- The machine over the lead of a member: the lead stands in an object, its blanks are blanks of
JSON, and behind it the object waits for the value of the member. -/
structure RunsLead {name : String} {text : List Char} (l : Lead name text) (σ τ : Reading) :
    Prop where
  before : AllBlank l.before
  between : AllBlank l.between
  behind : AllBlank l.behind
  takesName : σ.phase.takesName = true
  frames : ∃ opened ms outer, σ.frames = .object opened ms none :: outer ∧
    τ.frames = .object opened ms
      (some (name, ⟨σ.place.line, σ.place.column + l.before.length⟩)) :: outer
  phase : τ.phase = .value
  idle : τ.mode = .idle
  place : τ.place = ⟨σ.place.line, σ.place.column + text.length⟩

theorem RunsLead.listDepth_eq {name : String} {text : List Char} {l : Lead name text}
    (h : RunsLead l σ τ) : listDepth τ.frames = listDepth σ.frames := by
  obtain ⟨opened, ms, outer, hobject, hnamed⟩ := h.frames
  rw [hobject, hnamed, listDepth, listDepth]

/-- **Behind the lead of a member** an object waits for the value of that member. -/
theorem run_memberLead {name : String} {text : List Char} (l : Lead name text)
    (hname : IsPlain name.toList) (hidle : σ.mode = .idle) (h : σ.run text = some τ)
    (hline : '\n' ∉ text) : RunsLead l σ τ := by
  have hplace := place_of_run hline h
  rw [l.text_eq] at h hline
  simp only [List.mem_append, not_or] at hline
  obtain ⟨ρ₁, h₁, h⟩ := run_append_eq_some.1 h
  obtain ⟨ρ₂, h₂, h⟩ := run_append_eq_some.1 h
  obtain ⟨ρ₃, h₃, h⟩ := run_append_eq_some.1 h
  obtain ⟨ρ₄, h₄, h⟩ := run_cons_eq_some.1 h
  obtain ⟨hbefore, hframes₁, hphase₁, hmode₁⟩ := run_of_isBlank hidle l.isBlank_before h₁
  obtain ⟨hmode₂, hcases⟩ := run_quoted_cases hname hmode₁ h₂
  obtain ⟨hbetween, hframes₃, hphase₃, hmode₃⟩ := run_of_isBlank hmode₂ l.isBlank_between h₃
  obtain ⟨hcolon, hframes₄, hphase₄, hmode₄⟩ := colon_of_step hmode₃ h₄
  obtain ⟨hbehind, hframes₅, hphase₅, hmode₅⟩ := run_of_isBlank hmode₄ l.isBlank_behind h
  rw [hphase₃] at hcolon
  rcases hcases with hdone | ⟨htakes, -, opened, ms, outer, hobject, hnamed⟩
  · rw [hdone] at hcolon
    cases hcolon
  · refine ⟨hbefore, hbetween, hbehind, hphase₁ ▸ htakes, ⟨opened, ms, outer, ?_, ?_⟩, ?_, hmode₅,
      hplace⟩
    · rw [← hframes₁, hobject]
    · rw [hframes₅, hframes₄, hframes₃, hnamed, place_of_run hline.1 h₁]
    · rw [hphase₅, hphase₄]

/-- The lead of a member, where the name of a member may stand. -/
theorem run_lead {name : String} {text : List Char} (l : Lead name text)
    (hname : IsPlain name.toList) (hbefore : AllBlank l.before) (hbetween : AllBlank l.between)
    (hbehind : AllBlank l.behind) {opened place : Position} {ms : List (Member Node)}
    {outer : List Frame} {phase : Phase} (hphase : phase.takesName = true) :
    ∃ place₁ place₂, run ⟨.object opened ms none :: outer, phase, .idle, place⟩ text =
      some ⟨.object opened ms (some (name, place₁)) :: outer, .value, .idle, place₂⟩ := by
  obtain ⟨place₁, h₁⟩ := run_blanks (.object opened ms none :: outer) phase place hbefore
  obtain ⟨place₂, h₂⟩ := run_name opened ms outer place₁ hphase (isText_plain hname)
    (text?_plain hname)
  obtain ⟨place₃, h₃⟩ :=
    run_blanks (.object opened ms (some (name, place₁)) :: outer) .colon place₂ hbetween
  obtain ⟨place₄, h₄⟩ := run_blanks (.object opened ms (some (name, place₁)) :: outer) .value
    (place₃.past ':') hbehind
  refine ⟨place₁, place₄, ?_⟩
  rw [l.text_eq, run_append, h₁, Option.bind_some, quoted, run_append, h₂, Option.bind_some,
    run_append, h₃, Option.bind_some, run_cons, Between.step (.colon rfl), Option.bind_some, h₄]

/-! ## The value of a default -/

/-- A default value is a text without quotes, in quotes, or it is made of characters of numbers. -/
theorem defaultValue_cases {s value trail : List Char}
    (h : defaultValue.take? s = some (value, trail)) :
    (∃ body, value = '"' :: body ++ ['"'] ∧ '"' ∉ body) ∨
      (∃ c more, value = c :: more ∧ ∀ d ∈ value, isAtomChar d = true) := by
  rcases Shape.take?_orElse_iff.1 h with h | ⟨-, h⟩
  · left
    obtain ⟨_, s₂, _, hbody, hclose, rfl⟩ := Shape.take?_append_iff.1 h
    obtain ⟨_, s₁, body, hopen, hrun, rfl⟩ := Shape.take?_append_iff.1 hbody
    obtain ⟨rfl, -⟩ := (Shape.recognizes_word "\"" _ _ _).1 hopen
    obtain ⟨rfl, -⟩ := (Shape.recognizes_word "\"" _ _ _).1 hclose
    refine ⟨body, rfl, fun hmem => ?_⟩
    simpa using (Shape.take?_run_iff.1 hrun).1 '"' hmem
  · right
    obtain ⟨_, s₂, tail, hhead, htail, rfl⟩ := Shape.take?_append_iff.1 h
    obtain ⟨sign, s₁, digit, hsign, hdigit, rfl⟩ := Shape.take?_append_iff.1 hhead
    have htail : ∀ d ∈ tail, isAtomChar d = true := by
      intro d hd
      have := (Shape.take?_run_iff.1 htail).1 d hd
      rw [Bool.or_eq_true, decide_eq_true_eq] at this
      rcases this with hdigit | rfl
      · exact isAtomChar_of_isDigit hdigit
      · decide
    have hsign : ∀ d ∈ sign, isAtomChar d = true := by
      rcases Shape.take?_orElse_iff.1 hsign with hminus | ⟨-, hnone⟩
      · obtain ⟨rfl, -⟩ := (Shape.recognizes_word "-" _ _ _).1 hminus
        simp [isAtomChar]
      · cases hnone
        simp
    obtain ⟨d, rfl, hd⟩ : ∃ d, digit = [d] ∧ d.isDigit = true := by
      simp only [Shape.one] at hdigit
      split at hdigit
      · cases hdigit
      · split at hdigit
        · next hd => cases hdigit; exact ⟨_, rfl, hd⟩
        · cases hdigit
    have hall : ∀ x ∈ sign ++ [d] ++ tail, isAtomChar x = true := by
      intro x hx
      simp only [List.mem_append, List.mem_singleton] at hx
      rcases hx with (hx | rfl) | hx
      · exact hsign x hx
      · exact isAtomChar_of_isDigit hd
      · exact htail x hx
    obtain ⟨c, more, hcons⟩ : ∃ c more, sign ++ [d] ++ tail = c :: more :=
      List.exists_cons_of_ne_nil (by simp)
    exact ⟨c, more, hcons, hall⟩

section
variable {s : List Char}

theorem take?_quotedText (hs : '"' ∉ s) (t : List Char) :
    Shape.quotedText.take? ('"' :: (s ++ '"' :: t)) = some ('"' :: s ++ ['"'], t) := by
  have hrun : (Shape.run (· ≠ '"')).take? (s ++ '"' :: t) = some (s, '"' :: t) := by
    refine Shape.take?_run_iff.2 ⟨fun c hc => ?_, rfl, by rintro c cs ⟨⟩; decide⟩
    have hne : c ≠ '"' := by
      rintro rfl
      exact hs hc
    simpa using hne
  simp only [Shape.quotedText, Shape.take?_append_iff]
  exact ⟨'"' :: s, '"' :: t, ['"'],
    ⟨['"'], s ++ '"' :: t, s, Shape.take?_literal_append ['"'] _, hrun, rfl⟩,
    Shape.take?_literal_append ['"'] _, rfl⟩

theorem dropWhile_quote (hs : '"' ∉ s) : s.dropWhile (· = '"') = s := by
  cases s with
  | nil => rfl
  | cons c s =>
    have hc : c ≠ '"' := fun h => hs (h ▸ List.mem_cons_self)
    exact List.dropWhile_cons_of_neg (by simpa using hc)

theorem DefaultLine.token_of_quotes {l : DefaultLine} (hs : '"' ∉ s)
    (hvalue : l.value = '"' :: s ++ ['"']) : l.token = s := by
  have hfront :
      ('"' :: s ++ ['"']).dropWhile (· = '"') = s.dropWhile (· = '"') ++ ['"'] ∨ s = [] := by
    cases s with
    | nil => exact .inr rfl
    | cons c s =>
      have hc : c ≠ '"' := fun h => hs (h ▸ List.mem_cons_self)
      left
      simp [hc]
  rw [DefaultLine.token, hvalue]
  rcases hfront with hfront | rfl
  · have hback : '"' ∉ s.reverse := fun hmem => hs (List.mem_reverse.1 hmem)
    rw [hfront, dropWhile_quote hs, List.reverse_append, List.reverse_singleton,
      List.singleton_append, List.dropWhile_cons_of_pos (by simp), dropWhile_quote hback,
      List.reverse_reverse]
  · rfl

theorem DefaultLine.token_of_notMem {l : DefaultLine} (h : '"' ∉ l.value) : l.token = l.value := by
  have hback : '"' ∉ l.value.reverse := fun hmem => h (List.mem_reverse.1 hmem)
  rw [token, dropWhile_quote h, dropWhile_quote hback, List.reverse_reverse]

/-- A default value in quotes is read as such. -/
theorem ofLine?_of_lead {lead : List Char} (l : Lead "default_value" lead) (hs : '"' ∉ s)
    (t : List Char) : DefaultLine.ofLine? (lead ++ '"' :: (s ++ '"' :: t)) =
      some ⟨lead, '"' :: s ++ ['"'], t⟩ := by
  have htake : (memberLead "default_value").take? (lead ++ '"' :: (s ++ '"' :: t)) =
      some (lead, '"' :: (s ++ '"' :: t)) :=
    l.take? (by rintro c cs ⟨⟩; decide)
  have hquoted : defaultValue.take? ('"' :: (s ++ '"' :: t)) = some ('"' :: s ++ ['"'], t) :=
    Shape.take?_orElse_iff.2 (.inl (take?_quotedText hs t))
  rw [DefaultLine.ofLine?, defaultLead_eq, htake]
  simp only [hquoted, Option.map_some]

/-- A number is taken up to the first character that is neither a digit nor a point. -/
theorem take?_numeral {sign t rest : List Char} {d : Char} (hsign : sign = [] ∨ sign = ['-'])
    (hd : d.isDigit = true) (ht : ∀ c ∈ t, isNumberChar c = true)
    (hrest : ∀ c cs, rest = c :: cs → isNumberChar c = false) :
    defaultValue.take? (sign ++ d :: (t ++ rest)) = some (sign ++ d :: t, rest) := by
  have hword : ∀ {w : String} {c e : Char} {cs : List Char}, w.toList = [c] → e ≠ c →
      (Shape.word w).take? (e :: cs) = none := by
    intro w c e cs hw hne
    simp [Shape.word, Shape.literal, hw, stripWord, hne]
  have hne : ∀ c, c.isDigit = false → d ≠ c := by
    rintro c hc rfl
    rw [hd] at hc
    cases hc
  have hquoted : Shape.quotedText.take? (sign ++ d :: (t ++ rest)) = none := by
    refine Shape.take?_append_eq_none (Shape.take?_append_eq_none ?_)
    rcases hsign with rfl | rfl
    · exact hword rfl (hne '"' rfl)
    · exact hword rfl (by decide)
  have hsign : (Shape.optional (.word "-")).take? (sign ++ d :: (t ++ rest)) =
      some (sign, d :: (t ++ rest)) := by
    rcases hsign with rfl | rfl
    · exact Shape.take?_orElse_iff.2 (.inr ⟨hword rfl (hne '-' rfl), rfl⟩)
    · exact Shape.take?_orElse_iff.2 (.inl (Shape.take?_literal_append ['-'] _))
  refine Shape.take?_orElse_iff.2 (.inr ⟨hquoted, ?_⟩)
  simp only [Shape.take?_append_iff]
  refine ⟨sign ++ [d], t ++ rest, t, ⟨sign, _, [d], hsign, ?_, rfl⟩, ?_, by simp⟩
  · simp [Shape.one, hd]
  · exact Shape.take?_run_iff.2 ⟨ht, rfl, hrest⟩

end

theorem run_of_text {start : Position} {raw s : List Char} {escaped : Bool}
    (hmode : σ.mode = .text start raw escaped) (hs : '"' ∉ s) (h : σ.run s = some τ) :
    τ.frames = σ.frames ∧ τ.phase = σ.phase ∧
      ∃ escaped', τ.mode = .text start (raw ++ s) escaped' := by
  induction s generalizing σ raw escaped with
  | nil =>
    cases h
    exact ⟨rfl, rfl, escaped, by rw [hmode, List.append_nil]⟩
  | cons c s ih =>
    obtain ⟨ρ, hstep, hrun⟩ := run_cons_eq_some.1 h
    rw [List.mem_cons, not_or] at hs
    have hstart : ρ.frames = σ.frames ∧ ρ.phase = σ.phase ∧
        ∃ escaped', ρ.mode = .text start (raw ++ [c]) escaped' := by
      rcases text_of_step hmode hstep with ⟨hframes, hphase, hmode'⟩ | ⟨hc, -, -⟩
      · exact ⟨hframes, hphase, _, hmode'⟩
      · exact absurd hc.symm hs.1
    obtain ⟨hframes, hphase, escaped', hmode'⟩ := hstart
    obtain ⟨hframes', hphase', hmode''⟩ := ih hmode' hs.2 hrun
    rw [List.append_assoc] at hmode''
    exact ⟨hframes'.trans hframes, hphase'.trans hphase, hmode''⟩

theorem run_of_atom {raw s : List Char} (hmode : σ.mode = .atom raw)
    (hs : ∀ c ∈ s, isAtomChar c = true) (h : σ.run s = some τ) :
    τ.frames = σ.frames ∧ τ.phase = σ.phase ∧ τ.mode = .atom (raw ++ s) := by
  induction s generalizing σ raw with
  | nil =>
    cases h
    exact ⟨rfl, rfl, by rw [hmode, List.append_nil]⟩
  | cons c s ih =>
    obtain ⟨ρ, hstep, hrun⟩ := run_cons_eq_some.1 h
    have hstart : ρ.frames = σ.frames ∧ ρ.phase = σ.phase ∧ ρ.mode = .atom (raw ++ [c]) := by
      rcases atom_of_step hmode hstep with ⟨-, hsame⟩ | ⟨hc, -⟩
      · exact hsame
      · rw [hs c List.mem_cons_self] at hc
        cases hc
    obtain ⟨hframes, hphase, hmode'⟩ := hstart
    obtain ⟨hframes', hphase', hmode''⟩ := ih hmode' (fun d hd => hs d (List.mem_cons_of_mem _ hd))
      hrun
    rw [List.append_assoc] at hmode''
    exact ⟨hframes'.trans hframes, hphase'.trans hphase, hmode''⟩

theorem run_quotedValue {body : List Char} (hidle : σ.mode = .idle) (hphase : σ.phase = .value)
    (hbody : '"' ∉ body) (h : σ.run ('"' :: body ++ ['"']) = some τ) :
    quoteState τ.mode = .inside ∨ (τ.phase = .done ∧ τ.mode = .idle ∧
      ∃ spelling v, attach (.scalar spelling v) σ.frames = some τ.frames) := by
  obtain ⟨ρ₁, hstep, h⟩ := run_cons_eq_some.1 h
  obtain ⟨ρ₂, hrun, h⟩ := run_append_eq_some.1 h
  rw [run_singleton] at h
  obtain ⟨-, hframes₁, hphase₁, hmode₁⟩ := quote_of_step hidle hstep
  obtain ⟨hframes₂, hphase₂, escaped, hmode₂⟩ := run_of_text hmode₁ hbody hrun
  rw [hframes₁] at hframes₂
  rw [hphase₁, hphase] at hphase₂
  rcases text_of_step hmode₂ h with ⟨-, -, hmode⟩ | ⟨-, hmode, hname | ⟨hdone, s, hattach⟩⟩
  · left
    rw [hmode]
    cases escaped <;> rfl
  · rw [hphase₂] at hname
    cases hname
  · rw [hframes₂] at hattach
    exact .inr ⟨hdone, hmode, _, _, hattach⟩

theorem run_atomValue {c : Char} {more : List Char} (hidle : σ.mode = .idle)
    (hatom : ∀ d ∈ c :: more, isAtomChar d = true) (h : σ.run (c :: more) = some τ) :
    τ.frames = σ.frames ∧ τ.phase = σ.phase ∧ τ.mode = .atom (c :: more) := by
  obtain ⟨ρ, hstep, hrun⟩ := run_cons_eq_some.1 h
  have hc := hatom c List.mem_cons_self
  have hstart : ρ.frames = σ.frames ∧ ρ.phase = σ.phase ∧ ρ.mode = .atom [c] := by
    have hbetween := between_of_step hidle hstep
    generalize σ.frames = frames, σ.phase = phase, ρ.frames = frames', ρ.phase = phase',
      ρ.mode = mode at hbetween ⊢
    cases hbetween with
    | atom _ _ => exact ⟨rfl, rfl, rfl⟩
    | blank hblank => rw [isBlank_not_atom hblank] at hc; cases hc
    | quote hchar => exact absurd hchar (ne_of_isAtomChar hc rfl)
    | openList hchar => exact absurd hchar (ne_of_isAtomChar hc rfl)
    | openObject hchar => exact absurd hchar (ne_of_isAtomChar hc rfl)
    | closeList hchar => exact absurd hchar (ne_of_isAtomChar hc rfl)
    | closeObject hchar => exact absurd hchar (ne_of_isAtomChar hc rfl)
    | listComma hchar => exact absurd hchar (ne_of_isAtomChar hc rfl)
    | objectComma hchar => exact absurd hchar (ne_of_isAtomChar hc rfl)
    | colon hchar => exact absurd hchar (ne_of_isAtomChar hc rfl)
  obtain ⟨hframes, hphase, hmode⟩ := hstart
  obtain ⟨hframes', hphase', hmode'⟩ :=
    run_of_atom hmode (fun d hd => hatom d (List.mem_cons_of_mem _ hd)) hrun
  exact ⟨hframes'.trans hframes, hphase'.trans hphase, hmode'⟩

/-- A number or literal name is taken at the first character that cannot belong to it. -/
theorem run_settle {raw : List Char} {c : Char} {s : List Char} (hmode : σ.mode = .atom raw)
    (hc : isAtomChar c = false) (h : σ.run (c :: s) = some τ) :
    ∃ v frames, attach (.scalar raw v) σ.frames = some frames ∧
      run ⟨frames, .done, .idle, σ.place⟩ (c :: s) = some τ := by
  obtain ⟨ρ, hstep, hrun⟩ := run_cons_eq_some.1 h
  have hplace := (step_iff.1 hstep).1
  rcases atom_of_step hmode hstep with ⟨hatom, -⟩ | ⟨-, v, frames, hattach, hbetween⟩
  · rw [hc] at hatom
    cases hatom
  · refine ⟨v, frames, hattach, run_cons_eq_some.2 ⟨ρ, ?_, hrun⟩⟩
    rw [hbetween.step, ← hplace]

/-- Behind a value no number or literal name can start. -/
theorem not_isAtomChar_of_done {c : Char} (hidle : σ.mode = .idle) (hdone : σ.phase = .done)
    (h : σ.step c = some τ) : isAtomChar c = false := by
  have hbetween := between_of_step hidle h
  rw [hdone] at hbetween
  generalize σ.frames = frames, τ.frames = frames', τ.phase = phase', τ.mode = mode at hbetween
  cases hbetween with
  | blank hc => exact isBlank_not_atom hc
  | quote _ hphase => cases hphase
  | openList _ hphase => cases hphase
  | openObject _ hphase => cases hphase
  | closeList hc => rw [hc]; rfl
  | closeObject hc => rw [hc]; rfl
  | listComma hc => rw [hc]; rfl
  | objectComma hc => rw [hc]; rfl
  | atom _ hphase => cases hphase

/-- Behind the quote that closes a string the machine stands between two tokens. -/
theorem idle_of_run_quoted {raw : List Char} (hraw : IsText raw) (hidle : σ.mode = .idle)
    (h : σ.run ('"' :: raw ++ ['"']) = some τ) : τ.mode = .idle := by
  obtain ⟨frames, phase, mode, place⟩ := σ
  obtain rfl : mode = .idle := hidle
  obtain ⟨ρ, hstep, -⟩ := run_cons_eq_some.1 h
  obtain ⟨place₁, place₂, hrun⟩ := run_quoted frames place hraw (quote_of_step rfl hstep).1
  rw [hrun, Reading.giveText] at h
  obtain ⟨ρ, hgive, rfl⟩ := Option.map_eq_some_iff.1 h
  split at hgive
  · cases hgive
  · split at hgive
    · split at hgive
      · cases hgive
        rfl
      · cases hgive
    · rw [Reading.give] at hgive
      split at hgive
      · obtain ⟨_, -, rfl⟩ := Option.map_eq_some_iff.1 hgive
        rfl
      · cases hgive

/-- Behind a default value the value is taken, if no string goes on there and no number. -/
theorem run_takenValue {s value trail : List Char}
    (hvalue : defaultValue.take? s = some (value, trail)) (hidle : σ.mode = .idle)
    (hphase : σ.phase = .value) (h : σ.run (value ++ (trail ++ ['\n'])) = some τ)
    (hline : '\n' ∉ value)
    (houtside : ∀ ρ, σ.run value = some ρ → ρ.run (trail ++ ['\n']) = some τ →
      quoteState ρ.mode ≠ .inside)
    (hbreaks : Breaks (trail ++ ['\n'])) :
    ∃ spelling v frames, attach (.scalar spelling v) σ.frames = some frames ∧
      run ⟨frames, .done, .idle, ⟨σ.place.line, σ.place.column + value.length⟩⟩ (trail ++ ['\n']) =
        some τ := by
  obtain ⟨ρ, hrun, hrest⟩ := run_append_eq_some.1 h
  have hplace := place_of_run hline hrun
  rcases defaultValue_cases hvalue with ⟨body, rfl, hbody⟩ | ⟨c, more, rfl, hatom⟩
  · rcases run_quotedValue hidle hphase hbody hrun with
      hinside | ⟨hdone, hmode, spelling, v, hattach⟩
    · exact absurd hinside (houtside ρ hrun hrest)
    · refine ⟨spelling, v, ρ.frames, hattach, ?_⟩
      rw [← hplace, ← hdone, ← hmode]
      exact hrest
  · obtain ⟨hframes, -, hmode⟩ := run_atomValue hidle hatom hrun
    obtain ⟨d, more', hd⟩ : ∃ d more', trail ++ ['\n'] = d :: more' :=
      List.exists_cons_of_ne_nil (by simp)
    rw [hd] at hbreaks hrest ⊢
    obtain ⟨v, frames, hattach, hsettled⟩ := run_settle hmode (hbreaks d rfl) hrest
    rw [hframes] at hattach
    rw [hplace] at hsettled
    exact ⟨_, v, frames, hattach, hsettled⟩

/-- **Behind a default value** that is followed by what may also follow a finished value: the value
is a scalar. A text with an escaped quote goes on behind the quote for the machine, and what follows
it could not be read as the rest of that text and on its own as well. -/
theorem run_defaultValue {s value trail : List Char} {σ' τ' : Reading}
    (hvalue : defaultValue.take? s = some (value, trail)) (hidle : σ.mode = .idle)
    (hphase : σ.phase = .value) (h : σ.run (value ++ (trail ++ ['\n'])) = some τ)
    (hidle' : σ'.mode = .idle) (hdone' : σ'.phase = .done)
    (h' : σ'.run (trail ++ ['\n']) = some τ') (hline : '\n' ∉ value) :
    ∃ spelling v frames, attach (.scalar spelling v) σ.frames = some frames ∧
      run ⟨frames, .done, .idle, ⟨σ.place.line, σ.place.column + value.length⟩⟩ (trail ++ ['\n']) =
        some τ := by
  refine run_takenValue hvalue hidle hphase h hline (fun ρ _ hrest hinside => ?_) ?_
  · exact absurd h' (not_both_text hinside (by rw [hidle']; rfl) hrest)
  · intro d hd
    obtain ⟨more, hcons⟩ : ∃ more, trail ++ ['\n'] = d :: more := List.head?_eq_some_iff.1 hd
    rw [hcons] at h'
    obtain ⟨ρ', hstep', -⟩ := run_cons_eq_some.1 h'
    exact not_isAtomChar_of_done hidle' hdone' hstep'

/-- The scan takes a default value whole: no quote in it is escaped, and no number goes on behind
it. -/
def TakenWhole (value trail : List Char) : Prop := IsText (value.drop 1).dropLast ∧ Breaks trail

instance (value trail : List Char) : Decidable (TakenWhole value trail) :=
  inferInstanceAs (Decidable (scanText false _ = some false ∧ Breaks trail))

/-- **Behind a default value that is taken whole.** -/
theorem run_wholeValue {s value trail : List Char}
    (hvalue : defaultValue.take? s = some (value, trail)) (hidle : σ.mode = .idle)
    (hphase : σ.phase = .value) (h : σ.run (value ++ (trail ++ ['\n'])) = some τ)
    (hwhole : TakenWhole value trail) (hline : '\n' ∉ value) :
    ∃ spelling v frames, attach (.scalar spelling v) σ.frames = some frames ∧
      run ⟨frames, .done, .idle, ⟨σ.place.line, σ.place.column + value.length⟩⟩ (trail ++ ['\n']) =
        some τ := by
  obtain ⟨htext, hbreaks⟩ := hwhole
  refine run_takenValue hvalue hidle hphase h hline (fun ρ hrun _ => ?_) ?_
  · have hmode : ρ.mode = .idle ∨ ∃ raw, ρ.mode = .atom raw := by
      rcases defaultValue_cases hvalue with ⟨body, rfl, -⟩ | ⟨c, more, rfl, hatom⟩
      · rw [List.cons_append, List.drop_one, List.tail_cons, List.dropLast_concat] at htext
        exact .inl (idle_of_run_quoted htext hidle hrun)
      · exact .inr ⟨_, (run_atomValue hidle hatom hrun).2.2⟩
    rcases hmode with hmode | ⟨raw, hmode⟩
    · rw [hmode]
      decide
    · rw [hmode]
      exact fun hinside => by cases hinside
  · intro d hd
    cases trail with
    | nil =>
      cases hd
      rfl
    | cons c trail => exact hbreaks d hd

end VersionAlignment.Artifact.Catalog
