import VersionAlignment.Proofs.Json.Grammar

/-!
# The two readers of JSON

Every text that is a document by the grammar is followed by the machine to its end, and the node
that it builds is the one of the grammar. The proof follows the grammar: for each of its parts a
lemma says from which state to which state the machine goes between the two spots. What is read as a
value is one by the grammar, so the machine follows the reader too.

## Results

* `follow_stands`: the machine over one value.
* `ofText?_of_standsIn`: the machine over a document.
* `exists_node_of_parse`: the machine follows what is read.
-/

set_option autoImplicit false

namespace VersionAlignment.Json

open Cursor (isBlank)

/-- The machine, standing between two tokens, on the text and the line feed behind it. -/
def follow (frames : List Frame) (phase : Phase) (place : Position) (s : List Char) :
    Option Reading :=
  Reading.run ⟨frames, phase, .idle, place⟩ (s ++ ['\n'])

variable {frames outer : List Frame} {phase : Phase} {place opened : Position}

theorem follow_cons {c : Char} {s : List Char} {frames' : List Frame} {phase' : Phase}
    (h : Reading.between ⟨frames, phase, .idle, place⟩ c = some ⟨frames', phase', .idle, place⟩) :
    follow frames phase place (c :: s) = follow frames' phase' (place.past c) s := by
  simp only [follow, List.cons_append, Reading.run, Reading.step, Reading.look, h, Option.map_some,
    Option.bind_some]

theorem isBlank_not_atom {c : Char} (h : isBlank c = true) : isAtomChar c = false := by
  simp only [isBlank, Bool.or_eq_true, decide_eq_true_eq] at h
  rcases h with ((rfl | rfl) | rfl) | rfl <;> decide

theorem follow_of_run {w : List Char} {frames' : List Frame} {phase' : Phase} {place' : Position}
    (h : Reading.run ⟨frames, phase, .idle, place⟩ w = some ⟨frames', phase', .idle, place'⟩)
    (s : List Char) : follow frames phase place (w ++ s) = follow frames' phase' place' s := by
  rw [follow, List.append_assoc, Reading.run_append, h]
  rfl

/-! ## Tokens -/

theorem run_text (frames : List Frame) (phase : Phase) (start : Position) {w : List Char}
    {escaped escaped' : Bool} (h : scanText escaped w = some escaped') (raw : List Char)
    (place : Position) (s : List Char) :
    ∃ place', Reading.run ⟨frames, phase, .text start raw escaped, place⟩ (w ++ s) =
      Reading.run ⟨frames, phase, .text start (raw ++ w) escaped', place'⟩ s := by
  induction w generalizing raw escaped place with
  | nil =>
    cases h
    exact ⟨place, by rw [List.append_nil, List.nil_append]⟩
  | cons c w ih =>
    rw [scanText] at h
    split at h
    · cases h
    · next hcontrol =>
      split at h
      · cases h
      · next hquote =>
        obtain ⟨place', hrun⟩ := ih h (raw ++ [c]) (place.past c)
        refine ⟨place', ?_⟩
        rw [List.append_assoc, List.singleton_append] at hrun
        rw [← hrun]
        simp [Reading.run, Reading.step, Reading.look, Reading.within, hcontrol, hquote]

/-- A string in quotes is given to the state that stands before it. -/
theorem run_quoted (frames : List Frame) (place : Position) {raw : List Char} (hraw : IsText raw)
    (hphase : (phase.takesValue || phase.takesName) = true) :
    ∃ place₁ place₂, Reading.run ⟨frames, phase, .idle, place⟩ ('"' :: raw ++ ['"']) =
      (Reading.giveText ⟨frames, phase, .text place raw false, place₁⟩ place raw).map fun τ =>
        { τ with place := place₂ } := by
  obtain ⟨place₁, hrun⟩ := run_text frames phase place hraw [] (place.past '"') ['"']
  refine ⟨place₁, place₁.past '"', ?_⟩
  have hquote : Reading.between ⟨frames, phase, .idle, place⟩ '"' =
      some ⟨frames, phase, .text place [] false, place⟩ := by
    simp only [Reading.between, hphase, if_true]
    rfl
  have hcontrol : isControl '"' = false := by decide
  rw [List.nil_append] at hrun
  simp only [List.cons_append, Reading.run, Reading.step, Reading.look, hquote, Option.map_some,
    Option.bind_some, hrun, Reading.within]
  simp [hcontrol, Option.map_eq_bind]

theorem run_name (opened : Position) (ms : List (Member Node)) (outer : List Frame)
    (place : Position) {raw : List Char} {name : String} (hphase : phase.takesName = true)
    (hraw : IsText raw) (hname : text? raw = some name) :
    ∃ place', Reading.run ⟨.object opened ms none :: outer, phase, .idle, place⟩
        ('"' :: raw ++ ['"']) =
      some ⟨.object opened ms (some (name, place)) :: outer, .colon, .idle, place'⟩ := by
  have htakes : (phase.takesValue || phase.takesName) = true := by rw [hphase, Bool.or_true]
  obtain ⟨place₁, place₂, h⟩ := run_quoted (.object opened ms none :: outer) place hraw htakes
  exact ⟨place₂, by rw [h]; simp [Reading.giveText, hname, hphase]⟩

theorem run_atom (frames : List Frame) (phase : Phase) {w : List Char}
    (h : ∀ c ∈ w, isAtomChar c = true) (raw : List Char) (place : Position) (s : List Char) :
    Reading.run ⟨frames, phase, .atom raw, place⟩ (w ++ s) =
      Reading.run ⟨frames, phase, .atom (raw ++ w), place.behind w⟩ s := by
  induction w generalizing raw place with
  | nil =>
    rw [List.append_nil]
    rfl
  | cons c w ih =>
    have hrun := ih (fun d hd => h d (List.mem_cons_of_mem _ hd)) (raw ++ [c]) (place.past c)
    rw [List.append_assoc, List.singleton_append] at hrun
    refine Eq.trans ?_ hrun
    simp [Reading.run, Reading.step, Reading.look, h c List.mem_cons_self]

theorem ne_of_isAtomChar {c d : Char} (hc : isAtomChar c = true) (hd : isAtomChar d = false) :
    c ≠ d := by
  rintro rfl
  rw [hc] at hd
  cases hd

theorem between_atom (frames : List Frame) (place : Position) {c : Char} (hc : isAtomChar c = true)
    (hphase : phase.takesValue = true) :
    Reading.between ⟨frames, phase, .idle, place⟩ c = some ⟨frames, phase, .atom [c], place⟩ := by
  have hblank : isBlank c = false := by
    cases h : isBlank c with
    | false => rfl
    | true => rw [isBlank_not_atom h] at hc; cases hc
  have hne : ∀ d, isAtomChar d = false → c ≠ d := fun d => ne_of_isAtomChar hc
  simp [Reading.between, hblank, hphase, hc, hne '"' rfl, hne '[' rfl, hne '\x7b' rfl, hne ']' rfl,
    hne '\x7d' rfl, hne ',' rfl, hne ':' rfl]

theorem give_eq (mode : Mode) (place : Position) {n : Node} {frames' : List Frame}
    (hphase : phase.takesValue = true) (hattach : attach n frames = some frames') :
    Reading.give ⟨frames, phase, mode, place⟩ n = some ⟨frames', .done, .idle, place⟩ := by
  simp [Reading.give, hphase, hattach]

theorem run_string (frames : List Frame) (place : Position) {raw : List Char} {text : String}
    {frames' : List Frame}
    (hphase : phase.takesValue = true) (hraw : IsText raw) (htext : text? raw = some text)
    (hattach : attach (.scalar ('"' :: raw ++ ['"']) (.string text)) frames = some frames') :
    ∃ place', Reading.run ⟨frames, phase, .idle, place⟩ ('"' :: raw ++ ['"']) =
      some ⟨frames', .done, .idle, place'⟩ := by
  have htakes : (phase.takesValue || phase.takesName) = true := by rw [hphase, Bool.true_or]
  obtain ⟨place₁, place₂, h⟩ := run_quoted frames place hraw htakes
  have hname : phase.takesName = false := by cases phase <;> first | rfl | cases hphase
  have hgive := give_eq (.text place raw false) place₁ hphase hattach
  refine ⟨place₂, ?_⟩
  simp only [h, Reading.giveText, htext, hname, hgive, Bool.false_eq_true, if_false,
    Option.map_some]

/-- A number or a literal name ends at the character behind it, which is looked at again. -/
theorem follow_atom (place : Position) {c : Char} {w s : List Char} {v : Value}
    {frames' : List Frame} (hatom : ∀ d ∈ c :: w, isAtomChar d = true) (hbreaks : Breaks s)
    (hv : atom? (c :: w) = some v) (hphase : phase.takesValue = true)
    (hattach : attach (.scalar (c :: w) v) frames = some frames') :
    follow frames phase place (c :: w ++ s) =
      follow frames' .done (place.behind (c :: w)) s := by
  have hrun := run_atom frames phase (fun d hd => hatom d (List.mem_cons_of_mem _ hd)) [c]
    (place.past c) (s ++ ['\n'])
  obtain ⟨d, t, hd, hdt⟩ : ∃ d t, isAtomChar d = false ∧ s ++ ['\n'] = d :: t := by
    cases s with
    | nil => exact ⟨'\n', [], rfl, rfl⟩
    | cons d t => exact ⟨d, t ++ ['\n'], hbreaks d rfl, rfl⟩
  have hstart := between_atom frames place (hatom c List.mem_cons_self) hphase
  have hbehind : place.behind (c :: w) = (place.past c).behind w := rfl
  rw [hdt] at hrun
  simp only [follow, List.cons_append, List.append_assoc, hdt, Reading.run, Reading.step,
    Reading.look, hstart, Option.map_some, Option.bind_some, hrun, hbehind]
  simp [Reading.settle, hd, hv, give_eq _ _ hphase hattach]

/-- A run ends at the place behind its text. -/
theorem place_eq_behind {σ τ : Reading} {s : List Char} (h : σ.run s = some τ) :
    τ.place = σ.place.behind s := by
  induction s generalizing σ with
  | nil =>
    cases h
    rfl
  | cons c s ih =>
    obtain ⟨ρ, hstep, hrun⟩ := Option.bind_eq_some_iff.1 h
    obtain ⟨ρ', -, rfl⟩ := Option.map_eq_some_iff.1 hstep
    exact ih hrun

/-! ## Between the tokens -/

variable {frames' : List Frame} {phase' : Phase} {a b c : Spot} {first : Bool}

theorem follow_char {ch : Char} (h : Covers [ch] a b)
    (hbetween : Reading.between ⟨frames, phase, .idle, a.place⟩ ch =
      some ⟨frames', phase', .idle, a.place⟩) :
    follow frames phase a.place a.rest = follow frames' phase' b.place b.rest := by
  obtain ⟨hrest, hplace⟩ := h
  rw [hrest, hplace]
  exact follow_cons hbetween

theorem follow_blanks (frames : List Frame) (phase : Phase) (h : Blanks a b) :
    follow frames phase a.place a.rest = follow frames phase b.place b.rest := by
  obtain ⟨w, hw, hrest, hplace⟩ := h
  rw [hrest, hplace]
  generalize a.place = place
  clear hrest hplace
  induction w generalizing place with
  | nil => rfl
  | cons ch w ih =>
    rw [List.forall_mem_cons] at hw
    exact (follow_cons (by simp [Reading.between, hw.1])).trans (ih hw.2 (place.past ch))

theorem breaks_of_covers {ch : Char} (hch : isAtomChar ch = false) (h : Covers [ch] a b) :
    Breaks a.rest := by
  rw [h.1]
  intro d hd
  cases hd
  exact hch

theorem breaks_of_blanks (h : Blanks a b) (hb : Breaks b.rest) : Breaks a.rest := by
  obtain ⟨w, hw, hrest, -⟩ := h
  rw [hrest]
  cases w with
  | nil => exact hb
  | cons ch w =>
    intro d hd
    cases hd
    exact isBlank_not_atom (hw ch List.mem_cons_self)

/-- Behind an entry there is nothing that a number or a literal name could go on with. -/
theorem breaks_of_entries {α : Type} {Entry : Spot → α → Spot → Prop} {xs : List α}
    (h : Entries Entry false a xs b) (hb : Breaks b.rest) : Breaks a.rest := by
  cases h with
  | nil h => exact breaks_of_blanks h hb
  | cons hlead _ _ =>
    cases hlead with
    | next hbefore hcomma _ => exact breaks_of_blanks hbefore (breaks_of_covers rfl hcomma)

/-! ## Values -/

/-- The state of a list that is gone on with: at its start, or behind an item. -/
def listPhase (first : Bool) : Phase := if first then .item else .done

/-- The state of an object that is gone on with: at its start, or behind a member. -/
def objectPhase (first : Bool) : Phase := if first then .firstName else .done

theorem follow_itemLead (opened : Position) (items : List Node) (outer : List Frame)
    (h : Lead first a b) : ∃ phase, phase.takesValue = true ∧
      follow (.list opened items :: outer) (listPhase first) a.place a.rest =
        follow (.list opened items :: outer) phase b.place b.rest := by
  cases h with
  | first h => exact ⟨.item, rfl, follow_blanks _ _ h⟩
  | next hbefore hcomma hbehind =>
    refine ⟨.value, rfl, (follow_blanks _ _ hbefore).trans ?_⟩
    exact (follow_char hcomma rfl).trans (follow_blanks _ _ hbehind)

theorem follow_memberLead (opened : Position) (ms : List (Member Node)) (outer : List Frame)
    (h : Lead first a b) : ∃ phase, phase.takesName = true ∧
      follow (.object opened ms none :: outer) (objectPhase first) a.place a.rest =
        follow (.object opened ms none :: outer) phase b.place b.rest := by
  cases h with
  | first h => exact ⟨.firstName, rfl, follow_blanks _ _ h⟩
  | next hbefore hcomma hbehind =>
    refine ⟨.name, rfl, (follow_blanks _ _ hbefore).trans ?_⟩
    exact (follow_char hcomma rfl).trans (follow_blanks _ _ hbehind)

theorem follow_name {name : String} (opened : Position) (ms : List (Member Node))
    (outer : List Frame) (hphase : phase.takesName = true) (h : NameStands a name b) :
    follow (.object opened ms none :: outer) phase a.place a.rest =
      follow (.object opened ms (some (name, a.place)) :: outer) .value b.place b.rest := by
  obtain ⟨raw, m, m', m'', hname, ⟨hrest, hplace⟩, hbefore, hcolon, hbehind⟩ := h
  obtain ⟨place', hrun⟩ := run_name opened ms outer a.place hphase (text?_takes hname).1 hname
  obtain rfl : place' = m.place := (place_eq_behind hrun).trans hplace.symm
  have hquoted := follow_of_run hrun m.rest
  rw [← hrest] at hquoted
  refine hquoted.trans ((follow_blanks _ _ hbefore).trans ?_)
  exact (follow_char hcolon rfl).trans (follow_blanks _ _ hbehind)

mutual

/-- **The machine over a value** builds the node of the grammar. -/
theorem follow_stands {a b : Spot} {n : Node} {frames frames' : List Frame} {phase : Phase} :
    Stands a n b → Breaks b.rest → phase.takesValue = true → attach n frames = some frames' →
      follow frames phase a.place a.rest = follow frames' .done b.place b.rest
  | .text hvalue htext, _, hphase, hattach => by
    obtain ⟨hrest, hplace⟩ := htext
    obtain ⟨place', hrun⟩ :=
      run_string frames a.place hphase (text?_takes hvalue).1 hvalue hattach
    obtain rfl : place' = b.place := (place_eq_behind hrun).trans hplace.symm
    rw [hrest]
    exact follow_of_run hrun b.rest
  | @Stands.atom _ _ raw _ hraw hvalue htext, hbreaks, hphase, hattach => by
    cases raw with
    | nil => cases hvalue
    | cons ch raw =>
      rw [htext.1, htext.2]
      exact follow_atom a.place hraw hbreaks hvalue hphase hattach
  | @Stands.list _ m m' _ items hopen hitems hclose, _, hphase, hattach => by
    have hopened : follow frames phase a.place a.rest =
        follow (.list a.place [] :: frames) (listPhase true) m.place m.rest :=
      follow_char hopen (by simp [Reading.between, Reading.openList, isBlank, hphase, listPhase])
    obtain ⟨first, hfollow⟩ :=
      follow_items a.place [] frames hitems (breaks_of_covers rfl hclose)
    refine hopened.trans (hfollow.trans (follow_char hclose ?_))
    cases first <;> simp [Reading.between, Reading.closeList, listPhase, isBlank, hattach]
  | @Stands.object _ m m' _ ms hopen hms hclose, _, hphase, hattach => by
    have hopened : follow frames phase a.place a.rest =
        follow (.object a.place [] none :: frames) (objectPhase true) m.place m.rest :=
      follow_char hopen
        (by simp [Reading.between, Reading.openObject, isBlank, hphase, objectPhase])
    obtain ⟨first, hfollow⟩ :=
      follow_members a.place [] frames hms (breaks_of_covers rfl hclose)
    refine hopened.trans (hfollow.trans (follow_char hclose ?_))
    cases first <;> simp [Reading.between, Reading.closeObject, objectPhase, isBlank, hattach]

/-- The machine over the items of a list. -/
theorem follow_items {a b : Spot} {first : Bool} {ns : List Node} (opened : Position)
    (items : List Node) (outer : List Frame) :
    Entries Stands first a ns b → Breaks b.rest → ∃ first',
      follow (.list opened items :: outer) (listPhase first) a.place a.rest =
        follow (.list opened (items ++ ns) :: outer) (listPhase first') b.place b.rest
  | .nil h, _ => ⟨first, by rw [List.append_nil, follow_blanks _ _ h]⟩
  | @Entries.cons _ _ _ _ _ _ _ n ns hlead hitem hmore, hbreaks => by
    obtain ⟨phase, hphase, hfollow⟩ := follow_itemLead opened items outer hlead
    have hattach : attach n (.list opened items :: outer) =
        some (.list opened (items ++ [n]) :: outer) := rfl
    have hvalue := follow_stands hitem (breaks_of_entries hmore hbreaks) hphase hattach
    obtain ⟨first', hrest⟩ := follow_items opened (items ++ [n]) outer hmore hbreaks
    refine ⟨first', hfollow.trans (hvalue.trans ?_)⟩
    rw [List.append_assoc, List.singleton_append] at hrest
    exact hrest

/-- The machine over the members of an object. -/
theorem follow_members {a b : Spot} {first : Bool} {ns : List (Member Node)} (opened : Position)
    (ms : List (Member Node)) (outer : List Frame) :
    Entries MemberStands first a ns b → Breaks b.rest → ∃ first',
      follow (.object opened ms none :: outer) (objectPhase first) a.place a.rest =
        follow (.object opened (ms ++ ns) none :: outer) (objectPhase first') b.place b.rest
  | .nil h, _ => ⟨first, by rw [List.append_nil, follow_blanks _ _ h]⟩
  | @Entries.cons _ _ _ _ m _ _ _ ns hlead (@MemberStands.mk _ _ _ name n hname hvalue) hmore,
      hbreaks => by
    obtain ⟨phase, hphase, hfollow⟩ := follow_memberLead opened ms outer hlead
    have hnamed := follow_name opened ms outer hphase hname
    have hattach : attach n (.object opened ms (some (name, m.place)) :: outer) =
        some (.object opened (ms ++ [⟨name, m.place, n⟩]) none :: outer) := rfl
    have htakes : Phase.value.takesValue = true := rfl
    have hvalue := follow_stands hvalue (breaks_of_entries hmore hbreaks) htakes hattach
    obtain ⟨first', hrest⟩ := follow_members opened (ms ++ [⟨name, m.place, n⟩]) outer hmore hbreaks
    refine ⟨first', hfollow.trans (hnamed.trans (hvalue.trans ?_))⟩
    rw [List.append_assoc, List.singleton_append] at hrest
    exact hrest

end

/-- Wherever a value may stand, the machine takes what the reader takes for one. -/
def ReadsValue (item : Cursor → Except Fault (Value × Cursor)) : Prop :=
  ∀ ⦃c c' : Cursor⦄ ⦃v : Value⦄, item c = .ok (v, c') → Breaks c'.rest →
    ∀ (frames : List Frame) (phase : Phase) (place : Position), phase.takesValue = true →
      (∀ n, (attach n frames).isSome = true) →
      ∃ n frames' place', n.value = v ∧ attach n frames = some frames' ∧
        follow frames phase place c.rest = follow frames' .done place' c'.rest

theorem follow_readValue (depth : Nat) : ReadsValue (readValue depth) := by
  intro c c' v h hbreaks frames phase place hphase hframes
  obtain ⟨n, a, q, hn, hblanks, hstands⟩ := stands_of_readValue depth h trivial place
  obtain ⟨frames', hattach⟩ := Option.isSome_iff_exists.1 (hframes n)
  have hfollow := follow_stands hstands hbreaks hphase hattach
  exact ⟨n, frames', q, hn, hattach, (follow_blanks frames phase hblanks).trans hfollow⟩

/-! ## Documents -/

/-- **The machine over a document** builds the node of the grammar. -/
theorem ofText?_of_standsIn {text : List Char} {doc : Node} (h : StandsIn text doc) :
    Node.ofText? text = some doc := by
  obtain ⟨a, b, finish, hbefore, hstands, hbehind⟩ := h
  have hbreaks : Breaks b.rest := breaks_of_blanks hbehind fun d hd => by cases hd
  have hfollow := (follow_blanks [.list ⟨0, 0⟩ []] .value hbefore).trans
    ((follow_stands hstands hbreaks rfl rfl).trans (follow_blanks _ _ hbehind))
  have hrun : Reading.start.run (text ++ ['\n']) = _ := hfollow
  rw [Node.ofText?, hrun]
  rfl

/-- **The machine follows every text that is read.** What it builds has the value that is read. -/
theorem exists_node_of_parse {text : List Char} {v : Value} (h : parse text = .ok v) :
    ∃ n, Node.ofText? text = some n ∧ n.value = v := by
  obtain ⟨doc, hdoc, hvalue⟩ := exists_standsIn_of_parse h
  exact ⟨doc, ofText?_of_standsIn hdoc, hvalue⟩

end VersionAlignment.Json
