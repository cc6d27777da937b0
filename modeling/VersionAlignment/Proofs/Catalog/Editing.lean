import VersionAlignment.Proofs.Catalog.LineCode
import VersionAlignment.Proofs.Catalog.LineRuns
import VersionAlignment.Proofs.Json.Openings
import VersionAlignment.Proofs.Version.Stability

/-!
# What an edit does to the document

The machine reads a catalog and its edited text side by side, chunk by chunk. A name is touched by
the edit if its line lies in an owning object, the name is the first thing on it, and the scan takes
the line for one with a default value or an array of options. Every other member comes out with the
value it had.

The scan takes the text behind the last closing bracket of a line for that behind the array, and
gathers lines until no bracket is open. So what is said here is said of arrays behind which no more
brackets are opened than closed on the line, and none at all if the array is written anew
(`AllEndWell`).

## Results

* `exists_node_of_edit`: the edited text is the text of a document, the same but for touched
  members.
* `editsTo_of_edit`: the same of an edited text that is parsed.
* `editsTo_of_update`: the same of an update that is answered.
-/

set_option autoImplicit false

namespace VersionAlignment.Artifact.Catalog

open Text Json Json.Reading

/-- The line on which a name stands, if only blanks stand before the name. -/
def lineFrom? (ls : List (List Char)) (p : Position) : Option (List Char) :=
  (ls[p.line]?).filter fun line => (leadingBlanks line).length = p.column

/-- The versions that the scan finds on the lines from `first` to `last`. -/
def valuesOn (ls : List (List Char)) (first last : Nat) : List String :=
  OptionsBlock.values ⟨[], (ls.drop first).take (last + 1 - first)⟩

namespace Edit

variable (e : Edit) (ls : List (List Char))

/-- A name at the place is touched by the edit. -/
def Touches (p : Position) : Prop :=
  ∃ line, lineFrom? ls p = some line ∧ ¬ e.Keeps p.line line

instance (p : Position) : Decidable (e.Touches ls p) :=
  decidable_of_iff ((lineFrom? ls p).any (fun line => !decide (e.Keeps p.line line)) = true)
    (by simp [Touches, Option.any_eq_true])

/-- A default value becomes the latest version. -/
def Defaults (m : Member Node) (v : Value) : Prop :=
  ∃ line line', lineFrom? ls m.place = some line ∧ e.covers m.place.line = true ∧
    newDefault? e.request.latest line = some line' ∧ m.name = "default_value" ∧
    (∃ spelling old, m.node = .scalar spelling old) ∧ v = .string e.request.latest

/-- An array of options becomes that of the requested versions, unless the scan finds these on its
lines. -/
def Lists (m : Member Node) (v : Value) : Prop :=
  ∃ line head opened closed items, lineFrom? ls m.place = some line ∧
    e.Gathers m.place.line line head ∧ m.name = "options" ∧ m.node = .list opened closed items ∧
    v = if e.request.matchesVersions (valuesOn ls m.place.line closed.line) then m.node.value
      else optionsValue e.request.ascending

/-- What the edit of the lines does to a document. -/
def rewrite : Rewrite where
  touched := e.Touches ls
  may m v := ¬ e.Skips ls m.place.line ∧ (e.Defaults ls m v ∨ e.Lists ls m v)

end Edit

/-- What stands on a line behind the character at the place. -/
def textBehind (ls : List (List Char)) (p : Position) : List Char :=
  ((ls[p.line]?).getD []).drop (p.column + 1)

/-- Behind the bracket that closes the array, no other one stands on its line. -/
def EndsClear (ls : List (List Char)) : Node → Prop
  | .list _ closed _ => ∀ c ∈ textBehind ls closed, c ≠ '[' ∧ c ≠ ']'
  | _ => True

instance (ls : List (List Char)) : (n : Node) → Decidable (EndsClear ls n)
  | .scalar _ _ => .isTrue trivial
  | .object _ _ _ => .isTrue trivial
  | .list _ _ _ => List.decidableBAll _ _

/-- The machine at the start of a line, in the text and in its edited copy. -/
structure AtLine (e : Edit) (ls : List (List Char)) (n : Nat) (σ σ' : Reading) : Prop where
  alike : Alike (e.rewrite ls) ⟨0, 0⟩ [] [] σ σ'
  idle : σ.mode = .idle
  place : σ.place = ⟨n, 0⟩

variable {e : Edit} {ls : List (List Char)} {n : Nat} {σ σ' τ τ' : Reading} {line : List Char}

theorem lineFrom?_eq_some {p : Position} : lineFrom? ls p = some line ↔
    ls[p.line]? = some line ∧ (leadingBlanks line).length = p.column := by
  simp [lineFrom?, Option.filter_eq_some_iff]

theorem textBehind_of_line {s t : List Char} {c : Char} {k : Nat}
    (hline : ls[k]? = some (s ++ c :: t)) : textBehind ls ⟨k, s.length⟩ = t := by
  rw [textBehind, hline, Option.getD_some, ← List.drop_drop, List.drop_left, List.drop_one,
    List.tail_cons]

theorem AtLine.idle' (h : AtLine e ls n σ σ') : σ'.mode = .idle := by
  have hmode := h.alike.mode
  rw [h.idle] at hmode
  generalize σ'.mode = mode at hmode
  cases hmode
  rfl

/-- Behind the columns that are touched, the rest of a line is. -/
theorem untouched_of_columns {w : Rewrite} {k : Nat} {s : List Char} (hplace : σ.place = ⟨n, k⟩)
    (hs : '\n' ∉ s) (hcolumns : ∀ j, k ≤ j → ¬ w.touched ⟨n, j⟩) :
    Untouched w σ (s ++ ['\n']) := by
  intro s₁ c s₂ ρ hsplit hrun
  have hs₁ : '\n' ∉ s₁ := by
    rcases List.append_eq_append_iff.1 hsplit with ⟨t, rfl, ht⟩ | ⟨t, rfl, -⟩
    · cases t with
      | nil => simpa using hs
      | cons d t => simp at ht
    · exact fun hmem => hs (List.mem_append_left _ hmem)
  rw [place_of_run hs₁ hrun, hplace]
  exact hcolumns _ (Nat.le_add_right _ _)

theorem AtLine.next {s : List Char} (halike : Alike (e.rewrite ls) ⟨0, 0⟩ [] [] τ τ')
    (hplace : σ.place.line = n) (hs : '\n' ∉ s) (hrun : σ.run (s ++ ['\n']) = some τ) :
    AtLine e ls (n + 1) τ τ' := by
  obtain ⟨hidle, hplace'⟩ := line_of_run hrun hs
  exact ⟨halike, hidle, by rw [hplace', hplace]⟩

theorem atLine_kept (h : AtLine e ls n σ σ') (hline : ls[n]? = some line) (hnewline : '\n' ∉ line)
    (hkeeps : e.Keeps n line) (hrun : σ.run (line ++ ['\n']) = some τ) :
    ∃ τ', σ'.run (line ++ ['\n']) = some τ' ∧ AtLine e ls (n + 1) τ τ' := by
  have huntouched : Untouched (e.rewrite ls) σ (line ++ ['\n']) := by
    refine untouched_of_columns h.place hnewline ?_
    rintro j - ⟨line', hline', htouched⟩
    obtain ⟨hat, -⟩ := lineFrom?_eq_some.1 hline'
    obtain rfl : line = line' := Option.some.inj (hline.symm.trans hat)
    exact htouched hkeeps
  obtain ⟨τ', hrun', halike⟩ := run_alike_outermost h.alike huntouched hrun
  exact ⟨τ', hrun', .next halike (by rw [h.place]) hnewline hrun⟩

/-! ## A default value -/

theorem exists_of_newDefault? {latest : String} {line' : List Char}
    (h : newDefault? latest line = some line') :
    ∃ lead value trail rest, defaultLead.take? line = some (lead, rest) ∧
      defaultValue.take? rest = some (value, trail) ∧
      line' = lead ++ '"' :: (latest.toList ++ '"' :: trail) := by
  rw [newDefault?] at h
  split at h
  · cases h
  · next l hl =>
    split at h
    · cases h
    · cases h
      rw [DefaultLine.ofLine?] at hl
      split at hl
      · cases hl
      · next lead rest hlead =>
        obtain ⟨⟨value, trail⟩, hvalue, rfl⟩ := Option.map_eq_some_iff.1 hl
        exact ⟨lead, value, trail, rest, hlead, hvalue, rfl⟩

theorem isPlain_default_value : IsPlain "default_value".toList := by decide

/-! ## A line that starts with a member -/

/-- In the text and in its copy, an object waits for the value of the member that has been named
at the place. -/
inductive Awaits (w : Rewrite) (name : String) (place : Position) : Reading → Reading → Prop
  | named {opened opened' ms ms' outer outer' place' next next'}
      (hms : Node.MembersEditTo w ms (Node.memberValues ms'))
      (hbelow : Stacked w ⟨0, 0⟩ [] [] outer outer') :
      Awaits w name place ⟨.object opened ms (some (name, place)) :: outer, .value, .idle, next⟩
        ⟨.object opened' ms' (some (name, place')) :: outer', .value, .idle, next'⟩

section
variable {w : Rewrite} {name : String} {place : Position} {ρ ρ' : Reading}

theorem Awaits.value (h : Awaits w name place ρ ρ') : ρ.phase = .value ∧ ρ.mode = .idle := by
  cases h
  exact ⟨rfl, rfl⟩

theorem Awaits.value' (h : Awaits w name place ρ ρ') :
    ρ' = ⟨ρ'.frames, .value, .idle, ρ'.place⟩ := by
  cases h
  rfl

theorem Awaits.exists_attach (h : Awaits w name place ρ ρ') (node' : Node) :
    ∃ frames', attach node' ρ'.frames = some frames' := by
  cases h
  exact ⟨_, rfl⟩

/-- The member gets a value, in the text and in its copy. -/
theorem Awaits.stacked {node node' : Node} {frames frames' : List Frame}
    (h : Awaits w name place ρ ρ') (hattach : attach node ρ.frames = some frames)
    (hattach' : attach node' ρ'.frames = some frames')
    (hvalue : Node.MemberEditsTo w ⟨name, place, node⟩ node'.value) :
    Stacked w ⟨0, 0⟩ [] [] frames frames' := by
  cases h with
  | named hms hbelow =>
    cases hattach
    cases hattach'
    refine .object ?_ hbelow
    rw [memberValues_snoc]
    exact Node.membersEditTo_snoc hms hvalue

theorem Awaits.mem_held {node : Node} {frames : List Frame} (h : Awaits w name place ρ ρ')
    (hattach : attach node ρ.frames = some frames) : ⟨name, place, node⟩ ∈ held frames := by
  cases h
  cases hattach
  simp [held, Node.ownMembers_append, Node.ownMembers]

/-- A list that is opened as the value of the member. -/
theorem Awaits.openList (h : Awaits w name place ρ ρ') :
    ρ.step '[' = some ⟨.list ρ.place [] :: ρ.frames, .item, .idle, ρ.place.past '['⟩ ∧
      ρ'.step '[' = some ⟨.list ρ'.place [] :: ρ'.frames, .item, .idle, ρ'.place.past '['⟩ := by
  cases h
  exact ⟨(Between.openList rfl rfl).step, (Between.openList rfl rfl).step⟩

end

/-- The machine behind the lead of a member that starts a line. -/
structure BehindLead (e : Edit) (ls : List (List Char)) (n : Nat) (name : String)
    (lead : List Char) (l : Lead name lead) (σ σ' ρ ρ' : Reading) : Prop where
  isBlank : AllBlank l.before
  place : ρ.place = ⟨n, lead.length⟩
  depth : listDepth ρ.frames = listDepth σ.frames
  run' : σ'.run lead = some ρ'
  awaits : Awaits (e.rewrite ls) name ⟨n, l.before.length⟩ ρ ρ'

theorem AtLine.behindLead {name : String} {lead : List Char} {ρ : Reading}
    (h : AtLine e ls n σ σ') (l : Lead name lead) (hname : IsPlain name.toList)
    (hnewline : '\n' ∉ lead) (hrun : σ.run lead = some ρ) :
    ∃ ρ', BehindLead e ls n name lead l σ σ' ρ ρ' := by
  have hlead := run_memberLead l hname h.idle hrun hnewline
  have hdepth := hlead.listDepth_eq
  obtain ⟨hbefore, hbetween, hbehind, htakes, ⟨opened, ms, outer, hobject, hnamed⟩, hphase, hidle,
    hplace⟩ := hlead
  rw [h.place, Nat.zero_add] at hplace hnamed
  have hframes := h.alike.frames
  rw [hobject] at hframes
  have hphase' := h.alike.phase
  have hidle' := h.idle'
  obtain ⟨frames', phase', mode', place'⟩ := σ'
  simp only at hframes hphase' hidle'
  subst hphase' hidle'
  cases hframes with
  | @object _ opened' _ ms' _ outer' hms hbelow =>
    obtain ⟨place₁, place₂, hrun'⟩ : ∃ place₁ place₂,
        run ⟨.object opened' ms' none :: outer', σ.phase, .idle, place'⟩ lead =
          some ⟨.object opened' ms' (some (name, place₁)) :: outer', .value, .idle, place₂⟩ :=
      run_lead l hname hbefore hbetween hbehind htakes
    obtain ⟨frames, phase, mode, place⟩ := ρ
    simp only at hnamed hphase hidle
    subst hnamed hphase hidle
    exact ⟨_, hbefore, hplace, hdepth, hrun', .named hms hbelow⟩

theorem lineFrom?_of_lead {name : String} {text : List Char} (hline : ls[n]? = some line)
    (l : Lead name text) (hleading : leadingBlanks line = l.before) :
    lineFrom? ls ⟨n, l.before.length⟩ = some line :=
  lineFrom?_eq_some.2 ⟨hline, by rw [hleading]⟩

/-- Only what starts a line may be touched. -/
theorem not_touches {m i k : Nat} {s : List Char} {c : Char} (hs : ls[m]? = some s)
    (hi : s[i]? = some c) (hc : Text.isBlank c = false) (hk : i < k) :
    ¬ e.Touches ls ⟨m, k⟩ := by
  rintro ⟨line', hline', -⟩
  obtain ⟨hat, hcolumn⟩ := lineFrom?_eq_some.1 hline'
  obtain rfl : s = line' := Option.some.inj (hs.symm.trans hat)
  have hk : i < (leadingBlanks s).length := hcolumn ▸ hk
  rw [leadingBlanks] at hk
  have hmem : c ∈ s.takeWhile Text.isBlank := by
    rw [← List.takeWhile_append_dropWhile (p := Text.isBlank) (l := s),
      List.getElem?_append_left hk] at hi
    exact List.mem_of_getElem? hi
  rw [(List.mem_takeWhile_imp hmem)] at hc
  cases hc

theorem Lead.getElem?_quote {name : String} {lead : List Char} (l : Lead name lead)
    (s : List Char) : (lead ++ s)[l.before.length]? = some '"' ∧ l.before.length < lead.length := by
  obtain ⟨before, between, behind, -, -, -, rfl⟩ := l
  simp [quoted]

/-- Behind the value of the first member on a line, the rest of the line is the same in the text
and in its copy. -/
theorem atLine_of_value {m k : Nat} {trail : List Char} {place' : Position}
    {frames frames' : List Frame} (hframes : Stacked (e.rewrite ls) ⟨0, 0⟩ [] [] frames frames')
    (htrail : '\n' ∉ trail) (hbehind : ∀ j, k ≤ j → ¬ e.Touches ls ⟨m, j⟩)
    (hrun : run ⟨frames, .done, .idle, ⟨m, k⟩⟩ (trail ++ ['\n']) = some τ) :
    ∃ τ', run ⟨frames', .done, .idle, place'⟩ (trail ++ ['\n']) = some τ' ∧
      AtLine e ls (m + 1) τ τ' := by
  have huntouched : Untouched (e.rewrite ls) ⟨frames, .done, .idle, ⟨m, k⟩⟩ (trail ++ ['\n']) :=
    untouched_of_columns rfl htrail hbehind
  have halike : Alike (e.rewrite ls) ⟨0, 0⟩ [] [] ⟨frames, .done, .idle, ⟨m, k⟩⟩
      ⟨frames', .done, .idle, place'⟩ := ⟨hframes, rfl, .idle⟩
  obtain ⟨τ', hrun', halike'⟩ := run_alike_outermost halike huntouched hrun
  exact ⟨τ', hrun', .next halike' rfl htrail hrun⟩

/-- A default value in the text, and the latest version in its place in the copy. The copy goes on
behind it as the text does, if it goes on at all or the value is taken whole. -/
theorem atLine_default (h : AtLine e ls n σ σ') (hline : ls[n]? = some line)
    (hnewline : '\n' ∉ line) (hcovers : e.covers n = true) (hreached : ¬ e.Skips ls n)
    {line' : List Char}
    (hnew : newDefault? e.request.latest line = some line')
    (hlatest : IsPlain e.request.latest.toList) (hrun : σ.run (line ++ ['\n']) = some τ)
    (hok : (σ'.run (line' ++ ['\n'])).isSome = true ∨
      ∀ l ∈ DefaultLine.ofLine? line, TakenWhole l.value l.trail) :
    ∃ τ', σ'.run (line' ++ ['\n']) = some τ' ∧ AtLine e ls (n + 1) τ τ' := by
  obtain ⟨lead, value, trail, rest, hlead, hvalue, hline'⟩ := exists_of_newDefault? hnew
  have hread : DefaultLine.ofLine? line = some ⟨lead, value, trail⟩ := by
    rw [DefaultLine.ofLine?, hlead]
    simp only [hvalue, Option.map_some]
  rw [defaultLead_eq] at hlead
  obtain ⟨hsplit, l, hleading⟩ := exists_lead hlead
  rw [← defaultValue.append_of_take? hvalue] at hsplit
  have hnewlines : '\n' ∉ lead ∧ '\n' ∉ value ∧ '\n' ∉ trail := by
    simpa [← hsplit] using hnewline
  rw [← hsplit, List.append_assoc, List.append_assoc] at hrun
  obtain ⟨ρ, hrunLead, hrunRest⟩ := run_append_eq_some.1 hrun
  obtain ⟨ρ', -, hplace, -, hrunLead', hawaits⟩ :=
    h.behindLead l isPlain_default_value hnewlines.1 hrunLead
  have hdefaults : ∀ spelling old, Node.MemberEditsTo (e.rewrite ls)
      ⟨"default_value", ⟨n, l.before.length⟩, .scalar spelling old⟩ (.string e.request.latest) := by
    intro spelling old
    refine .inr ⟨hreached, .inl ⟨line, line', ?_, hcovers, hnew, rfl, ⟨spelling, old, rfl⟩, rfl⟩⟩
    exact lineFrom?_of_lead hline l hleading
  -- the copy has the new value, and the rest of the line behind it
  obtain ⟨hphase, hidle⟩ := hawaits.value
  have hρ' := hawaits.value'
  obtain ⟨frames', hattach'⟩ := hawaits.exists_attach
    (.scalar ('"' :: e.request.latest.toList ++ ['"']) (.string e.request.latest))
  obtain ⟨place', hvalueRun⟩ : ∃ place', run ⟨ρ'.frames, .value, .idle, ρ'.place⟩
      ('"' :: e.request.latest.toList ++ ['"']) = some ⟨frames', .done, .idle, place'⟩ :=
    run_string _ _ rfl (isText_plain hlatest) (text?_plain hlatest) hattach'
  have hcopy : σ'.run (line' ++ ['\n']) =
      run ⟨frames', .done, .idle, place'⟩ (trail ++ ['\n']) := by
    have htext : '"' :: (e.request.latest.toList ++ '"' :: trail) ++ ['\n'] =
        ('"' :: e.request.latest.toList ++ ['"']) ++ (trail ++ ['\n']) := by simp
    rw [hline', List.append_assoc, run_append, hrunLead', Option.bind_some, hρ', htext, run_append,
      hvalueRun, Option.bind_some]
  rw [hcopy] at hok ⊢
  obtain ⟨spelling, old, frames, hattach, hrunTrail⟩ :
      ∃ spelling old frames, attach (.scalar spelling old) ρ.frames = some frames ∧
        run ⟨frames, .done, .idle, ⟨ρ.place.line, ρ.place.column + value.length⟩⟩
          (trail ++ ['\n']) = some τ := by
    rcases hok with hok | hwhole
    · obtain ⟨τ', hrun'⟩ := Option.isSome_iff_exists.1 hok
      exact run_defaultValue hvalue hidle hphase hrunRest rfl rfl hrun' hnewlines.2.1
    · exact run_wholeValue hvalue hidle hphase hrunRest (hwhole _ hread) hnewlines.2.1
  have hframes := hawaits.stacked hattach hattach' (hdefaults spelling old)
  rw [hplace] at hrunTrail
  obtain ⟨hquote, hbefore⟩ := l.getElem?_quote (value ++ trail)
  rw [hsplit] at hquote
  refine atLine_of_value hframes hnewlines.2.2 (fun k hk => ?_) hrunTrail
  have hlead : lead.length ≤ k := Nat.le_trans (Nat.le_add_right _ _) hk
  exact not_touches hline hquote (by decide) (by omega)

/-! ## An array of options -/

/-- A list that is the value of the member, and that is closed again: what stands between its
brackets does the same in the copy. -/
theorem Awaits.closes {w : Rewrite} {name : String} {place : Position} {ρ ρ' : Reading}
    {s : List Char} (h : Awaits w name place ρ ρ') (hrun : ρ.run ('[' :: s) = some τ)
    (hdepth : listDepth τ.frames ≤ listDepth ρ.frames) :
    ∃ s₁ s₂ ρ₀ items items' opened' closed' frames next', s = s₁ ++ ']' :: s₂ ∧
      ρ.run ('[' :: s₁) = some ρ₀ ∧
      ρ₀.step ']' = some ⟨frames, .done, .idle, ρ₀.place.past ']'⟩ ∧
      run ⟨frames, .done, .idle, ρ₀.place.past ']'⟩ s₂ = some τ ∧
      attach (.list ρ.place ρ₀.place items) ρ.frames = some frames ∧
      Node.values items' = Node.values items ∧
      ∀ frames', attach (.list opened' closed' items') ρ'.frames = some frames' →
        ρ'.run ('[' :: (s₁ ++ [']'])) = some ⟨frames', .done, .idle, next'⟩ := by
  obtain ⟨hopen, hopen'⟩ := h.openList
  have halike : Alike Rewrite.none ρ.place ρ.frames ρ'.frames
      ⟨.list ρ.place [] :: ρ.frames, .item, .idle, ρ.place.past '['⟩
      ⟨.list ρ'.place [] :: ρ'.frames, .item, .idle, ρ'.place.past '['⟩ :=
    ⟨.bottom rfl, rfl, .idle⟩
  rw [run_cons, hopen, Option.bind_some] at hrun
  rcases run_alike halike (untouched_none _ _) hrun with ⟨τ', -, hstill⟩ |
    ⟨s₁, s₂, ρ₀, ρ₁, rfl, hrun₁, hstep, hrun₂, hclosed⟩
  · exact absurd (listDepth_lt_of_stacked hstill.frames) (Int.not_lt.2 hdepth)
  · obtain ⟨items, opened', closed', items', next', hitems, hattach, hcopy⟩ := hclosed.frames
    obtain ⟨frames, phase, mode, next⟩ := ρ₁
    obtain rfl : phase = .done := hclosed.phase
    obtain rfl : mode = .idle := hclosed.mode
    obtain rfl : next = ρ₀.place.past ']' := hclosed.place
    refine ⟨s₁, s₂, ρ₀, items, items', opened', closed', frames, next', rfl, ?_, hstep, hrun₂,
      hattach, hitems.eq_values, fun frames' hattach' => ?_⟩
    · rw [run_cons, hopen, Option.bind_some, hrun₁]
    · rw [run_cons, hopen', Option.bind_some]
      exact hcopy frames' hattach'

/-- A list that is written as the value of the member. -/
theorem Awaits.writes {w : Rewrite} {name : String} {place : Position} {ρ ρ' : Reading}
    {vs : List Value} {phase : Phase} {body : List Char} (h : Awaits w name place ρ ρ')
    (hbody : AppendsItems vs .item phase body) (hphase : phase = .item ∨ phase = .done)
    (rest : List Char) :
    ∃ node' frames' next', attach node' ρ'.frames = some frames' ∧ node'.value = .list vs ∧
      ρ'.run ('[' :: (body ++ ']' :: rest)) = run ⟨frames', .done, .idle, next'⟩ rest := by
  obtain ⟨node', frames', next', hvalue, hattach, hlist⟩ := run_list hbody hphase
    (fun node' => Option.isSome_iff_exists.2 (h.exists_attach node')) ρ'.place
  rw [← h.value'] at hlist
  refine ⟨node', frames', next', hattach, hvalue, ?_⟩
  rw [List.append_cons, ← List.cons_append, run_append, hlist, Option.bind_some]

/-- What is asked of an edit and of the text it is made in. -/
structure Edit.IsPlain (e : Edit) : Prop where
  latest : Json.IsPlain e.request.latest.toList
  ascending : ∀ v ∈ e.request.ascending, Json.IsPlain v.toList
  ending : AllBlank e.ending

/-- Behind no array of options that is touched another bracket stands on the line. -/
def AllEndClear (e : Edit) (ls : List (List Char)) (ms : List (Member Node)) : Prop :=
  ∀ m ∈ ms, m.name = "options" → e.Touches ls m.place → EndsClear ls m.node

instance (e : Edit) (ls : List (List Char)) (ms : List (Member Node)) :
    Decidable (AllEndClear e ls ms) :=
  List.decidableBAll _ ms

/-- Behind the array no more brackets are opened than closed on its line. If the array is written
anew, no bracket stands there outside of quotes. -/
def Edit.EndsWell (e : Edit) (ls : List (List Char)) (m : Member Node) : Prop :=
  match m.node with
  | .list _ closed _ => depthChange '[' ']' (textBehind ls closed) ≤ 0 ∧
    (e.request.matchesVersions (valuesOn ls m.place.line closed.line) = true ∨
      ∀ x ∈ code (textBehind ls closed), x.2 ≠ '[' ∧ x.2 ≠ ']')
  | _ => True

/-- All arrays of options that are touched, and not skipped, end well. -/
def AllEndWell (e : Edit) (ls : List (List Char)) (ms : List (Member Node)) : Prop :=
  ∀ m ∈ ms, m.name = "options" → e.Touches ls m.place → ¬ e.Skips ls m.place.line →
    e.EndsWell ls m

theorem AllEndClear.allEndWell {ms : List (Member Node)} (h : AllEndClear e ls ms) :
    AllEndWell e ls ms := by
  intro m hm hname htouches _
  have hclear := h m hm hname htouches
  rw [Edit.EndsWell]
  split
  · next opened closed items hnode =>
    rw [hnode, EndsClear] at hclear
    exact ⟨Int.le_of_eq (depthChange_eq_zero hclear), .inr fun x hx =>
      hclear x.2 (mem_of_mem_codeFrom (List.mem_map_of_mem hx))⟩
  · trivial

/-- A closing bracket that stands in quotes behind the place of the machine is not the last one, if
the text behind the last one can be read outside of quotes. -/
theorem bracket_notMem_of_reads {t : List Char} (hcode : ∀ x ∈ code t, x.2 ≠ ']')
    (hidle : σ.mode = .idle) (hrun : σ.run (t ++ ['\n']) = some τ)
    (hcopy : ∀ s t', t = s ++ ']' :: t' → ']' ∉ t' → ∃ ρ : Reading, quoteState ρ.mode = .outside ∧
      (ρ.run (t' ++ ['\n'])).isSome = true) : ']' ∉ t := by
  intro hmem
  obtain ⟨s, t', rfl, ht'⟩ := exists_last_split hmem
  obtain ⟨ρ, houtside, hreads⟩ := hcopy s t' rfl ht'
  obtain ⟨τ', hreads⟩ := Option.isSome_iff_exists.1 hreads
  rw [List.append_assoc, List.cons_append] at hrun
  obtain ⟨ρ₁, hrunFront, hrest⟩ := run_append_eq_some.1 hrun
  obtain ⟨ρ₂, hstep, hrest⟩ := run_cons_eq_some.1 hrest
  have hinside : quoteState ρ₁.mode ≠ .outside := by
    intro h
    have hstate := quoteState_of_run hrunFront
    rw [h, hidle] at hstate
    refine hcode ⟨0 + s.length, ']'⟩ ?_ rfl
    rw [code, codeFrom_append, ← show quoteState .idle = .outside from rfl, ← hstate]
    simp [codeFrom]
  refine not_both_text ?_ houtside hrest hreads
  rw [quoteState_of_step hstep]
  cases h : quoteState ρ₁.mode with
  | outside => exact absurd h hinside
  | inside => rfl
  | escaped => rfl

/-- The array that is rendered is written as the value of the member. -/
theorem Awaits.renders {w : Rewrite} {name : String} {place : Position} {ρ ρ' : Reading}
    {b : OptionsBlock} {lead : List Char} (h : Awaits w name place ρ ρ') (hplain : e.IsPlain)
    (hblank : b.IsBlank) (hhead : b.head = lead ++ ['[']) (hlead : σ'.run lead = some ρ') :
    ∃ new frames' behind, attach new ρ'.frames = some frames' ∧
      new.value = optionsValue e.request.ascending ∧
      σ'.run (flat (b.render e.request.ascending e.ending)) =
        run ⟨frames', .done, .idle, behind⟩ (b.trailing ++ ['\n']) := by
  obtain ⟨written, phase, hrender, hphase, happends⟩ :=
    b.exists_render_eq hblank hplain.ascending hplain.ending
  obtain ⟨new, frames', behind, hattach, hvalue, hrun⟩ :=
    h.writes happends hphase (b.trailing ++ ['\n'])
  refine ⟨new, frames', behind, hattach, by rw [hvalue, optionsValue], ?_⟩
  rw [hrender, hhead, List.append_assoc, run_append, hlead, Option.bind_some]
  exact hrun

/-- The array, or the one that is rendered in its place, is written as the value of the member. -/
theorem Awaits.settles {w : Rewrite} {name : String} {place next' : Position} {ρ ρ' : Reading}
    {b : OptionsBlock} {lead body trail : List Char} {node' : Node} (h : Awaits w name place ρ ρ')
    (hplain : e.IsPlain) (hblank : b.IsBlank) (hhead : b.head = lead ++ ['['])
    (htext : flat b.lines = lead ++ (('[' :: (body ++ [']'])) ++ (trail ++ ['\n'])))
    (htrailing : e.request.matchesVersions b.values = false → b.trailing = trail)
    (hkept : ∀ frames', attach node' ρ'.frames = some frames' →
      ρ'.run ('[' :: (body ++ [']'])) = some ⟨frames', .done, .idle, next'⟩)
    (hlead : σ'.run lead = some ρ') :
    ∃ new frames' behind, attach new ρ'.frames = some frames' ∧
      new.value = (if e.request.matchesVersions b.values then node'.value
        else optionsValue e.request.ascending) ∧
      σ'.run (flat (e.settle b)) = run ⟨frames', .done, .idle, behind⟩ (trail ++ ['\n']) := by
  rw [Edit.settle]
  split
  · next hmatches =>
    obtain ⟨frames', hattach⟩ := h.exists_attach node'
    refine ⟨node', frames', next', hattach, rfl, ?_⟩
    rw [htext, run_append, hlead, Option.bind_some, run_append, hkept frames' hattach,
      Option.bind_some]
  · next hmatches =>
    obtain ⟨new, frames', behind, hattach, hvalue, hrun⟩ := h.renders hplain hblank hhead hlead
    rw [htrailing (Bool.eq_false_iff.2 hmatches)] at hrun
    exact ⟨new, frames', behind, hattach, hvalue, hrun⟩

theorem isPlain_options : IsPlain "options".toList := by decide

/-- An array starts at the first member of a line, and its head ends with the bracket. -/
theorem exists_of_start? {g : Gathering} (h : Gathering.start? line = some g) :
    ∃ lead rest, (memberLead "options").take? line = some (lead, '[' :: rest) ∧
      g.block = ⟨lead ++ ['['], [line]⟩ := by
  obtain ⟨⟨_, rest⟩, hfound, rfl⟩ := Option.map_eq_some_iff.1 h
  rw [optionsStart_eq] at hfound
  obtain ⟨lead, s, _, hlead, hbracket, rfl⟩ := Shape.take?_append_iff.1 hfound
  obtain ⟨rfl, hrest⟩ := (Shape.recognizes_word "[" _ _ _).1 hbracket
  refine ⟨lead, rest, ?_, rfl⟩
  rw [hlead, ← hrest]
  rfl

theorem exists_of_gathers {head : List Char} (h : e.Gathers n line head) :
    ∃ lead rest, (memberLead "options").take? line = some (lead, '[' :: rest) ∧
      head = lead ++ ['['] := by
  obtain ⟨lead, rest, hlead, hblock⟩ := exists_of_start? h.start
  exact ⟨lead, rest, hlead, congrArg OptionsBlock.head hblock⟩

/-- A line starts with one name only. -/
theorem newDefault?_of_start? {latest : String} {line : List Char}
    (h : (Gathering.start? line).isSome = true) : newDefault? latest line = none := by
  have hnone : DefaultLine.ofLine? line = none := by
    rw [DefaultLine.ofLine?]
    split
    · rfl
    · next lead rest hlead =>
      obtain ⟨g, hg⟩ := Option.isSome_iff_exists.1 h
      obtain ⟨_, hfound, -⟩ := Option.map_eq_some_iff.1 hg
      rw [optionsStart_eq] at hfound
      obtain ⟨_, _, _, hoptions, -, -⟩ := Shape.take?_append_iff.1 hfound
      rw [defaultLead_eq] at hlead
      obtain ⟨more, hmore⟩ := dropWhile_isBlank_of_lead hlead
      obtain ⟨more', hmore'⟩ := dropWhile_isBlank_of_lead hoptions
      rw [hmore] at hmore'
      simp at hmore'
  rw [newDefault?, hnone]

/-- Behind a line whose default value is replaced. -/
theorem Edit.ComesTo.default {line' : List Char} (h : e.ComesTo ls n) (hline : ls[n]? = some line)
    (hnew : newDefault? e.request.latest line = some line') : e.ComesTo ls (n + 1) := by
  refine h.succ ?_
  rintro ⟨-, line₁, hline₁, hstart⟩
  obtain rfl : line = line₁ := Option.some.inj (hline.symm.trans hline₁)
  cases hnew.symm.trans (newDefault?_of_start? hstart)

theorem touches_of_gathers {head : List Char} {p : Position} (hline : lineFrom? ls p = some line)
    (h : e.Gathers p.line line head) : e.Touches ls p := by
  refine ⟨line, hline, fun hkeeps => ?_⟩
  have hstart := (hkeeps h.covers).2
  rw [h.start] at hstart
  cases hstart

/-- What may become of a member is said of touched members only. -/
theorem touches_of_may {m : Member Node} {v : Value} (h : (e.rewrite ls).may m v) :
    e.Touches ls m.place ∧ (m.name = "default_value" ∨ m.name = "options") := by
  obtain ⟨-, ⟨line, line', hline, hcovers, hnew, hname, -, -⟩ |
    ⟨line, head, _, _, _, hline, hgathers, hname, -, -⟩⟩ := h
  · refine ⟨⟨line, hline, fun hkeeps => ?_⟩, .inl hname⟩
    have hnone := (hkeeps hcovers).1
    rw [hnew] at hnone
    cases hnone
  · exact ⟨touches_of_gathers hline hgathers, .inr hname⟩

/-- The lines of an array: the last of them is `s`, the bracket that closes the array, and what
stands behind it; in front of that bracket stand a lead, the opening bracket and the body. -/
structure ArrayLines (lines pre : List (List Char)) (s lead body trail : List Char) : Prop where
  lines : lines = pre ++ [s ++ ']' :: trail]
  before : lead ++ '[' :: body = flat pre ++ s

namespace ArrayLines

variable {block pre more : List (List Char)} {s lead body trail head : List Char}

theorem flat_eq (h : ArrayLines block pre s lead body trail) :
    flat block = lead ++ (('[' :: (body ++ [']'])) ++ (trail ++ ['\n'])) := by
  have hflat : flat block = (flat pre ++ s) ++ ']' :: (trail ++ ['\n']) := by
    rw [h.lines]
    simp [flat]
  rw [hflat, ← h.before]
  simp

theorem trailing_eq {u v : List Char} (h : ArrayLines block pre s lead body trail)
    (htrail : ']' :: trail = u ++ ']' :: v) (hv : ']' ∉ v) :
    OptionsBlock.trailing ⟨head, block⟩ = v := by
  rw [h.lines, htrail, ← List.append_assoc, Catalog.trailing_eq hv]

theorem length_eq (h : ArrayLines block pre s lead body trail) :
    block.length = pre.length + 1 := by
  rw [h.lines, List.length_append, List.length_singleton]

/-- The last line, where it stands in the text. -/
theorem getElem?_closing (h : ArrayLines block pre s lead body trail)
    (hblock : ls.drop n = block ++ more) : ls[n + pre.length]? = some (s ++ ']' :: trail) := by
  rw [← List.getElem?_drop, hblock, h.lines]
  simp

theorem valuesOn_eq (h : ArrayLines block pre s lead body trail)
    (hblock : ls.drop n = block ++ more) :
    valuesOn ls n (n + pre.length) = OptionsBlock.values ⟨head, block⟩ := by
  have hlength : n + pre.length + 1 - n = block.length := by
    rw [h.length_eq]
    omega
  rw [valuesOn, hlength, hblock, List.take_left]
  rfl

end ArrayLines

/-- An array that is closed again on its lines is closed on the last of them, if no more brackets
are opened than closed behind it on its line. -/
theorem exists_arrayLines {block more : List (List Char)} {lead s₁ s₂ : List Char}
    {ρ₀ : Reading} {frames : List Frame} {p : Position} (hblock : ls.drop n = block ++ more)
    (hnewline : ∀ l ∈ block, '\n' ∉ l)
    (hidle : σ.mode = .idle) (hplace : σ.place = ⟨n, 0⟩) (hcloses : ClosesAtEnd 0 block)
    (hsplit : flat block = (lead ++ '[' :: s₁) ++ ']' :: s₂)
    (hrun : σ.run (lead ++ '[' :: s₁) = some ρ₀)
    (hstep : ρ₀.step ']' = some ⟨frames, .done, .idle, p⟩)
    (hrest : run ⟨frames, .done, .idle, p⟩ s₂ = some τ)
    (hdepth : listDepth frames = listDepth σ.frames)
    (hends : depthChange '[' ']' (textBehind ls ρ₀.place) ≤ 0) :
    ∃ pre s t, ArrayLines block pre s lead s₁ t ∧ s₂ = t ++ ['\n'] ∧
      ρ₀.place = ⟨n + pre.length, s.length⟩ := by
  obtain ⟨pre, s, t, hlast, hbefore, hbehind, hclosed⟩ :=
    exists_last_line hnewline hidle hplace hcloses hsplit hrun hstep rfl hrest hdepth
      fun pre s t post hsome hclosed => by
        have hat : ls[n + pre.length]? = some (s ++ ']' :: t) := by
          rw [← List.getElem?_drop, hblock, hsome]
          simp
        rwa [← textBehind_of_line hat, ← hclosed]
  exact ⟨pre, s, t, ⟨hlast, hbefore⟩, hbehind, hclosed⟩

/-- The bracket that closes an array is the last one on its line, if the array is written anew and
the copy is read. -/
theorem Awaits.bracket_notMem {w : Rewrite} {name : String} {place : Position} {ρ ρ' σ₀ : Reading}
    {block pre : List (List Char)} {s lead body trail head : List Char}
    (h : Awaits w name place ρ ρ') (hplain : e.IsPlain)
    (harray : ArrayLines block pre s lead body trail) (hblank : OptionsBlock.IsBlank ⟨head, block⟩)
    (hhead : head = lead ++ ['[']) (hlead : σ'.run lead = some ρ')
    (hmatches : e.request.matchesVersions (OptionsBlock.values ⟨head, block⟩) = false)
    (hidle : σ₀.mode = .idle) (hrun : σ₀.run (trail ++ ['\n']) = some τ)
    (hcode : ∀ x ∈ code trail, x.2 ≠ ']')
    (hcopy : (σ'.run (flat (e.settle ⟨head, block⟩))).isSome = true) : ']' ∉ trail := by
  obtain ⟨-, frames', behind, -, -, hrun'⟩ := h.renders hplain hblank hhead hlead
  rw [Edit.settle, if_neg (Bool.eq_false_iff.1 hmatches), hrun'] at hcopy
  refine bracket_notMem_of_reads hcode hidle hrun fun u v huv hv =>
    ⟨⟨frames', .done, .idle, behind⟩, rfl, ?_⟩
  rwa [harray.trailing_eq (u := ']' :: u) (congrArg (']' :: ·) huv) hv] at hcopy

/-- An array of options in the text, and in its place in the copy the same array or the one that is
rendered. The copy goes on behind it as the text does, if it goes on at all or no other bracket
stands there. -/
theorem atLine_options (h : AtLine e ls n σ σ') {head : List Char} {taken more : List (List Char)}
    (hlines : ls.drop n = (line :: taken) ++ more) (hnewline : ∀ l ∈ line :: taken, '\n' ∉ l)
    (hgathers : e.Gathers n line head) (hcloses : ClosesAtEnd 0 (line :: taken))
    (hreached : ¬ e.Skips ls n) (hplain : e.IsPlain) (hrun : σ.run (flat (line :: taken)) = some τ)
    (hok : (σ'.run (flat (e.settle ⟨head, line :: taken⟩))).isSome = true ∨
      AllEndClear e ls (held τ.frames))
    (hends : AllEndWell e ls (held τ.frames)) :
    ∃ τ', σ'.run (flat (e.settle ⟨head, line :: taken⟩)) = some τ' ∧
      AtLine e ls (n + (line :: taken).length) τ τ' := by
  obtain ⟨hline, -⟩ := getElem?_of_drop hlines
  obtain ⟨lead, rest, hlead, hhead⟩ := exists_of_gathers hgathers
  obtain ⟨hsplit, l, hleading⟩ := exists_lead hlead
  have hleadline : '\n' ∉ lead := by
    have := hnewline line List.mem_cons_self
    rw [← hsplit] at this
    exact fun hmem => this (List.mem_append_left _ hmem)
  have hfrom := lineFrom?_of_lead hline l hleading
  -- the text, up to the bracket that closes the array
  have hflat : flat (line :: taken) = lead ++ '[' :: (rest ++ '\n' :: flat taken) := by
    rw [flat_cons, ← hsplit]
    simp
  have hrunArray := hrun
  rw [hflat] at hrunArray
  obtain ⟨ρ, hrunLead, hrunArray⟩ := run_append_eq_some.1 hrunArray
  obtain ⟨ρ', hblank, hplace, hdepth, hrunLead', hawaits⟩ :=
    h.behindLead l isPlain_options hleadline hrunLead
  have hdepths : listDepth τ.frames ≤ listDepth ρ.frames := by
    have hopened := listDepth_flat hnewline h.idle hrun
    have hclosed := hcloses.linesDepth_le
    omega
  obtain ⟨s₁, s₂, ρ₀, items, items', opened', closed', frames, next', hbody, hrunBody, hstep,
    hrunRest, hattach, hvalues, hcopy⟩ := hawaits.closes hrunArray hdepths
  have hheld := run_mem_held hrunRest (hawaits.mem_held hattach)
  have htouches := touches_of_gathers hfrom hgathers
  have hwell := hends _ hheld rfl htouches hreached
  rw [Edit.EndsWell] at hwell
  have hsplit' : flat (line :: taken) = (lead ++ '[' :: s₁) ++ ']' :: s₂ := by
    rw [hflat, hbody]
    simp
  have hdepth' : listDepth frames = listDepth σ.frames := by
    rw [listDepth_attach hattach, hdepth]
  obtain ⟨pre, s, t, harray, rfl, hclosed⟩ := exists_arrayLines hlines hnewline h.idle h.place
    hcloses hsplit' (run_append_eq_some.2 ⟨ρ, hrunLead, hrunBody⟩) hstep hrunRest hdepth' hwell.1
  have hclosing := harray.getElem?_closing hlines
  have hblock : OptionsBlock.IsBlank ⟨head, line :: taken⟩ := by
    refine ⟨?_, allBlank_of_run_flat hnewline h.idle hrun⟩
    rw [hhead, l.leadingBlanks_append]
    exact hblank
  -- if the array is rendered, the bracket that closes it is the last one on its line
  have htrail : e.request.matchesVersions (OptionsBlock.values ⟨head, line :: taken⟩) = false →
      ']' ∉ t := by
    intro hmatches
    rcases hok with hcopy | hclear
    · obtain ⟨-, hvalues | hcode⟩ := hwell
      · rw [hclosed, harray.valuesOn_eq hlines, hmatches] at hvalues
        cases hvalues
      rw [hclosed, textBehind_of_line hclosing] at hcode
      exact hawaits.bracket_notMem hplain harray hblock hhead hrunLead' hmatches rfl hrunRest
        (fun x hx => (hcode x hx).2) hcopy
    · have hclears := hclear _ hheld rfl htouches
      rw [EndsClear, hclosed, textBehind_of_line hclosing] at hclears
      exact fun hmem => (hclears _ hmem).2 rfl
  -- the copy has the array as it was, or a rendered one
  obtain ⟨new, frames', place', hattach', hvalue, hrun'⟩ := hawaits.settles hplain hblock hhead
    harray.flat_eq (fun hmatches => harray.trailing_eq (List.nil_append _).symm (htrail hmatches))
    hcopy hrunLead'
  have hlists : Node.MemberEditsTo (e.rewrite ls)
      ⟨"options", ⟨n, l.before.length⟩, .list ρ.place ρ₀.place items⟩ new.value := by
    refine .inr ⟨hreached, .inr ⟨line, head, _, _, _, hfrom, hgathers, rfl, rfl, ?_⟩⟩
    rw [hclosed, harray.valuesOn_eq hlines, hvalue, Node.value, Node.value, hvalues]
  have hframes := hawaits.stacked hattach hattach' hlists
  have hpast : ρ₀.place.past ']' = ⟨n + pre.length, s.length + 1⟩ := by
    rw [hclosed]
    rfl
  have hbracket : (s ++ ']' :: t)[s.length]? = some ']' := by simp
  rw [hpast] at hrunRest
  rw [hrun', harray.length_eq, ← Nat.add_assoc]
  refine atLine_of_value hframes ?_ (fun k hk => ?_) hrunRest
  · have hmem : '\n' ∉ s ++ ']' :: t := hnewline _ (by rw [harray.lines]; simp)
    simp only [List.mem_append, List.mem_cons, not_or] at hmem
    exact hmem.2.2
  · exact not_touches hclosing hbracket (by decide) hk

/-! ## All lines -/

/-- The default values that are touched are taken whole. -/
def AllTakenWhole (e : Edit) (ls : List (List Char)) (ms : List (Member Node)) : Prop :=
  ∀ m ∈ ms, e.Touches ls m.place → ∀ line ∈ lineFrom? ls m.place,
    ∀ l ∈ DefaultLine.ofLine? line, TakenWhole l.value l.trail

instance (e : Edit) (ls : List (List Char)) (ms : List (Member Node)) :
    Decidable (AllTakenWhole e ls ms) :=
  List.decidableBAll _ ms

theorem isSome_run_of_append {s t : List Char} {ρ' : Reading}
    (h : (σ'.run (s ++ t)).isSome = true) (hrun : σ'.run s = some ρ') :
    (ρ'.run t).isSome = true := by
  rwa [run_append, hrun, Option.bind_some] at h

/-- A line that starts with the lead of a member starts with a member of what is read. -/
theorem exists_member_of_lead {name : String} {lead behind s : List Char}
    (hlead : (memberLead name).take? line = some (lead, behind)) (hname : IsPlain name.toList)
    (hline : ls[n]? = some line) (hnewline : '\n' ∉ line) (hidle : σ.mode = .idle)
    (hplace : σ.place = ⟨n, 0⟩) (hrun : σ.run (line ++ s) = some τ)
    (hnone : ∀ place, ¬ Waits name place τ.frames) :
    ∃ m ∈ held τ.frames, m.name = name ∧ m.place.line = n ∧ line ∈ lineFrom? ls m.place := by
  obtain ⟨htext, l, hleading⟩ := exists_lead hlead
  rw [← htext, List.append_assoc] at hrun
  obtain ⟨ρ, hrunLead, hrest⟩ := run_append_eq_some.1 hrun
  have hleadline : '\n' ∉ lead := fun hmem => hnewline (htext ▸ List.mem_append_left _ hmem)
  obtain ⟨opened, ms, outer, -, hframes⟩ := (run_memberLead l hname hidle hrunLead hleadline).frames
  rw [hplace, Nat.zero_add] at hframes
  have hwaits : WaitsOrHeld name ⟨n, l.before.length⟩ ρ.frames :=
    .inl ⟨opened, ms, hframes ▸ List.mem_cons_self⟩
  rcases hwaits.run hrest with h | ⟨node, hmem⟩
  · exact absurd h (hnone _)
  · exact ⟨_, hmem, rfl, rfl, lineFrom?_of_lead hline l hleading⟩

/-- A line with a default value that is replaced starts with a member that is touched. -/
theorem takenWhole_of_newDefault? {line' s : List Char} (h : AtLine e ls n σ σ')
    (hline : ls[n]? = some line) (hnewline : '\n' ∉ line) (hcovers : e.covers n = true)
    (hnew : newDefault? e.request.latest line = some line') (hrun : σ.run (line ++ s) = some τ)
    (hnone : ∀ name place, ¬ Waits name place τ.frames)
    (hwhole : AllTakenWhole e ls (held τ.frames)) :
    ∀ l ∈ DefaultLine.ofLine? line, TakenWhole l.value l.trail := by
  obtain ⟨lead, value, trail, rest, hlead, -, -⟩ := exists_of_newDefault? hnew
  rw [defaultLead_eq] at hlead
  obtain ⟨m, hm, -, hplace, hfrom⟩ :=
    exists_member_of_lead hlead isPlain_default_value hline hnewline
    h.idle h.place hrun (hnone _)
  refine hwhole m hm ⟨line, hfrom, fun hkeeps => ?_⟩ line hfrom
  have hnone := (hkeeps (by rw [hplace]; exact hcovers)).1
  rw [hnew] at hnone
  cases hnone

/-- **The text and its edited copy, chunk by chunk.** The copy is read, if it is known to be or all
default values that are touched are taken whole and all arrays that are end clear. -/
theorem alike_of_edited {rest out : List (List Char)} (hedited : Edited e n rest out)
    (hcomes : e.ComesTo ls n) (hplain : e.IsPlain) (hlines : ls.drop n = rest)
    (hnewline : ∀ l ∈ ls, '\n' ∉ l)
    (h : AtLine e ls n σ σ') (hrun : σ.run (flat rest) = some τ)
    (hok : (σ'.run (flat out)).isSome = true ∨
      AllTakenWhole e ls (held τ.frames) ∧ AllEndClear e ls (held τ.frames))
    (hnone : ∀ name place, ¬ Waits name place τ.frames) (hdepth : listDepth τ.frames ≤ 1)
    (hends : AllEndWell e ls (held τ.frames)) :
    ∃ τ', σ'.run (flat out) = some τ' ∧ Alike (e.rewrite ls) ⟨0, 0⟩ [] [] τ τ' := by
  induction hedited generalizing σ σ' with
  | nil n =>
    cases hrun
    exact ⟨σ', rfl, h.alike⟩
  | @kept n line more out hkeeps hmore ih =>
    obtain ⟨hline, hdrop⟩ := getElem?_of_drop hlines
    obtain ⟨ρ, hrunLine, hrunMore⟩ := run_flat_cons.1 hrun
    obtain ⟨ρ', hrunLine', hnext⟩ :=
      atLine_kept h hline (hnewline _ (List.mem_of_getElem? hline)) hkeeps hrunLine
    obtain ⟨τ', hrun', halike⟩ := ih (hcomes.keeps hline hkeeps) hdrop hnext hrunMore
      (hok.imp_left fun hok => isSome_run_of_append hok hrunLine')
    exact ⟨τ', run_flat_cons.2 ⟨ρ', hrunLine', hrun'⟩, halike⟩
  | @default n line line' more out hcovers hnew hmore ih =>
    obtain ⟨hline, hdrop⟩ := getElem?_of_drop hlines
    obtain ⟨ρ, hrunLine, hrunMore⟩ := run_flat_cons.1 hrun
    have hfirst : (σ'.run (line' ++ ['\n'])).isSome = true ∨
        ∀ l ∈ DefaultLine.ofLine? line, TakenWhole l.value l.trail := by
      rcases hok with hok | ⟨hwhole, -⟩
      · rw [flat_line_cons, run_append, Option.isSome_bind] at hok
        exact .inl (Option.isSome_of_any hok)
      · rw [flat_line_cons, List.append_assoc] at hrun
        exact .inr (takenWhole_of_newDefault? h hline (hnewline _ (List.mem_of_getElem? hline))
          hcovers hnew hrun hnone hwhole)
    obtain ⟨ρ', hrunLine', hnext⟩ := atLine_default h hline
      (hnewline _ (List.mem_of_getElem? hline))
      hcovers hcomes.not_skips hnew hplain.latest hrunLine hfirst
    obtain ⟨τ', hrun', halike⟩ := ih (hcomes.default hline hnew) hdrop hnext hrunMore
      (hok.imp_left fun hok => isSome_run_of_append hok hrunLine')
    exact ⟨τ', run_flat_cons.2 ⟨ρ', hrunLine', hrun'⟩, halike⟩
  | @options n line head taken more out hgathers hcloses hmore ih =>
    have hdrop : ls.drop (n + (line :: taken).length) = more := by
      rw [← List.drop_drop, hlines, List.drop_left]
    have htaken : ∀ l ∈ line :: taken, '\n' ∉ l := by
      intro l hl
      apply hnewline
      apply List.mem_of_mem_drop
      rw [hlines]
      exact List.mem_append_left _ hl
    rw [flat_append] at hrun hok ⊢
    obtain ⟨ρ, hrunTaken, hrunMore⟩ := run_append_eq_some.1 hrun
    have hfirst : (σ'.run (flat (e.settle ⟨head, line :: taken⟩))).isSome = true ∨
        AllEndClear e ls (held ρ.frames) := by
      rcases hok with hok | ⟨-, hclear⟩
      · rw [run_append, Option.isSome_bind] at hok
        exact .inl (Option.isSome_of_any hok)
      · exact .inr fun m hm => hclear m (run_mem_held hrunMore hm)
    obtain ⟨ρ', hrunTaken', hnext⟩ := atLine_options h hlines htaken hgathers hcloses
      hcomes.not_skips hplain hrunTaken hfirst fun m hm => hends m (run_mem_held hrunMore hm)
    obtain ⟨τ', hrun', halike⟩ := ih (hcomes.array hcloses hlines) hdrop hnext hrunMore
      (hok.imp_left fun hok => isSome_run_of_append hok hrunTaken')
    exact ⟨τ', run_append_eq_some.2 ⟨ρ', hrunTaken', hrun'⟩, halike⟩
  | @unclosed n line head more hgathers hopen =>
    -- an array that is never closed is still open at the end of the text
    have hopened := listDepth_flat (fun l hl => hnewline l (List.mem_of_mem_drop (hlines ▸ hl)))
      h.idle hrun
    have hpos := hopen.linesDepth_pos (List.cons_ne_nil _ _)
    have hstart := listDepth_lt_of_stacked h.alike.frames
    rw [listDepth] at hstart
    omega

theorem exists_of_ofText? {text : List Char} {doc : Node} (h : Node.ofText? text = some doc) :
    ∃ opened place, Reading.start.run (text ++ ['\n']) =
      some ⟨[.list opened [doc]], .done, .idle, place⟩ := by
  obtain ⟨⟨frames, phase, mode, place⟩, hrun, hresult⟩ := Option.bind_eq_some_iff.1 h
  rw [Reading.result?.eq_def] at hresult
  simp only at hresult
  split at hresult
  · cases hresult
    exact ⟨_, place, hrun⟩
  · cases hresult

theorem flat_lines (text : List Char) : text ++ ['\n'] = flat (lines text) := by
  have hne : lines text ≠ [] := splitAt_ne_nil '\n' text
  rw [← flat_unlines hne, unlines_lines]

/-- At the end of a text, the edited copy has been read as the edited document. -/
theorem editsTo_of_alike {w : Rewrite} {doc : Node} {opened place : Position}
    (h : Alike w ⟨0, 0⟩ [] [] ⟨[.list opened [doc]], .done, .idle, place⟩ τ) :
    ∃ doc', τ.result? = some doc' ∧ doc.EditsTo w doc'.value := by
  obtain ⟨hframes, hphase, hmode⟩ := h
  obtain ⟨frames, phase, mode, place'⟩ := τ
  simp only at hframes hphase hmode
  subst hphase
  cases hmode
  cases hframes with
  | bottom hitems =>
    obtain ⟨v, vs, hvs, hv, rfl⟩ := hitems
    rw [Node.values_eq_map, List.map_eq_singleton_iff] at hvs
    obtain ⟨doc', rfl, rfl⟩ := hvs
    exact ⟨doc', rfl, hv⟩
  | list _ hbelow => cases hbelow

/-- A document is its own edited copy if nothing is touched. -/
theorem editsTo_none_of_ofText? {text : List Char} {doc : Node}
    (hdoc : Node.ofText? text = some doc) :
    doc.EditsTo Rewrite.none doc.value := by
  obtain ⟨opened, place, hrun⟩ := exists_of_ofText? hdoc
  have hstart : Alike Rewrite.none ⟨0, 0⟩ [] [] Reading.start Reading.start :=
    ⟨.bottom rfl, rfl, .idle⟩
  obtain ⟨τ', hrun', halike⟩ := run_alike_outermost hstart (untouched_none _ _) hrun
  obtain rfl := Option.some.inj (hrun.symm.trans hrun')
  obtain ⟨doc', hdoc', hedits⟩ := editsTo_of_alike halike
  cases hdoc'
  exact hedits

/-- The lines of a document are read as a text of lines. -/
theorem isSome_run_flat {out : List (List Char)}
    (h : (Node.ofText? (unlines out)).isSome = true) :
    (Reading.start.run (flat out)).isSome = true := by
  have hne : out ≠ [] := by
    rintro rfl
    cases h
  rw [Node.ofText?, flat_unlines hne, Option.isSome_bind] at h
  exact Option.isSome_of_any h

/-- **The document of the edited text.** Touched members apart, the edited text is the text of the
same document, if it is one of a document or all default values that are touched are taken whole and
all arrays that are end clear. -/
theorem exists_node_of_edit {text : List Char} {doc : Node} (hplain : e.IsPlain)
    (hdoc : Node.ofText? text = some doc)
    (hok : (Node.ofText? (unlines (editLines e none 0 (lines text)))).isSome = true ∨
      AllTakenWhole e (lines text) doc.members ∧ AllEndClear e (lines text) doc.members)
    (hends : AllEndWell e (lines text) doc.members) :
    ∃ doc', Node.ofText? (unlines (editLines e none 0 (lines text))) = some doc' ∧
      doc.EditsTo (e.rewrite (lines text)) doc'.value := by
  have hedited := edited_editLines e 0 (lines text)
  generalize editLines e none 0 (lines text) = out at hedited hok ⊢
  obtain ⟨opened, place, hrun⟩ := exists_of_ofText? hdoc
  have hheld : held [.list opened [doc]] = doc.members := by simp [held, Node.itemsMembers]
  have hnone : ∀ name place, ¬ Waits name place [.list opened [doc]] := by
    rintro name place ⟨opened, ms, hmem⟩
    simp at hmem
  rw [flat_lines] at hrun
  have hstart : AtLine e (lines text) 0 Reading.start Reading.start :=
    ⟨⟨.bottom rfl, rfl, .idle⟩, rfl, rfl⟩
  obtain ⟨τ', hrun', halike⟩ := alike_of_edited hedited comesTo_zero hplain rfl
    (fun l hl => not_mem_of_mem_splitAt hl) hstart hrun
    (by rw [hheld]; exact hok.imp_left isSome_run_flat) hnone (by simp [listDepth])
    (by rw [AllEndWell, hheld]; exact hends)
  obtain ⟨doc', hresult, hedits⟩ := editsTo_of_alike halike
  have hne : out ≠ [] := by
    rintro rfl
    cases hrun'
    cases hresult
  refine ⟨doc', ?_, hedits⟩
  rw [Node.ofText?, flat_unlines hne, hrun', Option.bind_some, hresult]

/-- **What an edit does to the document.** Touched members apart, the edited text is the text of
the same document. -/
theorem editsTo_of_edit {text : List Char} {doc : Node} {v : Value} (hplain : e.IsPlain)
    (hdoc : Node.ofText? text = some doc)
    (hparse : Json.parse (unlines (editLines e none 0 (lines text))) = .ok v)
    (hends : AllEndWell e (lines text) doc.members) : doc.EditsTo (e.rewrite (lines text)) v := by
  obtain ⟨doc', hdoc', rfl⟩ := exists_node_of_parse hparse
  obtain ⟨doc₁, hdoc₁, hedits⟩ := exists_node_of_edit hplain hdoc (.inl (by rw [hdoc']; rfl)) hends
  obtain rfl : doc₁ = doc' := Option.some.inj (hdoc₁.symm.trans hdoc')
  exact hedits

/-! ## Updates -/

/-- The edit that an update makes. -/
def editOf (text : List Char) (r : Request) : Edit :=
  ⟨r, owningSpans r.field (lines text), lineEnding text⟩

/-- An update answers with the edited text. -/
theorem edit_of_update {text out : List Char} {r : Request} (h : update text r = .ok out) :
    out = unlines (editLines (editOf text r) none 0 (lines text)) := by
  simp only [update] at h
  split at h
  · cases h
  · split at h
    · cases h
    · split at h
      · cases h
      · split at h
        · cases h
          rfl
        · cases h

/-- The versions of the request are written into a JSON text as they are. -/
structure IsWritable (r : Request) : Prop where
  versions : ∀ v ∈ r.versions, Json.IsPlain v.toList
  latest : Json.IsPlain r.latest.toList

theorem isPlain_editOf {r : Request} (hr : IsWritable r) (text : List Char) :
    (editOf text r).IsPlain where
  latest := hr.latest
  ascending := fun v hv => hr.versions v (Version.mem_sortAscending.1 hv)
  ending := by
    show AllBlank (if _ then ['\r'] else [])
    split
    · decide
    · decide

theorem parse_eq_ok {text : List Char} {v : Value} :
    parse text = .ok v ↔ Json.parse text = .ok v := by
  rw [parse]
  split
  · next h => rw [h, Except.ok.injEq, Except.ok.injEq]
  · next h => simp [h]

/-- **What an update does to the document.** -/
theorem editsTo_of_update {text out : List Char} {r : Request} (hr : IsWritable r)
    (h : update text r = .ok out) :
    ∃ doc v, Node.ofText? text = some doc ∧ parse text = .ok doc.value ∧ parse out = .ok v ∧
      (AllEndWell (editOf text r) (lines text) doc.members →
        doc.EditsTo ((editOf text r).rewrite (lines text)) v) := by
  obtain ⟨v, item, hout, -, -⟩ := carries_of_update h
  have hedit := edit_of_update h
  simp only [update] at h
  split at h
  · cases h
  · next document hparse =>
    obtain ⟨doc, hdoc, rfl⟩ := exists_node_of_parse (parse_eq_ok.1 hparse)
    refine ⟨doc, v, hdoc, hparse, hout, fun hends => ?_⟩
    rw [hedit] at hout
    exact editsTo_of_edit (isPlain_editOf hr text) hdoc (parse_eq_ok.1 hout) hends

end VersionAlignment.Artifact.Catalog
