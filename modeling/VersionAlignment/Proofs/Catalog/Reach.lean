import VersionAlignment.Proofs.Catalog.Layout

/-!
# What an edit reaches

An edit takes a member up if it holds versions (`HoldsVersions`), starts its line, and the line is
one of an object in which the key is named. It passes over the lines of an array that it has taken
up before, so that is where it reaches a member (`Reached`). What becomes of the member is told by
what its lines show: of a default value the text up to the next quote, or the digits of a number,
and of an array the values that are spelled on its lines (`Displays`).

The scan takes the text behind the last bracket of a line for what stands behind the array, and
gathers lines until no bracket is open. That is right of arrays behind which no bracket stands on
their last line, and of those that stay as they are if no bracket is left open there (`ArraysEnd`).

## Results

* `covers_iff`: the lines that an edit takes up.
* `takenUp_of_touches`, `TakenUp.touches`: what is touched is taken up, and the other way round.
* `of_may`: what may become of a member.
* `ArraysEnd.allEndWell`: arrays end where the scan takes them to end.
-/

set_option autoImplicit false

namespace VersionAlignment.Artifact.Catalog

open Text Json

variable {text : List Char} {doc : Node} {m : Member Node} {r : Request} {n : Nat}

/-- The lines that the scan takes up are those of the objects in which the key is named. -/
theorem covers_iff (h : StandsIn text doc) :
    (editOf text r).covers n = true ↔ OnNamed r.field (lines text) doc n := any_holds_iff h

/-! ## Members that are taken up -/

/-- The member is a default value that is a string or a number, or an array of options. -/
def HoldsVersions (m : Member Node) : Prop :=
  m.name = "default_value" ∧ (token? m.node.value).isSome = true ∨
    m.name = "options" ∧ m.node.value.isList = true

instance (m : Member Node) : Decidable (HoldsVersions m) :=
  inferInstanceAs (Decidable (_ ∧ _ ∨ _ ∧ _))

/-- The member holds versions, starts its line, and the key is named in an object on this line. -/
structure TakenUp (field : String) (ls : List (List Char)) (doc : Node) (m : Member Node) :
    Prop where
  holds : HoldsVersions m
  starts : StartsLine ls m
  named : OnNamed field ls doc m.place.line

instance (field : String) (ls : List (List Char)) (doc : Node) (m : Member Node) :
    Decidable (TakenUp field ls doc m) :=
  decidable_of_iff (HoldsVersions m ∧ StartsLine ls m ∧ OnNamed field ls doc m.place.line)
    ⟨fun ⟨h, h', h''⟩ => ⟨h, h', h''⟩, fun ⟨h, h', h''⟩ => ⟨h, h', h''⟩⟩

/-- On the lines of an array, no quote stands in a name. -/
def Legible (doc : Node) (m : Member Node) : Prop :=
  match m.node with
  | .list _ closed _ => ∀ m' ∈ doc.members,
    within m.place.line closed.line m'.place.line = true → '"' ∉ m'.name.toList
  | _ => True

instance (doc : Node) (m : Member Node) : Decidable (Legible doc m) := by
  unfold Legible
  split <;> infer_instance

/-- The lines show what is requested: the latest version as a default value, or the versions as
those of an array. -/
def Displays (r : Request) (ls : List (List Char)) (doc : Node) (m : Member Node) : Prop :=
  match m.node with
  | .scalar spelling _ => shownDefault spelling = r.latest.toList
  | .list _ closed _ => r.matchesVersions (shownOn ls doc m.place.line closed.line) = true
  | .object _ _ _ => False

instance (r : Request) (ls : List (List Char)) (doc : Node) (m : Member Node) :
    Decidable (Displays r ls doc m) := by
  unfold Displays
  split <;> infer_instance

theorem HoldsVersions.isPlain (h : HoldsVersions m) : IsPlain m.name.toList := by
  rcases h with ⟨hname, -⟩ | ⟨hname, -⟩
  · rw [hname]
    exact isPlain_default_value
  · rw [hname]
    exact isPlain_options

theorem TakenUp.exists_onLine {field : String} (h : TakenUp field (lines text) doc m)
    (hm : MemberIn text m) : ∃ line lead rest v b, OnLine text m line lead rest v b :=
  h.starts.exists_onLine hm h.holds.isPlain

/-- **The values that the scan finds on the lines of an array** are those that the lines show. -/
theorem Legible.valuesOn_eq {opened closed : Position} {items : List Node}
    (hdoc : StandsIn text doc) (h : Legible doc m) (hnode : m.node = .list opened closed items) :
    valuesOn (lines text) m.place.line closed.line =
      shownOn (lines text) doc m.place.line closed.line := by
  rw [Legible, hnode] at h
  exact Catalog.valuesOn_eq hdoc h

/-- The line is one of the array, behind the line on which the array starts. -/
def ExtendsTo (m : Member Node) (n : Nat) : Prop :=
  match m.node with
  | .list _ closed _ => m.place.line < n ∧ n ≤ closed.line
  | _ => False

instance (m : Member Node) (n : Nat) : Decidable (ExtendsTo m n) := by
  unfold ExtendsTo
  split <;> infer_instance

/-- The member is taken up, and does not stand on the lines of an array that is taken up before
it. -/
structure Reached (field : String) (ls : List (List Char)) (doc : Node) (m : Member Node) :
    Prop where
  takenUp : TakenUp field ls doc m
  first : ∀ m' ∈ doc.members, TakenUp field ls doc m' → ¬ ExtendsTo m' m.place.line

instance (field : String) (ls : List (List Char)) (doc : Node) (m : Member Node) :
    Decidable (Reached field ls doc m) :=
  decidable_of_iff (TakenUp field ls doc m ∧
    ∀ m' ∈ doc.members, TakenUp field ls doc m' → ¬ ExtendsTo m' m.place.line)
    ⟨fun ⟨h, h'⟩ => ⟨h, h'⟩, fun ⟨h, h'⟩ => ⟨h, h'⟩⟩

/-- The lines of an array that is taken up are skipped, but for the first one. -/
theorem TakenUp.skips (hdoc : StandsIn text doc) (hm : m ∈ doc.members)
    (h : TakenUp r.field (lines text) doc m) (hn : ExtendsTo m n) :
    (editOf text r).Skips (lines text) n := by
  obtain ⟨line, lead, rest, v, b, honline⟩ := h.exists_onLine (hdoc.memberIn hm)
  cases hnode : m.node with
  | scalar spelling value =>
    rw [ExtendsTo, hnode] at hn
    exact hn.elim
  | object opened closed ms =>
    rw [ExtendsTo, hnode] at hn
    exact hn.elim
  | list opened closed items =>
    simp only [ExtendsTo, hnode] at hn
    have hname : m.name = "options" := by
      rcases h.holds with ⟨-, htoken⟩ | ⟨hname, -⟩
      · rw [hnode] at htoken
        cases htoken
      · exact hname
    have hlist : m.node.value.isList = true := by
      rw [hnode]
      rfl
    obtain ⟨hat, -⟩ := lineFrom?_eq_some.1 honline.atLine
    refine ⟨m.place.line, hn.1, ⟨(covers_iff hdoc).2 h.named, line, hat,
      honline.isSome_start? hname hlist⟩, ?_⟩
    have hlength := (honline.listIn h.holds.isPlain hnode).length_gathered
    rw [honline.place] at hlength
    rw [Edit.arrayAt]
    omega

/-- A member that is taken up on a line that is not skipped is reached. -/
theorem TakenUp.reached (hdoc : StandsIn text doc) (h : TakenUp r.field (lines text) doc m)
    (hreached : ¬ (editOf text r).Skips (lines text) m.place.line) :
    Reached r.field (lines text) doc m :=
  ⟨h, fun _ hm' h' hextends => hreached (h'.skips hdoc hm' hextends)⟩

/-- **A member that is touched is taken up.** -/
theorem takenUp_of_touches (hdoc : StandsIn text doc) (hm : m ∈ doc.members)
    (h : (editOf text r).Touches (lines text) m.place) : TakenUp r.field (lines text) doc m := by
  have hmember := hdoc.memberIn hm
  obtain ⟨line, hline, hkeeps⟩ := h
  simp only [Edit.Keeps, Classical.not_imp] at hkeeps
  obtain ⟨hcovers, hkeeps⟩ := hkeeps
  have hnamed : OnNamed r.field (lines text) doc m.place.line := (covers_iff hdoc).1 hcovers
  rcases not_and_or.1 hkeeps with hdefault | hstart
  · obtain ⟨line', hnew⟩ := Option.ne_none_iff_exists'.1 hdefault
    obtain ⟨lead, found, trail, rest, hlead, hvalue, -⟩ := exists_of_newDefault? hnew
    rw [defaultLead_eq] at hlead
    have hne : rest ≠ [] := by
      rintro rfl
      cases hvalue
    obtain ⟨hname, hstarts⟩ := startsLine_of_take? hmember isPlain_default_value hline hlead hne
    obtain ⟨_, _, _, v, b, honline⟩ :=
      hstarts.exists_onLine hmember (hname ▸ isPlain_default_value)
    obtain rfl := Option.some.inj (hline.symm.trans honline.atLine)
    have hread : (DefaultLine.ofLine? line).isSome = true := by
      rw [DefaultLine.ofLine?, defaultLead_eq, hlead]
      simp [hvalue]
    exact ⟨.inl ⟨hname, honline.isSome_token? hname hread⟩, hstarts, hnamed⟩
  · obtain ⟨g, hg⟩ := Option.ne_none_iff_exists'.1 hstart
    obtain ⟨lead, rest, hlead, -⟩ := exists_of_start? hg
    obtain ⟨hname, hstarts⟩ := startsLine_of_take? hmember isPlain_options hline hlead (by simp)
    obtain ⟨_, _, _, v, b, honline⟩ := hstarts.exists_onLine hmember (hname ▸ isPlain_options)
    obtain rfl := Option.some.inj (hline.symm.trans honline.atLine)
    have hsame := honline.take
    rw [hname, hlead] at hsame
    cases hsame
    exact ⟨.inr ⟨hname, honline.isList⟩, hstarts, hnamed⟩

/-- A default value that is taken up stays as it is if it shows the latest version. -/
theorem TakenUp.newDefault?_eq_none_iff {line : List Char} (hdoc : StandsIn text doc)
    (hm : m ∈ doc.members) (h : TakenUp r.field (lines text) doc m)
    (hname : m.name = "default_value") (hline : lineFrom? (lines text) m.place = some line) :
    newDefault? r.latest line = none ↔ r.latest = "" ∨ Displays r (lines text) doc m := by
  obtain ⟨_, lead, rest, v, b, honline⟩ := h.exists_onLine (hdoc.memberIn hm)
  obtain rfl := Option.some.inj (hline.symm.trans honline.atLine)
  rcases h.holds with ⟨-, htoken⟩ | ⟨hother, -⟩
  · obtain ⟨spelling, value, hnode⟩ := exists_scalar_of_token? honline.stands htoken
    rw [hnode] at htoken
    simp only [Displays, hnode]
    exact honline.newDefault?_eq_none_iff hname hnode htoken
  · rw [hname] at hother
    exact absurd hother (by decide)

/-- **What may become of a member**: it is reached, and comes out as it was if it shows what is
requested. -/
theorem of_may {u : Value} (hdoc : StandsIn text doc) (hm : m ∈ doc.members)
    (h : ((editOf text r).rewrite (lines text)).may m u) : Reached r.field (lines text) doc m ∧
      (Legible doc m → Displays r (lines text) doc m → u = m.node.value) := by
  have htaken := takenUp_of_touches hdoc hm (touches_of_may h).1
  refine ⟨htaken.reached hdoc h.1, fun hlegible hdisplays => ?_⟩
  obtain ⟨-, ⟨line, line', hline, -, hnew, hname, -, -⟩ |
    ⟨line, head, opened, closed, items, -, -, -, hnode, rfl⟩⟩ := h
  · have hnone := (htaken.newDefault?_eq_none_iff hdoc hm hname hline).2 (.inr hdisplays)
    cases hnew.symm.trans hnone
  · simp only [Displays, hnode] at hdisplays
    rw [← hlegible.valuesOn_eq hdoc hnode] at hdisplays
    exact if_pos hdisplays

/-- **A member that is taken up is touched**, unless it is a default value that shows the latest
version. -/
theorem TakenUp.touches (hdoc : StandsIn text doc) (hm : m ∈ doc.members)
    (h : TakenUp r.field (lines text) doc m)
    (hlatest : m.name = "default_value" → r.latest ≠ "" ∧ ¬ Displays r (lines text) doc m) :
    (editOf text r).Touches (lines text) m.place := by
  obtain ⟨line, lead, rest, v, b, honline⟩ := h.exists_onLine (hdoc.memberIn hm)
  have hcovers : (editOf text r).covers m.place.line = true := (covers_iff hdoc).2 h.named
  refine ⟨line, honline.atLine, fun hkeeps => ?_⟩
  obtain ⟨hdefault, hstart⟩ := hkeeps hcovers
  rcases h.holds with ⟨hname, -⟩ | ⟨hname, hlist⟩
  · obtain ⟨hne, hdisplays⟩ := hlatest hname
    exact ((h.newDefault?_eq_none_iff hdoc hm hname honline.atLine).1 hdefault).elim hne hdisplays
  · have hsome := honline.isSome_start? hname hlist
    rw [hstart] at hsome
    cases hsome

/-! ## Arrays and what stands behind them -/

/-- Behind the array no more brackets are opened than closed on its line. -/
def EndsClosed (ls : List (List Char)) : Node → Prop
  | .list _ closed _ => depthChange '[' ']' (textBehind ls closed) ≤ 0
  | _ => True

/-- Behind the array no bracket stands on its line, outside of quotes. -/
def EndsLast (ls : List (List Char)) : Node → Prop
  | .list _ closed _ => ∀ x ∈ code (textBehind ls closed), x.2 ≠ '[' ∧ x.2 ≠ ']'
  | _ => True

instance (ls : List (List Char)) : (n : Node) → Decidable (EndsClosed ls n)
  | .scalar _ _ => .isTrue trivial
  | .object _ _ _ => .isTrue trivial
  | .list _ _ _ => inferInstanceAs (Decidable (_ ≤ _))

instance (ls : List (List Char)) : (n : Node) → Decidable (EndsLast ls n)
  | .scalar _ _ => .isTrue trivial
  | .object _ _ _ => .isTrue trivial
  | .list _ _ _ => List.decidableBAll _ _

/-- Behind each array that is reached no bracket stands on its line, or none is left open there and
the array shows what is requested. -/
def ArraysEnd (r : Request) (ls : List (List Char)) (doc : Node) : Prop :=
  ∀ m ∈ doc.members, m.name = "options" → Reached r.field ls doc m →
    EndsLast ls m.node ∨ EndsClosed ls m.node ∧ Legible doc m ∧ Displays r ls doc m

instance (r : Request) (ls : List (List Char)) (doc : Node) : Decidable (ArraysEnd r ls doc) :=
  List.decidableBAll _ _

/-- **What the scan takes for the end of an array** is the end of it. -/
theorem ArraysEnd.allEndWell (hdoc : StandsIn text doc) (h : ArraysEnd r (lines text) doc) :
    AllEndWell (editOf text r) (lines text) doc.members := by
  intro m hm hname htouches hreached
  rw [Edit.EndsWell]
  split
  · next opened closed items hnode =>
    have htaken := takenUp_of_touches hdoc hm htouches
    rcases h m hm hname (htaken.reached hdoc hreached) with hlast | ⟨hclosed, hlegible, hdisplays⟩
    · rw [hnode, EndsLast] at hlast
      exact ⟨Int.le_of_eq (depthChange_eq_zero_of_code hlast), .inr hlast⟩
    · rw [hnode, EndsClosed] at hclosed
      simp only [Displays, hnode] at hdisplays
      rw [← hlegible.valuesOn_eq hdoc hnode] at hdisplays
      exact ⟨hclosed, .inl hdisplays⟩
  · trivial

end VersionAlignment.Artifact.Catalog
