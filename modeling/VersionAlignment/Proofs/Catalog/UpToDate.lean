import VersionAlignment.Proofs.Catalog.Idempotence
import VersionAlignment.Proofs.Catalog.Verbatim

/-!
# Catalogs that are up to date

An update is to leave a catalog as it is whose items for the field declare what is requested. What
an item declares is said of the values that have been read, but whether a line is written anew is
told by what it shows. The update leaves the catalog as it is where the versions of the items are
spelled as they are read (`SpelledOut`), and whatever else it reaches shows what is requested.

The two do not agree everywhere. A line shows no version in an option whose value is a number, or is
spelled with an escape, or stands on the line behind its name; it shows a default value that is a
number by its spelling; and the default values and options of objects inside an item are reached as
those of the item are.

## Results

* `eq_of_displays`: an edit that reaches nothing but what is requested changes nothing.
* `update_upToDate`: a catalog that is up to date is left as it is.
* `not_update_upToDate_numberOption`: unless it is spelled in another way.
-/

set_option autoImplicit false

namespace VersionAlignment.Artifact.Catalog

open Text Json Json.Reading

variable {text : List Char} {rest out more : List (List Char)} {n : Nat} {σ τ : Reading}
  {line head : List Char} {doc : Node} {m : Member Node} {r : Request}

/-- The member shows what is requested on lines on which the scan reads nothing else: no bracket is
left open behind it, and no quote stands in a name. -/
structure StaysAsIs (r : Request) (ls : List (List Char)) (doc : Node) (m : Member Node) :
    Prop where
  closed : EndsClosed ls m.node
  legible : Legible doc m
  displays : Displays r ls doc m

/-! ## Chunk by chunk -/

/-- A member on a line that the edit comes to, and does not keep, is reached. -/
theorem exists_reached {name : String} {lead behind : List Char} (hdoc : StandsIn text doc)
    (hlead : (memberLead name).take? line = some (lead, behind)) (hname : IsPlain name.toList)
    (hpasses : Passes (lines text) n σ (line :: more) [] τ)
    (hcomes : (editOf text r).ComesTo (lines text) n) (hkeeps : ¬ (editOf text r).Keeps n line)
    (hheld : ∀ m ∈ held τ.frames, m ∈ doc.members)
    (hnone : ∀ place, ¬ Waits name place τ.frames) :
    ∃ m ∈ doc.members, m.name = name ∧ m.place.line = n ∧
      lineFrom? (lines text) m.place = some line ∧ Reached r.field (lines text) doc m := by
  have hlines := hpasses.lines
  rw [List.append_nil] at hlines
  obtain ⟨hat, -⟩ := getElem?_of_drop hlines
  have hrun := hpasses.run
  rw [flat_line_cons, List.append_assoc] at hrun
  obtain ⟨m, hmem, hnamed, rfl, hline⟩ := exists_member_of_lead hlead hname hat
    (hpasses.newline line (List.mem_of_getElem? hat)) hpasses.idle hpasses.place hrun hnone
  have hm := hheld m hmem
  exact ⟨m, hm, hnamed, rfl, hline,
    (takenUp_of_touches hdoc hm ⟨line, hline, hkeeps⟩).reached hdoc hcomes.not_skips⟩

/-- The lines of an array that is reached show what is requested. -/
theorem matchesVersions_of_staysAsIs {block : List (List Char)} (hdoc : StandsIn text doc)
    (hm : m ∈ doc.members) (hname : m.name = "options")
    (hreached : Reached r.field (lines text) doc m) (hstays : StaysAsIs r (lines text) doc m)
    (hcloses : ClosesAtEnd 0 block) (hlines : (lines text).drop m.place.line = block ++ more) :
    r.matchesVersions (OptionsBlock.values ⟨head, block⟩) = true := by
  obtain ⟨_, lead, rest, v, b, honline⟩ := hreached.takenUp.exists_onLine (hdoc.memberIn hm)
  have hlist : m.node.value.isList = true := by
    rcases hreached.takenUp.holds with ⟨hother, -⟩ | ⟨-, hlist⟩
    · rw [hname] at hother
      exact absurd hother (by decide)
    · exact hlist
  obtain ⟨opened, closed, items, hnode⟩ := honline.stands.exists_list hlist
  have hclosed := hstays.closed
  have hdisplays := hstays.displays
  rw [hnode, EndsClosed] at hclosed
  simp only [Displays, hnode] at hdisplays
  have hgathered := (honline.listIn hreached.takenUp.holds.isPlain hnode).gathered_eq hclosed
  rw [honline.place] at hgathered
  rwa [← hstays.legible.valuesOn_eq hdoc hnode, valuesOn, ← hgathered, hlines,
    hcloses.gathered_eq] at hdisplays

/-- **An edit that reaches nothing but what is requested** changes nothing. -/
theorem eq_of_displays (h : Edited (editOf text r) n rest out) (hdoc : StandsIn text doc)
    (hpasses : Passes (lines text) n σ rest [] τ)
    (hcomes : (editOf text r).ComesTo (lines text) n)
    (hheld : ∀ m ∈ held τ.frames, m ∈ doc.members)
    (hnone : ∀ name place, ¬ Waits name place τ.frames)
    (hstays : ∀ m ∈ doc.members, Reached r.field (lines text) doc m →
      StaysAsIs r (lines text) doc m) : out = rest := by
  induction h generalizing σ with
  | nil => rfl
  | @kept n line more out hkeeps _ ih =>
    obtain ⟨ρ, hline, hmore⟩ := hpasses.split_line
    have hlines := getElem?_of_drop (hline.lines.trans (List.singleton_append ..))
    rw [ih hmore (hcomes.keeps hlines.1 hkeeps)]
  | @default n line line' more out hcovers hnew _ _ =>
    obtain ⟨lead, -, -, behind, hlead, -, -⟩ := exists_of_newDefault? hnew
    rw [defaultLead_eq] at hlead
    have hkeeps : ¬ (editOf text r).Keeps n line := fun hkeeps => by
      cases hnew.symm.trans (hkeeps hcovers).1
    obtain ⟨m, hm, hname, -, hline, hreached⟩ := exists_reached hdoc hlead isPlain_default_value
      hpasses hcomes hkeeps hheld (hnone _)
    have hsame := (hreached.takenUp.newDefault?_eq_none_iff hdoc hm hname hline).2
      (.inr (hstays m hm hreached).displays)
    cases hnew.symm.trans hsame
  | @options n line head taken more out hgathers hcloses _ ih =>
    obtain ⟨lead, behind, hlead, -⟩ := exists_of_gathers hgathers
    have hkeeps : ¬ (editOf text r).Keeps n line := fun hkeeps => by
      cases hgathers.start.symm.trans (hkeeps hgathers.covers).2
    obtain ⟨m, hm, hname, rfl, -, hreached⟩ := exists_reached hdoc hlead isPlain_options
      hpasses hcomes hkeeps hheld (hnone _)
    have hlines := hpasses.lines
    rw [List.append_nil] at hlines
    have hmatches : (editOf text r).request.matchesVersions
        (OptionsBlock.values ⟨head, line :: taken⟩) = true :=
      matchesVersions_of_staysAsIs hdoc hm hname hreached (hstays m hm hreached) hcloses hlines
    obtain ⟨ρ, -, hmore⟩ := hpasses.split
    rw [Edit.settle, if_pos hmatches, ih hmore (hcomes.array hcloses hlines)]
  | unclosed => rfl

/-! ## Updates -/

/-- The member shows what is requested, or it is that of an item for the field and is spelled as
it is read; no bracket is left open behind it on its line, and no quote stands in a name on its
lines. -/
structure ReadsAlike (r : Request) (ls : List (List Char)) (doc : Node) (m : Member Node) :
    Prop where
  closed : EndsClosed ls m.node
  legible : Legible doc m
  spelled : Displays r ls doc m ∨ SpelledOut ls doc m ∧ ∃ item ∈ itemNodes doc,
    isFor r.field item.value = true ∧ ∃ m' ∈ item.member? m.name, m'.place = m.place

instance (r : Request) (ls : List (List Char)) (doc : Node) (m : Member Node) :
    Decidable (ReadsAlike r ls doc m) :=
  decidable_of_iff (EndsClosed ls m.node ∧ Legible doc m ∧
      (Displays r ls doc m ∨ SpelledOut ls doc m ∧ ∃ item ∈ itemNodes doc,
        isFor r.field item.value = true ∧ ∃ m' ∈ item.member? m.name, m'.place = m.place))
    ⟨fun ⟨h, h', h''⟩ => ⟨h, h', h''⟩, fun ⟨h, h', h''⟩ => ⟨h, h', h''⟩⟩

/-- The items of a document, as nodes and as values. -/
theorem items_value_eq (hdoc : Node.ofText? text = some doc) :
    items doc.value = Node.values (itemNodes doc) :=
  (itemsEditTo_itemNodes onlyVersions_none (editsTo_none_of_ofText? hdoc)).eq_values

/-- Where the items for the field declare what is requested, it stays as it is. -/
theorem ReadsAlike.staysAsIs (h : ReadsAlike r (lines text) doc m) (hstands : StandsIn text doc)
    (hdoc : Node.ofText? text = some doc) (hm : m ∈ doc.members) (hholds : HoldsVersions m)
    (hdeclares : ∀ item ∈ items doc.value, isFor r.field item = true → Declares r item) :
    StaysAsIs r (lines text) doc m where
  closed := h.closed
  legible := h.legible
  displays := by
    rcases h.spelled with hdisplays | ⟨hspelled, item, hitem, hfor, m', hmember, hplace⟩
    · exact hdisplays
    · have hm' := mem_members_of_mem_itemNodes hitem (Node.mem_members_of_member? hmember)
      obtain rfl : m' = m := hstands.eq_of_place_eq hm' hm hplace
      refine displays_of_spelledOut hstands hm hmember hholds hspelled (hdeclares _ ?_ hfor)
      rw [items_value_eq hdoc, Node.values_eq_map]
      exact List.mem_map_of_mem hitem

theorem parse_of_isOk (h : (parse text).isOk = true) (hdoc : Node.ofText? text = some doc) :
    parse text = .ok doc.value := by
  cases hparse : parse text with
  | ok document =>
    obtain ⟨doc', hdoc', rfl⟩ := exists_node_of_parse (parse_eq_ok.1 hparse)
    rw [Option.some.inj (hdoc.symm.trans hdoc')]
  | error e =>
    rw [hparse] at h
    cases h

/-- **A catalog that is up to date is left as it is**, if the versions that are reached are spelled
as they are read. -/
theorem update_upToDate {document : Value} (hparse : parse text = .ok document)
    (hdoc : Node.ofText? text = some doc)
    (hitem : ∃ item ∈ items document, isFor r.field item = true)
    (hdeclares : ∀ item ∈ items document, isFor r.field item = true → Declares r item)
    (halike : ∀ m ∈ doc.members, Reached r.field (lines text) doc m →
      ReadsAlike r (lines text) doc m) : update text r = .ok text := by
  have hstands := standsIn_of_ofText? (parse_eq_ok.1 hparse) hdoc
  obtain ⟨doc', hdoc', rfl⟩ := exists_node_of_parse (parse_eq_ok.1 hparse)
  obtain rfl : doc = doc' := Option.some.inj (hdoc.symm.trans hdoc')
  obtain ⟨opened, place, hrun⟩ := exists_of_ofText? hdoc
  rw [flat_lines] at hrun
  have hpasses : Passes (lines text) 0 Reading.start (lines text) []
      ⟨[.list opened [doc]], .done, .idle, place⟩ :=
    ⟨fun _ hl => not_mem_of_mem_splitAt hl, (List.append_nil _).symm, rfl, rfl, hrun⟩
  have hedit : editText text r = text := by
    show unlines (editLines (editOf text r) none 0 (lines text)) = text
    rw [eq_of_displays (edited_editLines _ _ _) hstands hpasses comesTo_zero
      (by simp [held, Node.itemsMembers]) (by rintro name place ⟨opened, ms, hmem⟩; simp at hmem)
      fun m hm hreached => (halike m hm hreached).staysAsIs hstands hdoc hm
        hreached.takenUp.holds hdeclares, unlines_lines]
  obtain ⟨item, hmem, hfor⟩ := hitem
  obtain ⟨first, hfirst⟩ : ∃ first, item? r.field doc.value = some first :=
    Option.isSome_iff_exists.1 (List.find?_isSome.2 ⟨item, hmem, hfor⟩)
  have hdeclared := hdeclares first (List.mem_of_find?_eq_some hfirst) (List.find?_some hfirst)
  exact update_of_editText hparse hfirst hdeclared.carries hedit

/-- A catalog that declares the version 7, the default value as a number. -/
def sevenDeclared : List Char :=
  redisCatalog ["\"default_value\":7,", "\"options\":[", "\x7b\"value\": \"7\"\x7d", "]"]

theorem isSome_ofText?_sevenDeclared : (Node.ofText? sevenDeclared).isSome = true := by
  decide +kernel

theorem update_upToDate_sevenDeclared :
    update sevenDeclared (.make "redis_version" ["7"] none) = .ok sevenDeclared := by
  have hdoc := (Option.some_get isSome_ofText?_sevenDeclared).symm
  generalize hget : (Node.ofText? sevenDeclared).get isSome_ofText?_sevenDeclared = doc at hdoc
  have hfacts : (parse sevenDeclared).isOk = true ∧
      (∃ item ∈ items doc.value, isFor "redis_version" item = true) ∧
      (∀ item ∈ items doc.value, isFor "redis_version" item = true →
        Declares (.make "redis_version" ["7"] none) item) ∧
      ∀ m ∈ doc.members, Reached "redis_version" (lines sevenDeclared) doc m →
        ReadsAlike (.make "redis_version" ["7"] none) (lines sevenDeclared) doc m := by
    subst hget
    decide +kernel
  obtain ⟨hparse, hitem, hdeclares, halike⟩ := hfacts
  exact update_upToDate (parse_of_isOk hparse hdoc) hdoc hitem hdeclares halike

/-- A catalog that declares the version 7, the value of the option as a number. -/
def numberOption : List Char :=
  redisCatalog ["\"default_value\":\"7\",", "\"options\":[\x7b\"value\":7\x7d]"]

theorem isSome_ofText?_numberOption : (Node.ofText? numberOption).isSome = true := by
  decide +kernel

/-- **A catalog that is up to date may be written anew**: the scan finds no version in an option
whose value is a number. -/
theorem not_update_upToDate_numberOption :
    ¬ ∀ (text : List Char) (document : Value) (doc : Node) (field : String) (versions : List String)
      (latest : String), parse text = .ok document → Node.ofText? text = some doc →
      versions ≠ [] → (∀ v ∈ versions, isDottedNumber v.toList = true) →
      isDottedNumber latest.toList = true →
      (∃ item ∈ items document, isFor field item = true) →
      (∀ o ∈ doc.objectsAt, ownsKey field (Node.memberValues o.members) = true →
        ∃ item ∈ itemNodes doc, item.openedAt? = some o.opened) →
      (∀ item ∈ items document, isFor field item = true →
        Declares (.make field versions (some latest)) item) →
      update text (.make field versions (some latest)) = .ok text := by
  intro h
  have hdoc := (Option.some_get isSome_ofText?_numberOption).symm
  generalize hget : (Node.ofText? numberOption).get isSome_ofText?_numberOption = doc at hdoc
  have hfacts : (parse numberOption).isOk = true ∧
      ((∀ v ∈ ["7"], isDottedNumber v.toList = true) ∧ isDottedNumber "7".toList = true) ∧
      (∃ item ∈ items doc.value, isFor "redis_version" item = true) ∧
      (∀ o ∈ doc.objectsAt, ownsKey "redis_version" (Node.memberValues o.members) = true →
        ∃ item ∈ itemNodes doc, item.openedAt? = some o.opened) ∧
      (∀ item ∈ items doc.value, isFor "redis_version" item = true →
        Declares (.make "redis_version" ["7"] (some "7")) item) ∧
      update numberOption (.make "redis_version" ["7"] (some "7")) ≠ .ok numberOption := by
    subst hget
    decide +kernel
  obtain ⟨hparse, ⟨hversions, hlatest⟩, hitem, howners, hdeclares, hchanges⟩ := hfacts
  exact hchanges (h numberOption doc.value doc "redis_version" ["7"] "7" (parse_of_isOk hparse hdoc)
    hdoc (by simp) hversions hlatest hitem howners hdeclares)

/-- A catalog that declares the version 7.0, the default value as a number with an exponent. -/
def exponentDefault : List Char :=
  redisCatalog ["\"default_value\":70e-1,", "\"options\":[\x7b\"value\":\"7.0\"\x7d]"]

theorem isSome_ofText?_exponentDefault : (Node.ofText? exponentDefault).isSome = true := by
  decide +kernel

/-- Nor is it always answered: the scan takes the exponent for what stands behind the default value,
and leaves it there. -/
theorem update_exponentDefault : ∃ document, parse exponentDefault = .ok document ∧
    (∀ item ∈ items document, isFor "redis_version" item = true →
      Declares (.make "redis_version" ["7.0"] none) item) ∧
    (update exponentDefault (.make "redis_version" ["7.0"] none)).isOk = false := by
  have hdoc := (Option.some_get isSome_ofText?_exponentDefault).symm
  generalize hget : (Node.ofText? exponentDefault).get isSome_ofText?_exponentDefault = doc at hdoc
  have hfacts : (parse exponentDefault).isOk = true ∧
      (∀ item ∈ items doc.value, isFor "redis_version" item = true →
        Declares (.make "redis_version" ["7.0"] none) item) ∧
      (update exponentDefault (.make "redis_version" ["7.0"] none)).isOk = false := by
    subst hget
    decide +kernel
  exact ⟨_, parse_of_isOk hfacts.1 hdoc, hfacts.2⟩

end VersionAlignment.Artifact.Catalog
