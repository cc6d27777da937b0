import VersionAlignment.Proofs.Catalog.Preservation
import VersionAlignment.Proofs.Catalog.Retracing

/-!
# Updating a catalog twice

The text that an update answers with is not edited again for the same request, if no array that is
rendered has a bracket or a hidden key behind it on its line. It has passed the check of the first
update, so the second one answers with it.

## Results

* `update_update`: an update that is made again leaves the text as it is.
* `not_update_update_hiddenKey`, `update_update_joinedItems`: unless a key is hidden, or a bracket
  stands behind an array.
-/

set_option autoImplicit false

namespace VersionAlignment.Artifact.Catalog

open Text Json Json.Reading

section
variable {r : Request} {text out : List Char} {τ : Reading}

/-- The request names versions, and none of them holds a `k`, with which the name of the key starts,
or a bracket. -/
structure IsRepeatable (r : Request) : Prop where
  writable : IsWritable r
  chars : ∀ v ∈ r.versions, ∀ c ∈ v.toList, c ≠ 'k' ∧ c ≠ ']'
  ne_nil : r.versions ≠ []

theorem newline_notMem_of_isPlain {v : List Char} (h : IsPlain v) : '\n' ∉ v := fun hmem =>
  absurd (h _ hmem).1 (by decide)

theorem ascending_ne_nil (h : r.versions ≠ []) : r.ascending ≠ [] := by
  obtain ⟨v, hv⟩ := List.exists_mem_of_ne_nil _ h
  exact List.ne_nil_of_mem (Version.mem_sortAscending.2 hv)

/-- The text that an update answers with has the line ending of the old one, if it has a line that
ends so. -/
theorem lineEnding_update {line : List Char} (hr : IsWritable r) (h : update text r = .ok out)
    (hline : line ∈ (lines out).dropLast)
    (hends : crBehind false line = hasCarriageReturn text) : lineEnding out = lineEnding text := by
  rw [lineEnding_eq, lineEnding_eq]
  congr 1
  cases htext : hasCarriageReturn text with
  | true =>
    have hbreaks := breaks_unlines fun l (hl : l ∈ lines out) => not_mem_of_mem_splitAt hl
    rw [unlines_lines] at hbreaks
    rw [hasCarriageReturn_iff, hbreaks, ← htext, ← hends]
    exact List.mem_map_of_mem hline
  | false =>
    rw [hasCarriageReturn_eq_false_iff] at htext ⊢
    exact keepsEnds_update (newline_notMem_of_isPlain hr.latest)
      (fun v hv => newline_notMem_of_isPlain (hr.versions v hv)) h htext

theorem repeats_of_update (hr : IsRepeatable r) (h : update text r = .ok out) :
    Repeats (editOf text r) (editOf out r) (lines out) where
  request := rfl
  latest := hr.writable.latest
  ascending := fun v hv =>
    have hv := Version.mem_sortAscending.1 hv
    ⟨hr.writable.versions v hv, hr.chars v hv⟩
  ne_nil := ascending_ne_nil hr.ne_nil
  ending := ⟨hasCarriageReturn text, rfl, fun _ => lineEnding_update hr.writable h⟩

/-- The lines of the text that an update answers with are the edited ones. -/
theorem edited_update (hr : IsRepeatable r) (h : update text r = .ok out) :
    Edited (editOf text r) 0 (lines text) (lines out) := by
  have hedited := edited_editLines (editOf text r) 0 (lines text)
  have hout := edit_of_update h
  generalize editLines (editOf text r) none 0 (lines text) = ls at hedited hout
  have hwrites : (editOf text r).IsSingleLine :=
    isSingleLine_editOf (newline_notMem_of_isPlain hr.writable.latest)
      (fun v hv => newline_notMem_of_isPlain (hr.writable.versions v hv)) text
  have hnewline := hedited.newline_notMem hwrites fun _ hl => not_mem_of_mem_splitAt hl
  have hne : ls ≠ [] := by
    rintro rfl
    obtain ⟨v, -, hparse, -, -⟩ := carries_of_update h
    obtain ⟨doc, hdoc, -⟩ := exists_node_of_parse (parse_eq_ok.1 hparse)
    rw [hout] at hdoc
    cases hdoc
  rwa [hout, lines_unlines hne hnewline]

theorem owningSpans_eq_follow (field : String)
    (hrun : Reading.start.run (flat (lines text)) = some τ) :
    owningSpans field (lines text) = (SpanScan.follow (keyHit field (lines text)) ⟨[], []⟩
      Reading.start (flat (lines text))).spans := by
  have hnewline : ∀ line ∈ lines text, '\n' ∉ line := fun _ hl => not_mem_of_mem_splitAt hl
  rw [owningSpans, lines_eq_follow List.drop_zero hnewline rfl rfl hrun]

/-- **The text that an update answers with is not edited again.** -/
theorem editText_of_update {doc : Node} (hr : IsRepeatable r) (h : update text r = .ok out)
    (hdoc : Node.ofText? text = some doc)
    (hclear : RendersClear (editOf text r) (lines text) doc.members) : editText out r = out := by
  obtain ⟨v, -, hout, -, -⟩ := carries_of_update h
  obtain ⟨doc', hdoc', -⟩ := exists_node_of_parse (parse_eq_ok.1 hout)
  obtain ⟨opened, place, hrun⟩ := exists_of_ofText? hdoc
  obtain ⟨opened', place', hrun'⟩ := exists_of_ofText? hdoc'
  rw [flat_lines] at hrun hrun'
  have hheld : held [.list opened [doc]] = doc.members := by simp [held, Node.itemsMembers]
  have hretraced := retraced_of_edited (edited_update hr h) (repeats_of_update hr h)
    ⟨fun _ hl => not_mem_of_mem_splitAt hl, (List.append_nil _).symm, rfl, rfl, hrun⟩
    ⟨fun _ hl => not_mem_of_mem_splitAt hl, (List.append_nil _).symm, rfl, rfl, hrun'⟩ ⟨[], rfl⟩
    (by simp [listDepth]) (by rw [RendersClear, hheld]; exact hclear)
  have hstart : ∀ {m m'}, 0 ≤ m → 0 ≤ m' → Agree m m' ⟨[], []⟩ ⟨[], []⟩ := fun _ _ => ⟨.nil, rfl⟩
  have hedited := hretraced.edited hstart (owningSpans_eq_follow r.field hrun)
    (owningSpans_eq_follow r.field hrun')
  show unlines (editLines (editOf out r) none 0 (lines out)) = out
  rw [hedited.editLines_eq, unlines_lines]

theorem update_of_editText {document item : Value} (hparse : parse out = .ok document)
    (hitem : item? r.field document = some item) (hcarries : carries r item = true)
    (hedit : editText out r = out) : update out r = .ok out := by
  simp only [update, hparse, hitem, hedit, Option.filter_some, hcarries, if_true]

theorem versions_make_ne_nil {field : String} {versions : List String} {latest? : Option String}
    (hne : versions ≠ []) : (Request.make field versions latest?).versions ≠ [] := by
  obtain ⟨v, hv⟩ := List.exists_mem_of_ne_nil _ hne
  exact List.ne_nil_of_mem (Version.mem_distinct.2 hv)

theorem isRepeatable_make {field : String} {versions : List String} {latest? : Option String}
    (hne : versions ≠ []) (hversions : ∀ v ∈ versions, isDottedNumber v.toList = true)
    (hlatest : ∀ v ∈ latest?, isDottedNumber v.toList = true) :
    IsRepeatable (.make field versions latest?) where
  writable := isWritable_make hversions hlatest
  chars := fun v hv c hc => by
    have hchar := isNumberChar_of_mem
      (mem_dottedNumbers.2 (hversions v (Version.mem_distinct.1 hv))) hc
    constructor
    · rintro rfl
      exact absurd hchar (by decide)
    · rintro rfl
      exact absurd hchar (by decide)
  ne_nil := versions_make_ne_nil hne

end

/-- **An update that is made again leaves the text as it is**, unless a bracket or a hidden key
stands behind an array that is rendered. -/
theorem update_update {text out : List Char} {field : String} {versions : List String}
    {latest? : Option String} {doc : Node} (hne : versions ≠ [])
    (hversions : ∀ v ∈ versions, isDottedNumber v.toList = true)
    (hlatest : ∀ v ∈ latest?, isDottedNumber v.toList = true)
    (hupdate : update text (.make field versions latest?) = .ok out)
    (hdoc : Node.ofText? text = some doc)
    (hclear : RendersClear (editOf text (.make field versions latest?)) (lines text) doc.members) :
    update out (.make field versions latest?) = .ok out := by
  have hrepeatable : IsRepeatable (.make field versions latest?) :=
    isRepeatable_make hne hversions hlatest
  obtain ⟨document, item, hparse, hitem, hcarries⟩ := carries_of_update hupdate
  exact update_of_editText hparse hitem hcarries
    (editText_of_update hrepeatable hupdate hdoc hclear)

/-- A catalog with an array in lines of its own, and a member behind it on the last of them. -/
def spreadOptions : List Char :=
  redisCatalog ["\"default_value\":\"6\",", "\"options\":[", "\x7b", "\"displayname\":\"6\",",
    "\"value\":\"6\"", "\x7d", "],\"tags\":1"]

theorem isSome_ofText?_spreadOptions : (Node.ofText? spreadOptions).isSome = true := by
  decide +kernel

theorem update_update_spreadOptions :
    ∃ out, update spreadOptions (.make "redis_version" ["7"] none) = .ok out ∧
      update out (.make "redis_version" ["7"] none) = .ok out := by
  have hupdate : update spreadOptions (.make "redis_version" ["7"] none) = .ok
      (redisCatalog ["\"default_value\":\"7\",", "\"options\":[", "\x7b",
        "  \"displayname\": \"7\",", "  \"value\": \"7\"", "\x7d", "],\"tags\":1"]) := by
    decide +kernel
  have hdotted : ∀ v ∈ ["7"], isDottedNumber v.toList = true := by decide +kernel
  have hclear : RendersClear (editOf spreadOptions (.make "redis_version" ["7"] none))
      (lines spreadOptions)
      ((Node.ofText? spreadOptions).get isSome_ofText?_spreadOptions).members := by
    decide +kernel
  exact ⟨_, hupdate,
    update_update (by simp) hdotted (by simp) hupdate (Option.some_get _).symm hclear⟩

/-- A catalog with two flavors, of which the first is in line with version 7. The given lines stand
in the item of the second one. -/
def secondFlavor (more : List String) : List Char :=
  redisCatalog (["\"default_value\":\"7\"", "\x7d]\x7d,\x7b\"configuration\":[\x7b"] ++ more)

/-- The options of a rendered array, for version 7. -/
def sevenOptions : String := "\"options\":[\x7b\"displayname\": \"7\", \"value\": \"7\"\x7d],"

/-- A catalog with an item that has its key behind its options, on the same line, and an option that
has the key as well. -/
def hiddenKey : List Char :=
  secondFlavor ["\"default_value\":\"5\",",
    "\"options\":[\x7b\"value\":\"6\",\"key\":\"redis_version\"\x7d],\"key\":\"redis_version\""]

/-- **An update that is made again may change the text again**: the key that the option has hidden
comes to the fore, and with it the default value of the item. -/
theorem not_update_update_hiddenKey :
    ¬ ∀ (text out : List Char) (field : String) (versions : List String) (latest? : Option String),
      versions ≠ [] → (∀ v ∈ versions, isDottedNumber v.toList = true) →
      (∀ v ∈ latest?, isDottedNumber v.toList = true) →
      update text (.make field versions latest?) = .ok out →
      update out (.make field versions latest?) = .ok out := by
  intro h
  have hdotted : ∀ v ∈ ["7"], isDottedNumber v.toList = true := by decide +kernel
  have hupdate : update hiddenKey (.make "redis_version" ["7"] none) = .ok
      (secondFlavor ["\"default_value\":\"5\",", sevenOptions ++ "\"key\":\"redis_version\""]) := by
    decide +kernel
  have hagain := h hiddenKey _ "redis_version" ["7"] none (by simp) hdotted (by simp) hupdate
  exact absurd hagain (by decide +kernel)

/-- A catalog with an item behind another one. It starts on the line on which the options of the
other one end, and has an array there. -/
def joinedItems : List Char :=
  secondFlavor ["\"key\":\"redis_version\",",
    "\"options\":[\x7b\"value\":\"6\"\x7d]\x7d,\x7b\"tags\":[],", "\"default_value\":\"5\""]

/-- Not only hidden keys are in the way: where a bracket behind an array is taken for the one that
closes it, what stands between them is dropped, and lines of another object come to be lines of the
one that owns the key. -/
theorem update_update_joinedItems :
    ∃ out out', update joinedItems (.make "redis_version" ["7"] none) = .ok out ∧
      update out (.make "redis_version" ["7"] none) = .ok out' ∧ out' ≠ out := by
  have hupdate : update joinedItems (.make "redis_version" ["7"] none) = .ok (secondFlavor
      ["\"key\":\"redis_version\",", sevenOptions, "\"default_value\":\"5\""]) := by
    decide +kernel
  have hagain : update (secondFlavor ["\"key\":\"redis_version\",", sevenOptions,
      "\"default_value\":\"5\""]) (.make "redis_version" ["7"] none) = .ok (secondFlavor
        ["\"key\":\"redis_version\",", sevenOptions, "\"default_value\":\"7\""]) := by
    decide +kernel
  exact ⟨_, _, hupdate, hagain, by decide +kernel⟩

end VersionAlignment.Artifact.Catalog
