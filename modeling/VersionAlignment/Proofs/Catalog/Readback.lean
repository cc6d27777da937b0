import VersionAlignment.Proofs.Catalog.Declaration

/-!
# Reading a catalog back after an update

An update is answered only after the edited catalog has been checked, and the check looks at the
array of options and at the default of the first item for the field. A catalog that passed it reads
back as the request wherever the item has one of the two. An item with neither passes the check all
the same: there is nothing in it that could differ from the request, and nothing that could be read.

## Results

* `readsBack_of_update`: what is read from an updated catalog.
* `not_readsBack_bareItem`: an update may succeed on a catalog that declares no version.
-/

set_option autoImplicit false

namespace VersionAlignment.Artifact.Catalog

open Json (Value)
open Text

/-- Does the item have a place for versions: an array of options, or a default that is a string or a
number? -/
def hasVersionPlace (item : Value) : Bool := hasOptions item || (defaultToken? item).isSome

variable {r : Request} {item : Value}

/-- **An item that passed the check declares the request** if it has a place for versions. -/
theorem exists_declared_of_carries (field : String) (hne : r.versions ≠ [])
    (hlatest : r.latest ≠ "") (h : carries r item = true) (hplace : hasVersionPlace item = true) :
    ∃ set, declared field item = .ok set ∧ set.versions = requested r item := by
  suffices hread : ∃ set, declared field item = .ok set by
    obtain ⟨set, hset⟩ := hread
    exact ⟨set, hset, versions_of_carries hne hlatest h hset⟩
  cases hoptions : hasOptions item with
  | true =>
    obtain ⟨latest, hfound⟩ :=
      VersionSet.ofTokens?_of_ne_nil (optionTokens_ne_nil_of_carries hne h hoptions)
    rw [declared, hfound]
    exact ⟨_, rfl⟩
  | false =>
    rw [hasVersionPlace, hoptions, Bool.false_or, Option.isSome_iff_exists] at hplace
    obtain ⟨v, hv⟩ := hplace
    have hne : v ≠ "" := by
      rw [eq_latest_of_carries h hlatest hv]
      exact hlatest
    exact ⟨_, declared_of_defaultToken? field hoptions hv hne⟩

/-- An item without a place for versions declares none. -/
theorem declared_of_not_hasVersionPlace (field : String) (hplace : hasVersionPlace item = false) :
    declared field item = .error (.emptyVersionSet field) := by
  rw [hasVersionPlace, Bool.or_eq_false_iff, Option.isSome_eq_false_iff, Option.isNone_iff_eq_none]
    at hplace
  rw [declared, optionTokens_eq_nil hplace.1, VersionSet.ofTokens?_eq_none_iff.2 rfl, hplace.2]
  rfl

/-- **What is read from an updated catalog**: the requested versions where the item has an array of
options, the latest of them where it has a default and no options, and no version at all where it
has neither. -/
theorem readsBack_of_update {text out : List Char} (hne : r.versions ≠ [])
    (hlatest : r.latest ≠ "") (h : update text r = .ok out) :
    ∃ document item, parse out = .ok document ∧ item? r.field document = some item ∧
      (hasVersionPlace item = true →
        ∃ set, extract out r.field = .ok set ∧ set.versions = requested r item) ∧
      (hasVersionPlace item = false →
        extract out r.field = .error (.emptyVersionSet r.field)) := by
  obtain ⟨document, item, hparse, hitem, hcarries⟩ := carries_of_update h
  have hextract : extract out r.field = declared r.field item := by
    rw [extract, hparse]
    simp only [hitem]
  refine ⟨document, item, hparse, hitem, ?_, ?_⟩
  · intro hplace
    rw [hextract]
    exact exists_declared_of_carries r.field hne hlatest hcarries hplace
  · intro hplace
    rw [hextract]
    exact declared_of_not_hasVersionPlace r.field hplace

/-- A catalog whose one item has the given members. -/
def itemCatalog (members : String) : List Char :=
  ("\x7b\"products\":[\x7b\"flavors\":[\x7b\"configuration\":[\x7b" ++ members ++
    "\x7d]\x7d]\x7d]\x7d").toList

/-- A catalog whose item has a default that is not in line with the version 7. -/
def outdatedDefault : List Char :=
  itemCatalog "\"key\":\"redis_version\",\n\"default_value\":\"6\"\n"

theorem readsBack_of_update_outdatedDefault :
    ∃ out set, update outdatedDefault ⟨"redis_version", ["7"], "7"⟩ = .ok out ∧
      extract out "redis_version" = .ok set ∧ set.versions = ["7"] := by
  have hupdate : update outdatedDefault ⟨"redis_version", ["7"], "7"⟩ = .ok
      (itemCatalog "\"key\":\"redis_version\",\n\"default_value\":\"7\"\n") := by
    decide +kernel
  obtain ⟨document, item, hparse, hitem, hread, hempty⟩ :=
    readsBack_of_update (by simp) (by simp) hupdate
  cases hplace : hasVersionPlace item with
  | true =>
    obtain ⟨set, hset, hversions⟩ := hread hplace
    refine ⟨_, set, hupdate, hset, ?_⟩
    rw [hversions, requested]
    split
    · rfl
    · rfl
  | false => exact absurd (hempty hplace) (by decide +kernel)

/-- A catalog whose item has a key and nothing else. -/
def bareItem : List Char := itemCatalog "\"key\":\"redis_version\""

/-- **Not every catalog that is updated can be read**: the update of an item with neither options
nor a default succeeds without a change. -/
theorem not_readsBack_bareItem :
    ¬ ∀ (text out : List Char) (r : Request), r.versions ≠ [] → r.latest ≠ "" →
      (∀ v ∈ r.versions, isDottedNumber v.toList = true) → isDottedNumber r.latest.toList = true →
      update text r = .ok out → ∃ set, extract out r.field = .ok set := by
  intro h
  have hupdate : update bareItem ⟨"redis_version", ["7"], "7"⟩ = .ok bareItem := by decide +kernel
  obtain ⟨set, hset⟩ := h bareItem _ ⟨"redis_version", ["7"], "7"⟩ (by simp) (by simp)
    (by decide +kernel) (by decide +kernel) hupdate
  have hempty : extract bareItem "redis_version" = .error (.emptyVersionSet "redis_version") := by
    decide +kernel
  rw [hempty] at hset
  cases hset

end VersionAlignment.Artifact.Catalog
