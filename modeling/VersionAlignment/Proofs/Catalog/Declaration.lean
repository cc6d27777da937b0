import VersionAlignment.Artifact.Catalog.Update
import VersionAlignment.Proofs.Version.Stability

/-!
# Versions in a catalog after an update

A catalog is read again before an update of it is answered, so what an updated catalog declares is
told by the check that it passed: the requested versions where its item has an array of options,
and the latest of them alone where it has none.

## Results

* `versions_of_carries`: what an item declares that passed the check.
* `exists_item_of_update`: what a catalog declares after an update.
* `update_fieldNotFound_iff`: an update misses the field exactly where reading misses it.
-/

set_option autoImplicit false

namespace VersionAlignment.Artifact.Catalog

open Json (Value)

/-- Does the item have an array of options? -/
def hasOptions (item : Value) : Bool := (item.member? "options").any Value.isList

/-- The versions that an item declares once it is in line with a request. -/
def requested (r : Request) (item : Value) : List String :=
  if hasOptions item then r.ascending else [r.latest]

variable {r : Request} {item : Value} {set : VersionSet}

theorem optionTokens_eq_nil (h : hasOptions item = false) : optionTokens item = [] := by
  have hitems : item.itemsOf "options" = [] := by
    rw [Value.itemsOf]
    cases hv : item.member? "options" with
    | none => rfl
    | some v =>
      cases v with
      | list vs => simp [hasOptions, hv, Value.isList] at h
      | _ => rfl
  rw [optionTokens, hitems, List.filterMap_nil]

/-- An item without options declares its default value. -/
theorem declared_of_defaultToken? {t : String} (field : String) (hoptions : hasOptions item = false)
    (hdefault : defaultToken? item = some t) (ht : t ≠ "") :
    declared field item = .ok (.single t) := by
  have hfound : (defaultToken? item).filter (· ≠ "") = some t := by
    rw [Option.filter_eq_some_iff]
    exact ⟨hdefault, by simpa using ht⟩
  rw [declared, optionTokens_eq_nil hoptions, VersionSet.ofTokens?_eq_none_iff.2 rfl, hfound]

/-- An array of options that passed the check holds the requested versions. -/
theorem matchesVersions_of_carries (h : carries r item = true) (hoptions : hasOptions item = true) :
    r.matchesVersions (optionTokens item) = true := by
  rw [carries, Bool.and_eq_true] at h
  rw [hasOptions] at hoptions
  rcases hv : item.member? "options" with _ | v
  · rw [hv] at hoptions
    cases hoptions
  · rw [hv] at hoptions h
    have hlist : v.isList = true := hoptions
    simpa [hlist] using h.1

/-- An array of options that passed the check is read. -/
theorem optionTokens_ne_nil_of_carries (hne : r.versions ≠ []) (h : carries r item = true)
    (hoptions : hasOptions item = true) : optionTokens item ≠ [] := by
  intro hnil
  have hmatches := matchesVersions_of_carries h hoptions
  rw [hnil, Request.matchesVersions_iff] at hmatches
  exact hne (Version.sortBy_eq_nil_iff.1 hmatches)

/-- A default that passed the check is the latest version. -/
theorem eq_latest_of_carries (h : carries r item = true) (hlatest : r.latest ≠ "") {v : String}
    (hv : defaultToken? item = some v) : v = r.latest := by
  rw [carries, Bool.and_eq_true, hv] at h
  simpa [hlatest] using h.2

/-- **What an item declares that passed the check**: the requested versions if it has an array of
options, and the latest version alone if it has none. -/
theorem versions_of_carries {field : String} (hne : r.versions ≠ []) (hlatest : r.latest ≠ "")
    (h : carries r item = true) (hset : declared field item = .ok set) :
    set.versions = requested r item := by
  rw [requested]
  by_cases hoptions : hasOptions item = true
  · have hmatches := matchesVersions_of_carries h hoptions
    obtain ⟨latest, hfound⟩ :=
      VersionSet.ofTokens?_of_ne_nil (optionTokens_ne_nil_of_carries hne h hoptions)
    rw [declared, hfound] at hset
    cases hset
    rw [Request.matchesVersions_iff, hfound] at hmatches
    rw [if_pos hoptions]
    exact hmatches.symm
  · rw [Bool.not_eq_true] at hoptions
    rw [declared, optionTokens_eq_nil hoptions] at hset
    rw [hoptions]
    cases hdefault : (defaultToken? item).filter (· ≠ "") with
    | none =>
      simp only [VersionSet.ofTokens?_eq_none_iff.2 rfl, hdefault] at hset
      cases hset
    | some v =>
      simp only [VersionSet.ofTokens?_eq_none_iff.2 rfl, hdefault] at hset
      cases hset
      rw [eq_latest_of_carries h hlatest (Option.filter_eq_some_iff.1 hdefault).1]
      rfl

/-- What a catalog declares after an update, if it declares anything. -/
theorem exists_item_of_update {text out : List Char} (hne : r.versions ≠ [])
    (hlatest : r.latest ≠ "") (h : update text r = .ok out) (hset : extract out r.field = .ok set) :
    ∃ document item, parse out = .ok document ∧ item? r.field document = some item ∧
      set.versions = requested r item := by
  obtain ⟨document, item, hparse, hitem, hcarries⟩ := carries_of_update h
  refine ⟨document, item, hparse, hitem, ?_⟩
  rw [extract, hparse] at hset
  simp only [hitem] at hset
  exact versions_of_carries hne hlatest hcarries hset

theorem parse_ne_fieldNotFound (text : List Char) (field : String) :
    parse text ≠ .error (.fieldNotFound field) := by
  rw [parse]
  split
  · exact fun h => by cases h
  · exact fun h => by cases h

theorem declared_ne_fieldNotFound (field field' : String) (item : Value) :
    declared field item ≠ .error (.fieldNotFound field') := by
  rw [declared]
  split
  · exact fun h => by cases h
  · split
    · exact fun h => by cases h
    · exact fun h => by cases h

/-- **An update misses the field exactly where reading misses it.** -/
theorem update_fieldNotFound_iff {text : List Char} {field : String} :
    update text r = .error (.fieldNotFound field) ↔
      extract text r.field = .error (.fieldNotFound field) := by
  rw [update, extract]
  cases hparse : parse text with
  | error e => simp only [Except.error.injEq]
  | ok document =>
    cases hitem : item? r.field document with
    | none => simp only [hitem, Except.error.injEq]
    | some item =>
      simp only [hitem, declared_ne_fieldNotFound, iff_false]
      cases hedited : parse (editText text r) with
      | error e =>
        rintro ⟨⟩
        exact parse_ne_fieldNotFound _ field hedited
      | ok document' =>
        simp only
        split
        · exact fun h => by cases h
        · exact fun h => by cases h

end VersionAlignment.Artifact.Catalog
