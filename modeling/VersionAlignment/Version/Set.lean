import VersionAlignment.Version.Order

/-!
# Sets of versions and the change between two of them

A `VersionSet` is what an artifact declares: its distinct versions in ascending order and the
latest of them. A `Change` is the difference between what is declared and what is offered.

## Results

* `ofTokens?_eq_none_iff`: only the empty list of tokens gives no set.
* `Change.isEmpty_iff`: a change is empty exactly when both lists hold the same tokens.
-/

set_option autoImplicit false

namespace VersionAlignment

/-- The versions that an artifact declares. -/
structure VersionSet where
  /-- Without repetitions, lowest first. -/
  versions : List String
  /-- The highest of `versions`. -/
  latest : String
  deriving Repr, DecidableEq

namespace VersionSet

/-- The set of the given tokens; there is none without tokens. -/
def ofTokens? (tokens : List String) : Option VersionSet :=
  let versions := Version.sortAscending (Version.distinct tokens)
  (Version.latestOf? versions).map fun latest => ⟨versions, latest⟩

/-- The set of one version. -/
def single (v : String) : VersionSet := ⟨[v], v⟩

/-- The versions of a set that may be missing. -/
def versionsOf (set : Option VersionSet) : List String := (set.map versions).getD []

theorem ofTokens?_eq_none_iff {tokens : List String} : ofTokens? tokens = none ↔ tokens = [] := by
  rw [ofTokens?, Option.map_eq_none_iff, Version.latestOf?_eq_none_iff, Version.sortAscending,
    Version.sortBy_eq_nil_iff]
  cases tokens <;> simp [Version.distinct]

end VersionSet

/-- What has to happen to the declared versions so that they are the offered ones. -/
structure Change where
  /-- Offered and not declared, in the order of the offer. -/
  added : List String
  /-- Declared and not offered, in the order of the declaration. -/
  removed : List String
  deriving Repr, DecidableEq

namespace Change

/-- The change from the versions `declared` to the versions `offered`. -/
def between (declared offered : List String) : Change where
  added := (Version.distinct offered).filter fun v => v ∉ declared
  removed := (Version.distinct declared).filter fun v => v ∉ offered

/-- Is there nothing to do? -/
def isEmpty (c : Change) : Bool := c.added.isEmpty && c.removed.isEmpty

theorem isEmpty_iff {declared offered : List String} :
    (between declared offered).isEmpty = true ↔ ∀ v, v ∈ declared ↔ v ∈ offered := by
  simp only [isEmpty, between, Bool.and_eq_true, List.isEmpty_iff, List.filter_eq_nil_iff,
    Version.mem_distinct, decide_eq_true_eq, Decidable.not_not]
  exact ⟨fun h v => ⟨h.2 v, h.1 v⟩, fun h => ⟨fun v => (h v).2, fun v => (h v).1⟩⟩

end Change

end VersionAlignment
