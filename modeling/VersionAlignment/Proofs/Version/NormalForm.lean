import VersionAlignment.Proofs.Version.Matching

/-!
# The normal form of a set of versions

What a list of tokens is as a set, and what a list of versions is when it is sorted, is said here
without saying how it is found. A sorted list is one permutation of the given one: members come in
the order of versions, and tied ones stay as they were (`SortedFrom`). A set names every token once,
lowest first and tied ones in the order in which they are first named (`NormalForm`). Both
descriptions have one solution, and it is the one that is computed.

## Results

* `Version.Ranking.eq_sortBy_iff`: the stable sorts are the lists in order that keep ties.
* `VersionSet.ofTokens?_eq_some_iff`: the set of some tokens is their normal form.
* `VersionSet.ofTokens?_normalForm`: sets, latest versions and sorted lists together.
-/

set_option autoImplicit false

namespace VersionAlignment

namespace Version

variable {vs ws : List String}

/-- The list `ws` is `vs` put in an order: no member compares as `wrong` with a later one, and tied
members stay in the order of `vs`. -/
structure SortedFrom (wrong : Ordering) (vs ws : List String) : Prop where
  perm : ws.Perm vs
  pairwise : ws.Pairwise fun a b => compareVersions a b ≠ wrong
  ties : ∀ a, (ws.filter fun b => compareVersions a b = .eq) =
    vs.filter fun b => compareVersions a b = .eq

theorem Ranking.eq_sortBy_iff {r : String → String → Bool} {wrong : Ordering} (hr : Ranking r)
    (hwrong : ∀ {a b}, r a b = true ↔ compareVersions a b ≠ wrong) :
    ws = sortBy r vs ↔ SortedFrom wrong vs ws := by
  constructor
  · rintro rfl
    refine ⟨sortBy_perm r vs, (hr.pairwise_sortBy vs).imp hwrong.1, fun a => ?_⟩
    rw [filter_tied_eq, filter_tied_eq, hr.filter_sortBy]
  · intro h
    refine hr.eq_of_filter_eq (h.pairwise.imp hwrong.2) (hr.pairwise_sortBy vs) fun a => ?_
    rw [hr.filter_sortBy, ← filter_tied_eq, ← filter_tied_eq]
    exact h.ties a

/-- The ascending sort is the one list in which no version is above a later one and ties stay. -/
theorem eq_sortAscending_iff : ws = sortAscending vs ↔ SortedFrom .gt vs ws :=
  ranking_ascending.eq_sortBy_iff notAbove_iff

/-- The descending sort is the one list in which no version is below a later one and ties stay. -/
theorem eq_sortDescending_iff : ws = sortDescending vs ↔ SortedFrom .lt vs ws := by
  refine ranking_descending.eq_sortBy_iff fun {a b} => ?_
  rw [notAbove_iff, compareVersions, compareVersions, ← compareComponents_swap (components a)]
  cases compareComponents (components a) (components b) <;> simp [Ordering.swap]

end Version

open Version

namespace VersionSet

/-- The tokens as a set: each of them once, lowest first, and tied ones in the order in which they
are first named; and the last of them, which no token is above. -/
structure NormalForm (tokens : List String) (set : VersionSet) : Prop where
  mem_iff : ∀ v, v ∈ set.versions ↔ v ∈ tokens
  nodup : set.versions.Nodup
  ascending : set.versions.Pairwise fun a b => compareVersions a b ≠ .gt
  ties : set.versions.Pairwise fun a b =>
    compareVersions a b = .eq → tokens.idxOf a < tokens.idxOf b
  last : set.versions.getLast? = some set.latest
  highest : ∀ v ∈ tokens, compareVersions v set.latest ≠ .gt

variable {tokens : List String} {set : VersionSet}

theorem NormalForm.filter_tied_eq (h : NormalForm tokens set) (a : String) :
    set.versions.filter (tied a) = (distinct tokens).filter (tied a) := by
  refine eq_of_pairwise_idxOf ((h.ties.filter _).imp_of_mem fun {b c} hb hc hbc => ?_)
    ((pairwise_distinct tokens).filter _) fun v => ?_
  · exact hbc (tied_iff.1 (tied_of_tied (List.mem_filter.1 hb).2 (List.mem_filter.1 hc).2))
  · rw [List.mem_filter, List.mem_filter, h.mem_iff, mem_distinct]

theorem NormalForm.versions_eq (h : NormalForm tokens set) :
    set.versions = sortAscending (distinct tokens) := by
  refine ranking_ascending.eq_of_filter_eq (h.ascending.imp notAbove_iff.2)
    (ranking_ascending.pairwise_sortBy _) fun a => ?_
  rw [h.filter_tied_eq, sortAscending, ranking_ascending.filter_sortBy]

/-- The latest version of a set is the last one. -/
theorem latestOf?_distinct (tokens : List String) :
    latestOf? (sortAscending (distinct tokens)) = (sortAscending (distinct tokens)).getLast? := by
  rw [latestOf?_eq_getLast?, sortAscending_sortAscending]

/-- A list of versions in ascending order does not go above its last member. -/
theorem notAbove_getLast {vs : List String} {last v : String}
    (h : vs.Pairwise fun a b => notAbove a b = true) (hlast : vs.getLast? = some last)
    (hv : v ∈ vs) : notAbove v last = true := by
  obtain ⟨before, rfl⟩ := List.getLast?_eq_some_iff.1 hlast
  rcases List.mem_append.1 hv with hv | hv
  · exact (List.pairwise_append.1 h).2.2 v hv last (List.mem_singleton_self last)
  · rw [List.mem_singleton.1 hv]
    exact notAbove_self last

/-- Tied versions of a set stand in the order in which they are first named. -/
theorem pairwise_ties_sortAscending (tokens : List String) :
    (sortAscending (distinct tokens)).Pairwise fun a b =>
      compareVersions a b = .eq → tokens.idxOf a < tokens.idxOf b := by
  rw [List.pairwise_iff_forall_sublist]
  intro a b hab heq
  -- both stand in the class of `a`, and the sort does not touch that class
  have hclass := hab.filter (tied a)
  rw [sortAscending, ranking_ascending.filter_sortBy, List.filter_cons_of_pos (tied_self a),
    List.filter_cons_of_pos (tied_iff.2 heq), List.filter_nil] at hclass
  exact List.pairwise_iff_forall_sublist.1 (pairwise_distinct tokens)
    (hclass.trans List.filter_sublist)

/-- The set of some tokens is their normal form. -/
theorem ofTokens?_eq_some_iff : ofTokens? tokens = some set ↔ NormalForm tokens set := by
  have hpairwise := ranking_ascending.pairwise_sortBy (distinct tokens)
  constructor
  · intro h
    obtain ⟨latest, hlatest, rfl⟩ := Option.map_eq_some_iff.1 h
    rw [latestOf?_distinct] at hlatest
    have hmem : ∀ v, v ∈ sortAscending (distinct tokens) ↔ v ∈ tokens := fun v => by
      rw [mem_sortAscending, mem_distinct]
    refine ⟨hmem, nodup_sortAscending (nodup_distinct tokens), hpairwise.imp notAbove_iff.1,
      pairwise_ties_sortAscending tokens, hlatest, fun v hv => ?_⟩
    exact notAbove_iff.1 (notAbove_getLast hpairwise hlatest ((hmem v).2 hv))
  · intro h
    have hlatest := h.last
    rw [h.versions_eq] at hlatest
    rw [ofTokens?, latestOf?_distinct, hlatest, Option.map_some, ← h.versions_eq]

/-- The versions of a set are in normal form. -/
theorem NormalForm.versions (h : NormalForm tokens set) : NormalForm set.versions set := by
  refine ⟨fun v => Iff.rfl, h.nodup, h.ascending, ?_, h.last,
    fun v hv => h.highest v ((h.mem_iff v).1 hv)⟩
  have hplaces := pairwise_distinct set.versions
  rw [distinct_of_nodup h.nodup] at hplaces
  exact hplaces.imp fun {a b} hab (_ : compareVersions a b = .eq) => hab

/-- **Sets and sorted lists of versions.** Without tokens there is no set, and otherwise the set is
the normal form of the tokens and its versions make the same set. The latest version of a list is
the last one of the list in ascending order, and the sorts are the lists in order that keep ties. -/
theorem ofTokens?_normalForm (tokens : List String) :
    (ofTokens? tokens = none ↔ tokens = []) ∧
      (∀ set, ofTokens? tokens = some set ↔ NormalForm tokens set) ∧
      ((ofTokens? tokens).bind fun set => ofTokens? set.versions) = ofTokens? tokens ∧
      (latestOf? tokens = none ↔ tokens = []) ∧
      latestOf? tokens = (sortAscending tokens).getLast? ∧
      (∀ vs, vs = sortAscending tokens ↔ SortedFrom .gt tokens vs) ∧
      ∀ vs, vs = sortDescending tokens ↔ SortedFrom .lt tokens vs := by
  refine ⟨ofTokens?_eq_none_iff, fun _ => ofTokens?_eq_some_iff, ?_, latestOf?_eq_none_iff,
    latestOf?_eq_getLast? tokens, fun _ => eq_sortAscending_iff, fun _ => eq_sortDescending_iff⟩
  cases hset : ofTokens? tokens with
  | none => rfl
  | some set => exact ofTokens?_eq_some_iff.2 (ofTokens?_eq_some_iff.1 hset).versions

/-- Tied tokens stay in the order of their first naming, and of the highest ones the last is the
latest. -/
example : ofTokens? ["8.0", "7", "8", "8.0", "8.00"] =
    some ⟨["7", "8.0", "8", "8.00"], "8.00"⟩ := by decide +kernel

end VersionSet

end VersionAlignment
