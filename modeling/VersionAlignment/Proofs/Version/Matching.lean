import VersionAlignment.Proofs.Version.Stability

/-!
# When the declared tokens are the requested ones

Two questions are asked about the tokens of an artifact: whether there is anything to add or to
remove, and whether they are the requested versions. The first one looks at the tokens alone. The
second one compares lists after a stable sort, and there tied tokens stay in the order in which they
are named. So the answers differ exactly if some tied tokens are named in another order.

## Results

* `pairwise_distinct`: without repetitions, tokens stand in the order in which they are named.
* `sortAscending_distinct_eq_iff`: what it takes that two lists give the same versions.
* `Change.between_eq_empty_iff`: there is nothing to do exactly if both lists hold the same tokens.
* `Request.matches_iff_unchanged`: how the two questions are related.
-/

set_option autoImplicit false

namespace VersionAlignment

namespace Version

/-- Tied tokens of the first list are named in the same order in the second one. A token counts
where it occurs first. -/
def TiesAgree (vs ws : List String) : Prop :=
  ∀ a ∈ vs, ∀ b ∈ vs, compareVersions a b = .eq →
    (vs.idxOf a < vs.idxOf b ↔ ws.idxOf a < ws.idxOf b)

variable {vs ws us : List String}

/-! ## The order of naming -/

theorem pairwise_distinct (vs : List String) :
    (distinct vs).Pairwise fun a b => vs.idxOf a < vs.idxOf b := by
  induction vs with
  | nil => exact List.Pairwise.nil
  | cons v vs ih =>
    have hlater : ∀ w ∈ (distinct vs).filter (· ≠ v), (v :: vs).idxOf w = vs.idxOf w + 1 := by
      intro w hw
      have hne : w ≠ v := by simpa using (List.mem_filter.1 hw).2
      exact List.idxOf_cons_ne vs hne.symm
    unfold distinct
    refine List.pairwise_cons.2 ⟨fun w hw => ?_, (ih.filter _).imp_of_mem fun ha hb hab => ?_⟩
    · rw [hlater w hw, List.idxOf_cons_self]
      omega
    · rw [hlater _ ha, hlater _ hb]
      omega

/-- Lists of the same tokens that are in the order of one naming are the same list. -/
theorem eq_of_pairwise_idxOf (hvs : vs.Pairwise fun a b => us.idxOf a < us.idxOf b)
    (hws : ws.Pairwise fun a b => us.idxOf a < us.idxOf b) (hmem : ∀ v, v ∈ vs ↔ v ∈ ws) :
    vs = ws := by
  have nodup : ∀ {l : List String}, l.Pairwise (fun a b => us.idxOf a < us.idxOf b) → l.Nodup := by
    intro l hl
    refine hl.imp fun hab heq => ?_
    rw [heq] at hab
    omega
  refine ((List.perm_ext_iff_of_nodup (nodup hvs) (nodup hws)).2 hmem).eq_of_pairwise
    (fun a b _ _ hab hba => ?_) hvs hws
  omega

/-! ## Classes of tied tokens -/

theorem TiesAgree.filter_tied_eq (h : TiesAgree vs ws) (hmem : ∀ v, v ∈ vs ↔ v ∈ ws) (a : String) :
    (distinct vs).filter (tied a) = (distinct ws).filter (tied a) := by
  refine eq_of_pairwise_idxOf ((pairwise_distinct vs).filter _)
    (((pairwise_distinct ws).filter _).imp_of_mem fun {b c} hb hc hbc => ?_) fun v => ?_
  · obtain ⟨hb, hab⟩ := List.mem_filter.1 hb
    obtain ⟨hc, hac⟩ := List.mem_filter.1 hc
    exact (h b ((hmem b).2 (mem_distinct.1 hb)) c ((hmem c).2 (mem_distinct.1 hc))
      (tied_iff.1 (tied_of_tied hab hac))).2 hbc
  · simp [List.mem_filter, mem_distinct, hmem]

theorem tiesAgree_of_filter_tied_eq
    (h : ∀ a, (distinct vs).filter (tied a) = (distinct ws).filter (tied a)) :
    TiesAgree vs ws := by
  intro a ha b hb hab
  -- in the class of `a` the two orders of naming are the same
  have hclass : ∀ b ∈ (distinct vs).filter (tied a), ∀ c ∈ (distinct vs).filter (tied a),
      (vs.idxOf b < vs.idxOf c ↔ ws.idxOf b < ws.idxOf c) := by
    have hv := (pairwise_distinct vs).filter (tied a)
    have hw := (pairwise_distinct ws).filter (tied a)
    rw [← h a] at hw
    refine List.Pairwise.forall_of_forall_of_flip (fun b _ => by simp) ?_ ?_
    · exact hv.imp₂ (fun b c hv hw => iff_of_true hv hw) hw
    · refine hv.imp₂ (fun b c hv hw => ?_) hw
      exact iff_of_false (Nat.lt_asymm hv) (Nat.lt_asymm hw)
  exact hclass a (List.mem_filter.2 ⟨mem_distinct.2 ha, tied_self a⟩) b
    (List.mem_filter.2 ⟨mem_distinct.2 hb, tied_iff.2 hab⟩)

/-- Two lists give the same versions exactly if they hold the same tokens and name tied ones in the
same order. -/
theorem sortAscending_distinct_eq_iff :
    sortAscending (distinct vs) = sortAscending (distinct ws) ↔
      (∀ v, v ∈ vs ↔ v ∈ ws) ∧ TiesAgree vs ws := by
  constructor
  · intro h
    refine ⟨fun v => ?_, tiesAgree_of_filter_tied_eq fun a => ?_⟩
    · rw [← mem_distinct, ← mem_sortAscending, h, mem_sortAscending, mem_distinct]
    · rw [← ranking_ascending.filter_sortBy a (distinct vs),
        ← ranking_ascending.filter_sortBy a (distinct ws)]
      exact congrArg (List.filter (tied a)) h
  · rintro ⟨hmem, hties⟩
    refine ranking_ascending.eq_of_filter_eq (ranking_ascending.pairwise_sortBy _)
      (ranking_ascending.pairwise_sortBy _) fun a => ?_
    unfold sortAscending
    rw [ranking_ascending.filter_sortBy, ranking_ascending.filter_sortBy]
    exact hties.filter_tied_eq hmem a

end Version

open Version

/-! ## Both questions -/

theorem Change.between_eq_empty_iff {declared offered : List String} :
    Change.between declared offered = ⟨[], []⟩ ↔ ∀ v, v ∈ offered ↔ v ∈ declared := by
  have hempty : Change.between declared offered = ⟨[], []⟩ ↔
      (Change.between declared offered).isEmpty = true := by
    unfold Change.isEmpty
    rw [Change.mk.injEq, Bool.and_eq_true, List.isEmpty_iff, List.isEmpty_iff]
  rw [hempty, Change.isEmpty_iff]
  exact forall_congr' fun v => iff_comm

namespace Request

/-- **The declared tokens are the requested versions** exactly if nothing is to be added or removed
and tied tokens are named in the same order; and nothing is to be added or removed exactly if both
lists hold the same tokens. -/
theorem matches_iff_unchanged (field : String) (versions : List String) (latest? : Option String)
    (current : List String) :
    ((make field versions latest?).matchesVersions current = true ↔
        Change.between current versions = ⟨[], []⟩ ∧ TiesAgree versions current) ∧
      (Change.between current versions = ⟨[], []⟩ ↔ ∀ v, v ∈ versions ↔ v ∈ current) := by
  refine ⟨?_, Change.between_eq_empty_iff⟩
  rw [matchesVersions_iff_sortAscending, Change.between_eq_empty_iff]
  exact sortAscending_distinct_eq_iff

/-- The order in which tied tokens are named is not ignored. -/
theorem not_matches_iff_unchanged_reordered :
    ¬ ∀ (field : String) (versions : List String) (latest? : Option String)
        (current : List String),
      (make field versions latest?).matchesVersions current = true ↔
        Change.between current versions = ⟨[], []⟩ := by
  intro h
  have hmatches := (h "redis_version" ["8", "8.0"] none ["8.0", "8"]).2 (by decide +kernel)
  have hdiffer : (make "redis_version" ["8", "8.0"] none).matchesVersions ["8.0", "8"] = false := by
    decide +kernel
  rw [hdiffer] at hmatches
  cases hmatches

end Request

end VersionAlignment
