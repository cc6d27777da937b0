import Mathlib.Data.List.Nodup
import Mathlib.Data.List.Pairwise
import VersionAlignment.Proofs.Reconcile.Convergence

/-!
# Where a report places the artifacts

After the updating stage an artifact belongs in one place of the report: among the updated files,
the skipped ones or the errors. The updating stage keeps to that. The reading stage can break it,
for the errors it leaves in the report stay there: a catalog whose item has no version at all fails
to be read, and may well be updated.

## Results

* `failure?_settled_isSome_iff`, `settled_changed_iff`: the outcome of an update, told from the
  store.
* `inDispute_iff`: where reading fails and updating does not.
* `not_placed_updatedCatalog`: a catalog that is updated and listed as an error.
* `reconcile_places_iff`: an artifact is in its one place exactly if it is not in dispute.
-/

set_option autoImplicit false

namespace VersionAlignment

open Artifact (Kind)

/-! ## Lists with one entry for each artifact -/

namespace SyncReport

theorem nodup_map_fst_putError {es : List (Kind × Failure)} (e : Kind × Failure)
    (h : (es.map Prod.fst).Nodup) : ((putError es e).map Prod.fst).Nodup := by
  induction es with
  | nil => simp [putError]
  | cons old es ih =>
    rw [List.map_cons, List.nodup_cons] at h
    rw [putError]
    split
    · next hsame =>
      rw [List.map_cons, List.nodup_cons, ← hsame]
      exact h
    · next hne =>
      rw [List.map_cons, List.nodup_cons, mem_map_fst_putError, not_or]
      exact ⟨⟨h.1, hne⟩, ih h.2⟩

/-- No artifact has two errors. -/
theorem nodup_map_fst_errors_absorb {report : SyncReport} (u : UpdateReport)
    (h : (report.errors.map Prod.fst).Nodup) :
    ((report.absorb u).errors.map Prod.fst).Nodup := by
  show ((u.errors.foldl putError report.errors).map Prod.fst).Nodup
  generalize report.errors = es at h
  induction u.errors generalizing es with
  | nil => exact h
  | cons e errors ih => exact ih _ (nodup_map_fst_putError e h)

end SyncReport

/-- Reading fails where the field is missing or, in a catalog, where its item has no version;
otherwise updating fails in the same way. -/
theorem Artifact.Format.extract_error_cases {format : Artifact.Format} {text field : String}
    {e : Artifact.Error} (h : format.extract text field = .error e) (request : Request) :
    e = .fieldNotFound field ∨ (format = .catalog ∧ e = .emptyVersionSet field) ∨
      format.update text request = .error e := by
  cases format with
  | terraform =>
    have hextract : Terraform.extract text.toList field = .error e := h
    rw [Terraform.extract] at hextract
    split at hextract <;> cases hextract
    exact .inl rfl
  | catalog =>
    have hextract : Catalog.extract text.toList field = .error e := h
    rw [Catalog.extract] at hextract
    split at hextract
    · next hparse =>
      cases hextract
      refine .inr (.inr (map_ofList_eq_error.2 ?_))
      rw [Catalog.update, hparse]
    · split at hextract
      · rw [Catalog.declared] at hextract
        split at hextract
        · cases hextract
        · split at hextract <;> cases hextract
          exact .inr (.inl ⟨rfl, rfl⟩)
      · cases hextract
        exact .inl rfl
  | goTest constant =>
    have hextract : GoTest.extract constant text.toList field = .error e := h
    rw [GoTest.extract] at hextract
    split at hextract <;> cases hextract
    exact .inl rfl

namespace Repository

open Memory

variable {r : Repository} {request : Request} {offer : Offer} {s s' : Memory} {set : VersionSet}
  {k : Kind}

theorem eq_of_path_eq (hpaths : r.HasDistinctPaths) {k l : Kind} (h : r.path k = r.path l) :
    k = l := by
  by_contra hne
  have : Std.Symm fun k l => r.path k ≠ r.path l := ⟨fun _ _ hdiffer => hdiffer.symm⟩
  exact List.Pairwise.forall hpaths (Artifact.Kind.all_complete k) (Artifact.Kind.all_complete l)
    hne h

/-- The artifacts that are chosen by `f`, each listed by its path, are listed once. -/
theorem count_filterMap_path (hpaths : r.HasDistinctPaths) (f : Kind → Bool) (k : Kind) :
    (Kind.all.filterMap fun l => if f l then some (r.path l) else none).count (r.path k) =
      if f k then 1 else 0 := by
  have hnodup : (Kind.all.filterMap fun l => if f l then some (r.path l) else none).Nodup := by
    refine List.Nodup.filterMap (fun k l path hk hl => ?_) (by decide)
    simp only [Option.mem_def, Option.ite_none_right_eq_some, Option.some.injEq] at hk hl
    exact eq_of_path_eq hpaths (hk.2.trans hl.2.symm)
  have hmem : r.path k ∈ (Kind.all.filterMap fun l => if f l then some (r.path l) else none) ↔
      f k = true := by
    simp only [List.mem_filterMap, Option.ite_none_right_eq_some, Option.some.injEq]
    constructor
    · rintro ⟨l, -, hl, hpath⟩
      rwa [← eq_of_path_eq hpaths hpath]
    · exact fun h => ⟨k, Artifact.Kind.all_complete k, h, rfl⟩
  by_cases h : f k = true
  · rw [if_pos h, List.count_eq_one_of_mem hnodup (hmem.2 h)]
  · rw [if_neg h, List.count_eq_zero_of_not_mem (mt hmem.1 h)]

/-- How many entries of a report are about an artifact. -/
def appearances (r : Repository) (report : SyncReport) (k : Kind) : Nat :=
  report.updated.count (r.path k) + (report.skipped.map Skipped.path).count (r.path k)
    + (report.errors.map Prod.fst).count k

theorem count_updated_settlement (hpaths : r.HasDistinctPaths) (request : Request) (s : Memory)
    (k : Kind) : (r.settlement request s).updated.count (r.path k) =
      if (r.settled request s k).1.result?.isSome then 1 else 0 := by
  rw [← count_filterMap_path hpaths fun l => (r.settled request s l).1.result?.isSome]
  simp only [settlement, UpdateReport.ofOutcomes, List.filterMap_map, Function.comp_def]
  congr 2
  funext l
  cases (r.settled request s l).1 <;> rfl

theorem count_skipped_settlement (hpaths : r.HasDistinctPaths) (request : Request) (s : Memory)
    (k : Kind) : ((r.settlement request s).skipped.map Skipped.path).count (r.path k) =
      if (r.settled request s k).1.reason?.isSome then 1 else 0 := by
  rw [← count_filterMap_path hpaths fun l => (r.settled request s l).1.reason?.isSome]
  simp only [settlement, UpdateReport.ofOutcomes, Entry.skips, List.filterMap_map,
    List.map_filterMap, Function.comp_def]
  congr 2
  funext l
  cases (r.settled request s l).1 <;> rfl

theorem mem_map_fst_failures {α : Type} {ks : List Kind} (f : Kind → Outcome α) :
    k ∈ (Entry.failures (ks.map fun l => ⟨l, r.path l, f l⟩)).map Prod.fst ↔
      k ∈ ks ∧ (f k).failure?.isSome = true := by
  simp only [Entry.failures, List.filterMap_map, Function.comp_def, List.mem_map,
    List.mem_filterMap, Option.map_eq_some_iff, Option.isSome_iff_exists]
  constructor
  · rintro ⟨-, ⟨l, hl, failure, hf, rfl⟩, rfl⟩
    exact ⟨hl, failure, hf⟩
  · rintro ⟨hk, failure, hf⟩
    exact ⟨(k, failure), ⟨k, hk, failure, hf, rfl⟩, rfl⟩

theorem nodup_map_fst_failures {α : Type} {ks : List Kind} (f : Kind → Outcome α)
    (h : ks.Nodup) :
    ((Entry.failures (ks.map fun l => ⟨l, r.path l, f l⟩)).map Prod.fst).Nodup := by
  simp only [Entry.failures, List.filterMap_map, List.map_filterMap, Function.comp_def]
  refine h.filterMap fun k l found hk hl => ?_
  simp only [Option.mem_def, Option.map_eq_some_iff] at hk hl
  obtain ⟨-, ⟨_, -, rfl⟩, rfl⟩ := hk
  obtain ⟨-, ⟨_, -, rfl⟩, hsame⟩ := hl
  exact hsame.symm

/-! ## The outcome of an update, told from the store -/

/-- Reading, updating or writing an artifact that is there fails. It is no failure that an optional
one does not declare the field. -/
inductive UpdateFails (r : Repository) (request : Request) (s : Memory) (k : Kind) : Prop where
  | read {text message : String} (ht : s.text? (r.path k) = some text)
      (hf : s.readFaults.lookup (r.path k) = some message)
  | update {text : String} {e : Artifact.Error} (ht : s.text? (r.path k) = some text)
      (hf : s.readFaults.lookup (r.path k) = none)
      (he : (r.format k).update text request = .error e)
      (hexcuse : k.isPrimary = true ∨ e.isFieldNotFound = false)
  | write {text new message : String} (ht : s.text? (r.path k) = some text)
      (hf : s.readFaults.lookup (r.path k) = none)
      (hnew : (r.format k).update text request = .ok new) (hchange : new ≠ text)
      (hw : s.writeFaults.lookup (r.path k) = some message)

theorem failure?_refused_isSome_iff {α : Type} {e : Artifact.Error} :
    (refused k e : Outcome α).failure?.isSome = true ↔
      k.isPrimary = true ∨ e.isFieldNotFound = false := by
  rw [refused]
  cases k.isPrimary <;> cases e.isFieldNotFound <;> simp

/-- An artifact counts as failed exactly if a step of its update fails. -/
theorem failure?_settled_isSome_iff (hthere : k.isPrimary = true → s.text? (r.path k) ≠ none) :
    (r.settled request s k).1.failure?.isSome = true ↔ r.UpdateFails request s k := by
  constructor
  · intro h
    rw [settled] at h
    cases ht : s.text? (r.path k) with
    | none =>
      simp only [ht, outcomeOf_notFound] at h
      exact absurd ht (hthere h)
    | some text =>
      simp only [ht] at h
      cases hf : s.readFaults.lookup (r.path k) with
      | some message => exact .read ht hf
      | none =>
        simp only [hf] at h
        cases hupdate : (r.format k).update text request with
        | error e =>
          rw [hupdate] at h
          exact .update ht hf hupdate (failure?_refused_isSome_iff.1 h)
        | ok new =>
          rw [hupdate] at h
          by_cases hnew : new = text
          · simp [hnew] at h
          · simp only [hnew, if_false] at h
            cases hw : s.writeFaults.lookup (r.path k) with
            | some message => exact .write ht hf hupdate hnew hw
            | none => simp [hw] at h
  · rintro (⟨ht, hf⟩ | ⟨ht, hf, he, hexcuse⟩ | ⟨ht, hf, hnew, hchange, hw⟩)
    · simp only [settled, ht, hf, failure?_refused_isSome_iff]
      exact .inr rfl
    · simp only [settled, ht, hf, he, failure?_refused_isSome_iff]
      exact hexcuse
    · simp only [settled, ht, hf, hnew, hchange, hw, if_false, failure?_refused_isSome_iff]
      exact .inr rfl

/-- An artifact counts as updated exactly if its text is another one than before. -/
theorem settled_changed_iff :
    (r.settled request s k).1.result?.isSome = true ↔
      (r.settled request s k).2 ≠ s.text? (r.path k) := by
  have hrefused : ∀ e, (refused k e : Outcome Unit).result?.isSome = false := by
    intro e
    rw [refused]
    split <;> rfl
  rw [settled]
  cases ht : s.text? (r.path k) with
  | none =>
    simp only [ne_eq, not_true, iff_false, absent]
    split <;> simp
  | some text =>
    cases s.readFaults.lookup (r.path k) with
    | some message => simp [hrefused]
    | none =>
      cases hupdate : (r.format k).update text request with
      | error e => simp [hupdate, hrefused]
      | ok new =>
        by_cases hnew : new = text
        · simp [hupdate, hnew]
        · cases s.writeFaults.lookup (r.path k) with
          | some message => simp [hupdate, hnew, hrefused]
          | none => simp [hupdate, hnew]

/-! ## Artifacts in dispute -/

/-- The catalog is there and its item has no version, so it cannot be read, and yet its update does
not fail. -/
structure InDispute (r : Repository) (request : Request) (s : Memory) (k : Kind) : Prop where
  kind : k = .catalog
  versionless : ∃ text, s.text? (r.path k) = some text ∧
    (r.format k).extract text r.service.field = .error (.emptyVersionSet r.service.field)
  settled : ¬ r.UpdateFails request s k

/-- An artifact that cannot be read cannot be updated either, unless it is in dispute. -/
theorem inDispute_iff (hk : k.isPrimary = false) : r.InDispute request s k ↔
    (r.found s k).failure?.isSome = true ∧ ¬ r.UpdateFails request s k := by
  constructor
  · rintro ⟨-, ⟨text, ht, hextract⟩, hsettled⟩
    refine ⟨?_, hsettled⟩
    cases hf : s.readFaults.lookup (r.path k) with
    | some message => exact absurd (.read ht hf) hsettled
    | none =>
      simp only [found, declared, ht, hf, hextract, Except.map, failure?_refused_isSome_iff]
      exact .inr rfl
  · rintro ⟨hfound, hsettled⟩
    rw [found, declared] at hfound
    cases ht : s.text? (r.path k) with
    | none => simp [ht, outcomeOf_notFound, hk] at hfound
    | some text =>
      cases hf : s.readFaults.lookup (r.path k) with
      | some message => exact absurd (.read ht hf) hsettled
      | none =>
        simp only [ht, hf] at hfound
        cases hextract : (r.format k).extract text r.service.field with
        | ok set => simp [hextract, Except.map] at hfound
        | error e =>
          simp only [hextract, Except.map, failure?_refused_isSome_iff, hk, Bool.false_eq_true,
            false_or] at hfound
          rcases Artifact.Format.extract_error_cases hextract request with
            rfl | ⟨hformat, rfl⟩ | hupdate
          · cases hfound
          · have hcatalog : k = .catalog := by
              cases k with
              | terraform => cases hk
              | catalog => rfl
              | testSource => simp [Repository.format, Settings.format] at hformat
            exact ⟨hcatalog, ⟨text, ht, hextract⟩, hsettled⟩
          · exact absurd (.update ht hf hupdate (.inr hfound)) hsettled

/-! ## The place of an artifact -/

/-- The artifact is in one place of the report, and that is where its update has put it: among the
updated files if its text is another one than before, and among the errors if a step failed. -/
structure Placed (r : Repository) (request : Request) (s s' : Memory) (report : SyncReport)
    (k : Kind) : Prop where
  once : r.appearances report k = 1
  updated : r.path k ∈ report.updated ↔ s'.text? (r.path k) ≠ s.text? (r.path k)
  failed : k ∈ report.errors.map Prod.fst ↔ r.UpdateFails request s k

theorem mem_errors_survey : k ∈ (r.survey offer s set).errors.map Prod.fst ↔
    k.isPrimary = false ∧ (r.found s k).failure?.isSome = true := by
  show k ∈ (Entry.failures (optionalKinds.map fun l => ⟨l, r.path l, r.found s l⟩)).map Prod.fst ↔ _
  rw [mem_map_fst_failures]
  simp [optionalKinds, Artifact.Kind.all_complete]

/-- The report after the updating stage. -/
def concluded (r : Repository) (offer : Offer) (s : Memory) (set : VersionSet) : SyncReport :=
  { r.survey offer s set with skipped := [] }.absorb (r.settlement (r.requestFor offer) s)

theorem failure?_settled_isSome_iff_of_there (hthere : s.text? (r.path .terraform) ≠ none) :
    (r.settled request s k).1.failure?.isSome = true ↔ r.UpdateFails request s k := by
  refine failure?_settled_isSome_iff fun hk => ?_
  cases k with
  | terraform => exact hthere
  | catalog => cases hk
  | testSource => cases hk

/-- The errors in the end: the artifacts whose update failed, and those in dispute. -/
theorem mem_errors_concluded (hthere : s.text? (r.path .terraform) ≠ none) :
    k ∈ (r.concluded offer s set).errors.map Prod.fst ↔
      r.UpdateFails (r.requestFor offer) s k ∨ r.InDispute (r.requestFor offer) s k := by
  have hsettlement : k ∈ (r.settlement (r.requestFor offer) s).errors.map Prod.fst ↔
      r.UpdateFails (r.requestFor offer) s k := by
    show k ∈ (Entry.failures (Kind.all.map fun l =>
      ⟨l, r.path l, (r.settled (r.requestFor offer) s l).1⟩)).map Prod.fst ↔ _
    rw [mem_map_fst_failures, failure?_settled_isSome_iff_of_there hthere]
    simp [Artifact.Kind.all_complete]
  rw [concluded, SyncReport.mem_map_fst_errors_absorb, hsettlement]
  show k ∈ (r.survey offer s set).errors.map Prod.fst ∨ _ ↔ _
  rw [mem_errors_survey]
  by_cases hfails : r.UpdateFails (r.requestFor offer) s k
  · simp [hfails]
  · cases hk : k.isPrimary with
    | true =>
      have hnot : ¬ r.InDispute (r.requestFor offer) s k :=
        fun h => by simp [h.kind, Kind.isPrimary] at hk
      simp [hfails, hnot]
    | false => simp [hfails, inDispute_iff hk]

/-- An artifact appears once in the end, unless it is in dispute. -/
theorem appearances_concluded (hpaths : r.HasDistinctPaths)
    (hthere : s.text? (r.path .terraform) ≠ none) :
    r.appearances (r.concluded offer s set) k = 1 ↔ ¬ r.InDispute (r.requestFor offer) s k := by
  have hfails : (r.settled (r.requestFor offer) s k).1.failure?.isSome = true ↔
      r.UpdateFails (r.requestFor offer) s k := failure?_settled_isSome_iff_of_there hthere
  have hupdated : (r.concluded offer s set).updated.count (r.path k) =
      if (r.settled (r.requestFor offer) s k).1.result?.isSome then 1 else 0 :=
    count_updated_settlement hpaths _ s k
  have hskipped : ((r.concluded offer s set).skipped.map Skipped.path).count (r.path k) =
      if (r.settled (r.requestFor offer) s k).1.reason?.isSome then 1 else 0 :=
    count_skipped_settlement hpaths _ s k
  have hnodup : ((r.concluded offer s set).errors.map Prod.fst).Nodup :=
    SyncReport.nodup_map_fst_errors_absorb _ (nodup_map_fst_failures _ (by decide))
  have hmem : k ∈ (r.concluded offer s set).errors.map Prod.fst ↔
      r.UpdateFails (r.requestFor offer) s k ∨ r.InDispute (r.requestFor offer) s k :=
    mem_errors_concluded hthere
  rw [appearances, hupdated, hskipped, hnodup.count]
  by_cases hfailed : r.UpdateFails (r.requestFor offer) s k
  · have hnot : ¬ r.InDispute (r.requestFor offer) s k := fun h => h.settled hfailed
    obtain ⟨failure, hfailure⟩ := Option.isSome_iff_exists.1 (hfails.2 hfailed)
    rw [if_pos (hmem.2 (.inl hfailed))]
    cases houtcome : (r.settled (r.requestFor offer) s k).1 with
    | failed failure' => simp [hnot]
    | done result => simp [houtcome] at hfailure
    | skipped reason => simp [houtcome] at hfailure
  · have hlisted : ((if (r.settled (r.requestFor offer) s k).1.result?.isSome then 1 else 0)
        + if (r.settled (r.requestFor offer) s k).1.reason?.isSome then 1 else 0) = 1 := by
      cases houtcome : (r.settled (r.requestFor offer) s k).1 with
      | failed failure => exact absurd (hfails.1 (by rw [houtcome]; rfl)) hfailed
      | done result => simp
      | skipped reason => simp
    rw [hlisted]
    by_cases hdispute : r.InDispute (r.requestFor offer) s k
    · rw [if_pos (hmem.2 (.inr hdispute))]
      simp [hdispute]
    · rw [if_neg (mt hmem.1 (not_or.2 ⟨hfailed, hdispute⟩))]
      simp [hdispute]

theorem mem_updated_concluded (hpaths : r.HasDistinctPaths) :
    r.path k ∈ (r.concluded offer s set).updated ↔
      (r.settled (r.requestFor offer) s k).2 ≠ s.text? (r.path k) := by
  show r.path k ∈ (r.settlement (r.requestFor offer) s).updated ↔ _
  rw [← settled_changed_iff, ← List.count_pos_iff, count_updated_settlement hpaths]
  split
  · next h => simp [h]
  · next h => simp [h]

/-- A store whose catalog has an empty array of options. -/
def updatedCatalog : Memory where
  files := [("variables.tf", Artifact.redisList),
    ("ibm_catalog.json",
     "\x7b\"products\":[\x7b\"flavors\":[\x7b\"configuration\":[\x7b\"key\":\"redis_version\",\n" ++
     "\"options\": []\n\x7d]\x7d]\x7d]\x7d")]
  readFaults := []
  writeFaults := []
  events := []

theorem reconcile_updatedCatalog :
    (redis.reconcile Memory.store (offering ⟨["7"], "7"⟩) false updatedCatalog).1 = .ok
      { service := .named "redis", current := ["6"], offer := ⟨["7"], "7"⟩,
        change := ⟨["7"], ["6"]⟩, dryRun := false, updated := ["variables.tf", "ibm_catalog.json"],
        skipped := [⟨"tests/pr_test.go", .fileNotFound⟩],
        errors := [(.catalog, .error (.emptyVersionSet "redis_version"))] } := by
  decide +kernel

/-- **A catalog may be listed both as updated and as an error**, so not every artifact is in one
place of the report. -/
theorem not_placed_updatedCatalog :
    ¬ ∀ (r : Repository) (offer : Offer) (s : Memory) (report : SyncReport), r.HasDistinctPaths →
      (r.reconcile Memory.store (offering offer) false s).1 = .ok report →
      report.hasChanges = true → ∀ k, r.Placed (r.requestFor offer) s
        (r.reconcile Memory.store (offering offer) false s).2 report k := by
  intro h
  have honce := (h redis _ _ _ hasDistinctPaths_redis reconcile_updatedCatalog rfl .catalog).once
  exact absurd honce (by decide)

/-- **An artifact is in its one place in the report exactly if it is not in dispute.** Whatever
fails, after a reconciliation with a change it is listed once, as updated if its text is another one
than before and as an error if a step of its update failed; the exception is a catalog that cannot
be read for want of a version while its update goes well. -/
theorem reconcile_places_iff {report : SyncReport} (hpaths : r.HasDistinctPaths)
    (hrun : (r.reconcile Memory.store (offering offer) false s).1 = .ok report)
    (hchange : report.hasChanges = true) (k : Kind) :
    r.Placed (r.requestFor offer) s (r.reconcile Memory.store (offering offer) false s).2 report k ↔
      ¬ r.InDispute (r.requestFor offer) s k := by
  obtain ⟨set, hset⟩ := exists_declared_of_reconcile hrun
  rw [hasChanges_of_reconcile hset hrun] at hchange
  obtain ⟨hreport, htexts⟩ := reconcile_of_changed hset hchange hpaths
  obtain ⟨text, htext, -⟩ := declared_eq_ok.1 hset
  have hthere : s.text? (r.path .terraform) ≠ none := by simp [htext]
  obtain rfl : report = r.concluded offer s set := Except.ok.inj (hrun.symm.trans hreport)
  refine ⟨fun h => (appearances_concluded hpaths hthere).1 h.once, fun h => ⟨?_, ?_, ?_⟩⟩
  · exact (appearances_concluded hpaths hthere).2 h
  · rw [mem_updated_concluded hpaths, htexts]
  · rw [mem_errors_concluded hthere]
    simp [h]

/-- The primary artifact is in its place even where the catalog is not. -/
theorem reconcile_places_updatedCatalog :
    ∃ report, (redis.reconcile Memory.store (offering ⟨["7"], "7"⟩) false updatedCatalog).1 =
        .ok report ∧
      redis.Placed (redis.requestFor ⟨["7"], "7"⟩) updatedCatalog
        (redis.reconcile Memory.store (offering ⟨["7"], "7"⟩) false updatedCatalog).2 report
        .terraform :=
  ⟨_, reconcile_updatedCatalog, (reconcile_places_iff hasDistinctPaths_redis
    reconcile_updatedCatalog rfl .terraform).2 fun h => by cases h.kind⟩

end Repository

end VersionAlignment
