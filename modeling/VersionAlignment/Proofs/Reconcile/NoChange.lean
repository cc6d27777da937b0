import VersionAlignment.Proofs.Reconcile.Agreement

/-!
# Reconciliations that find no change

Whether there is a change is decided by the versions of the primary artifact alone. If there is
none, the primary artifact is in line with the offer, and the optional artifacts have been read and
not compared: one that declares another version stays as it is, and the report does not call it up
to date.

## Results

* `not_inLine_of_unchanged`: an optional artifact may be out of line where no change is found.
* `reconcile_without_change`: what is known of the artifacts where no change is found.
-/

set_option autoImplicit false

namespace VersionAlignment.Repository

open Artifact (Kind)
open Memory (OnlyRead)
open Text (isDottedNumber)

variable {r : Repository} {offer : Offer} {s : Memory} {set : VersionSet} {k : Kind}

/-! ## Reading the optional artifacts -/

/-- An artifact that is there and was read without a failure declares versions, or does not declare
the field. -/
theorem extract_cases {text : String} (h : (r.found s k).failure? = none)
    (htext : s.text? (r.path k) = some text) :
    (∃ set, (r.format k).extract text r.service.field = .ok set) ∨
      ∃ field, (r.format k).extract text r.service.field = .error (.fieldNotFound field) := by
  rw [found, declared, htext] at h
  cases hfault : s.readFaults.lookup (r.path k) with
  | some message =>
    simp only [hfault] at h
    obtain ⟨-, field, hio⟩ := failure?_refused h
    cases hio
  | none =>
    simp only [hfault] at h
    cases hextract : (r.format k).extract text r.service.field with
    | ok set => exact .inl ⟨set, rfl⟩
    | error e =>
      rw [hextract] at h
      obtain ⟨-, field, rfl⟩ := failure?_refused h
      exact .inr ⟨field, rfl⟩

/-- Reading never finds an artifact up to date. -/
theorem reason?_found (r : Repository) (s : Memory) (k : Kind) :
    (r.found s k).reason? ≠ some .alreadyUpToDate := by
  rw [found]
  split
  · simp
  · rw [absent]
    split <;> simp
  · rw [refused]
    split <;> simp

theorem failure?_found_of_errors_eq_nil (h : (r.survey offer s set).errors = [])
    (hk : k.isPrimary = false) : (r.found s k).failure? = none := by
  have hentry : (⟨k, r.path k, r.found s k⟩ : Entry VersionSet) ∈
      optionalKinds.map fun k => ⟨k, r.path k, r.found s k⟩ := by
    refine List.mem_map.2 ⟨k, List.mem_filter.2 ⟨Artifact.Kind.all_complete k, ?_⟩, rfl⟩
    rw [hk]
    rfl
  refine Entry.failure?_eq_none hentry ?_
  rw [show Entry.failures _ = [] from h]
  exact List.not_mem_nil

theorem reason_of_mem_skipped {e : Skipped} (h : e ∈ (r.survey offer s set).skipped) :
    e.reason ≠ .alreadyUpToDate := by
  obtain ⟨entry, hentry, he⟩ := List.mem_filterMap.1 h
  obtain ⟨k, -, rfl⟩ := List.mem_map.1 hentry
  obtain ⟨reason, hreason, rfl⟩ := Option.map_eq_some_iff.1 he
  rintro rfl
  exact reason?_found r s k hreason

/-! ## Artifacts in line with an offer -/

/-- No artifact but the primary one is changed by an update for the offer. -/
def OptionalsInLine (r : Repository) (offer : Offer) (s : Memory) : Prop :=
  ∀ k, k.isPrimary = false → ∀ text, s.text? (r.path k) = some text →
    (∃ field, (r.format k).update text (r.requestFor offer) = .error (.fieldNotFound field)) ∨
      (r.format k).update text (r.requestFor offer) = .ok text

/-- The primary artifact is in line with the offer; the optional ones can be read, as far as they
are there and declare the field. -/
structure PrimaryInLine (r : Repository) (offer : Offer) (s : Memory) : Prop where
  /-- The primary artifact declares the offered versions and no others. An update has nothing to
  do, unless it puts tied versions in another order. -/
  terraform : ∃ text set, s.text? (r.path .terraform) = some text ∧
    (r.format .terraform).extract text r.service.field = .ok set ∧
    (∀ v, v ∈ set.versions ↔ v ∈ offer.versions) ∧
    ((∀ a ∈ offer.versions, ∀ b ∈ offer.versions, Version.tied a b = true → a = b) →
      (r.format .terraform).update text (r.requestFor offer) = .ok text)
  /-- A catalog declares some versions, or an update of it misses the field. -/
  catalog : ∀ text, s.text? (r.path .catalog) = some text →
    (∃ set, (r.format .catalog).extract text r.service.field = .ok set) ∨
      ∃ field, (r.format .catalog).update text (r.requestFor offer) = .error (.fieldNotFound field)
  /-- A test declares some version, or reading it misses the field. -/
  testSource : ∀ text, s.text? (r.path .testSource) = some text →
    (∃ set, (r.format .testSource).extract text r.service.field = .ok set) ∨
      ∃ field, (r.format .testSource).extract text r.service.field = .error (.fieldNotFound field)

/-- A store in which only the primary artifact declares the version that is current. -/
def driftedStore : Memory where
  files := [
    ("variables.tf",
      "condition = anytrue([\n  var.redis_version == null,\n  var.redis_version == \"7\"\n])\n"),
    ("ibm_catalog.json",
      "\x7b\"products\":[\x7b\"flavors\":[\x7b\"configuration\":[\x7b\n" ++
      "\"key\":\"redis_version\",\n\"default_value\": \"6\"\n\x7d]\x7d]\x7d]\x7d"),
    ("tests/pr_test.go", "const latestVersion = \"6\"\n")]
  readFaults := []
  writeFaults := []
  events := []

theorem reconcile_driftedStore :
    (redis.reconcile Memory.store (offering ⟨["7"], "7"⟩) false driftedStore).1 = .ok
      { service := .named "redis", current := ["7"], offer := ⟨["7"], "7"⟩, change := ⟨[], []⟩,
        dryRun := false, updated := [], skipped := [], errors := [] } := by
  decide +kernel

/-- **The optional artifacts may be out of line where no change is found.** -/
theorem not_inLine_of_unchanged :
    ¬ ∀ (r : Repository) (offer : Offer) (s : Memory) (report : SyncReport),
      offer.versions ≠ [] → (∀ v ∈ offer.versions, isDottedNumber v.toList = true) →
      isDottedNumber offer.preferred.toList = true → s.readFaults = [] → s.writeFaults = [] →
      (r.reconcile Memory.store (offering offer) false s).1 = .ok report →
      report.hasChanges = false → report.errors = [] → r.OptionalsInLine offer s := by
  intro h
  have hdotted : ∀ v ∈ ["7"], isDottedNumber v.toList = true := by
    simp only [List.forall_mem_cons]
    exact ⟨by decide +kernel, by simp⟩
  have htest : (redis.format .testSource).update "const latestVersion = \"6\"\n"
      (redis.requestFor ⟨["7"], "7"⟩) = .ok "const latestVersion = \"7\"\n" := by
    decide +kernel
  have hline := h redis ⟨["7"], "7"⟩ driftedStore _ (by simp) hdotted (by decide +kernel) rfl rfl
    reconcile_driftedStore rfl rfl .testSource rfl _ rfl
  rw [htest] at hline
  rcases hline with ⟨field, hfield⟩ | hsame
  · cases hfield
  · rw [Except.ok.injEq] at hsame
    exact absurd hsame (by decide)

/-- An update leaves a primary artifact with the offered versions as it is, unless tied ones may
stand in another order. -/
theorem update_terraform_eq_self {text : String}
    (hset : (r.format .terraform).extract text r.service.field = .ok set)
    (hmem : ∀ v, v ∈ set.versions ↔ v ∈ offer.versions)
    (huntied : ∀ a ∈ offer.versions, ∀ b ∈ offer.versions, Version.tied a b = true → a = b) :
    (r.format .terraform).update text (r.requestFor offer) = .ok text := by
  have hversions : ∀ v, v ∈ (r.requestFor offer).versions ↔ v ∈ offer.versions :=
    fun v => Version.mem_distinct
  refine Artifact.Format.map_ofList_eq_ok.2 (Artifact.Terraform.update_eq_self
    (Version.nodup_distinct offer.versions) (fun a ha b hb => ?_) hset fun v => ?_)
  · exact huntied a ((hversions a).1 ha) b ((hversions b).1 hb)
  · rw [hmem, hversions]

/-- **Where no change is found the primary artifact is in line with the offer**, nothing is
written, and no artifact is reported as updated or up to date. -/
theorem reconcile_without_change {report : SyncReport}
    (hrun : (r.reconcile Memory.store (offering offer) false s).1 = .ok report)
    (hsame : report.hasChanges = false) (herrors : report.errors = []) :
    r.PrimaryInLine offer s ∧
      OnlyRead s (r.reconcile Memory.store (offering offer) false s).2 ∧
      report.updated = [] ∧ ∀ e ∈ report.skipped, e.reason ≠ .alreadyUpToDate := by
  obtain ⟨set, hset⟩ := exists_declared_of_reconcile hrun
  rw [hasChanges_of_reconcile hset hrun] at hsame
  obtain ⟨hreport, hread⟩ := reconcile_of_unchanged hset hsame
  rw [hrun, Except.ok.injEq] at hreport
  subst hreport
  refine ⟨⟨?_, ?_, ?_⟩, hread, rfl, fun e => reason_of_mem_skipped⟩
  · obtain ⟨text, htext, -, hextract⟩ := declared_eq_ok.1 hset
    have hmem := (hasChanges_survey r offer s set).1 hsame
    exact ⟨text, set, htext, hextract, hmem, update_terraform_eq_self hextract hmem⟩
  · intro text htext
    refine (extract_cases (failure?_found_of_errors_eq_nil herrors rfl) htext).imp_right ?_
    rintro ⟨field, hfield⟩
    exact ⟨field, Artifact.Format.map_ofList_eq_error.2
      (Artifact.Catalog.update_fieldNotFound_iff.2 hfield)⟩
  · intro text htext
    exact extract_cases (failure?_found_of_errors_eq_nil herrors rfl) htext

/-- The primary artifact of the drifted store is in line, and the two others pass in silence. -/
theorem reconcile_without_change_driftedStore :
    ∃ report, (redis.reconcile Memory.store (offering ⟨["7"], "7"⟩) false driftedStore).1 =
        .ok report ∧
      report.skipped = [] ∧ redis.PrimaryInLine ⟨["7"], "7"⟩ driftedStore ∧
      OnlyRead driftedStore
        (redis.reconcile Memory.store (offering ⟨["7"], "7"⟩) false driftedStore).2 := by
  obtain ⟨hline, hread, -⟩ := reconcile_without_change reconcile_driftedStore rfl rfl
  exact ⟨_, reconcile_driftedStore, rfl, hline, hread⟩

end VersionAlignment.Repository
