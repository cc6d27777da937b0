import VersionAlignment.Proofs.Reconcile.Stages
import VersionAlignment.Proofs.Terraform.RoundTrip

/-!
# Convergence

A reconciliation that dealt with the primary artifact leaves a store in which the primary artifact
declares what was offered. The next one finds no change then, whatever failed for the other
artifacts, and writes nothing.

## Results

* `exists_extract_of_settled`: the primary artifact after an update that did not fail.
* `reconcile_converges`: the next reconciliation has nothing to do.
-/

set_option autoImplicit false

namespace VersionAlignment

open Artifact (Kind)
open Artifact.Terraform (IsDeclarable isDeclarable_make)
open Text (IsName)
open Memory (OnlyRead)

namespace Memory

/-- The store with all faults mended. -/
def mended (s : Memory) : Memory := { s with readFaults := [], writeFaults := [] }

end Memory

theorem Service.isName_field {name : String} (h : IsName name) :
    IsName (Service.named name).field := by
  rw [Service.named]
  split
  · exact (by decide : IsName "edb_version")
  · intro c hc
    rw [String.toList_append, List.mem_append] at hc
    rcases hc with hc | hc
    · exact h c hc
    · exact (by decide : IsName "_version") c hc

namespace Repository

variable {r : Repository} {request : Request} {offer : Offer} {s : Memory} {set : VersionSet}

theorem declared_eq_ok {k : Kind} :
    r.declared s k = .ok (some set) ↔ ∃ text, s.text? (r.path k) = some text ∧
      s.readFaults.lookup (r.path k) = none ∧
      (r.format k).extract text r.service.field = .ok set := by
  rw [declared]
  cases s.text? (r.path k) with
  | none => simp
  | some text =>
    cases s.readFaults.lookup (r.path k) with
    | some message => simp
    | none => cases h : (r.format k).extract text r.service.field <;> simp [Except.map, h]

/-- After an update that did not fail the primary artifact declares the requested versions. -/
theorem exists_extract_of_settled (hrequest : IsDeclarable request)
    (h : (r.settled request s .terraform).1.failure? = none) :
    ∃ text set, (r.settled request s .terraform).2 = some text ∧
      Artifact.Format.terraform.extract text request.field = .ok set ∧
      set.versions = request.ascending := by
  rcases settled_cases h with ⟨-, -, hprimary⟩ | ⟨text, -, ⟨_, -, -, hprimary⟩ | ⟨out, hout, htext⟩⟩
  · cases hprimary
  · cases hprimary
  · obtain ⟨set, hset, hversions⟩ :=
      Artifact.Terraform.extract_of_update hrequest (Artifact.Format.map_ofList_eq_ok.1 hout)
    exact ⟨out, set, htext, hset, hversions⟩

theorem hasChanges_survey (r : Repository) (offer : Offer) (s : Memory) (set : VersionSet) :
    (r.survey offer s set).hasChanges = false ↔ ∀ v, v ∈ set.versions ↔ v ∈ offer.versions := by
  rw [SyncReport.hasChanges, Bool.not_eq_false', survey]
  exact Change.isEmpty_iff

/-- **Reconciling again after a success changes nothing.** Whatever could not be read or written in
the first run, the second one, without faults, finds the versions of the first offer and writes
nothing. -/
theorem reconcile_converges {name : String} {report : SyncReport} (hname : IsName name)
    (hservice : r.service = .named name) (hpaths : r.HasDistinctPaths) (hne : offer.versions ≠ [])
    (hdotted : ∀ v ∈ offer.versions, Text.isDottedNumber v.toList = true)
    (hrun : (r.reconcile Memory.store (offering offer) false s).1 = .ok report)
    (hsuccess : report.isSuccess = true) :
    ∃ report', (r.reconcile Memory.store (offering offer) false
        (r.reconcile Memory.store (offering offer) false s).2.mended).1 = .ok report' ∧
      report'.hasChanges = false ∧
      (report.hasChanges = true →
        report'.current = Version.sortAscending (Version.distinct offer.versions)) ∧
      OnlyRead (r.reconcile Memory.store (offering offer) false s).2.mended
        (r.reconcile Memory.store (offering offer) false
          (r.reconcile Memory.store (offering offer) false s).2.mended).2 := by
  obtain ⟨set, hset⟩ := exists_declared_of_reconcile hrun
  by_cases hchange : (r.survey offer s set).hasChanges = true
  · obtain ⟨hreport, htexts⟩ := reconcile_of_changed hset hchange hpaths
    rw [hrun, Except.ok.injEq] at hreport
    have hfield : IsName r.service.field := by
      rw [hservice]
      exact Service.isName_field hname
    have hrequest : IsDeclarable (r.requestFor offer) := isDeclarable_make hfield hne hdotted _
    rw [SyncReport.isSuccess_iff] at hsuccess
    obtain ⟨text, set', htext, hextract, hversions⟩ :=
      exists_extract_of_settled hrequest (failure?_settled_eq_none hreport hsuccess)
    have hset' : r.declared (r.reconcile Memory.store (offering offer) false s).2.mended
        .terraform = .ok (some set') :=
      declared_eq_ok.2 ⟨text, (htexts .terraform).trans htext, rfl, hextract⟩
    have hcurrent : set'.versions = Version.sortAscending (Version.distinct offer.versions) :=
      hversions
    have hsame : (r.survey offer (r.reconcile Memory.store (offering offer) false s).2.mended
        set').hasChanges = false := by
      rw [hasChanges_survey, hcurrent]
      intro v
      rw [Version.mem_sortAscending, Version.mem_distinct]
    obtain ⟨hreport', hread⟩ := reconcile_of_unchanged hset' hsame
    exact ⟨_, hreport', hsame, fun _ => hcurrent, hread⟩
  · rw [Bool.not_eq_true] at hchange
    obtain ⟨hreport, hread⟩ := reconcile_of_unchanged hset hchange
    rw [hrun, Except.ok.injEq] at hreport
    obtain ⟨text, htext, -, hextract⟩ := declared_eq_ok.1 hset
    have hset' : r.declared (r.reconcile Memory.store (offering offer) false s).2.mended
        .terraform = .ok (some set) :=
      declared_eq_ok.2 ⟨text, (hread.text? _).trans htext, rfl, hextract⟩
    have hsame : (r.survey offer (r.reconcile Memory.store (offering offer) false s).2.mended
        set).hasChanges = false :=
      (hasChanges_survey r offer _ set).2 ((hasChanges_survey r offer s set).1 hchange)
    obtain ⟨hreport', hread'⟩ := reconcile_of_unchanged hset' hsame
    refine ⟨_, hreport', hsame, fun h => ?_, hread'⟩
    rw [hreport, hchange] at h
    cases h

/-- A repository of Redis with its artifacts at the usual places. -/
def redis : Repository := ⟨.named "redis", .standard⟩

/-- An offer with a repetition, whose preferred version is not the highest. -/
def redisOffer : Offer := ⟨["8", "7", "8"], "7"⟩

theorem hasDistinctPaths_redis : redis.HasDistinctPaths := by
  unfold HasDistinctPaths
  decide

theorem isDottedNumber_redisOffer :
    ∀ v ∈ redisOffer.versions, Text.isDottedNumber v.toList = true := by
  simp only [redisOffer, List.forall_mem_cons]
  exact ⟨by decide +kernel, by decide +kernel, by decide +kernel, by simp⟩

/-- A store with a catalog that cannot be read and a test that cannot be written. -/
def faultyStore : Memory where
  files := [("variables.tf", Artifact.redisList), ("ibm_catalog.json", "[]"),
    ("tests/pr_test.go", "const latestVersion = \"6\"\n")]
  readFaults := [("ibm_catalog.json", "busy")]
  writeFaults := [("tests/pr_test.go", "read-only")]
  events := []

/-- Two artifacts fail in the first run, and the second one still has nothing to do. -/
theorem reconcile_converges_faultyStore :
    ∃ report', (redis.reconcile Memory.store (offering redisOffer) false
        (redis.reconcile Memory.store (offering redisOffer) false faultyStore).2.mended).1 =
          .ok report' ∧
      report'.hasChanges = false ∧ report'.current = ["7", "8"] := by
  have hrun : (redis.reconcile Memory.store (offering redisOffer) false faultyStore).1 = .ok
      { service := .named "redis", current := ["6"], offer := redisOffer,
        change := ⟨["8", "7"], ["6"]⟩, dryRun := false, updated := ["variables.tf"], skipped := [],
        errors := [(.catalog, .error (.io (.fault "busy"))),
          (.testSource, .error (.io (.fault "read-only")))] } := by
    decide +kernel
  have hname : IsName "redis" := by decide
  obtain ⟨report', hreport', hsame, hcurrent, -⟩ := reconcile_converges hname rfl
    hasDistinctPaths_redis (by simp [redisOffer]) isDottedNumber_redisOffer hrun rfl
  refine ⟨report', hreport', hsame, (hcurrent rfl).trans ?_⟩
  decide

end Repository

end VersionAlignment
