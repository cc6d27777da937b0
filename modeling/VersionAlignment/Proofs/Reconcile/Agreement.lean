import VersionAlignment.Proofs.Catalog.Declaration
import VersionAlignment.Proofs.GoTest.Replacement
import VersionAlignment.Proofs.Reconcile.Convergence

/-!
# Agreement

After a reconciliation that had something to change and reported no error, no artifact declares
anything but what was offered. An optional artifact that was passed over declares nothing, for what
an update misses is missed by reading too.

## Results

* `Artifact.Format.extract_of_update_fieldNotFound`: an update that misses the field, in any format.
* `exists_update_of_settled`: what declares something after an update was updated.
* `reconcile_agrees`: the artifacts after a reconciliation without an error.
-/

set_option autoImplicit false

namespace VersionAlignment

open Artifact (Kind)
open Artifact.Terraform (IsDeclarable isDeclarable_make)
open Text (IsName isDottedNumber ne_empty_of_isDottedNumber)

/-- In every format, a text in which an update misses the field cannot be read. -/
theorem Artifact.Format.extract_of_update_fieldNotFound {format : Format} {text field : String}
    {request : Request} (h : format.update text request = .error (.fieldNotFound field)) :
    ∃ e, format.extract text request.field = .error e := by
  cases format with
  | terraform =>
    have hupdate : Terraform.update text.toList request = .error (.fieldNotFound field) :=
      map_ofList_eq_error.1 h
    cases hextract : Terraform.extract text.toList request.field with
    | error e => exact ⟨e, hextract⟩
    | ok set =>
      obtain ⟨out, hout⟩ := Terraform.exists_update_of_extract hextract
      rw [hout] at hupdate
      cases hupdate
  | catalog => exact ⟨_, Catalog.update_fieldNotFound_iff.1 (map_ofList_eq_error.1 h)⟩
  | goTest constant =>
    exact ⟨_, GoTest.extract_of_update_fieldNotFound (map_ofList_eq_error.1 h)⟩

theorem Service.field_named_ne_empty (name : String) : (Service.named name).field ≠ "" := by
  rw [Service.named]
  split
  · exact (by decide : "edb_version" ≠ "")
  · simp [String.append_eq_empty_iff]

namespace Repository

open Memory

variable {r : Repository} {request : Request} {offer : Offer} {s : Memory} {k : Kind}

/-- An artifact that declares something after an update that did not fail was updated. -/
theorem exists_update_of_settled {text : String} {set : VersionSet}
    (h : (r.settled request s k).1.failure? = none) (htext : (r.settled request s k).2 = some text)
    (hset : (r.format k).extract text request.field = .ok set) :
    ∃ old, (r.format k).update old request = .ok text := by
  rcases settled_cases h with ⟨-, hnone, -⟩ |
    ⟨old, -, ⟨field, hmissed, hold, -⟩ | ⟨out, hout, hnew⟩⟩
  · rw [hnone] at htext
    cases htext
  · rw [hold] at htext
    cases htext
    obtain ⟨e, he⟩ := Artifact.Format.extract_of_update_fieldNotFound hmissed
    rw [he] at hset
    cases hset
  · rw [hnew] at htext
    cases htext
    exact ⟨old, hout⟩

/-- What the artifacts in a store declare is what was offered. -/
structure Agrees (r : Repository) (offer : Offer) (s : Memory) : Prop where
  /-- The primary artifact declares the offered versions. -/
  terraform : ∃ text set, s.text? (r.path .terraform) = some text ∧
    (r.format .terraform).extract text r.service.field = .ok set ∧
    set.versions = Version.sortAscending (Version.distinct offer.versions)
  /-- A catalog declares the offered versions if its item has an array of options, and the
  preferred one alone if it has none. -/
  catalog : ∀ text set, s.text? (r.path .catalog) = some text →
    (r.format .catalog).extract text r.service.field = .ok set →
    ∃ document item, Artifact.Catalog.parse text.toList = .ok document ∧
      Artifact.Catalog.item? r.service.field document = some item ∧
      set.versions = if Artifact.Catalog.hasOptions item
        then Version.sortAscending (Version.distinct offer.versions) else [offer.preferred]
  /-- A test declares the preferred version. -/
  testSource : ∀ text set, s.text? (r.path .testSource) = some text →
    (r.format .testSource).extract text r.service.field = .ok set →
    set = .single offer.preferred

theorem latest_requestFor (r : Repository) (h : offer.preferred ≠ "") :
    (r.requestFor offer).latest = offer.preferred := by
  simp [requestFor, Request.make, Option.filter, h]

/-- The artifacts agree once all of them have been updated without a failure. -/
theorem agrees_of_settled {s' : Memory} (hrequest : IsDeclarable (r.requestFor offer))
    (hfield : r.service.field ≠ "") (hconstant : IsName r.settings.testConstant)
    (hnonempty : r.settings.testConstant ≠ "")
    (hpreferred : isDottedNumber offer.preferred.toList = true)
    (hsettled : ∀ k, (r.settled (r.requestFor offer) s k).1.failure? = none)
    (htexts : ∀ k, s'.text? (r.path k) = (r.settled (r.requestFor offer) s k).2) :
    r.Agrees offer s' := by
  have hne := ne_empty_of_isDottedNumber hpreferred
  have hlatest := latest_requestFor r hne
  refine ⟨?_, ?_, ?_⟩
  · obtain ⟨text, set, htext, hset, hversions⟩ :=
      exists_extract_of_settled hrequest (hsettled .terraform)
    exact ⟨text, set, (htexts .terraform).trans htext, hset, hversions⟩
  · intro text set htext hset
    obtain ⟨old, hold⟩ :=
      exists_update_of_settled (hsettled .catalog) ((htexts .catalog).symm.trans htext) hset
    rw [← hlatest] at hne
    obtain ⟨document, item, hparse, hitem, hversions⟩ :=
      Artifact.Catalog.exists_item_of_update hrequest.versions_ne_nil hne
        (Artifact.Format.map_ofList_eq_ok.1 hold) hset
    rw [Artifact.Catalog.requested, hlatest] at hversions
    exact ⟨document, item, hparse, hitem, hversions⟩
  · intro text set htext hset
    obtain ⟨old, hold⟩ :=
      exists_update_of_settled (hsettled .testSource) ((htexts .testSource).symm.trans htext) hset
    rw [← hlatest] at hpreferred ⊢
    exact Artifact.GoTest.extract_of_update ⟨hconstant, hnonempty⟩ ⟨hrequest.field, hfield⟩
      hpreferred (Artifact.Format.map_ofList_eq_ok.1 hold) hset

/-- **The artifacts agree after a reconciliation** that had something to change and reported no
error. -/
theorem reconcile_agrees {name : String} {report : SyncReport} (hname : IsName name)
    (hservice : r.service = .named name) (hconstant : IsName r.settings.testConstant)
    (hnonempty : r.settings.testConstant ≠ "") (hpaths : r.HasDistinctPaths)
    (hne : offer.versions ≠ []) (hdotted : ∀ v ∈ offer.versions, isDottedNumber v.toList = true)
    (hpreferred : isDottedNumber offer.preferred.toList = true)
    (hrun : (r.reconcile Memory.store (offering offer) false s).1 = .ok report)
    (hchange : report.hasChanges = true) (herrors : report.errors = []) :
    r.Agrees offer (r.reconcile Memory.store (offering offer) false s).2 := by
  obtain ⟨declared, hdeclared⟩ := exists_declared_of_reconcile hrun
  rw [hasChanges_of_reconcile hdeclared hrun] at hchange
  obtain ⟨hreport, htexts⟩ := reconcile_of_changed hdeclared hchange hpaths
  rw [hrun, Except.ok.injEq] at hreport
  have hsettled : ∀ k, (r.settled (r.requestFor offer) s k).1.failure? = none := by
    intro k
    refine failure?_settled_eq_none hreport ?_
    rw [herrors]
    exact List.not_mem_nil
  have hfield : IsName r.service.field ∧ r.service.field ≠ "" := by
    rw [hservice]
    exact ⟨Service.isName_field hname, Service.field_named_ne_empty name⟩
  exact agrees_of_settled (isDeclarable_make hfield.1 hne hdotted _) hfield.2 hconstant hnonempty
    hpreferred hsettled htexts

/-- A store in which all three artifacts declare an old version. -/
def staleStore : Memory where
  files := [("variables.tf", Artifact.redisList),
    ("ibm_catalog.json",
      "\x7b\"products\": [\x7b\"flavors\": [\x7b\"configuration\": [\x7b\n" ++
      "\"key\": \"redis_version\",\n\"default_value\": \"6\",\n" ++
      "\"options\": [\x7b\"displayname\": \"6\", \"value\": \"6\"\x7d]\n\x7d]\x7d]\x7d]\x7d\n"),
    ("tests/pr_test.go", "const latestVersion = \"6\"\n")]
  readFaults := []
  writeFaults := []
  events := []

/-- All three artifacts are updated, and agree. -/
theorem reconcile_agrees_staleStore :
    ∃ report, (redis.reconcile Memory.store (offering redisOffer) false staleStore).1 = .ok report ∧
      report.updated = ["variables.tf", "ibm_catalog.json", "tests/pr_test.go"] ∧
      redis.Agrees redisOffer
        (redis.reconcile Memory.store (offering redisOffer) false staleStore).2 := by
  have hrun : (redis.reconcile Memory.store (offering redisOffer) false staleStore).1 = .ok
      { service := .named "redis", current := ["6"], offer := redisOffer,
        change := ⟨["8", "7"], ["6"]⟩, dryRun := false,
        updated := ["variables.tf", "ibm_catalog.json", "tests/pr_test.go"], skipped := [],
        errors := [] } := by
    decide +kernel
  have hname : IsName "redis" := by decide
  have hconstant : IsName redis.settings.testConstant := by decide
  have hpreferred : isDottedNumber redisOffer.preferred.toList = true := by decide +kernel
  exact ⟨_, hrun, rfl, reconcile_agrees hname rfl hconstant (by decide)
    hasDistinctPaths_redis (by simp [redisOffer]) isDottedNumber_redisOffer hpreferred hrun rfl rfl⟩

end Repository

end VersionAlignment
