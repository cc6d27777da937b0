import VersionAlignment.Proofs.Reconcile.Independence

/-!
# What the reports on single commands account for

An update of all artifacts, and a reading of all of them, report on each artifact in one place and
once. Where that place is can be told from the store: an updated artifact is one whose text is
another one than before, an artifact counts as failed if it has to exist and does not, or if a step
of its update fails, and what is declared is what the format reads from the stored text.

The errors of an update do not mix with those of a reading here, as they do in a reconciliation, so
no artifact is excepted.

## Results

* `failure?_settled_iff`: when an artifact counts as failed.
* `reports_account`: what the two reports say of an artifact.
-/

set_option autoImplicit false

namespace VersionAlignment

open Artifact (Kind)

variable {k : Kind} {path : String}

/-- How many entries of the report are about the artifact `k`, which lies at `path`. -/
def UpdateReport.appearances (u : UpdateReport) (k : Kind) (path : String) : Nat :=
  (u.about k path).updated.length + (u.about k path).skipped.length
    + (u.about k path).errors.length

/-- How many entries of the report are about the artifact `k`, which lies at `path`. -/
def ExtractReport.appearances (x : ExtractReport) (k : Kind) (path : String) : Nat :=
  (x.about k path).declared.length + (x.about k path).skipped.length
    + (x.about k path).errors.length

/-! ## Reports whose part about an artifact is known -/

section
variable {u : UpdateReport} {x : ExtractReport} {service : Service} {outcome : Outcome Unit}
  {outcome' : Outcome VersionSet}

theorem UpdateReport.appearances_eq_one (h : u.about k path = .ofOutcomes [⟨k, path, outcome⟩]) :
    u.appearances k path = 1 := by
  rw [appearances, h]
  exact length_ofOutcomes [⟨k, path, outcome⟩]

theorem UpdateReport.mem_updated_iff (h : u.about k path = .ofOutcomes [⟨k, path, outcome⟩]) :
    path ∈ u.updated ↔ outcome.result?.isSome = true := by
  have hpart : path ∈ (u.about k path).updated ↔ path ∈ u.updated := by simp [about]
  rw [← hpart, h]
  cases outcome <;> simp [ofOutcomes]

theorem UpdateReport.mem_errors_iff (h : u.about k path = .ofOutcomes [⟨k, path, outcome⟩]) :
    k ∈ u.errors.map Prod.fst ↔ outcome.failure?.isSome = true := by
  have hpart : k ∈ (u.about k path).errors.map Prod.fst ↔ k ∈ u.errors.map Prod.fst := by
    simp [about]
  rw [← hpart, h]
  cases outcome <;> simp [ofOutcomes, Entry.failures]

theorem ExtractReport.appearances_eq_one
    (h : x.about k path = .ofOutcomes service [⟨k, path, outcome'⟩]) :
    x.appearances k path = 1 := by
  rw [appearances, h]
  cases outcome' <;> rfl

theorem ExtractReport.get?_eq (h : x.about k path = .ofOutcomes service [⟨k, path, outcome'⟩]) :
    x.get? k = outcome'.result? := by
  rw [← get?_about x k path, h]
  cases outcome' <;> simp [ofOutcomes, get?]

end

namespace Repository

variable {r : Repository} {request : Request} {s s' : Memory}

/-! ## The outcomes, told from the store -/

/-- The artifact has to exist, and it is not there. -/
def IsMissing (r : Repository) (s : Memory) (k : Kind) : Prop :=
  k.isPrimary = true ∧ s.text? (r.path k) = none

/-- **An artifact counts as failed** if it is missing or a step of its update fails, and in no other
case. -/
theorem failure?_settled_iff : (r.settled request s k).1.failure?.isSome = true ↔
    r.IsMissing s k ∨ r.UpdateFails request s k := by
  by_cases hmissing : r.IsMissing s k
  · have hsettled : (r.settled request s k).1 = r.absent k := by
      rw [settled, hmissing.2]
    rw [hsettled, outcomeOf_notFound]
    exact ⟨fun _ => .inl hmissing, fun _ => hmissing.1⟩
  · rw [failure?_settled_isSome_iff fun hprimary hnone => hmissing ⟨hprimary, hnone⟩]
    exact ⟨.inr, fun h => h.resolve_left hmissing⟩

/-- What a reading finds is what the format reads from the stored text. -/
theorem result?_found_iff {set : VersionSet} : (r.found s k).result? = some set ↔
    ∃ text, s.text? (r.path k) = some text ∧ s.readFaults.lookup (r.path k) = none ∧
      (r.format k).extract text r.service.field = .ok set := by
  rw [← declared_eq_ok, found]
  rcases hdeclared : r.declared s k with e | _ | set'
  · have hnone : (refused k e : Outcome VersionSet).result? = none := by
      rw [refused]
      split <;> rfl
    simp [hnone]
  · have hnone : (r.absent k : Outcome VersionSet).result? = none := by
      rw [absent]
      split <;> rfl
    simp [hnone]
  · simp

/-! ## Accounts of an artifact -/

/-- The report on an update from the store `s` to the store `s'` accounts for an artifact. -/
structure Accounts (r : Repository) (request : Request) (s s' : Memory) (u : UpdateReport)
    (k : Kind) : Prop where
  once : u.appearances k (r.path k) = 1
  updated : r.path k ∈ u.updated ↔ s'.text? (r.path k) ≠ s.text? (r.path k)
  failed : k ∈ u.errors.map Prod.fst ↔ r.IsMissing s k ∨ r.UpdateFails request s k

/-- The report on a reading of the store accounts for an artifact. -/
structure AccountsRead (r : Repository) (s : Memory) (x : ExtractReport) (k : Kind) : Prop where
  once : x.appearances k (r.path k) = 1
  declared : ∀ set, x.get? k = some set ↔
    ∃ text, s.text? (r.path k) = some text ∧ s.readFaults.lookup (r.path k) = none ∧
      (r.format k).extract text r.service.field = .ok set

theorem about_applyUpdate (hpaths : r.HasDistinctPaths) (request : Request) (dryRun : Bool)
    (s : Memory) (k : Kind) :
    (r.applyUpdate Memory.store request dryRun s).1.about k (r.path k) =
      .ofOutcomes [⟨k, r.path k, (r.fate request dryRun s k).1⟩] := by
  rw [(applyUpdate_spec hpaths request dryRun s).1,
    UpdateReport.about_ofOutcomes (tells_of_hasDistinctPaths hpaths _ k), filter_entries]

theorem about_extractAll (hpaths : r.HasDistinctPaths) (s : Memory) (k : Kind) :
    (r.extractAll Memory.store s).1.about k (r.path k) =
      .ofOutcomes r.service [⟨k, r.path k, r.found s k⟩] := by
  rw [extractAll, (extractKinds_spec r Kind.all s).1,
    ExtractReport.about_ofOutcomes r.service (tells_of_hasDistinctPaths hpaths _ k),
    filter_entries]

/-- **The reports account for every artifact**, whatever fails: each artifact is listed once, as
updated if its text is another one than before, as an error if it is missing or a step of its update
fails; and what a reading reports as declared is what is read from the stored text. -/
theorem reports_account (hpaths : r.HasDistinctPaths) (request : Request) (s : Memory) (k : Kind) :
    r.Accounts request s (r.applyUpdate Memory.store request false s).2
        (r.applyUpdate Memory.store request false s).1 k ∧
      r.AccountsRead s (r.extractAll Memory.store s).1 k := by
  have hupdate := about_applyUpdate hpaths request false s k
  have hread := about_extractAll hpaths s k
  have hfate : r.fate request false s k = r.settled request s k := rfl
  rw [hfate] at hupdate
  refine ⟨⟨UpdateReport.appearances_eq_one hupdate, ?_, ?_⟩,
    ⟨ExtractReport.appearances_eq_one hread, fun set => ?_⟩⟩
  · rw [UpdateReport.mem_updated_iff hupdate, (applyUpdate_spec hpaths request false s).2, hfate,
      settled_changed_iff]
  · rw [UpdateReport.mem_errors_iff hupdate, failure?_settled_iff]
  · rw [ExtractReport.get?_eq hread, result?_found_iff]

/-- The test that cannot be written is accounted for as an error. -/
theorem reports_account_faultyStore :
    redis.HasDistinctPaths ∧
      redis.Accounts (redis.requestFor redisOffer) faultyStore
        (redis.applyUpdate Memory.store (redis.requestFor redisOffer) false faultyStore).2
        (redis.applyUpdate Memory.store (redis.requestFor redisOffer) false faultyStore).1
        .testSource :=
  ⟨hasDistinctPaths_redis,
    (reports_account hasDistinctPaths_redis (redis.requestFor redisOffer) faultyStore
      .testSource).1⟩

end Repository

end VersionAlignment
