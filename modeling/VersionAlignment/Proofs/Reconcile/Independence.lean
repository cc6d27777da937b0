import VersionAlignment.Proofs.Reconcile.Agreement
import VersionAlignment.Proofs.Reconcile.Placement
import VersionAlignment.Proofs.Reconcile.Writes

/-!
# Artifacts fare independently of each other

What becomes of an artifact is told by the store at its own path: the text that is there, and
whether it can be read and written. Two stores that agree at that path give the artifact the same
entry in the report and the same text in the end, whatever they hold at the paths of the other
artifacts and whatever fails there. This needs the artifacts to be at different paths, for an
artifact that shares its path is updated on two turns.

## Results

* `about_ofOutcomes`: the part of a report about one artifact is the report on its outcome alone.
* `applyUpdate_spec`: an update of all artifacts, dry or not, told artifact by artifact.
* `artifacts_independent`: the same outcome for an artifact in stores that agree at its path.
-/

set_option autoImplicit false

namespace VersionAlignment

open Artifact (Kind)

variable {α β : Type} {k : Kind} {path : String}

/-! ## The part of a report about one artifact -/

/-- The part of a report about the artifact `k`, which lies at `path`. -/
def UpdateReport.about (u : UpdateReport) (k : Kind) (path : String) : UpdateReport where
  updated := u.updated.filter (· = path)
  skipped := u.skipped.filter (·.path = path)
  errors := u.errors.filter (·.1 = k)

/-- The part of a report about the artifact `k`, which lies at `path`. -/
def ExtractReport.about (x : ExtractReport) (k : Kind) (path : String) : ExtractReport where
  service := x.service
  declared := x.declared.filter (·.1 = k)
  skipped := x.skipped.filter (·.path = path)
  errors := x.errors.filter (·.1 = k)

theorem ExtractReport.get?_about (x : ExtractReport) (k : Kind) (path : String) :
    (x.about k path).get? k = x.get? k := by
  show (x.declared.filter (·.1 = k)).lookup k = x.declared.lookup k
  induction x.declared with
  | nil => rfl
  | cons e more ih =>
    obtain ⟨l, set⟩ := e
    by_cases h : l = k
    · simp [h]
    · rw [List.filter_cons_of_neg (by simpa using h), ih, List.lookup_cons,
        beq_eq_false_iff_ne.2 fun he => h he.symm]

namespace Entry

/-- The artifact of an entry is told by its path, and the entry with path `path` is about `k`. -/
def Tells (es : List (Entry α)) (k : Kind) (path : String) : Prop :=
  ∀ e ∈ es, e.path = path ↔ e.kind = k

/-- What is picked from entries and then chosen by a key of its own can as well be picked from the
entries about the artifact. -/
theorem filter_filterMap {es : List (Entry α)} (pick : Entry α → Option β) {chosen : β → Bool}
    (h : ∀ e ∈ es, ∀ b, pick e = some b → (chosen b = true ↔ e.kind = k)) :
    (es.filterMap pick).filter chosen = (es.filter (·.kind = k)).filterMap pick := by
  rw [List.filter_filterMap, List.filterMap_filter]
  refine List.filterMap_congr fun e he => ?_
  cases hb : pick e with
  | none => simp
  | some b =>
    by_cases hk : e.kind = k
    · simp [Option.filter, (h e he b hb).2 hk, hk]
    · have hnot : chosen b = false := by
        rw [← Bool.not_eq_true]
        exact fun hc => hk ((h e he b hb).1 hc)
      simp [Option.filter, hnot, hk]

variable {es : List (Entry α)}

theorem filter_skips (h : Tells es k path) :
    (skips es).filter (·.path = path) = skips (es.filter (·.kind = k)) := by
  refine filter_filterMap _ fun e he b hb => ?_
  obtain ⟨reason, -, rfl⟩ := Option.map_eq_some_iff.1 hb
  simpa using h e he

theorem filter_failures (es : List (Entry α)) (k : Kind) :
    (failures es).filter (·.1 = k) = failures (es.filter (·.kind = k)) := by
  refine filter_filterMap _ fun e _ b hb => ?_
  obtain ⟨failure, -, rfl⟩ := Option.map_eq_some_iff.1 hb
  simp

end Entry

/-- The part of an update report about one artifact is the report on its outcome alone. -/
theorem UpdateReport.about_ofOutcomes {es : List (Entry Unit)} (h : Entry.Tells es k path) :
    (ofOutcomes es).about k path = ofOutcomes (es.filter (·.kind = k)) := by
  have hupdated : (ofOutcomes es).updated.filter (· = path) =
      (ofOutcomes (es.filter (·.kind = k))).updated := by
    refine Entry.filter_filterMap _ fun e he b hb => ?_
    obtain ⟨result, -, rfl⟩ := Option.map_eq_some_iff.1 hb
    simpa using h e he
  rw [about, hupdated]
  simp only [ofOutcomes, Entry.filter_skips h, Entry.filter_failures]

/-- The part of an extract report about one artifact is the report on its outcome alone. -/
theorem ExtractReport.about_ofOutcomes (service : Service) {es : List (Entry VersionSet)}
    (h : Entry.Tells es k path) :
    (ofOutcomes service es).about k path = ofOutcomes service (es.filter (·.kind = k)) := by
  have hdeclared : (ofOutcomes service es).declared.filter (·.1 = k) =
      (ofOutcomes service (es.filter (·.kind = k))).declared := by
    refine Entry.filter_filterMap _ fun e he b hb => ?_
    obtain ⟨result, -, rfl⟩ := Option.map_eq_some_iff.1 hb
    simp
  rw [about, hdeclared]
  simp only [ofOutcomes, Entry.filter_skips h, Entry.filter_failures]

/-! ## Stores that agree at a path -/

/-- The two stores hold the same at the path, and reading and writing there go the same way. -/
structure Memory.AgreeAt (path : String) (s s' : Memory) : Prop where
  text? : s'.text? path = s.text? path
  readFault : s'.readFaults.lookup path = s.readFaults.lookup path
  writeFault : s'.writeFaults.lookup path = s.writeFaults.lookup path

namespace Repository

open Memory (AgreeAt)

variable {r : Repository} {s s' : Memory}

theorem found_of_agreeAt (h : AgreeAt (r.path k) s s') : r.found s' k = r.found s k := by
  rw [found, found, declared, declared, h.text?, h.readFault]

/-- What becomes of an artifact in an update, and the text that it has then. -/
def fate (r : Repository) (request : Request) (dryRun : Bool) (s : Memory) (k : Kind) :
    Outcome Unit × Option String :=
  if dryRun then (r.planned s k, s.text? (r.path k)) else r.settled request s k

theorem fate_of_agreeAt (request : Request) (dryRun : Bool) (h : AgreeAt (r.path k) s s') :
    r.fate request dryRun s' k = r.fate request dryRun s k := by
  rw [fate, fate, planned, planned, settled, settled, h.text?, h.readFault, h.writeFault]

/-- An update of all artifacts, told artifact by artifact. -/
theorem applyUpdate_spec (hpaths : r.HasDistinctPaths) (request : Request) (dryRun : Bool)
    (s : Memory) :
    (r.applyUpdate Memory.store request dryRun s).1 =
        .ofOutcomes (Kind.all.map fun k => ⟨k, r.path k, (r.fate request dryRun s k).1⟩) ∧
      ∀ k, (r.applyUpdate Memory.store request dryRun s).2.text? (r.path k) =
        (r.fate request dryRun s k).2 := by
  rw [applyUpdate, run_bind, run_pure]
  cases dryRun with
  | true =>
    rw [mapM_updateOutcome_dryRun]
    exact ⟨rfl, fun _ => rfl⟩
  | false =>
    obtain ⟨hentries, htexts, -⟩ := mapM_updateOutcome request s hpaths
    exact ⟨congrArg UpdateReport.ofOutcomes hentries,
      fun k => htexts k (Artifact.Kind.all_complete k)⟩

/-- The entries of artifacts at different paths. -/
theorem tells_of_hasDistinctPaths (hpaths : r.HasDistinctPaths) (outcome : Kind → Outcome α)
    (k : Kind) : Entry.Tells (Kind.all.map fun l => ⟨l, r.path l, outcome l⟩) k (r.path k) := by
  intro e he
  obtain ⟨l, -, rfl⟩ := List.mem_map.1 he
  exact ⟨fun h => eq_of_path_eq hpaths h, fun h => congrArg r.path h⟩

theorem filter_entries (outcome : Kind → Outcome α) (k : Kind) :
    (Kind.all.map fun l => (⟨l, r.path l, outcome l⟩ : Entry α)).filter (·.kind = k) =
      [⟨k, r.path k, outcome k⟩] := by
  cases k <;> rfl

/-- An artifact fares alike in two updates: the report has one entry about it, the same in both, and
its text in the end is the same. -/
structure FaresAlike (r : Repository) (k : Kind) (run run' : UpdateReport × Memory) : Prop where
  entry : ∃ outcome, run.1.about k (r.path k) = .ofOutcomes [⟨k, r.path k, outcome⟩] ∧
    run'.1.about k (r.path k) = .ofOutcomes [⟨k, r.path k, outcome⟩]
  text? : run'.2.text? (r.path k) = run.2.text? (r.path k)

/-- An artifact is read alike in two reports: each has one entry about it, the same in both, and it
has the same versions. -/
structure ReadsAlike (r : Repository) (k : Kind) (x x' : ExtractReport) : Prop where
  entry : ∃ outcome, x.about k (r.path k) = .ofOutcomes r.service [⟨k, r.path k, outcome⟩] ∧
    x'.about k (r.path k) = .ofOutcomes r.service [⟨k, r.path k, outcome⟩]
  get? : x'.get? k = x.get? k

/-- **Artifacts are independent of each other.** In two stores that agree at the path of an artifact
the artifact is updated alike, in a dry run as well, and it is read alike, whatever the stores hold
at the paths of the other artifacts and whatever fails there. -/
theorem artifacts_independent (hpaths : r.HasDistinctPaths) (request : Request) (dryRun : Bool)
    (h : AgreeAt (r.path k) s s') :
    r.FaresAlike k (r.applyUpdate Memory.store request dryRun s)
        (r.applyUpdate Memory.store request dryRun s') ∧
      r.ReadsAlike k (r.extractAll Memory.store s).1 (r.extractAll Memory.store s').1 := by
  have hupdate : ∀ t, AgreeAt (r.path k) s t →
      (r.applyUpdate Memory.store request dryRun t).1.about k (r.path k) =
        .ofOutcomes [⟨k, r.path k, (r.fate request dryRun s k).1⟩] := by
    intro t ht
    rw [(applyUpdate_spec hpaths request dryRun t).1,
      UpdateReport.about_ofOutcomes (tells_of_hasDistinctPaths hpaths _ k), filter_entries,
      fate_of_agreeAt request dryRun ht]
  have hread : ∀ t, AgreeAt (r.path k) s t →
      (r.extractAll Memory.store t).1.about k (r.path k) =
        .ofOutcomes r.service [⟨k, r.path k, r.found s k⟩] := by
    intro t ht
    rw [extractAll, (extractKinds_spec r Kind.all t).1,
      ExtractReport.about_ofOutcomes r.service (tells_of_hasDistinctPaths hpaths _ k),
      filter_entries, found_of_agreeAt ht]
  have hself : AgreeAt (r.path k) s s := ⟨rfl, rfl, rfl⟩
  refine ⟨⟨⟨_, hupdate s hself, hupdate s' h⟩, ?_⟩, ⟨⟨_, hread s hself, hread s' h⟩, ?_⟩⟩
  · rw [(applyUpdate_spec hpaths request dryRun s').2, (applyUpdate_spec hpaths request dryRun s).2,
      fate_of_agreeAt request dryRun h]
  · rw [← ExtractReport.get?_about _ k (r.path k), hread s' h, ← hread s hself,
      ExtractReport.get?_about]

/-- The primary artifact does not feel that the catalog cannot be read and the test not be
written. -/
theorem artifacts_independent_faultyStore :
    AgreeAt (redis.path .terraform) staleStore faultyStore ∧
      redis.FaresAlike .terraform
        (redis.applyUpdate Memory.store (redis.requestFor redisOffer) false staleStore)
        (redis.applyUpdate Memory.store (redis.requestFor redisOffer) false faultyStore) :=
  have hagree : AgreeAt (redis.path .terraform) staleStore faultyStore := ⟨rfl, rfl, rfl⟩
  ⟨hagree, (artifacts_independent hasDistinctPaths_redis (redis.requestFor redisOffer) false
    hagree).1⟩

end Repository

end VersionAlignment
