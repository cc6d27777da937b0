import VersionAlignment.Proofs.Reconcile.Accounts
import VersionAlignment.Proofs.Reconcile.NoChange

/-!
# What a dry run says of the run itself

A dry run looks whether the artifacts are there and no further: no text is read and no updater runs.
So it lists every artifact that is there, also one that is up to date, that does not declare the
field or that cannot be updated at all. The run itself lists those that get a new text. What the dry
run promises is therefore an upper bound: the run updates nothing that was not listed, in the same
order, and it updates all that was listed if every artifact that is there gets a new text.

## Results

* `not_dryRun_exact`: the two lists may differ, though no operation of the store fails.
* `dryRun_foretells`: what the list of a dry run says, for a single update and a reconciliation.
-/

set_option autoImplicit false

namespace VersionAlignment

open Artifact (Kind)

theorem UpdateReport.updated_ofOutcomes {ks : List Kind} (path : Kind → String)
    (outcome : Kind → Outcome Unit) :
    (ofOutcomes (ks.map fun k => ⟨k, path k, outcome k⟩)).updated =
      (ks.filter fun k => (outcome k).result?.isSome).map path := by
  induction ks with
  | nil => rfl
  | cons k ks ih =>
    rw [ofOutcomes] at ih ⊢
    cases h : (outcome k).result? <;> simp_all

theorem Memory.OnlyRead.symm {s s' : Memory} (h : OnlyRead s s') : OnlyRead s' s :=
  ⟨h.files.symm, h.readFaults.symm, h.writeFaults.symm, h.writes.symm⟩

namespace Repository

open Memory (OnlyRead)

variable {r : Repository} {request : Request} {s s' : Memory} {k : Kind}

/-! ## The artifacts that a run updates -/

/-- An artifact counts as updated if it is rewritten, and in no other case. -/
theorem result?_settled_iff : (r.settled request s k).1.result?.isSome = true ↔
    ∃ text new, r.Rewrites request s k text new := by
  constructor
  · intro h
    rw [settled_changed_iff, settled] at h
    cases ht : s.text? (r.path k) with
    | none => simp [ht] at h
    | some text =>
      cases hf : s.readFaults.lookup (r.path k) with
      | some message => simp [ht, hf] at h
      | none =>
        cases hupdate : (r.format k).update text request with
        | error e => simp [ht, hf, hupdate] at h
        | ok new =>
          by_cases hnew : new = text
          · simp [ht, hf, hupdate, hnew] at h
          · cases hw : s.writeFaults.lookup (r.path k) with
            | some message => simp [ht, hf, hupdate, hnew, hw] at h
            | none => exact ⟨text, new, ht, hf, hupdate, hnew, hw⟩
  · rintro ⟨text, new, h⟩
    simp only [settled, h.present, h.readable, h.updated, h.changed, h.writable, if_false]
    rfl

/-- A dry run takes every artifact that is there for updated. -/
theorem result?_planned (r : Repository) (s : Memory) (k : Kind) :
    (r.planned s k).result?.isSome = (s.text? (r.path k)).isSome := by
  rw [planned]
  cases s.text? (r.path k) with
  | some text => rfl
  | none =>
    simp only [Option.isSome_none, Bool.false_eq_true, if_false, absent]
    split <;> rfl

theorem Rewrites.of_onlyRead {text new : String} (hread : OnlyRead s s')
    (h : r.Rewrites request s' k text new) : r.Rewrites request s k text new where
  present := (hread.text? _).symm.trans h.present
  readable := hread.readFaults ▸ h.readable
  updated := h.updated
  changed := h.changed
  writable := hread.writeFaults ▸ h.writable

/-! ## A plan and its execution -/

/-- The list `planned` of a dry run on the store `s` says this much of the list `done` of the run
itself. -/
structure Foretells (r : Repository) (request : Request) (s : Memory) (planned done : List String) :
    Prop where
  /-- What is planned is what is there, whatever it holds. -/
  planned_eq : planned =
    (Kind.all.filter fun k => (s.text? (r.path k)).isSome).map r.path
  /-- The run updates nothing that was not planned, and it keeps the order. -/
  sublist : done.Sublist planned
  /-- The run updates what gets a new text. -/
  mem_done : ∀ k, r.path k ∈ done ↔ ∃ text new, r.Rewrites request s k text new
  /-- The plan is exact if everything that is there gets a new text, and in no other case. -/
  exact_iff : planned = done ↔ ∀ k, (s.text? (r.path k)).isSome = true →
    ∃ text new, r.Rewrites request s k text new

theorem mem_map_path_iff (hpaths : r.HasDistinctPaths) (f : Kind → Bool) :
    r.path k ∈ (Kind.all.filter f).map r.path ↔ f k = true := by
  rw [List.mem_map]
  constructor
  · rintro ⟨l, hl, hpath⟩
    rw [← eq_of_path_eq hpaths hpath]
    exact (List.mem_filter.1 hl).2
  · exact fun h => ⟨k, List.mem_filter.2 ⟨Artifact.Kind.all_complete k, h⟩, rfl⟩

/-- A list of those that are there and a list of those that are rewritten are related as a plan and
its execution. -/
theorem foretells_filter (hpaths : r.HasDistinctPaths) {f : Kind → Bool}
    (hf : ∀ k, f k = true ↔ ∃ text new, r.Rewrites request s k text new) :
    r.Foretells request s ((Kind.all.filter fun k => (s.text? (r.path k)).isSome).map r.path)
      ((Kind.all.filter f).map r.path) := by
  have hthere : ∀ k, f k = true → (s.text? (r.path k)).isSome = true := by
    intro k hk
    obtain ⟨text, new, h⟩ := (hf k).1 hk
    rw [h.present]
    rfl
  refine ⟨rfl, (List.monotone_filter_right Kind.all hthere).map r.path,
    fun k => (mem_map_path_iff hpaths f).trans (hf k), fun hexact k hk => ?_, fun hall => ?_⟩
  · rwa [← hf k, ← mem_map_path_iff hpaths f, ← hexact, mem_map_path_iff hpaths]
  · refine congrArg (List.map r.path) (List.filter_congr fun k _ => ?_)
    rw [Bool.eq_iff_iff]
    exact ⟨fun hk => (hf k).2 (hall k hk), hthere k⟩

theorem applyUpdate_foretells (hpaths : r.HasDistinctPaths) (request : Request) (s : Memory) :
    r.Foretells request s (r.applyUpdate Memory.store request true s).1.updated
      (r.applyUpdate Memory.store request false s).1.updated := by
  rw [(applyUpdate_spec hpaths request true s).1, (applyUpdate_spec hpaths request false s).1,
    UpdateReport.updated_ofOutcomes, UpdateReport.updated_ofOutcomes]
  have hplan : ∀ k, (r.fate request true s k).1.result?.isSome = (s.text? (r.path k)).isSome :=
    fun k => result?_planned r s k
  simp only [hplan]
  exact foretells_filter hpaths fun k => result?_settled_iff

theorem Foretells.of_onlyRead {planned done : List String} (hread : OnlyRead s s')
    (h : r.Foretells request s' planned done) : r.Foretells request s planned done := by
  have hrewrites : ∀ k, (∃ text new, r.Rewrites request s' k text new) ↔
      ∃ text new, r.Rewrites request s k text new :=
    fun k => ⟨fun ⟨text, new, h⟩ => ⟨text, new, h.of_onlyRead hread⟩,
      fun ⟨text, new, h⟩ => ⟨text, new, h.of_onlyRead hread.symm⟩⟩
  obtain ⟨hplanned, hsub, hmem, hexact⟩ := h
  simp only [hread.text?, hrewrites] at hplanned hmem hexact
  exact ⟨hplanned, hsub, hmem, hexact⟩

/-! ## Reconciliations with the same answer -/

/-- What the dry run of a reconciliation says of the reconciliation itself. -/
inductive Predicts (r : Repository) (answer : Except SourceError Offer) (s : Memory) :
    Except SyncError SyncReport → Except SyncError SyncReport → Prop where
  /-- Both fail, and for the same reason. -/
  | failed (e : SyncError) : Predicts r answer s (.error e) (.error e)
  /-- Both find no change, and neither lists an artifact. -/
  | idle {planned done : SyncReport} (hchange : planned.change = done.change)
      (hidle : done.hasChanges = false) (hplanned : planned.updated = [])
      (hdone : done.updated = []) : Predicts r answer s (.ok planned) (.ok done)
  /-- Both find the same change, and the one list foretells the other. -/
  | changed {planned done : SyncReport} {offer : Offer} (h : answer = .ok offer)
      (hchange : planned.change = done.change) (hchanged : done.hasChanges = true)
      (hforetells : r.Foretells (r.requestFor offer) s planned.updated done.updated) :
      Predicts r answer s (.ok planned) (.ok done)

/-- The store when a reconciliation has read all artifacts, in either mode. -/
def readStore (r : Repository) (s : Memory) : Memory :=
  (r.extractKinds Memory.store optionalKinds (r.extractOne Memory.store .terraform s).2).2

theorem onlyRead_readStore (r : Repository) (s : Memory) : OnlyRead s (r.readStore s) :=
  (extractOne_spec r s .terraform).2.trans
    (extractKinds_spec r optionalKinds (r.extractOne Memory.store .terraform s).2).2

/-- What a reconciliation finds does not depend on its mode, and what it lists is what an update in
that mode lists. -/
theorem exists_report (offer : Offer) (dryRun : Bool) {set : VersionSet}
    (hset : r.declared s .terraform = .ok (some set)) :
    ∃ report, (r.reconcile Memory.store (answering (.ok offer)) dryRun s).1 = .ok report ∧
      report.change = .between set.versions offer.versions ∧
      report.updated = if report.hasChanges then
        (r.applyUpdate Memory.store (r.requestFor offer) dryRun (r.readStore s)).1.updated
      else [] := by
  rw [reconcile, run_bind, answering, run_pure, readStore]
  simp only [run_bind, (extractOne_spec r s .terraform).1, hset]
  -- what the reading found matters for no part of the report that is looked at
  generalize r.extractKinds Memory.store optionalKinds (r.extractOne Memory.store .terraform s).2 =
    read
  split
  · next hchange =>
    rw [run_bind, run_pure]
    exact ⟨_, rfl, rfl, (if_pos hchange).symm⟩
  · next hsame =>
    rw [run_pure]
    exact ⟨_, rfl, rfl, (if_neg hsame).symm⟩

theorem reconcile_predicts (hpaths : r.HasDistinctPaths) (answer : Except SourceError Offer)
    (s : Memory) : r.Predicts answer s (r.reconcile Memory.store (answering answer) true s).1
      (r.reconcile Memory.store (answering answer) false s).1 := by
  rcases answer with e | offer
  · exact .failed _
  · rcases hset : r.declared s .terraform with e | _ | set
    · rw [reconcile, reconcile, run_bind, run_bind, answering, run_pure]
      simp only [run_bind, (extractOne_spec r s .terraform).1, hset]
      exact .failed _
    · rw [reconcile, reconcile, run_bind, run_bind, answering, run_pure]
      simp only [run_bind, (extractOne_spec r s .terraform).1, hset]
      exact .failed _
    · obtain ⟨planned, hplanned, hchange, hlisted⟩ := exists_report offer true hset
      obtain ⟨done, hdone, hchange', hlisted'⟩ := exists_report offer false hset
      rw [hplanned, hdone]
      have hsame : planned.hasChanges = done.hasChanges := by
        rw [SyncReport.hasChanges, SyncReport.hasChanges, hchange, hchange']
      cases hfound : done.hasChanges with
      | true =>
        rw [hsame, hfound, if_pos rfl] at hlisted
        rw [hfound, if_pos rfl] at hlisted'
        have hforetells := (applyUpdate_foretells hpaths (r.requestFor offer)
          (r.readStore s)).of_onlyRead (onlyRead_readStore r s)
        rw [← hlisted, ← hlisted'] at hforetells
        exact .changed rfl (hchange.trans hchange'.symm) hfound hforetells
      | false =>
        rw [hsame, hfound] at hlisted
        rw [hfound] at hlisted'
        exact .idle (hchange.trans hchange'.symm) hfound hlisted hlisted'

/-! ## What a dry run does not say -/

/-- A store with an artifact of an old version, one without the field and one that is up to
date. -/
def mixedStore : Memory where
  files := [("variables.tf", Artifact.redisList), ("ibm_catalog.json", "\x7b\x7d"),
    ("tests/pr_test.go", "const latestVersion = \"7\"\n")]
  readFaults := []
  writeFaults := []
  events := []

/-- **A dry run may list artifacts that the run itself does not update**, though no operation of the
store fails: those that are up to date and those without the field. This holds for a single update
and for a reconciliation. -/
theorem not_dryRun_exact :
    (¬ ∀ (r : Repository) (request : Request) (s : Memory), r.HasDistinctPaths →
      s.readFaults = [] → s.writeFaults = [] →
      (r.applyUpdate Memory.store request true s).1.updated =
        (r.applyUpdate Memory.store request false s).1.updated) ∧
    ¬ ∀ (r : Repository) (answer : Except SourceError Offer) (s : Memory)
      (planned done : SyncReport), r.HasDistinctPaths → s.readFaults = [] → s.writeFaults = [] →
      (r.reconcile Memory.store (answering answer) true s).1 = .ok planned →
      (r.reconcile Memory.store (answering answer) false s).1 = .ok done →
      planned.updated = done.updated := by
  constructor
  · intro h
    have hsame := h redis (redis.requestFor ⟨["7"], "7"⟩) mixedStore hasDistinctPaths_redis rfl rfl
    exact absurd hsame (by decide +kernel)
  · intro h
    have hplanned : (redis.reconcile Memory.store (answering (.ok ⟨["7"], "7"⟩)) true mixedStore).1
        = .ok
      { service := .named "redis", current := ["6"], offer := ⟨["7"], "7"⟩,
        change := ⟨["7"], ["6"]⟩, dryRun := true,
        updated := ["variables.tf", "ibm_catalog.json", "tests/pr_test.go"], skipped := [],
        errors := [] } := by
      decide +kernel
    have hdone : (redis.reconcile Memory.store (answering (.ok ⟨["7"], "7"⟩)) false mixedStore).1
        = .ok
      { service := .named "redis", current := ["6"], offer := ⟨["7"], "7"⟩,
        change := ⟨["7"], ["6"]⟩, dryRun := false, updated := ["variables.tf"],
        skipped := [⟨"ibm_catalog.json", .noVersionField⟩,
          ⟨"tests/pr_test.go", .alreadyUpToDate⟩],
        errors := [] } := by
      decide +kernel
    have hsame := h redis _ mixedStore _ _ hasDistinctPaths_redis rfl rfl hplanned hdone
    exact absurd hsame (by decide)

/-- **A dry run foretells the run itself** as far as it can be told from which artifacts there are:
it lists those, and the run updates those of them that get a new text. A reconciliation with the
same answer of the source fails in both modes or finds the same change in both. -/
theorem dryRun_foretells (hpaths : r.HasDistinctPaths) (request : Request)
    (answer : Except SourceError Offer) (s : Memory) :
    r.Foretells request s (r.applyUpdate Memory.store request true s).1.updated
        (r.applyUpdate Memory.store request false s).1.updated ∧
      r.Predicts answer s (r.reconcile Memory.store (answering answer) true s).1
        (r.reconcile Memory.store (answering answer) false s).1 :=
  ⟨applyUpdate_foretells hpaths request s, reconcile_predicts hpaths answer s⟩

/-- The plan for the mixed store is an upper bound of what is done. -/
theorem dryRun_foretells_mixedStore :
    redis.HasDistinctPaths ∧
      ["variables.tf"].Sublist ["variables.tf", "ibm_catalog.json", "tests/pr_test.go"] ∧
      redis.Foretells (redis.requestFor ⟨["7"], "7"⟩) mixedStore
        (redis.applyUpdate Memory.store (redis.requestFor ⟨["7"], "7"⟩) true mixedStore).1.updated
        (redis.applyUpdate Memory.store (redis.requestFor ⟨["7"], "7"⟩) false mixedStore).1.updated
      :=
  ⟨hasDistinctPaths_redis, by decide,
    (dryRun_foretells hasDistinctPaths_redis _ (.ok ⟨["7"], "7"⟩) mixedStore).1⟩

end Repository

end VersionAlignment
