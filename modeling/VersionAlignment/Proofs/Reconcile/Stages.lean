import VersionAlignment.Reconcile
import VersionAlignment.Store.Memory

/-!
# The stages of a reconciliation on a store in memory

Reading leaves a store as it was but for the record of what was read, so what the artifacts declare
can be told from the store before the run. An update touches the text of its own artifact and none
other; with artifacts at different places the outcome for each of them and the text it ends up with
are those of an update of that artifact alone.

## Results

* `extractKinds_spec`: the reading stage, told from the store.
* `mapM_updateOutcome`: the updating stage, told artifact by artifact.
* `reconcile_of_unchanged`, `reconcile_of_changed`: what a reconciliation reports and leaves behind.
* `settled_cases`: what an update that did not fail has done to an artifact.
-/

set_option autoImplicit false

namespace VersionAlignment

open Artifact (Kind)

/-! ## Runs on a store -/

theorem run_bind {σ α β : Type} (x : StateM σ α) (f : α → StateM σ β) (s : σ) :
    (x >>= f) s = f (x s).1 (x s).2 := rfl

theorem run_pure {σ α : Type} (a : α) (s : σ) : (pure a : StateM σ α) s = (a, s) := rfl

namespace Memory

theorem run_isFile (path : String) (s : Memory) :
    store.isFile path s = ((s.text? path).isSome, s) := rfl

theorem run_readText (path : String) (s : Memory) : store.readText path s = read path s := rfl

theorem run_writeText (path text : String) (s : Memory) :
    store.writeText path text s = write path text s := rfl

/-- What has been written, first to last. -/
def writes (s : Memory) : List (String × String) :=
  s.events.filterMap fun
    | .read _ => none
    | .write path text => some (path, text)

/-- Nothing but reading happened between the two stores. -/
structure OnlyRead (s s' : Memory) : Prop where
  files : s'.files = s.files
  readFaults : s'.readFaults = s.readFaults
  writeFaults : s'.writeFaults = s.writeFaults
  writes : s'.writes = s.writes

/-- Between the two stores no text has changed but the one at the given path. -/
structure OnlyChanged (path : String) (s s' : Memory) : Prop where
  text? : ∀ other, other ≠ path → s'.text? other = s.text? other
  readFaults : s'.readFaults = s.readFaults
  writeFaults : s'.writeFaults = s.writeFaults

variable {s s' s'' : Memory} {path : String}

theorem OnlyRead.refl (s : Memory) : OnlyRead s s := ⟨rfl, rfl, rfl, rfl⟩

theorem OnlyRead.trans (h : OnlyRead s s') (h' : OnlyRead s' s'') : OnlyRead s s'' :=
  ⟨h'.files.trans h.files, h'.readFaults.trans h.readFaults, h'.writeFaults.trans h.writeFaults,
    h'.writes.trans h.writes⟩

theorem OnlyRead.text? (h : OnlyRead s s') (path : String) : s'.text? path = s.text? path := by
  rw [Memory.text?, Memory.text?, h.files]

theorem OnlyRead.onlyChanged (h : OnlyRead s s') (path : String) : OnlyChanged path s s' :=
  ⟨fun other _ => h.text? other, h.readFaults, h.writeFaults⟩

theorem onlyRead_record (s : Memory) (path : String) : OnlyRead s (s.record (.read path)) :=
  ⟨rfl, rfl, rfl, by simp [writes, record]⟩

theorem onlyRead_read (s : Memory) (path : String) : OnlyRead s (read path s).2 :=
  onlyRead_record s path

theorem OnlyChanged.trans (h : OnlyChanged path s s') (h' : OnlyChanged path s' s'') :
    OnlyChanged path s s'' :=
  ⟨fun other ho => (h'.text? other ho).trans (h.text? other ho), h'.readFaults.trans h.readFaults,
    h'.writeFaults.trans h.writeFaults⟩

theorem onlyChanged_put (s : Memory) (path text : String) (e : StoreEvent) :
    OnlyChanged path s ((s.put path text).record e) :=
  ⟨fun _ ho => text?_put_of_ne text ho, rfl, rfl⟩

end Memory

namespace Repository

open Memory

variable {r : Repository} {request : Request} {s s' : Memory} {k : Kind}

/-! ## Reading -/

/-- What an artifact in the store declares; none if it is not there. -/
def declared (r : Repository) (s : Memory) (k : Kind) :
    Except Artifact.Error (Option VersionSet) :=
  match s.text? (r.path k) with
  | none => .ok none
  | some text =>
    match s.readFaults.lookup (r.path k) with
    | some message => .error (.io (.fault message))
    | none => ((r.format k).extract text r.service.field).map some

/-- The outcome of reading an artifact in the store. -/
def found (r : Repository) (s : Memory) (k : Kind) : Outcome VersionSet :=
  match r.declared s k with
  | .ok (some set) => .done set
  | .ok none => r.absent k
  | .error e => refused k e

theorem declared_of_onlyRead (h : OnlyRead s s') (k : Kind) : r.declared s' k = r.declared s k := by
  rw [Repository.declared, Repository.declared, h.text?, h.readFaults]

theorem found_of_onlyRead (h : OnlyRead s s') (k : Kind) : r.found s' k = r.found s k := by
  rw [Repository.found, Repository.found, declared_of_onlyRead h]

theorem extractOne_spec (r : Repository) (s : Memory) (k : Kind) :
    (r.extractOne Memory.store k s).1 = r.declared s k ∧
      OnlyRead s (r.extractOne Memory.store k s).2 := by
  rw [extractOne, run_bind, run_isFile, Repository.declared]
  cases ht : s.text? (r.path k) with
  | none => exact ⟨rfl, OnlyRead.refl s⟩
  | some text =>
    simp only [Option.isSome_some, if_true, run_bind, run_readText]
    have hread := onlyRead_read s (r.path k)
    cases hf : s.readFaults.lookup (r.path k) with
    | some message =>
      have hanswer : (Memory.read (r.path k) s).1 = .error (.fault message) := by
        simp [Memory.read, hf]
      rw [hanswer]
      exact ⟨rfl, hread⟩
    | none =>
      have hanswer : (Memory.read (r.path k) s).1 = .ok text := by simp [Memory.read, hf, ht]
      rw [hanswer]
      exact ⟨rfl, hread⟩

theorem extractOutcome_spec (r : Repository) (s : Memory) (k : Kind) :
    (r.extractOutcome Memory.store k s).1 = ⟨k, r.path k, r.found s k⟩ ∧
      OnlyRead s (r.extractOutcome Memory.store k s).2 := by
  obtain ⟨hdeclared, hread⟩ := extractOne_spec r s k
  rw [extractOutcome, run_bind, hdeclared, Repository.found]
  rcases r.declared s k with e | _ | set <;> exact ⟨rfl, hread⟩

theorem mapM_extractOutcome (r : Repository) (ks : List Kind) (s : Memory) :
    (ks.mapM (r.extractOutcome Memory.store) s).1 = ks.map (fun k => ⟨k, r.path k, r.found s k⟩) ∧
      OnlyRead s (ks.mapM (r.extractOutcome Memory.store) s).2 := by
  induction ks generalizing s with
  | nil => exact ⟨rfl, OnlyRead.refl s⟩
  | cons k ks ih =>
    obtain ⟨hentry, hread⟩ := extractOutcome_spec r s k
    obtain ⟨hentries, hreads⟩ := ih (r.extractOutcome Memory.store k s).2
    rw [List.mapM_cons, run_bind, run_bind, run_pure, hentry, hentries]
    refine ⟨?_, hread.trans hreads⟩
    simp only [List.map_cons, found_of_onlyRead hread]

/-- The reading stage, told from the store. -/
theorem extractKinds_spec (r : Repository) (ks : List Kind) (s : Memory) :
    (r.extractKinds Memory.store ks s).1 =
        .ofOutcomes r.service (ks.map fun k => ⟨k, r.path k, r.found s k⟩) ∧
      OnlyRead s (r.extractKinds Memory.store ks s).2 := by
  obtain ⟨hentries, hreads⟩ := mapM_extractOutcome r ks s
  rw [extractKinds, run_bind, run_pure, hentries]
  exact ⟨rfl, hreads⟩

/-! ## Updating -/

/-- What becomes of an artifact that is updated alone, and the text that it has then. -/
def settled (r : Repository) (request : Request) (s : Memory) (k : Kind) :
    Outcome Unit × Option String :=
  match s.text? (r.path k) with
  | none => (r.absent k, none)
  | some text =>
    match s.readFaults.lookup (r.path k) with
    | some message => (refused k (.io (.fault message)), some text)
    | none =>
      match (r.format k).update text request with
      | .error e => (refused k e, some text)
      | .ok new =>
        if new = text then (.skipped .alreadyUpToDate, some text)
        else
          match s.writeFaults.lookup (r.path k) with
          | some message => (refused k (.io (.fault message)), some text)
          | none => (.done (), some new)

/-- An update of one artifact that is there. -/
theorem updateOne_spec {text : String} (request : Request) (ht : s.text? (r.path k) = some text) :
    (match (r.updateOne Memory.store request k s).1 with
      | .ok true => .done ()
      | .ok false => .skipped .alreadyUpToDate
      | .error e => refused k e) = (r.settled request s k).1 ∧
      (r.updateOne Memory.store request k s).2.text? (r.path k) = (r.settled request s k).2 ∧
      OnlyChanged (r.path k) s (r.updateOne Memory.store request k s).2 := by
  have hread := (onlyRead_read s (r.path k)).onlyChanged (r.path k)
  rw [updateOne, run_bind, run_readText, settled, ht]
  cases hf : s.readFaults.lookup (r.path k) with
  | some message =>
    have hanswer : (Memory.read (r.path k) s).1 = .error (.fault message) := by
      simp [Memory.read, hf]
    rw [hanswer]
    exact ⟨rfl, ht, hread⟩
  | none =>
    have hanswer : (Memory.read (r.path k) s).1 = .ok text := by simp [Memory.read, hf, ht]
    rw [hanswer]
    simp only
    cases (r.format k).update text request with
    | error e => exact ⟨rfl, ht, hread⟩
    | ok new =>
      by_cases hnew : new = text
      · simp only [hnew, if_true]
        exact ⟨rfl, ht, hread⟩
      · simp only [hnew, if_false, run_bind, run_writeText]
        cases hw : s.writeFaults.lookup (r.path k) with
        | some message =>
          have hwrite : Memory.write (r.path k) new (Memory.read (r.path k) s).2 =
              (.error (.fault message), (Memory.read (r.path k) s).2) := by
            have : (Memory.read (r.path k) s).2.writeFaults.lookup (r.path k) = some message := hw
            rw [Memory.write, this]
          rw [hwrite]
          exact ⟨rfl, ht, hread⟩
        | none =>
          have hwrite : Memory.write (r.path k) new (Memory.read (r.path k) s).2 =
              (.ok (), ((Memory.read (r.path k) s).2.put (r.path k) new).record
                (.write (r.path k) new)) := by
            have : (Memory.read (r.path k) s).2.writeFaults.lookup (r.path k) = none := hw
            rw [Memory.write, this]
          rw [hwrite]
          exact ⟨rfl, text?_put _ (r.path k) new, hread.trans (onlyChanged_put _ _ _ _)⟩

/-- What becomes of an artifact in an update. -/
theorem updateOutcome_spec (r : Repository) (request : Request) (s : Memory) (k : Kind) :
    (r.updateOutcome Memory.store request false k s).1 =
        ⟨k, r.path k, (r.settled request s k).1⟩ ∧
      (r.updateOutcome Memory.store request false k s).2.text? (r.path k) =
        (r.settled request s k).2 ∧
      OnlyChanged (r.path k) s (r.updateOutcome Memory.store request false k s).2 := by
  rw [updateOutcome, run_bind, run_isFile]
  cases ht : s.text? (r.path k) with
  | none =>
    rw [settled, ht]
    exact ⟨rfl, ht, (OnlyRead.refl s).onlyChanged _⟩
  | some text =>
    obtain ⟨houtcome, htext, hchanged⟩ := updateOne_spec request ht
    simp only [Option.isSome_some, if_true, Bool.false_eq_true, if_false, run_bind]
    rw [← houtcome]
    cases h : (r.updateOne Memory.store request k s).1 with
    | error e => exact ⟨rfl, htext, hchanged⟩
    | ok changed => cases changed <;> exact ⟨rfl, htext, hchanged⟩

/-- An update of one artifact is not affected by changes at another place. -/
theorem settled_of_onlyChanged {path : String} (request : Request) (h : OnlyChanged path s s')
    (hk : r.path k ≠ path) : r.settled request s' k = r.settled request s k := by
  rw [settled, settled, h.text? _ hk, h.readFaults, h.writeFaults]

/-- The updating stage, told artifact by artifact: with artifacts at different places each of them
fares as if it were updated alone. -/
theorem mapM_updateOutcome {ks : List Kind} (request : Request) (s : Memory)
    (hpaths : ks.Pairwise fun k l => r.path k ≠ r.path l) :
    (ks.mapM (r.updateOutcome Memory.store request false) s).1 =
        ks.map (fun k => ⟨k, r.path k, (r.settled request s k).1⟩) ∧
      (∀ k ∈ ks, (ks.mapM (r.updateOutcome Memory.store request false) s).2.text? (r.path k) =
        (r.settled request s k).2) ∧
      ∀ path, (∀ k ∈ ks, r.path k ≠ path) →
        (ks.mapM (r.updateOutcome Memory.store request false) s).2.text? path = s.text? path := by
  induction ks generalizing s with
  | nil => exact ⟨rfl, by simp, fun _ _ => rfl⟩
  | cons k ks ih =>
    rw [List.pairwise_cons] at hpaths
    obtain ⟨hentry, htext, hchanged⟩ := updateOutcome_spec r request s k
    obtain ⟨hentries, htexts, hothers⟩ :=
      ih (r.updateOutcome Memory.store request false k s).2 hpaths.2
    have hsettled : ∀ l ∈ ks,
        r.settled request (r.updateOutcome Memory.store request false k s).2 l =
          r.settled request s l :=
      fun l hl => settled_of_onlyChanged request hchanged (hpaths.1 l hl).symm
    rw [List.mapM_cons, run_bind, run_bind, run_pure, hentry, hentries]
    refine ⟨?_, ?_, ?_⟩
    · rw [List.map_cons, List.map_congr_left fun l hl => by rw [hsettled l hl]]
    · intro l hl
      rcases List.mem_cons.1 hl with rfl | hl
      · exact (hothers _ fun j hj => (hpaths.1 j hj).symm).trans htext
      · rw [htexts l hl, hsettled l hl]
    · intro path hpath
      rw [List.forall_mem_cons] at hpath
      rw [hothers path hpath.2, hchanged.text? path hpath.1.symm]

/-! ## Reconciliation -/

/-- A source that answers with an offer. -/
def offering (offer : Offer) : String → StateM Memory (Except SourceError Offer) :=
  fun _ => pure (.ok offer)

/-- The artifacts are at different places. -/
def HasDistinctPaths (r : Repository) : Prop :=
  Kind.all.Pairwise fun k l => r.path k ≠ r.path l

/-- The report on a store whose primary artifact declares the given versions, before any update. -/
def survey (r : Repository) (offer : Offer) (s : Memory) (set : VersionSet) : SyncReport :=
  let read := ExtractReport.ofOutcomes r.service
    (optionalKinds.map fun k => ⟨k, r.path k, r.found s k⟩)
  { service := r.service
    current := set.versions
    offer
    change := .between set.versions offer.versions
    dryRun := false
    updated := []
    skipped := read.skipped
    errors := read.errors }

/-- What becomes of all artifacts in an update. -/
def settlement (r : Repository) (request : Request) (s : Memory) : UpdateReport :=
  .ofOutcomes (Kind.all.map fun k => ⟨k, r.path k, (r.settled request s k).1⟩)

variable {offer : Offer} {set : VersionSet}

theorem exists_declared_of_reconcile {report : SyncReport}
    (h : (r.reconcile Memory.store (offering offer) false s).1 = .ok report) :
    ∃ set, r.declared s .terraform = .ok (some set) := by
  rw [reconcile, run_bind, offering, run_pure] at h
  simp only [run_bind, (extractOne_spec r s .terraform).1] at h
  rcases hset : r.declared s .terraform with e | _ | set
  · rw [hset] at h
    cases h
  · rw [hset] at h
    cases h
  · exact ⟨set, rfl⟩

/-- A reconciliation reads, and updates if there is a change. -/
theorem exists_reconcile_eq (offer : Offer) (hset : r.declared s .terraform = .ok (some set)) :
    ∃ s', OnlyRead s s' ∧ r.reconcile Memory.store (offering offer) false s =
      if (r.survey offer s set).hasChanges then
        let done := r.applyUpdate Memory.store (r.requestFor offer) false s'
        (.ok ({ r.survey offer s set with skipped := [] }.absorb done.1), done.2)
      else (.ok (r.survey offer s set), s') := by
  obtain ⟨hone, hread⟩ := extractOne_spec r s .terraform
  obtain ⟨hkinds, hreads⟩ :=
    extractKinds_spec r optionalKinds (r.extractOne Memory.store .terraform s).2
  refine ⟨_, hread.trans hreads, ?_⟩
  have hsurvey : (ExtractReport.ofOutcomes r.service (optionalKinds.map fun k => ⟨k, r.path k,
      r.found (r.extractOne Memory.store .terraform s).2 k⟩)) =
        .ofOutcomes r.service (optionalKinds.map fun k => ⟨k, r.path k, r.found s k⟩) := by
    simp only [found_of_onlyRead hread]
  rw [hsurvey] at hkinds
  rw [reconcile, run_bind, offering, run_pure]
  simp only [run_bind, hone, hset, hkinds]
  rw [← survey]
  by_cases hchange : (r.survey offer s set).hasChanges = true
  · rw [if_pos hchange, if_pos hchange, run_bind, run_pure]
    simp only [survey]
  · rw [if_neg hchange, if_neg hchange, run_pure]

/-- Whether there is a change is found before any update. -/
theorem hasChanges_of_reconcile {report : SyncReport}
    (hset : r.declared s .terraform = .ok (some set))
    (h : (r.reconcile Memory.store (offering offer) false s).1 = .ok report) :
    report.hasChanges = (r.survey offer s set).hasChanges := by
  obtain ⟨s', -, heq⟩ := exists_reconcile_eq offer hset
  rw [heq] at h
  split at h
  · cases h
    rfl
  · cases h
    rfl

/-- Without a change the artifacts are read and nothing more. -/
theorem reconcile_of_unchanged (hset : r.declared s .terraform = .ok (some set))
    (hsame : (r.survey offer s set).hasChanges = false) :
    (r.reconcile Memory.store (offering offer) false s).1 = .ok (r.survey offer s set) ∧
      OnlyRead s (r.reconcile Memory.store (offering offer) false s).2 := by
  obtain ⟨s', hread, heq⟩ := exists_reconcile_eq offer hset
  rw [heq, if_neg (by simp [hsame])]
  exact ⟨rfl, hread⟩

/-- With a change every artifact fares as if it were updated alone. -/
theorem reconcile_of_changed (hset : r.declared s .terraform = .ok (some set))
    (hchange : (r.survey offer s set).hasChanges = true) (hpaths : r.HasDistinctPaths) :
    (r.reconcile Memory.store (offering offer) false s).1 =
        .ok ({ r.survey offer s set with skipped := [] }.absorb
          (r.settlement (r.requestFor offer) s)) ∧
      ∀ k, (r.reconcile Memory.store (offering offer) false s).2.text? (r.path k) =
        (r.settled (r.requestFor offer) s k).2 := by
  obtain ⟨s', hread, heq⟩ := exists_reconcile_eq offer hset
  obtain ⟨hentries, htexts, -⟩ := mapM_updateOutcome (r.requestFor offer) s' hpaths
  have hsettled : ∀ k,
      r.settled (r.requestFor offer) s' k = r.settled (r.requestFor offer) s k := by
    intro k
    rw [settled, settled, hread.text?, hread.readFaults, hread.writeFaults]
  simp only [hsettled] at hentries htexts
  rw [heq, if_pos hchange]
  refine ⟨?_, fun k => htexts k (Artifact.Kind.all_complete k)⟩
  simp only [applyUpdate, run_bind, run_pure, hentries]
  rfl

/-! ## Outcomes without a failure -/

theorem failure?_refused {α : Type} {e : Artifact.Error}
    (h : (refused k e : Outcome α).failure? = none) :
    k.isPrimary = false ∧ ∃ field, e = .fieldNotFound field := by
  rw [refused] at h
  split at h
  · next hskip =>
    rw [Bool.and_eq_true, Bool.not_eq_true'] at hskip
    cases e with
    | fieldNotFound field => exact ⟨hskip.1, field, rfl⟩
    | malformed _ => cases hskip.2
    | emptyVersionSet _ => cases hskip.2
    | io _ => cases hskip.2
  · cases h

/-- An artifact whose update did not fail is not there, has nothing to do with the field, or has
the text that the update makes of it. -/
theorem settled_cases (h : (r.settled request s k).1.failure? = none) :
    (s.text? (r.path k) = none ∧ (r.settled request s k).2 = none ∧ k.isPrimary = false) ∨
      ∃ text, s.text? (r.path k) = some text ∧
        ((∃ field, (r.format k).update text request = .error (.fieldNotFound field) ∧
            (r.settled request s k).2 = some text ∧ k.isPrimary = false) ∨
          ∃ out, (r.format k).update text request = .ok out ∧
            (r.settled request s k).2 = some out) := by
  cases ht : s.text? (r.path k) with
  | none =>
    have hsettled : r.settled request s k = (r.absent k, none) := by simp only [settled, ht]
    rw [hsettled] at h ⊢
    refine .inl ⟨rfl, rfl, ?_⟩
    rw [← outcomeOf_notFound (α := Unit) r k, h]
    rfl
  | some text =>
    refine .inr ⟨text, rfl, ?_⟩
    cases hf : s.readFaults.lookup (r.path k) with
    | some message =>
      have hsettled : (r.settled request s k).1 = refused k (.io (.fault message)) := by
        simp only [settled, ht, hf]
      rw [hsettled] at h
      obtain ⟨_, _, hio⟩ := failure?_refused h
      cases hio
    | none =>
      cases hupdate : (r.format k).update text request with
      | error e =>
        have hsettled : r.settled request s k = (refused k e, some text) := by
          simp only [settled, ht, hf, hupdate]
        rw [hsettled] at h ⊢
        obtain ⟨hprimary, field, rfl⟩ := failure?_refused h
        exact .inl ⟨field, rfl, rfl, hprimary⟩
      | ok new =>
        refine .inr ⟨new, rfl, ?_⟩
        by_cases hnew : new = text
        · simp [settled, ht, hf, hupdate, hnew]
        · cases hw : s.writeFaults.lookup (r.path k) with
          | some message =>
            have hsettled : (r.settled request s k).1 = refused k (.io (.fault message)) := by
              simp only [settled, ht, hf, hupdate, hnew, hw, if_false]
            rw [hsettled] at h
            obtain ⟨_, _, hio⟩ := failure?_refused h
            cases hio
          | none => simp only [settled, ht, hf, hupdate, hnew, hw, if_false]

end Repository

/-! ## The errors of a report -/

namespace SyncReport

theorem mem_map_fst_putError {es : List (Kind × Failure)} {e : Kind × Failure} {k : Kind} :
    k ∈ (putError es e).map Prod.fst ↔ k ∈ es.map Prod.fst ∨ k = e.1 := by
  induction es with
  | nil => simp [putError]
  | cons old es ih =>
    rw [putError]
    split
    · next h => simp [h, or_comm]
    · rw [List.map_cons, List.mem_cons, ih, List.map_cons, List.mem_cons, or_assoc]

/-- An artifact has an error in the end if reading or updating it failed. -/
theorem mem_map_fst_errors_absorb {report : SyncReport} {u : UpdateReport} {k : Kind} :
    k ∈ (report.absorb u).errors.map Prod.fst ↔
      k ∈ report.errors.map Prod.fst ∨ k ∈ u.errors.map Prod.fst := by
  show k ∈ (u.errors.foldl putError report.errors).map Prod.fst ↔ _
  generalize report.errors = es
  induction u.errors generalizing es with
  | nil => simp
  | cons e u ih =>
    rw [List.foldl_cons, ih, mem_map_fst_putError, List.map_cons, List.mem_cons, or_assoc]

theorem isSuccess_iff {report : SyncReport} :
    report.isSuccess = true ↔ Kind.terraform ∉ report.errors.map Prod.fst := by
  have hprimary : ∀ k : Kind, k.isPrimary = true ↔ k = .terraform := by
    intro k
    cases k <;> decide
  simp only [isSuccess, Bool.not_eq_true', List.any_eq_false, hprimary, List.mem_map, not_exists,
    not_and]

end SyncReport

theorem Entry.failure?_eq_none {α : Type} {es : List (Entry α)} {e : Entry α} (he : e ∈ es)
    (h : e.kind ∉ (Entry.failures es).map Prod.fst) : e.outcome.failure? = none := by
  cases hf : e.outcome.failure? with
  | none => rfl
  | some f =>
    refine absurd (List.mem_map.2 ⟨(e.kind, f), List.mem_filterMap.2 ⟨e, he, ?_⟩, rfl⟩) h
    rw [hf]
    rfl

namespace Repository

open Memory

variable {r : Repository} {request : Request} {s : Memory} {offer : Offer} {set : VersionSet}

/-- An artifact without an error in the report was updated without a failure. -/
theorem failure?_settled_eq_none {report : SyncReport} {k : Kind}
    (hreport : report = { r.survey offer s set with skipped := [] }.absorb
      (r.settlement request s))
    (h : k ∉ report.errors.map Prod.fst) : (r.settled request s k).1.failure? = none := by
  rw [hreport, SyncReport.mem_map_fst_errors_absorb, not_or] at h
  have hentry : (⟨k, r.path k, (r.settled request s k).1⟩ : Entry Unit) ∈
      Kind.all.map fun k => ⟨k, r.path k, (r.settled request s k).1⟩ :=
    List.mem_map.2 ⟨k, Artifact.Kind.all_complete k, rfl⟩
  exact Entry.failure?_eq_none hentry h.2

end Repository

end VersionAlignment
