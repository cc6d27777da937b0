import VersionAlignment.Proofs.Reconcile.Stages

/-!
# What a reconciliation writes

A text is written in one place only: on the turn of its artifact in the updating stage, behind a
read, an update and a comparison that all went well. A turn on which one of them fails leaves every
text as it is, and so does a run that ends before its updating stage. Nothing is assumed of the
store here: artifacts may share a path, and any operation may fail.

## Results

* `updateOutcome_turn`: what one turn does to a store.
* `Turns.writes`, `Turns.text?_of_ne`: what a run of turns has written and what it has left alone.
* `reconcile_ends_safely`: the ways in which a reconciliation ends, with the store each leaves.
-/

set_option autoImplicit false

namespace VersionAlignment.Repository

open Artifact (Kind)
open Memory (OnlyRead onlyRead_read)

variable {r : Repository} {request : Request} {s s' s'' : Memory} {k : Kind} {ks : List Kind}

/-! ## The turn of one artifact -/

/-- An update gives the artifact a new text, and every step of it goes well. -/
structure Rewrites (r : Repository) (request : Request) (s : Memory) (k : Kind)
    (text new : String) : Prop where
  present : s.text? (r.path k) = some text
  readable : s.readFaults.lookup (r.path k) = none
  updated : (r.format k).update text request = .ok new
  changed : new ≠ text
  writable : s.writeFaults.lookup (r.path k) = none

/-- What the turn of an artifact does to the store `s`. -/
inductive Turn (r : Repository) (request : Request) (k : Kind) (s : Memory) : Memory → Prop where
  /-- Some step fails, or there is nothing to change: all texts stay. -/
  | kept {s' : Memory} (h : ∀ text new, ¬ r.Rewrites request s k text new) (hread : OnlyRead s s') :
      Turn r request k s s'
  /-- The text is read, and what the update makes of it is written in its place. -/
  | written {text new : String} (h : r.Rewrites request s k text new) :
      Turn r request k s (((s.record (.read (r.path k))).put (r.path k) new).record
        (.write (r.path k) new))

/-- The turns of several artifacts, one after the other. -/
inductive Turns (r : Repository) (request : Request) : List Kind → Memory → Memory → Prop where
  | nil (s : Memory) : Turns r request [] s s
  | cons {k : Kind} {ks : List Kind} {s s' s'' : Memory} (h : r.Turn request k s s')
      (hs : Turns r request ks s' s'') : Turns r request (k :: ks) s s''

theorem turn_updateOne {text : String} (request : Request)
    (ht : s.text? (r.path k) = some text) :
    r.Turn request k s (r.updateOne Memory.store request k s).2 := by
  have hread := onlyRead_read s (r.path k)
  rw [updateOne, run_bind, Memory.run_readText]
  cases hf : s.readFaults.lookup (r.path k) with
  | some message =>
    have hanswer : (Memory.read (r.path k) s).1 = .error (.fault message) := by
      simp [Memory.read, hf]
    rw [hanswer]
    exact .kept (fun text new h => by simp [h.readable] at hf) hread
  | none =>
    have hanswer : (Memory.read (r.path k) s).1 = .ok text := by simp [Memory.read, hf, ht]
    rw [hanswer]
    simp only
    cases hupdate : (r.format k).update text request with
    | error e =>
      refine .kept (fun text' new h => ?_) hread
      obtain rfl : text' = text := Option.some.inj (h.present.symm.trans ht)
      cases hupdate.symm.trans h.updated
    | ok new =>
      have hnew : ∀ {text' new'}, r.Rewrites request s k text' new' →
          text' = text ∧ new' = new := by
        intro text' new' h
        obtain rfl : text' = text := Option.some.inj (h.present.symm.trans ht)
        exact ⟨rfl, Except.ok.inj (h.updated.symm.trans hupdate)⟩
      by_cases hsame : new = text
      · simp only [hsame, if_true]
        refine .kept (fun text' new' h => ?_) hread
        obtain ⟨rfl, rfl⟩ := hnew h
        exact h.changed hsame
      · simp only [hsame, if_false, run_bind, Memory.run_writeText]
        have hsecond : (Memory.read (r.path k) s).2.writeFaults = s.writeFaults := rfl
        cases hw : s.writeFaults.lookup (r.path k) with
        | some message =>
          have hwrite : Memory.write (r.path k) new (Memory.read (r.path k) s).2 =
              (.error (.fault message), (Memory.read (r.path k) s).2) := by
            rw [Memory.write, hsecond, hw]
          rw [hwrite]
          exact .kept (fun text' new' h => by simp [h.writable] at hw) hread
        | none =>
          have hwrite : Memory.write (r.path k) new (Memory.read (r.path k) s).2 =
              (.ok (), ((s.record (.read (r.path k))).put (r.path k) new).record
                (.write (r.path k) new)) := by
            rw [Memory.write, hsecond, hw]
            rfl
          rw [hwrite]
          exact .written ⟨ht, hf, hupdate, hsame, hw⟩

/-- What becomes of the store on an artifact's turn. -/
theorem updateOutcome_turn (r : Repository) (request : Request) (k : Kind) (s : Memory) :
    r.Turn request k s (r.updateOutcome Memory.store request false k s).2 := by
  rw [updateOutcome, run_bind, Memory.run_isFile]
  cases ht : s.text? (r.path k) with
  | none =>
    exact .kept (fun text new h => by simp [h.present] at ht) (OnlyRead.refl s)
  | some text =>
    have hturn := turn_updateOne request ht
    simp only [Option.isSome_some, if_true, Bool.false_eq_true, if_false, run_bind]
    cases h : (r.updateOne Memory.store request k s).1 with
    | error e => exact hturn
    | ok changed => cases changed <;> exact hturn

/-! ## The turns of all artifacts -/

theorem mapM_updateOutcome_turns (r : Repository) (request : Request) (ks : List Kind)
    (s : Memory) :
    r.Turns request ks s (ks.mapM (r.updateOutcome Memory.store request false) s).2 := by
  induction ks generalizing s with
  | nil => exact .nil s
  | cons k ks ih =>
    rw [List.mapM_cons, run_bind, run_bind, run_pure]
    exact .cons (updateOutcome_turn r request k s) (ih _)

theorem Turn.writes (h : r.Turn request k s s') :
    s'.writes = s.writes ∨ ∃ new, s'.writes = s.writes ++ [(r.path k, new)] := by
  cases h with
  | kept _ hread => exact .inl hread.writes
  | @written text new h => exact .inr ⟨new, by simp [Memory.writes, Memory.record, Memory.put]⟩

/-- The writes of a run of turns stand in the order of the turns, and there is at most one for each
of them. -/
theorem Turns.writes (h : r.Turns request ks s s') :
    ∃ ws : List (Kind × String), s'.writes = s.writes ++ ws.map (fun w => (r.path w.1, w.2)) ∧
      (ws.map Prod.fst).Sublist ks := by
  induction h with
  | nil s => exact ⟨[], by simp, List.Sublist.refl []⟩
  | @cons k ks s s' s'' hturn _ ih =>
    obtain ⟨ws, hws, hsub⟩ := ih
    rcases hturn.writes with hkept | ⟨new, hnew⟩
    · exact ⟨ws, by rw [hws, hkept], hsub.cons k⟩
    · exact ⟨(k, new) :: ws, by rw [hws, hnew]; simp, hsub.cons_cons k⟩

/-- A run of turns leaves the texts at all other paths alone. -/
theorem Turns.text?_of_ne {path : String} (h : r.Turns request ks s s')
    (hpath : ∀ k ∈ ks, r.path k ≠ path) : s'.text? path = s.text? path := by
  induction h with
  | nil s => rfl
  | @cons k ks s s' s'' hturn _ ih =>
    rw [List.forall_mem_cons] at hpath
    rw [ih hpath.2]
    cases hturn with
    | kept _ hread => exact hread.text? path
    | written h => exact Memory.text?_put_of_ne _ hpath.1.symm

/-- Between the two stores the artifacts had their turns, and nothing else happened. -/
structure UpdatedInTurn (r : Repository) (request : Request) (s s' : Memory) : Prop where
  /-- The primary artifact comes first, then the catalog, then the test. -/
  turns : r.Turns request Kind.all s s'
  /-- Each artifact is written once at most, at its own path, and in that order. -/
  writes : ∃ ws : List (Kind × String),
    s'.writes = s.writes ++ ws.map (fun w => (r.path w.1, w.2)) ∧ (ws.map Prod.fst).Sublist Kind.all
  /-- A file at any other path stays as it is. -/
  others : ∀ path, (∀ k, r.path k ≠ path) → s'.text? path = s.text? path

theorem applyUpdate_inTurn (r : Repository) (request : Request) (s : Memory) :
    r.UpdatedInTurn request s (r.applyUpdate Memory.store request false s).2 := by
  have hturns : r.Turns request Kind.all s (r.applyUpdate Memory.store request false s).2 := by
    rw [applyUpdate, run_bind, run_pure]
    exact mapM_updateOutcome_turns r request Kind.all s
  exact ⟨hturns, hturns.writes, fun path hpath => hturns.text?_of_ne fun k _ => hpath k⟩

/-- What a dry run says of an artifact: that it will be updated if it is there. -/
def planned (r : Repository) (s : Memory) (k : Kind) : Outcome Unit :=
  if (s.text? (r.path k)).isSome then .done () else r.absent k

/-- The updating stage of a dry run, told artifact by artifact. -/
theorem mapM_updateOutcome_dryRun (r : Repository) (request : Request) (ks : List Kind)
    (s : Memory) : ks.mapM (r.updateOutcome Memory.store request true) s =
      (ks.map fun k => ⟨k, r.path k, r.planned s k⟩, s) := by
  induction ks with
  | nil => rfl
  | cons k ks ih =>
    have hfirst : r.updateOutcome Memory.store request true k s =
        (⟨k, r.path k, r.planned s k⟩, s) := by
      rw [updateOutcome, run_bind, Memory.run_isFile, planned]
      cases s.text? (r.path k) <;> rfl
    rw [List.mapM_cons, run_bind, run_bind, run_pure, hfirst, ih]
    rfl

/-- A dry run does not touch the store. -/
theorem applyUpdate_dryRun (r : Repository) (request : Request) (s : Memory) :
    (r.applyUpdate Memory.store request true s).2 = s := by
  rw [applyUpdate, run_bind, run_pure, mapM_updateOutcome_dryRun]

/-! ## Reconciliation -/

/-- A source that gives the same answer to every question. -/
def answering (answer : Except SourceError Offer) :
    String → StateM Memory (Except SourceError Offer) :=
  fun _ => pure answer

/-- The ways in which a reconciliation of the store `s` may end. -/
inductive Ends (r : Repository) (answer : Except SourceError Offer) (dryRun : Bool) (s : Memory) :
    Except SyncError SyncReport × Memory → Prop where
  /-- Without an offer the store is not touched at all, not even for reading. -/
  | sourceFailed {e : SourceError} (h : answer = .error e) :
      Ends r answer dryRun s (.error (.sourceFailed e), s)
  /-- Without a current set of versions nothing is written. -/
  | primaryFailed {offer : Offer} {cause : Artifact.Error} {s' : Memory} (h : answer = .ok offer)
      (hread : OnlyRead s s') :
      Ends r answer dryRun s (.error (.primaryFailed (r.path .terraform) cause), s')
  /-- Without a change, and in a dry run, nothing is written. -/
  | idle {offer : Offer} {report : SyncReport} {s' : Memory} (h : answer = .ok offer)
      (hidle : report.hasChanges = false ∨ dryRun = true) (hread : OnlyRead s s') :
      Ends r answer dryRun s (.ok report, s')
  /-- Otherwise the artifacts have their turns, once all of them have been read. -/
  | updated {offer : Offer} {report : SyncReport} {s₁ s' : Memory} (h : answer = .ok offer)
      (hchange : report.hasChanges = true) (hdry : dryRun = false) (hread : OnlyRead s s₁)
      (hturns : r.UpdatedInTurn (r.requestFor offer) s₁ s') :
      Ends r answer dryRun s (.ok report, s')

/-- **A reconciliation writes nothing but updated artifacts**, each on its turn, and nothing at all
when it ends before the turns or is a dry run. -/
theorem reconcile_ends_safely (r : Repository) (answer : Except SourceError Offer) (dryRun : Bool)
    (s : Memory) :
    r.Ends answer dryRun s (r.reconcile Memory.store (answering answer) dryRun s) := by
  rw [reconcile, run_bind, answering, run_pure]
  cases answer with
  | error e => exact .sourceFailed rfl
  | ok offer =>
    obtain ⟨hone, hread⟩ := extractOne_spec r s .terraform
    simp only [run_bind, hone]
    rcases r.declared s .terraform with e | _ | set
    · exact .primaryFailed rfl hread
    · exact .primaryFailed rfl hread
    · obtain ⟨hkinds, hreads⟩ :=
        extractKinds_spec r optionalKinds (r.extractOne Memory.store .terraform s).2
      simp only [run_bind, hkinds]
      split
      · next hchange =>
        rw [run_bind, run_pure]
        cases dryRun with
        | true =>
          rw [applyUpdate_dryRun]
          exact .idle rfl (.inr rfl) (hread.trans hreads)
        | false =>
          exact .updated rfl hchange rfl (hread.trans hreads) (applyUpdate_inTurn r _ _)
      · next hsame =>
        rw [run_pure]
        exact .idle rfl (.inl (by simpa using hsame)) (hread.trans hreads)

end VersionAlignment.Repository
