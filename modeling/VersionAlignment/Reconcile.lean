import VersionAlignment.Report
import VersionAlignment.Settings
import VersionAlignment.Source.Error

/-!
# Reconciliation

A `Repository` is a service together with the settings that tell where its artifacts are. Its
artifacts can be read, updated for a request, and brought in line with an offer. The primary
artifact comes first and must exist; a failure of one artifact never keeps the others from their
turn.

## Results

* `outcomeOf_notFound`: an artifact that is not there has failed exactly if it is the primary one.
-/

set_option autoImplicit false

namespace VersionAlignment

open Artifact (Kind)

/-- A service and the settings of its repository. -/
structure Repository where
  service : Service
  settings : Settings
  deriving Repr, DecidableEq

/-- Why a synchronisation was given up. -/
inductive SyncError where
  /-- The offered versions could not be had. -/
  | sourceFailed (cause : SourceError)
  /-- The versions of the primary artifact could not be read. -/
  | primaryFailed (path : String) (cause : Artifact.Error)
  deriving Repr, DecidableEq

/-- The wording of a sync error. -/
def SyncError.message : SyncError → String
  | .sourceFailed cause => "failed to fetch versions: " ++ cause.message
  | .primaryFailed path cause =>
    "failed to extract current versions from " ++ path ++ ": " ++ cause.message

/-- The wording of a sync error and of what caused it, outermost first. -/
def SyncError.chain (e : SyncError) : List String :=
  e.message :: match e with
    | .sourceFailed cause => cause.chain
    | .primaryFailed _ cause => [cause.message]

namespace Repository

/-- The path of an artifact. -/
def path (r : Repository) (k : Kind) : String := r.settings.artifacts.path k

/-- The format of an artifact. -/
def format (r : Repository) (k : Kind) : Artifact.Format := r.settings.format k

/-- The outcome for an artifact that is not there. -/
def absent {α : Type} (r : Repository) (k : Kind) : Outcome α :=
  if k.isPrimary then .failed (.missing (r.path k)) else .skipped .fileNotFound

/-- The outcome for an artifact that failed. An optional artifact need not declare the field. -/
def refused {α : Type} (k : Kind) (e : Artifact.Error) : Outcome α :=
  if !k.isPrimary && e.isFieldNotFound then .skipped .noVersionField else .failed (.error e)

theorem outcomeOf_notFound {α : Type} (r : Repository) (k : Kind) :
    (r.absent k : Outcome α).failure?.isSome = k.isPrimary := by
  cases k <;> rfl

variable {m : Type → Type} [Monad m]

/-- The versions that an artifact declares; none if it is not there. -/
def extractOne (r : Repository) (store : Store m) (k : Kind) :
    m (Except Artifact.Error (Option VersionSet)) := do
  if ← store.isFile (r.path k) then
    match ← store.readText (r.path k) with
    | .error e => return .error (.io e)
    | .ok text => return ((r.format k).extract text r.service.field).map some
  else return .ok none

/-- What becomes of an artifact when it is read. -/
def extractOutcome (r : Repository) (store : Store m) (k : Kind) : m (Entry VersionSet) := do
  match ← r.extractOne store k with
  | .ok (some set) => return ⟨k, r.path k, .done set⟩
  | .ok none => return ⟨k, r.path k, r.absent k⟩
  | .error e => return ⟨k, r.path k, refused k e⟩

/-- What the given artifacts declare. -/
def extractKinds (r : Repository) (store : Store m) (ks : List Kind) : m ExtractReport :=
  return .ofOutcomes r.service (← ks.mapM (r.extractOutcome store))

/-- What all artifacts declare. -/
def extractAll (r : Repository) (store : Store m) : m ExtractReport := r.extractKinds store Kind.all

/-- Update one artifact for a request. The answer tells whether its text changed; a text that does
not change is not written. -/
def updateOne (r : Repository) (store : Store m) (request : Request) (k : Kind) :
    m (Except Artifact.Error Bool) := do
  match ← store.readText (r.path k) with
  | .error e => return .error (.io e)
  | .ok text =>
    match (r.format k).update text request with
    | .error e => return .error e
    | .ok new =>
      if new = text then return .ok false
      else
        match ← store.writeText (r.path k) new with
        | .error e => return .error (.io e)
        | .ok () => return .ok true

/-- What becomes of an artifact in an update. A dry run takes every artifact that is there for
updated, and neither reads nor writes it. -/
def updateOutcome (r : Repository) (store : Store m) (request : Request) (dryRun : Bool)
    (k : Kind) : m (Entry Unit) := do
  if ← store.isFile (r.path k) then
    if dryRun then return ⟨k, r.path k, .done ()⟩
    else
      match ← r.updateOne store request k with
      | .ok true => return ⟨k, r.path k, .done ()⟩
      | .ok false => return ⟨k, r.path k, .skipped .alreadyUpToDate⟩
      | .error e => return ⟨k, r.path k, refused k e⟩
  else return ⟨k, r.path k, r.absent k⟩

/-- Update all artifacts for a request. -/
def applyUpdate (r : Repository) (store : Store m) (request : Request) (dryRun : Bool) :
    m UpdateReport :=
  return .ofOutcomes (← Kind.all.mapM (r.updateOutcome store request dryRun))

/-- The request that an offer amounts to. -/
def requestFor (r : Repository) (offer : Offer) : Request :=
  .make r.service.field offer.versions (some offer.preferred)

/-- The artifacts that need not exist. -/
def optionalKinds : List Kind := Kind.all.filter fun k => !k.isPrimary

/-- Bring the artifacts in line with what is offered. Without a change the report tells how reading
the optional artifacts went; with one it tells how updating went, and an error in reading stays
unless updating the same artifact failed too. -/
def reconcile (r : Repository) (store : Store m)
    (fetch : String → m (Except SourceError Offer)) (dryRun : Bool) :
    m (Except SyncError SyncReport) := do
  match ← fetch r.service.name with
  | .error e => return .error (.sourceFailed e)
  | .ok offer =>
    let path := r.path .terraform
    match ← r.extractOne store .terraform with
    | .error e => return .error (.primaryFailed path e)
    | .ok none => return .error (.primaryFailed path (.io (.absent path)))
    | .ok (some set) =>
      let read ← r.extractKinds store optionalKinds
      let report : SyncReport :=
        { service := r.service
          current := set.versions
          offer
          change := .between set.versions offer.versions
          dryRun
          updated := []
          skipped := read.skipped
          errors := read.errors }
      if report.hasChanges then
        let done ← r.applyUpdate store (r.requestFor offer) dryRun
        return .ok ({ report with skipped := [] }.absorb done)
      else return .ok report

end Repository

end VersionAlignment
