import VersionAlignment.Artifact.Basic
import VersionAlignment.Json.Value

/-!
# Reports

A report tells what became of each artifact. Outcomes are gathered artifact by artifact, so an
artifact can turn up in one place only: among the updated files, the skipped ones or the errors.

## Results

* `UpdateReport.length_ofOutcomes`: an update report has one entry for each outcome.
-/

set_option autoImplicit false

namespace VersionAlignment

open Artifact (Kind)
open Json (Value)

/-- Why an artifact was passed over. -/
inductive SkipReason where
  | fileNotFound
  | noVersionField
  | alreadyUpToDate
  deriving Repr, DecidableEq

/-- The wording of a reason. -/
def SkipReason.text : SkipReason → String
  | .fileNotFound => "file not found"
  | .noVersionField => "no version field"
  | .alreadyUpToDate => "already up to date"

/-- An artifact that was passed over. -/
structure Skipped where
  path : String
  reason : SkipReason
  deriving Repr, DecidableEq

/-- The entry of a report. -/
def Skipped.text (s : Skipped) : String := s.path ++ " (" ++ s.reason.text ++ ")"

/-- Why an artifact counts as failed. -/
inductive Failure where
  /-- The artifact has to exist and does not. -/
  | missing (path : String)
  | error (cause : Artifact.Error)
  deriving Repr, DecidableEq

/-- The wording of a failure. -/
def Failure.message : Failure → String
  | .missing path => path ++ " not found"
  | .error cause => cause.message

/-- What became of one artifact; `α` is what a success leaves behind. -/
inductive Outcome (α : Type) where
  | done (result : α)
  | skipped (reason : SkipReason)
  | failed (failure : Failure)
  deriving Repr, DecidableEq

namespace Outcome

variable {α : Type}

/-- What a success left behind. -/
def result? : Outcome α → Option α
  | .done a => some a
  | _ => none

/-- Why the artifact was passed over. -/
def reason? : Outcome α → Option SkipReason
  | .skipped r => some r
  | _ => none

/-- Why the artifact failed. -/
def failure? : Outcome α → Option Failure
  | .failed f => some f
  | _ => none

@[simp] theorem result?_done (a : α) : (done a).result? = some a := rfl
@[simp] theorem result?_skipped (r : SkipReason) : (skipped r : Outcome α).result? = none := rfl
@[simp] theorem result?_failed (f : Failure) : (failed f : Outcome α).result? = none := rfl
@[simp] theorem reason?_done (a : α) : (done a).reason? = none := rfl
@[simp] theorem reason?_skipped (r : SkipReason) : (skipped r : Outcome α).reason? = some r := rfl
@[simp] theorem reason?_failed (f : Failure) : (failed f : Outcome α).reason? = none := rfl
@[simp] theorem failure?_done (a : α) : (done a).failure? = none := rfl
@[simp] theorem failure?_skipped (r : SkipReason) : (skipped r : Outcome α).failure? = none := rfl
@[simp] theorem failure?_failed (f : Failure) : (failed f : Outcome α).failure? = some f := rfl

end Outcome

/-- What became of an artifact that has a path. -/
structure Entry (α : Type) where
  kind : Kind
  path : String
  outcome : Outcome α
  deriving Repr, DecidableEq

namespace Entry

variable {α : Type}

/-- The artifacts that were passed over. -/
def skips (es : List (Entry α)) : List Skipped :=
  es.filterMap fun e => e.outcome.reason?.map fun r => ⟨e.path, r⟩

/-- The artifacts that failed. -/
def failures (es : List (Entry α)) : List (Kind × Failure) :=
  es.filterMap fun e => e.outcome.failure?.map fun f => (e.kind, f)

end Entry

/-- What every artifact declares. -/
structure ExtractReport where
  service : Service
  declared : List (Kind × VersionSet)
  skipped : List Skipped
  errors : List (Kind × Failure)
  deriving Repr, DecidableEq

/-- The report on the given outcomes. -/
def ExtractReport.ofOutcomes (service : Service) (es : List (Entry VersionSet)) :
    ExtractReport where
  service
  declared := es.filterMap fun e => e.outcome.result?.map fun set => (e.kind, set)
  skipped := Entry.skips es
  errors := Entry.failures es

/-- What an artifact declares. -/
def ExtractReport.get? (r : ExtractReport) (k : Kind) : Option VersionSet := r.declared.lookup k

/-- What became of every artifact in an update. -/
structure UpdateReport where
  updated : List String
  skipped : List Skipped
  errors : List (Kind × Failure)
  deriving Repr, DecidableEq

/-- The report on the given outcomes. -/
def UpdateReport.ofOutcomes (es : List (Entry Unit)) : UpdateReport where
  updated := es.filterMap fun e => e.outcome.result?.map fun _ => e.path
  skipped := Entry.skips es
  errors := Entry.failures es

/-- Did no artifact fail? -/
def UpdateReport.isSuccess (r : UpdateReport) : Bool := r.errors.isEmpty

/-- The versions that a service offers. -/
structure Offer where
  versions : List String
  preferred : String
  deriving Repr, DecidableEq

/-- What a synchronisation found and did. -/
structure SyncReport where
  service : Service
  /-- The versions that the primary artifact declared. -/
  current : List String
  offer : Offer
  change : Change
  dryRun : Bool
  updated : List String
  skipped : List Skipped
  errors : List (Kind × Failure)
  deriving Repr, DecidableEq

namespace SyncReport

/-- Were the declared versions different from the offered ones? -/
def hasChanges (r : SyncReport) : Bool := !r.change.isEmpty

/-- Was the primary artifact dealt with? -/
def isSuccess (r : SyncReport) : Bool := !r.errors.any fun e => e.1.isPrimary

/-- The errors with a new one, which takes the place of an earlier one of the same artifact. -/
def putError : List (Kind × Failure) → Kind × Failure → List (Kind × Failure)
  | [], e => [e]
  | old :: more, e => if old.1 = e.1 then e :: more else old :: putError more e

/-- The report after the update stage. -/
def absorb (r : SyncReport) (u : UpdateReport) : SyncReport :=
  { r with
    updated := r.updated ++ u.updated
    skipped := r.skipped ++ u.skipped
    errors := u.errors.foldl putError r.errors }

end SyncReport

/-! ## Reports as JSON -/

/-- A list of strings. -/
def stringList (ss : List String) : Value := .list (ss.map .string)

/-- A member that is left out when its list is empty. -/
def listMember (name : String) (ss : List String) : List (String × Value) :=
  if ss.isEmpty then [] else [(name, stringList ss)]

/-- The skipped artifacts, left out when there are none. -/
def skippedMember (ss : List Skipped) : List (String × Value) :=
  listMember "skipped" (ss.map Skipped.text)

/-- The errors by artifact, left out when there are none. -/
def errorsMember (es : List (Kind × Failure)) : List (String × Value) :=
  if es.isEmpty then []
  else [("errors", .object (es.map fun e => (e.1.name, .string e.2.message)))]

/-- The members that name the service. -/
def serviceMembers (s : Service) : List (String × Value) :=
  [("service_type", .string s.name), ("variable_name", .string s.field)]

/-- A set of versions. -/
def VersionSet.toJson (set : VersionSet) : Value :=
  .object [("versions", stringList set.versions), ("latest_version", .string set.latest)]

/-- The report as a JSON value. -/
def ExtractReport.toJson (r : ExtractReport) : Value :=
  .object (serviceMembers r.service
    ++ Kind.all.filterMap (fun k => (r.get? k).map fun set => (k.name, set.toJson))
    ++ skippedMember r.skipped ++ errorsMember r.errors)

/-- The report as a JSON value. -/
def UpdateReport.toJson (r : UpdateReport) : Value :=
  .object (("updated_files", stringList r.updated)
    :: (skippedMember r.skipped ++ errorsMember r.errors))

/-- The report as a JSON value. -/
def SyncReport.toJson (r : SyncReport) : Value :=
  .object (serviceMembers r.service
    ++ [("current_versions", stringList r.current), ("api_versions", stringList r.offer.versions),
        ("preferred_version", .string r.offer.preferred)]
    ++ listMember "new_versions" r.change.added
    ++ listMember "deprecated_versions" r.change.removed
    ++ [("has_changes", .bool r.hasChanges)]
    ++ listMember "updated_files" r.updated
    ++ [("dry_run", .bool r.dryRun)]
    ++ skippedMember r.skipped ++ errorsMember r.errors)

/-- The offer for a service as a JSON value. -/
def Offer.toJson (o : Offer) (service : Service) : Value :=
  .object (serviceMembers service
    ++ [("versions", stringList o.versions), ("latest_version", .string o.preferred)])

theorem UpdateReport.length_ofOutcomes (es : List (Entry Unit)) :
    (ofOutcomes es).updated.length + (ofOutcomes es).skipped.length
      + (ofOutcomes es).errors.length = es.length := by
  induction es with
  | nil => rfl
  | cons e es ih =>
    obtain ⟨kind, path, outcome⟩ := e
    simp only [ofOutcomes, Entry.skips, Entry.failures] at ih
    cases outcome <;> simp [ofOutcomes, Entry.skips, Entry.failures, List.filterMap_cons] <;> omega

end VersionAlignment
