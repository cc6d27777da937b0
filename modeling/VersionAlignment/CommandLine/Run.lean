import VersionAlignment.CommandLine.LogFile
import VersionAlignment.Json.Printer
import VersionAlignment.Reconcile
import VersionAlignment.Source.ApiKey
import VersionAlignment.Source.Session
import VersionAlignment.Text.Blank

/-!
# Carrying out commands

A command works on a `Host`: its files, the services that can be asked, and its environment. The
outcome of a run is a `Finish`, which holds everything that the program shows.
-/

set_option autoImplicit false

namespace VersionAlignment

/-- What the program runs on. -/
structure Host (m : Type → Type) where
  files : Files m
  transport : Transport m
  /-- The value of an environment variable. -/
  environment : String → Option String

/-- Why a command failed. -/
inductive CommandError where
  | serviceMissing
  | log (cause : LogError)
  | settings (cause : Settings.LoadError)
  /-- The services cannot be asked at all. -/
  | source (cause : SourceError)
  | fetch (cause : SourceError)
  | noVersions
  | sync (cause : SyncError)
  deriving Repr, DecidableEq

namespace CommandError

/-- The wording of an error and of what caused it, outermost first. -/
def chain : CommandError → List String
  | .serviceMissing => ["--service-type is required"]
  | .log cause => cause.chain
  | .settings cause => cause.chain
  | .source cause => cause.chain
  | .fetch cause => "failed to fetch API versions" :: cause.chain
  | .noVersions => ["versions list is empty"]
  | .sync cause => cause.chain

/-- The wording of an error in one line. -/
def message (e : CommandError) : String := String.intercalate ": " e.chain

end CommandError

/-- How a run of the program ends. -/
inductive Finish where
  /-- The arguments were not carried out. -/
  | refused (refusal : CommandLine.Refusal)
  /-- The command was carried out, and `report` tells how. -/
  | done (report : Json.Value) (isSuccess : Bool)
  | failed (error : CommandError)

namespace Finish

/-- What is written to the standard output. -/
def output : Finish → String
  | .refused .versionAsked => CommandLine.Refusal.versionText
  | .refused _ => ""
  | .done report _ => report.pretty ++ "\n"
  | .failed _ => ""

/-- What went wrong with the command. -/
def message? : Finish → Option String
  | .failed error => some error.message
  | _ => none

/-- The exit code. -/
def exitCode : Finish → Nat
  | .refused refusal => refusal.exitCode
  | .done _ isSuccess => if isSuccess then 0 else 1
  | .failed _ => 1

end Finish

/-- A text without the blanks at either end; none if nothing is left. -/
def trimmed? (s : String) : Option String :=
  match Text.trim s.toList with
  | [] => none
  | cs => some (String.ofList cs)

namespace Arguments

/-- The service that is asked for. -/
def service? (a : Arguments) : Option Service :=
  (a.serviceType.bind trimmed?).map Service.named

end Arguments

namespace Host

variable {m : Type → Type} [Monad m]

/-- The session for an API key that may be given. -/
def session? (host : Host m) (settings : Settings) (apiKey : Option String) :
    Except SourceError Session :=
  (ApiKey.resolve apiKey host.environment).map fun key => .start key settings.source

/-- Fetch the versions of a service. -/
def fetch (host : Host m) (r : Repository) (apiKey : Option String) : m Finish := do
  match host.session? r.settings apiKey with
  | .error e => return .failed (.source e)
  | .ok session =>
    match ← session.fetch host.transport r.service.name with
    | (.error e, _) => return .failed (.fetch e)
    | (.ok offer, _) => return .done (offer.toJson r.service) true

/-- Bring the artifacts in line with the given versions. -/
def update (host : Host m) (r : Repository) (root : String) (versions : List String)
    (latest : Option String) (dryRun : Bool) : m Finish := do
  match versions.filterMap trimmed? with
  | [] => return .failed .noVersions
  | versions =>
    let request := Request.make r.service.field versions latest
    let report ← r.applyUpdate (host.files.store root) request dryRun
    return .done report.toJson report.isSuccess

/-- Bring the artifacts in line with what the services offer. -/
def sync (host : Host m) (r : Repository) (root : String) (apiKey : Option String)
    (dryRun : Bool) : m Finish := do
  match host.session? r.settings apiKey with
  | .error e => return .failed (.source e)
  | .ok session =>
    let fetch (service : String) : m (Except SourceError Offer) := do
      return (← session.fetch host.transport service).1
    match ← r.reconcile (host.files.store root) fetch dryRun with
    | .error e => return .failed (.sync e)
    | .ok report => return .done report.toJson report.isSuccess

/-- Carry out the command of the arguments. -/
def run (host : Host m) (a : Arguments) : m Finish := do
  match a.service? with
  | none => return .failed .serviceMissing
  | some service =>
    match ← Settings.load host.files a.config a.repoRoot with
    | .error e => return .failed (.settings e)
    | .ok settings =>
      let r : Repository := ⟨service, settings⟩
      match a.command with
      | .fetch apiKey => host.fetch r apiKey
      | .extract => return .done (← r.extractAll (host.files.store a.repoRoot)).toJson true
      | .update versions latest dryRun => host.update r a.repoRoot versions latest dryRun
      | .sync apiKey dryRun => host.sync r a.repoRoot apiKey dryRun

/-- Carry out the arguments of the program, once its log file is open. -/
def runLogged (host : Host m) (a : Arguments) : m Finish := do
  match a.logTarget.path? host.environment with
  | none => host.run a
  | some path =>
    match ← host.files.openLog path with
    | .error e => return .failed (.log e)
    | .ok () => host.run a

/-- Run the program. -/
def runProgram (host : Host m) (arguments : List String) : m Finish :=
  match CommandLine.parse arguments with
  | .error refusal => return .refused refusal
  | .ok a => host.runLogged a

end Host

end VersionAlignment
