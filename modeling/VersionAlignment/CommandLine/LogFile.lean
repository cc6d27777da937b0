import VersionAlignment.CommandLine.Arguments
import VersionAlignment.Store.Disk

/-!
# The log file
-/

set_option autoImplicit false

namespace VersionAlignment

/-- The directory for the data of the program. -/
def dataDirectory (environment : String → Option String) : String :=
  let base := match environment "XDG_DATA_HOME" with
    | some directory => directory
    | none =>
      match (environment "HOME").filter (· ≠ "") with
      | some home => joinPath home ".local/share"
      | none => "."
  joinPath base "icd-version-sync"

/-- The usual log file. -/
def standardLogPath (environment : String → Option String) : String :=
  joinPath (dataDirectory environment) "icd-version-sync.log"

/-- The file that log lines go to, if they go to one. -/
def LogTarget.path? (target : LogTarget) (environment : String → Option String) : Option String :=
  match target with
  | .stderr => none
  | .file path => some path
  | .standardFile => some (standardLogPath environment)

/-- Why a log file cannot be used. -/
inductive LogError where
  | noDirectory (path : String) (cause : FileError)
  | noFile (path : String) (cause : FileError)
  deriving Repr, DecidableEq

/-- The wording of a log error: what was tried, then why it failed. -/
def LogError.chain : LogError → List String
  | .noDirectory path cause => ["failed to create log directory " ++ path, cause.message]
  | .noFile path cause => ["failed to open log file " ++ path, cause.message]

/-- Make sure that a log file exists, and the directories above it. -/
def Files.openLog {m : Type → Type} [Monad m] (files : Files m) (path : String) :
    m (Except LogError Unit) := do
  let parent := (parentPath? path).getD ""
  match ← files.createDirectories (parent.length + 1) parent with
  | .error e => return .error (.noDirectory parent e)
  | .ok () => return (← files.openForAppend path).mapError (.noFile path)

end VersionAlignment
