/-!
# What the command line understands

The arguments have two levels: in front of the command name, and behind it. A `Setting` takes a
value, a `Switch` takes none. Some settings may stand on either level.

## Results

* `Command.Name.ofWord?_word`: every command is found by its word.
* `Setting.mem_known`: every setting is known on some level.
-/

set_option autoImplicit false

namespace VersionAlignment

/-- The commands. -/
inductive Command.Name where
  | fetch
  | extract
  | update
  | sync
  deriving Repr, DecidableEq

namespace Command.Name

/-- All commands. -/
def all : List Name := [.fetch, .extract, .update, .sync]

/-- The word for a command. -/
def word : Name → String
  | .fetch => "fetch"
  | .extract => "extract"
  | .update => "update"
  | .sync => "sync"

/-- The command of a word. -/
def ofWord? (s : String) : Option Name := all.find? fun n => n.word == s

theorem ofWord?_word (n : Name) : ofWord? n.word = some n := by cases n <;> decide

end Command.Name

namespace CommandLine

/-- The word that asks for help. -/
def helpWord : String := "help"

/-- The words of a help request lead somewhere: to the program itself, to a command, or to help. -/
def isHelpTopic : List String → Bool
  | [] => true
  | [word] => word == helpWord || (Command.Name.ofWord? word).isSome
  | _ => false

/-- A level of the arguments. -/
inductive Level where
  /-- In front of the command name. -/
  | program
  /-- Behind the name of a command. -/
  | command (name : Command.Name)
  deriving Repr, DecidableEq

/-- What takes a value. -/
inductive Setting where
  | serviceType
  | repoRoot
  | config
  | logFormat
  | logFile
  | apiKey
  | versions
  | latest
  deriving Repr, DecidableEq

namespace Setting

/-- The long name of a setting, without its dashes. -/
def longName : Setting → String
  | .serviceType => "service-type"
  | .repoRoot => "repo-root"
  | .config => "config"
  | .logFormat => "log-format"
  | .logFile => "log-file"
  | .apiKey => "ibmcloud-api-key"
  | .versions => "versions"
  | .latest => "latest"

/-- The short name of a setting, without its dash. -/
def shortName? : Setting → Option Char
  | .serviceType => some 's'
  | .repoRoot => some 'r'
  | .versions => some 'v'
  | .latest => some 'l'
  | _ => none

/-- The settings that may stand on either level. -/
def general : List Setting := [.serviceType, .repoRoot, .config, .logFormat, .logFile]

/-- The settings that are understood on a level. -/
def known : Level → List Setting
  | .program => general
  | .command .fetch => general ++ [.apiKey]
  | .command .extract => general
  | .command .update => general ++ [.versions, .latest]
  | .command .sync => general ++ [.apiKey]

/-- May the value be left out? -/
def mayLackValue : Setting → Bool
  | .logFile => true
  | _ => false

/-- May the setting be given several times on one level? -/
def isRepeatable : Setting → Bool
  | .versions => true
  | _ => false

/-- Is the text a value of the setting? A path is not empty, and a log format is one of two. -/
def accepts : Setting → String → Bool
  | .repoRoot, v => v != ""
  | .config, v => v != ""
  | .logFile, v => v != ""
  | .logFormat, v => v == "text" || v == "json"
  | _, _ => true

theorem mem_known (s : Setting) : ∃ level, s ∈ known level := by
  cases s
  case apiKey => exact ⟨.command .fetch, by decide⟩
  case versions => exact ⟨.command .update, by decide⟩
  case latest => exact ⟨.command .update, by decide⟩
  all_goals exact ⟨.program, by decide⟩

end Setting

/-- What takes no value. -/
inductive Switch where
  | help
  | programVersion
  | dryRun
  deriving Repr, DecidableEq

namespace Switch

/-- The long name of a switch, without its dashes. -/
def longName : Switch → String
  | .help => "help"
  | .programVersion => "version"
  | .dryRun => "dry-run"

/-- The short name of a switch, without its dash. -/
def shortName? : Switch → Option Char
  | .help => some 'h'
  | .programVersion => some 'V'
  | .dryRun => none

/-- The switches that are understood on a level. -/
def known : Level → List Switch
  | .program => [.help, .programVersion]
  | .command .update => [.help, .dryRun]
  | .command .sync => [.help, .dryRun]
  | .command _ => [.help]

end Switch

/-- Why arguments are not carried out. -/
inductive Refusal where
  | helpAsked
  | versionAsked
  /-- There are no arguments at all. -/
  | nothingGiven
  | commandMissing
  | unknownCommand (word : String)
  | unknownArgument (argument : String)
  /-- A setting or switch that is given twice. -/
  | givenTwice (longName : String)
  | valueRefused (setting : Setting)
  | valueMissing (setting : Setting)
  /-- A value for something that takes none. -/
  | valueUncalledFor (switch : Switch)
  | requiredMissing (setting : Setting)
  deriving Repr, DecidableEq

namespace Refusal

/-- What is shown when the program is asked for its version. -/
def versionText : String := "icd-version-sync 0.1.0\n"

/-- Asking for help or for the version is no mistake, everything else is one. -/
def isMistake : Refusal → Bool
  | .helpAsked => false
  | .versionAsked => false
  | _ => true

/-- The exit code of a refusal. -/
def exitCode (r : Refusal) : Nat := if r.isMistake then 2 else 0

/-- The wording of a refusal. -/
def message : Refusal → String
  | .helpAsked => "Usage: icd-version-sync [OPTIONS] <COMMAND>\n"
  | .versionAsked => versionText
  | .nothingGiven => "Usage: icd-version-sync [OPTIONS] <COMMAND>\n"
  | .commandMissing => "error: a command is required\n"
  | .unknownCommand word => "error: unrecognized command '" ++ word ++ "'\n"
  | .unknownArgument argument => "error: unexpected argument '" ++ argument ++ "' found\n"
  | .givenTwice name => "error: --" ++ name ++ " cannot be used multiple times\n"
  | .valueRefused s => "error: invalid value for --" ++ s.longName ++ "\n"
  | .valueMissing s => "error: --" ++ s.longName ++ " requires a value\n"
  | .valueUncalledFor s => "error: --" ++ s.longName ++ " takes no value\n"
  | .requiredMissing s => "error: --" ++ s.longName ++ " is required\n"

end Refusal

end CommandLine

end VersionAlignment
