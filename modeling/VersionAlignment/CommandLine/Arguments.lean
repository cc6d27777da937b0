import VersionAlignment.CommandLine.Usage
import VersionAlignment.Text.Lines

/-!
# Reading arguments

Arguments are read from left to right, first those of the program, then those of its command. A
setting that stands alone waits for the next argument. Its value is judged when the next setting or
switch begins or when the level ends, so a mistake in an earlier argument can be reported after one
in a later argument.
-/

set_option autoImplicit false

namespace VersionAlignment

/-- How log lines are written. -/
inductive LogFormat where
  | text
  | json
  deriving Repr, DecidableEq

/-- Where log lines go. -/
inductive LogTarget where
  | stderr
  | file (path : String)
  /-- To the usual file. -/
  | standardFile
  deriving Repr, DecidableEq

/-- What the program shall do. -/
inductive Command where
  | fetch (apiKey : Option String)
  | extract
  | update (versions : List String) (latest : Option String) (dryRun : Bool)
  | sync (apiKey : Option String) (dryRun : Bool)
  deriving Repr, DecidableEq

/-- The arguments of the program. -/
structure Arguments where
  serviceType : Option String
  repoRoot : String
  config : Option String
  logFormat : LogFormat
  logTarget : LogTarget
  command : Command
  deriving Repr, DecidableEq

namespace CommandLine

/-- A setting whose value has not been judged. -/
structure Open where
  setting : Setting
  value : Option String
  deriving Repr, DecidableEq

/-- What has been read on one level. -/
structure Draft where
  /-- The judged settings; a value that was left out is none. -/
  settings : List (Setting × Option String)
  dryRun : Bool
  /-- The setting that was read last, if its value has not been judged. -/
  opened : Option Open
  deriving Repr, DecidableEq

namespace Draft

/-- Nothing has been read. -/
def empty : Draft := ⟨[], false, none⟩

/-- Is the setting among the judged ones? -/
def has (d : Draft) (s : Setting) : Bool := d.settings.any fun p => p.1 == s

/-- Judge the value of a setting. -/
def give (d : Draft) (s : Setting) (value : Option String) : Except Refusal Draft :=
  if value.isNone && !s.mayLackValue then .error (.valueMissing s)
  else if d.has s && !s.isRepeatable then .error (.givenTwice s.longName)
  else if value.any fun v => !s.accepts v then .error (.valueRefused s)
  else .ok { d with settings := d.settings ++ [(s, value)] }

/-- Judge the open setting. -/
def close (d : Draft) : Except Refusal Draft :=
  match d.opened with
  | none => .ok d
  | some o => { d with opened := none }.give o.setting o.value

/-- Does the open setting wait for its value? -/
def isWaiting (d : Draft) : Bool := d.opened.any fun o => o.value.isNone

/-- Give the open setting its value. -/
def fill (d : Draft) (v : String) : Draft :=
  { d with opened := d.opened.map fun o => { o with value := some v } }

/-- Begin a setting; an attached value is judged at once. -/
def start (d : Draft) (s : Setting) (attached : Option String) : Except Refusal Draft := do
  let d ← d.close
  match attached with
  | some v => d.give s (some v)
  | none => .ok { d with opened := some ⟨s, none⟩ }

/-- Throw a switch. -/
def throwSwitch (d : Draft) (s : Switch) : Except Refusal Draft := do
  let d ← d.close
  match s with
  | .help => .error .helpAsked
  | .programVersion => .error .versionAsked
  | .dryRun => if d.dryRun then .error (.givenTwice s.longName) else .ok { d with dryRun := true }

/-- The value of a setting that was given last. -/
def value? (d : Draft) (s : Setting) : Option (Option String) := d.settings.reverse.lookup s

/-- The text of a setting. -/
def text? (d : Draft) (s : Setting) : Option String := (d.value? s).join

/-- The single values of a setting whose texts are lists with commas. -/
def listed (d : Draft) (s : Setting) : List String :=
  d.settings.flatMap fun p =>
    if p.1 = s then
      (p.2.map fun v => (Text.splitAt ',' v.toList).map String.ofList).getD []
    else []

end Draft

/-! ## Single arguments -/

/-- What an argument looks like. -/
inductive Shape where
  /-- Two dashes. -/
  | separator
  /-- Two dashes and a name, perhaps with an equals sign and a value. -/
  | long (name : List Char) (value : Option (List Char))
  /-- One dash and what follows it. -/
  | short (letters : List Char)
  | word
  deriving Repr, DecidableEq

/-- The shape of an argument. -/
def shapeOf (argument : String) : Shape :=
  match argument.toList with
  | ['-', '-'] => .separator
  | '-' :: '-' :: rest =>
    match rest.dropWhile (· ≠ '=') with
    | [] => .long rest none
    | _ :: value => .long (rest.takeWhile (· ≠ '=')) (some value)
  | '-' :: c :: rest => .short (c :: rest)
  | _ => .word

/-- Read a long argument. -/
def readLong (level : Level) (d : Draft) (argument : String) (name : List Char)
    (value : Option (List Char)) : Except Refusal Draft :=
  match (Setting.known level).find? fun s => s.longName == String.ofList name with
  | some s => d.start s (value.map String.ofList)
  | none =>
    match (Switch.known level).find? fun s => s.longName == String.ofList name with
    | none => .error (.unknownArgument argument)
    | some s => if value.isSome then .error (.valueUncalledFor s) else d.throwSwitch s

/-- The value that is attached to a short setting, an equals sign in front of it left out. -/
def attachedValue : List Char → Option String
  | [] => none
  | '=' :: value => some (String.ofList value)
  | value => some (String.ofList value)

/-- Read the letters of a short argument. -/
def readShort (level : Level) (d : Draft) (argument : String) : List Char → Except Refusal Draft
  | [] => .ok d
  | c :: rest =>
    match (Setting.known level).find? fun s => s.shortName? == some c with
    | some s => d.start s (attachedValue rest)
    | none =>
      match (Switch.known level).find? fun s => s.shortName? == some c with
      | none => .error (.unknownArgument argument)
      | some s => do
        let d ← d.throwSwitch s
        readShort level d argument rest

/-- The refusal of a word that is neither a value nor a command. -/
def refuseWord (level : Level) (separated : Bool) (word : String) : Refusal :=
  match level with
  | .command _ => .unknownArgument word
  | .program =>
    if separated && (word == helpWord || (Command.Name.ofWord? word).isSome) then
      .unknownArgument word
    else .unknownCommand word

/-! ## Levels -/

/-- A command name that ended a level, and the arguments behind it. -/
abbrev Rest := Option (Command.Name × List String)

/-- Read the arguments of a level; `separated` tells whether two dashes have been read. -/
def readLevel (level : Level) : Bool → Draft → List String → Except Refusal (Draft × Rest)
  | _, d, [] => .ok (d, none)
  | true, _, word :: _ => .error (refuseWord level true word)
  | false, d, argument :: rest =>
    let command? : Option Command.Name :=
      if level = .program && !d.isWaiting then Command.Name.ofWord? argument else none
    match command? with
    | some name => .ok (d, some (name, rest))
    | none =>
      if level = .program && !d.isWaiting && argument == helpWord then
        .error (if isHelpTopic rest then .helpAsked else .unknownCommand argument)
      else
        match shapeOf argument with
        | .separator => readLevel level true d rest
        | .long name value => do
          let d ← readLong level d argument name value
          readLevel level false d rest
        | .short letters => do
          let d ← readShort level d argument letters
          readLevel level false d rest
        | .word =>
          if d.isWaiting then readLevel level false (d.fill argument) rest
          else .error (refuseWord level false argument)

/-- Read the arguments of a command. -/
def readCommand (name : Command.Name) (arguments : List String) : Except Refusal Draft := do
  let (d, _) ← readLevel (.command name) false .empty arguments
  let d ← d.close
  if name = .update && !d.has .versions then .error (.requiredMissing .versions) else .ok d

/-! ## All arguments -/

/-- The value of a general setting: the one behind the command name wins. -/
def general? (program command : Draft) (s : Setting) : Option (Option String) :=
  (command.value? s).or (program.value? s)

/-- The command with its settings. -/
def commandOf (name : Command.Name) (d : Draft) : Command :=
  match name with
  | .fetch => .fetch (d.text? .apiKey)
  | .extract => .extract
  | .update => .update (d.listed .versions) (d.text? .latest) d.dryRun
  | .sync => .sync (d.text? .apiKey) d.dryRun

/-- What the drafts of both levels amount to. -/
def finish (program : Draft) (name : Command.Name) (command : Draft) : Arguments where
  serviceType := (general? program command .serviceType).join
  repoRoot := ((general? program command .repoRoot).join).getD "."
  config := (general? program command .config).join
  logFormat := if (general? program command .logFormat).join = some "json" then .json else .text
  logTarget := match general? program command .logFile with
    | none => .stderr
    | some none => .standardFile
    | some (some path) => .file path
  command := commandOf name command

/-- Read the arguments of the program. -/
def parse (arguments : List String) : Except Refusal Arguments := do
  let (program, rest) ← readLevel .program false .empty arguments
  match rest with
  | some (name, rest) =>
    let command ← readCommand name rest
    let program ← program.close
    .ok (finish program name command)
  | none =>
    let program ← program.close
    .error (if program.settings.isEmpty then .nothingGiven else .commandMissing)

end CommandLine

end VersionAlignment
