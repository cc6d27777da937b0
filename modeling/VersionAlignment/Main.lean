import VersionAlignment.CommandLine.Run

/-!
# The program

Runs on the files of the machine. Services are out of reach: whatever is asked of them fails as it
does without a network.
-/

set_option autoImplicit false

namespace VersionAlignment.Program

/-- The refusal that a system error stands for. -/
def fileErrorOf (e : IO.Error) : FileError :=
  match e with
  | .noFileOrDirectory .. => .notFound
  | .alreadyExists .. => .alreadyExists
  | .inappropriateType _ code _ => if code = 21 then .isDirectory else .notDirectory
  | .invalidArgument _ 36 _ => .nameTooLong
  | e => .other (toString e)

/-- Carry out an action on a file. -/
def attempt {α : Type} (action : IO α) : IO (Except FileError α) := do
  match ← action.toBaseIO with
  | .ok a => return .ok a
  | .error e => return .error (fileErrorOf e)

/-- Did an action succeed? -/
def succeeds {α : Type} (action : IO α) : IO Bool := return (← attempt action).isOk

/-- Is there a directory at the path? Creating its idle entry tells. -/
def isDirectory (path : String) : IO Bool := do
  match ← attempt (IO.FS.createDir (path ++ "/.")) with
  | .error .alreadyExists => return true
  | _ => return false

/-- Is there anything at the path? -/
def isPresent (path : String) : IO Bool := succeeds (IO.FS.realPath path)

/-- The text of a file. -/
def readText (path : String) : IO (Except FileError String) := do
  match ← attempt (IO.FS.readBinFile path) with
  | .error e => return .error e
  | .ok bytes =>
    match String.fromUTF8? bytes with
    | some text => return .ok text
    | none => return .error .notText

/-- The files of the machine. -/
def files : Files IO where
  isPresent := isPresent
  isFile path := return (← isPresent path) && !(← isDirectory path)
  isDirectory := isDirectory
  readText := readText
  writeText path text := attempt (IO.FS.writeBinFile path text.toUTF8)
  openForAppend path := attempt do discard (IO.FS.Handle.mk path .append)
  createDirectory path := attempt (IO.FS.createDir path)

/-- Services that cannot be reached. -/
def transport : Transport IO where
  now := return 0
  send query := return .error (.offline query.address)

/-- The environment variables that are looked at. -/
def variableNames : List String := ApiKey.variableNames ++ ["XDG_DATA_HOME", "HOME"]

/-- The environment of the process. -/
def environment : IO (List (String × String)) :=
  variableNames.filterMapM fun name => do return (← IO.getEnv name).map fun value => (name, value)

/-- Run the program and show how it ended. -/
def run (arguments : List String) : IO UInt32 := do
  let environment ← environment
  let host : Host IO := ⟨files, transport, fun name => environment.lookup name⟩
  let finish ← host.runProgram arguments
  IO.print finish.output
  if let some message := finish.message? then
    IO.eprint ("Error: " ++ message ++ "\n")
  if let .refused refusal := finish then
    if refusal.isMistake then IO.eprint refusal.message
  return finish.exitCode.toUInt32

end VersionAlignment.Program

/-- The program. -/
def main (arguments : List String) : IO UInt32 := VersionAlignment.Program.run arguments
