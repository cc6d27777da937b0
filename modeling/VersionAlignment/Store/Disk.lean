import VersionAlignment.Store.Basic
import VersionAlignment.Store.Path
import VersionAlignment.Text.Lines

/-!
# A directory tree in memory

A `Disk` holds files and directories under their absolute places. A path is followed step by step:
every place that a step is taken from has to be a directory, idle steps included.
-/

set_option autoImplicit false

namespace VersionAlignment

/-- What stands at a place. -/
inductive DiskEntry where
  | directory
  | file (bytes : ByteArray)

/-- A place: the names that lead to it from the root. -/
abbrev Place := List String

/-- A directory tree and the directory that relative paths start from. -/
structure Disk where
  entries : List (Place × DiskEntry)
  workingDirectory : Place

namespace Disk

/-- The entry at a place; the root is a directory. -/
def entry? (d : Disk) (place : Place) : Option DiskEntry :=
  if place = [] then some .directory else d.entries.lookup place

/-- The tree with an entry at a place. -/
def put (d : Disk) (place : Place) (e : DiskEntry) : Disk :=
  { d with entries := (d.entries.filter fun p => p.1 ≠ place) ++ [(place, e)] }

/-- How many bytes a step of a path has at most. -/
def longestStep : Nat := 255

/-- How many bytes a path has at most. -/
def longestPath : Nat := 4095

/-- Follow steps from a place. -/
def locate (d : Disk) : Place → List String → Except FileError Place
  | place, [] => .ok place
  | place, step :: more =>
    match d.entry? place with
    | none => .error .notFound
    | some (.file _) => .error .notDirectory
    | some .directory =>
      if step = "" ∨ step = "." then d.locate place more
      else if step = ".." then d.locate place.dropLast more
      else if longestStep < step.utf8ByteSize then .error .nameTooLong
      else d.locate (place ++ [step]) more

/-- The steps of a path. -/
def steps (path : String) : List String := (Text.splitAt '/' path.toList).map String.ofList

/-- Where a path starts. -/
def startOf (d : Disk) (path : String) : Place :=
  if path.toList.head? = some '/' then [] else d.workingDirectory

/-- May the text be a path at all? -/
def checkPath (path : String) : Except FileError Unit :=
  if path.toList.contains '\x00' then .error .invalidName
  else if path = "" then .error .notFound
  else if longestPath < path.utf8ByteSize then .error .nameTooLong
  else .ok ()

/-- The place that a path leads to. -/
def resolve (d : Disk) (path : String) : Except FileError Place := do
  checkPath path
  d.locate (d.startOf path) (steps path)

/-- The steps of a path before its last name. -/
def leadingSteps (path : String) : List String :=
  (((steps path).reverse.dropWhile (· = "")).drop 1).reverse

/-- The place at which a path would create a file. A path that ends in a slash asks for a directory
and creates no file, whatever stands there; only what leads to its last name is looked at. -/
def resolveNew (d : Disk) (path : String) : Except FileError Place := do
  checkPath path
  if path.toList.getLast? = some '/' then
    let _ ← d.locate (d.startOf path) (leadingSteps path ++ [""])
    .error .isDirectory
  else d.locate (d.startOf path) (steps path)

/-- The entry that a path leads to. -/
def find? (d : Disk) (path : String) : Option DiskEntry :=
  match d.resolve path with
  | .ok place => d.entry? place
  | .error _ => none

/-- The bytes of the file that a path leads to. -/
def readBytes (d : Disk) (path : String) : Except FileError ByteArray :=
  match d.resolve path with
  | .error e => .error e
  | .ok place =>
    match d.entry? place with
    | none => .error .notFound
    | some .directory => .error .isDirectory
    | some (.file bytes) => .ok bytes

/-- The text of the file that a path leads to. -/
def readText (d : Disk) (path : String) : Except FileError String :=
  match d.readBytes path with
  | .error e => .error e
  | .ok bytes =>
    match String.fromUTF8? bytes with
    | some text => .ok text
    | none => .error .notText

/-- Change the file that a path leads to; `change` is given its bytes, none for a new file. -/
def changeFile (d : Disk) (path : String) (change : Option ByteArray → ByteArray) :
    Except FileError Unit × Disk :=
  match d.resolveNew path with
  | .error e => (.error e, d)
  | .ok place =>
    match d.entry? place with
    | some .directory => (.error .isDirectory, d)
    | some (.file bytes) => (.ok (), d.put place (.file (change (some bytes))))
    | none => (.ok (), d.put place (.file (change none)))

/-- Create a directory. -/
def createDirectory (d : Disk) (path : String) : Except FileError Unit × Disk :=
  match d.resolve path with
  | .error e => (.error e, d)
  | .ok place =>
    match d.entry? place with
    | some _ => (.error .alreadyExists, d)
    | none => (.ok (), d.put place .directory)

/-- The tree as a file system. -/
def files : Files (StateM Disk) where
  isPresent path := fun d => ((d.find? path).isSome, d)
  isFile path := fun d => (match d.find? path with | some (.file _) => true | _ => false, d)
  isDirectory path := fun d => (match d.find? path with | some .directory => true | _ => false, d)
  readText path := fun d => (d.readText path, d)
  writeText path text := fun d => d.changeFile path fun _ => text.toUTF8
  openForAppend path := fun d => d.changeFile path fun bytes => bytes.getD ByteArray.empty
  createDirectory path := fun d => d.createDirectory path

/-! ## Building a tree -/

/-- The tree with a directory at a place and all directories above it. -/
def withDirectory (d : Disk) (place : Place) : Disk :=
  (List.range place.length).foldl (fun d n =>
    let place := place.take (n + 1)
    if (d.entry? place).isSome then d else d.put place .directory) d

/-- The tree with a file at a place and all directories above it. -/
def withFile (d : Disk) (place : Place) (bytes : ByteArray) : Disk :=
  (d.withDirectory place.dropLast).put place (.file bytes)

/-- An empty tree around a working directory. -/
def empty (workingDirectory : Place) : Disk :=
  withDirectory ⟨[], workingDirectory⟩ workingDirectory

end Disk

/-- Create a directory and the missing ones above it; `fuel` bounds the number of those. -/
def Files.createDirectories {m : Type → Type} [Monad m] (files : Files m) :
    Nat → String → m (Except FileError Unit)
  | 0, _ => return .error .notFound
  | fuel + 1, path => do
    if path = "" then return .ok ()
    let settled (e : FileError) : m (Except FileError Unit) := do
      if ← files.isDirectory path then return .ok () else return .error e
    match ← files.createDirectory path with
    | .ok () => return .ok ()
    | .error .notFound =>
      match parentPath? path with
      | none => return .error (.other "failed to create whole tree")
      | some parent =>
        match ← files.createDirectories fuel parent with
        | .error e => return .error e
        | .ok () =>
          match ← files.createDirectory path with
          | .ok () => return .ok ()
          | .error e => settled e
    | .error e => settled e

end VersionAlignment
