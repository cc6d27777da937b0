import VersionAlignment.Store.Error

/-!
# Stores

A `Store` keeps the texts of artifacts under their paths. It is a bundle of three operations in some
monad, so the same reconciliation runs over a store in memory and over a directory. `Files` are the
operations that a file system offers, and a store can be rooted in one of its directories.
-/

set_option autoImplicit false

namespace VersionAlignment

/-- A place where the texts of artifacts are kept. -/
structure Store (m : Type → Type) where
  /-- Is there a file at the path? -/
  isFile : String → m Bool
  /-- The text of the file at the path. -/
  readText : String → m (Except StoreError String)
  /-- Give the file at the path a text. -/
  writeText : String → String → m (Except StoreError Unit)

/-- The operations of a file system. -/
structure Files (m : Type → Type) where
  /-- Is there anything at the path? -/
  isPresent : String → m Bool
  /-- Is there a file at the path? -/
  isFile : String → m Bool
  /-- Is there a directory at the path? -/
  isDirectory : String → m Bool
  /-- The text of the file at the path. -/
  readText : String → m (Except FileError String)
  /-- Give the file at the path a text; a missing file is created. -/
  writeText : String → String → m (Except FileError Unit)
  /-- Create the file at the path unless it exists. -/
  openForAppend : String → m (Except FileError Unit)
  /-- Create the directory at the path, in an existing one. -/
  createDirectory : String → m (Except FileError Unit)

/-- The path `path` as seen from the directory `root`: an absolute path is itself, and every other
one is put behind the root and one slash. -/
def joinPath (root path : String) : String :=
  if path.toList.head? = some '/' then path
  else if root = "" ∨ root.toList.getLast? = some '/' then root ++ path
  else root ++ "/" ++ path

/-- The store whose paths are seen from a directory. -/
def Files.store {m : Type → Type} [Monad m] (files : Files m) (root : String) : Store m where
  isFile path := files.isFile (joinPath root path)
  readText path := do
    let full := joinPath root path
    return (← files.readText full).mapError (.unreadable full)
  writeText path text := do
    let full := joinPath root path
    return (← files.writeText full text).mapError (.unwritable full)

end VersionAlignment
