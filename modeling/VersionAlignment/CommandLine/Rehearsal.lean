import VersionAlignment.CommandLine.Run
import VersionAlignment.Source.Script

/-!
# Rehearsals

In a rehearsal the program runs on a directory tree in memory and on scripted services, so its
effects can be looked at afterwards.
-/

set_option autoImplicit false

namespace VersionAlignment

/-- What the program runs on in a rehearsal. -/
structure Stage where
  disk : Disk
  script : Script

namespace Stage

/-- Work on the directory tree. -/
def onDisk {α : Type} (work : StateM Disk α) : StateM Stage α := fun s =>
  let (a, disk) := work s.disk
  (a, { s with disk })

/-- Work with the services. -/
def onScript {α : Type} (work : StateM Script α) : StateM Stage α := fun s =>
  let (a, script) := work s.script
  (a, { s with script })

/-- The directory tree of a stage as a file system. -/
def files : Files (StateM Stage) where
  isPresent path := onDisk (Disk.files.isPresent path)
  isFile path := onDisk (Disk.files.isFile path)
  isDirectory path := onDisk (Disk.files.isDirectory path)
  readText path := onDisk (Disk.files.readText path)
  writeText path text := onDisk (Disk.files.writeText path text)
  openForAppend path := onDisk (Disk.files.openForAppend path)
  createDirectory path := onDisk (Disk.files.createDirectory path)

/-- The services of a stage. -/
def transport : Transport (StateM Stage) where
  now := onScript Script.transport.now
  send query := onScript (Script.transport.send query)

/-- A stage as a host with the given environment variables. -/
def host (environment : List (String × String)) : Host (StateM Stage) where
  files := files
  transport := transport
  environment name := environment.lookup name

end Stage

end VersionAlignment
