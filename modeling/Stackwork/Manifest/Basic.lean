import Stackwork.Path

/-!
# Project manifests

The settings of a project in four sections. Sizes that are not positive leave the machine
its own; places in the file system are taken from the directory of the manifest unless
they say otherwise.
-/
namespace Stackwork

structure ProjectSection where
  name : String := ""
  version : String := ""
deriving DecidableEq

structure MachineSection where
  heapSize : Int := 0
  stackSize : Int := 0
  trace : Bool := false
deriving DecidableEq

structure LogSection where
  verbosity : Int := 0
  /-- Empty to log nowhere in particular. -/
  file : String := ""
deriving DecidableEq

structure StoreSection where
  path : String := ""
deriving DecidableEq

/-- The settings of a project. -/
structure Manifest where
  project : ProjectSection := {}
  machine : MachineSection := {}
  log : LogSection := {}
  store : StoreSection := {}
  /-- The directory of the manifest. -/
  dir : String := ""
deriving DecidableEq

/-- A choice for a new machine. -/
inductive MachineOption where
  | heapSize (n : Int)
  | stackSize (n : Int)
  | trace
deriving DecidableEq

namespace Manifest

/-- Where modules are kept if nothing is said. -/
def defaultStorePath : String := Path.join ".ymsl" "modules.db"

/-- Fill in what has to be there. -/
def withDefaults (m : Manifest) : Manifest :=
  if m.store.path = "" then { m with store.path := defaultStorePath } else m

/-- What the machine section asks for. -/
def machineOptions (m : Manifest) : List MachineOption :=
  (if m.machine.heapSize > 0 then [.heapSize m.machine.heapSize] else []) ++
    (if m.machine.stackSize > 0 then [.stackSize m.machine.stackSize] else []) ++
    (if m.machine.trace then [.trace] else [])

/-- Where modules are kept: in memory, at an address, or in a file. -/
def storePath (m : Manifest) : String :=
  let p := m.store.path
  if p = ":memory:" || Path.isAbsolute p || p.startsWith "file:" then p else Path.join m.dir p

/-- The file to log to, if there is one. -/
def logPath (m : Manifest) : Option String :=
  let p := m.log.file
  if p = "" then none else if Path.isAbsolute p then some p else some (Path.join m.dir p)

end Manifest
end Stackwork
