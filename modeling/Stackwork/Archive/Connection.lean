import Stackwork.Archive.Load
import Stackwork.Lang.Program

/-!
# Connections to archives

Archives live in memory, one for a connection, or in named files that several connections
share and that outlive them. A closed connection refuses everything; so does an open one
when the request has been given up. The first of these wins, and both are reported with
what was being done.
-/
namespace Stackwork

/-- Why a connection cannot be used. -/
inductive AccessError where
  | closed
  | cancelled
deriving DecidableEq

def AccessError.message : AccessError → String
  | closed => "sql: database is closed"
  | cancelled => "context canceled"

/-- Why a request to an archive fails. -/
inductive ArchiveError where
  /-- The connection cannot be used for what is being done. -/
  | access (doing : String) (e : AccessError)
  /-- There is no module with that name or digest. -/
  | notFound (what : String)
  | load (e : LoadFailure)

def ArchiveError.message : ArchiveError → String
  | access doing e => doing ++ ": " ++ e.message
  | notFound what => "module " ++ what ++ ": module not found"
  | load e => e.message

/-- Names one connection. -/
structure ConnectionId where
  index : Nat
deriving DecidableEq

structure Connection where
  /-- Which archive it leads to. -/
  archive : Nat
  closed : Bool := false

/-- Every archive, the files that some of them are kept in, and every connection. -/
structure Storage where
  archives : Array Archive := #[]
  files : List (String × Nat) := []
  connections : Array Connection := #[]

namespace Storage

/-- Connect to an archive in a file, or to a new one in memory. -/
def connect (s : Storage) (file : Option String) (cancelled : Bool) :
    Except ArchiveError (ConnectionId × Storage) :=
  if cancelled then .error (.access "setting busy timeout" .cancelled)
  else
    let known := file.bind fun f => s.files.lookup f
    let fresh := s.archives.size
    let s :=
      if known.isSome then s
      else { s with archives := s.archives.push {}
                    files := (file.toList.map (·, fresh)) ++ s.files }
    .ok (⟨s.connections.size⟩, { s with connections := s.connections.push ⟨known.getD fresh, false⟩ })

def connection (s : Storage) (c : ConnectionId) : Connection :=
  s.connections.getD c.index { archive := 0, closed := true }

/-- The archive behind a connection, if it can be used. -/
def archive (s : Storage) (c : ConnectionId) (cancelled : Bool) (doing : String) :
    Except ArchiveError Archive :=
  let conn := s.connection c
  if conn.closed then .error (.access doing .closed)
  else if cancelled then .error (.access doing .cancelled)
  else .ok (s.archives.getD conn.archive {})

/-- Exchange the archive behind a connection. -/
def setArchive (s : Storage) (c : ConnectionId) (a : Archive) : Storage :=
  { s with archives := s.archives.setIfInBounds (s.connection c).archive a }

/-- Close a connection; closing it again changes nothing. -/
def close (s : Storage) (c : ConnectionId) : Storage :=
  { s with connections := s.connections.modify c.index ({ · with closed := true }) }

/-- Store a module and all it imports. Encoding may fail for a routine without code. -/
def put (s : Storage) (c : ConnectionId) (cancelled : Bool) (g : Graph) (m : ModuleId) :
    Except ArchiveError (Except Image.NoCode (Hash × Storage)) := do
  let a ← s.archive c cancelled "beginning transaction"
  return (a.put g m).map fun (h, a) => (h, s.setArchive c a)

def has (s : Storage) (c : ConnectionId) (cancelled : Bool) (h : Hash) :
    Except ArchiveError Bool := do
  return (← s.archive c cancelled "querying hash").has h

def list (s : Storage) (c : ConnectionId) (cancelled : Bool) : Except ArchiveError (List Row) := do
  return (← s.archive c cancelled "listing modules").list

def delete (s : Storage) (c : ConnectionId) (cancelled : Bool) (name : String) :
    Except ArchiveError Storage := do
  let a ← s.archive c cancelled ("deleting module " ++ name)
  match a.delete? name with
  | some a => return s.setArchive c a
  | none => throw (.notFound name)

end Storage

namespace Workspace

/-- The parts of a workspace that loading changes. -/
def loading (w : Workspace) (types : Registry) : Loading := { types, modules := w.modules }

/-- Take over what loading has changed. -/
def afterLoading (w : Workspace) (s : Loading) : Workspace :=
  { w with types := s.types, modules := s.modules }

/-- Read an image into a workspace. -/
def readImage (w : Workspace) (bytes : List UInt8) (options : Image.Options) :
    Except Image.ImageError ModuleId × Workspace :=
  match Image.decode bytes options w.types with
  | (.error e, types) => (.error e, { w with types })
  | (.ok m, types) =>
    let (m, w) := { w with types }.addModule m
    (.ok m, w)

/-- The loader for some options. -/
def loader (a : Archive) (table : TableId) (options : Image.Options) : Archive.Loader where
  archive := a
  table := table
  builtins := options.builtins
  resolve := options.resolve

/-- Load a module by name. The table for its types is opened before anything else. -/
def getModule (w : Workspace) (s : Storage) (c : ConnectionId) (cancelled : Bool) (name : String)
    (options : Image.Options) : Except ArchiveError ModuleId × Workspace :=
  let (table, types) := Image.openTable options.table w.types
  let w := { w with types }
  match s.archive c cancelled ("module " ++ name ++ ": querying module") with
  | .error e => (.error e, w)
  | .ok a =>
    let (m, s) := Archive.get (loader a table options) name (w.loading types)
    (m.mapError .load, w.afterLoading s)

/-- Load a module by the digest of its image. -/
def getModuleByHash (w : Workspace) (s : Storage) (c : ConnectionId) (cancelled : Bool) (h : Hash)
    (options : Image.Options) : Except ArchiveError ModuleId × Workspace :=
  match s.archive c cancelled ("module " ++ h.render ++ ": querying module") with
  | .error e => (.error e, w)
  | .ok a =>
    let (table, types) := Image.openTable options.table w.types
    match Archive.getByHash? (loader a table options) h (w.loading types) with
    | none => (.error (.notFound h.render), w)
    | some (m, s) => (m.mapError .load, w.afterLoading s)

end Workspace
end Stackwork
