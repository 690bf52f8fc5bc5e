import Stackwork.Archive.Basic
import Stackwork.Image.Decode

/-!
# Loading from an archive

A module is loaded with its imports, which come from the archive as well unless the
caller finds them elsewhere. A module that is imported along several ways is read once,
so that the result links as one program. Names of imports in an archive may go round in
a circle; then loading has no end, which shows as a depth beyond the number of rows.
-/
namespace Stackwork

/-- Why a module cannot be loaded. -/
inductive LoadFailure where
  | notFound (name : String)
  /-- The image of a named module is not usable. -/
  | image (name : String) (e : Image.ImageError)
  /-- The image at hand is not usable. -/
  | rootImage (e : Image.ImageError)
  /-- The caller does not know the module. -/
  | elsewhere (reason : String)
  /-- The imports go round in a circle. -/
  | endless

def LoadFailure.message : LoadFailure → String
  | notFound name => "module " ++ name ++ ": module not found"
  | image name e => "module " ++ name ++ ": " ++ e.message
  | rootImage e => e.message
  | elsewhere reason => reason
  | endless => "imports without end"

/-- What loading changes: types, modules, and the modules loaded so far by name. -/
structure Loading where
  types : Registry
  modules : Graph
  loaded : List (String × ModuleId) := []

namespace Archive

/-- What stays the same while imports are followed. -/
structure Loader where
  archive : Archive
  table : TableId
  builtins : Image.Builtins := fun _ => none
  /-- Finds imports in place of the archive. -/
  resolve : Option (String → Except String ModuleId) := none

/-- A way to find a module by name. -/
abbrev Finder := String → Loading → Except LoadFailure ModuleId × Loading

/-- Find imports in order. The reason why one cannot be found becomes part of an error
about the image; imports without end stay what they are. -/
def loadImports (find : Finder) : List String → Loading →
    Except LoadFailure (List ModuleId) × Loading
  | [], s => (.ok [], s)
  | name :: rest, s =>
    match find name s with
    | (.error .endless, s) => (.error .endless, s)
    | (.error e, s) => (.error (.rootImage (.unresolvedImport name (some e.message))), s)
    | (.ok m, s) =>
      match loadImports find rest s with
      | (.ok ms, s) => (.ok (m :: ms), s)
      | (.error e, s) => (.error e, s)

/-- Read an image, with its imports found as given. -/
def loadImage (l : Loader) (find : Finder) (bytes : List UInt8) (s : Loading) :
    Except LoadFailure ModuleId × Loading :=
  match (do
    let r ← Image.readRecord bytes
    return (r, ← r.uuid)) with
  | .error e => (.error (.rootImage e), s)
  | .ok (r, id) =>
    match loadImports find r.imports s with
    | (.error e, s) => (.error e, s)
    | (.ok imports, s) =>
      match r.complete l.table l.builtins id imports s.types with
      | (.error e, types) => (.error (.rootImage e), { s with types })
      | (.ok m, types) =>
        let (m, modules) := s.modules.add m
        (.ok m, { s with types, modules })

/-- Find the imports of an image: where the caller says, or in the archive. -/
def finder (l : Loader) (load : Finder) : Finder :=
  match l.resolve with
  | none => load
  | some find => fun name s =>
    match find name with
    | .ok m => (.ok m, s)
    | .error reason => (.error (.elsewhere reason), s)

/-- Load a module by name. The first argument bounds how deep imports are followed. -/
def load (l : Loader) : Nat → Finder
  | 0, _, s => (.error .endless, s)
  | depth + 1, name, s =>
    match s.loaded.lookup name with
    | some m => (.ok m, s)
    | none =>
      match l.archive.find? name with
      | none => (.error (.notFound name), s)
      | some row =>
        match loadImage l (finder l (load l depth)) row.image s with
        | (.ok m, s) => (.ok m, { s with loaded := (name, m) :: s.loaded })
        | (.error (.rootImage e), s) => (.error (.image name e), s)
        | (.error e, s) => (.error e, s)

/-- A chain of imports without repetition is no longer than the archive. -/
def maxDepth (a : Archive) : Nat := a.rows.length + 1

/-- Load the module with a name. -/
def get (l : Loader) (name : String) (s : Loading) : Except LoadFailure ModuleId × Loading :=
  load l l.archive.maxDepth name s

/-- Load the module whose image has a digest; nothing if there is none. -/
def getByHash? (l : Loader) (h : Hash) (s : Loading) :
    Option (Except LoadFailure ModuleId × Loading) :=
  (l.archive.findHash? h).map fun row =>
    loadImage l (finder l (load l l.archive.maxDepth)) row.image s

end Archive
end Stackwork
