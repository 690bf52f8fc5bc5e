import Stackwork.Manifest.Document

/-!
# Finding manifests

A manifest is a file with one of two names, of which the first is preferred. The search
for one goes from a folder upward to the root and stops at the first folder that has an
entry with such a name, whatever that entry is.
-/
namespace Stackwork

/-- An entry of a directory tree. -/
inductive TreeEntry where
  | file (text : String)
  | folder
deriving DecidableEq

/-- A directory tree: what is found under a path. -/
structure Tree where
  entry? : Folder → Option TreeEntry

namespace Tree

/-- Whether the way from the root to a place leads through a folder, or ends there. -/
def passes (f place : Folder) : Bool := f.names.isSuffixOf place.names

/-- The tree with the given files and folders, and the folders around them. -/
def ofLists (files : List (Folder × String)) (folders : List Folder) : Tree where
  entry? f :=
    match files.lookup f with
    | some text => some (.file text)
    | none =>
      if folders.any (passes f) || files.any (fun (p, _) => passes f p) then some .folder else none

end Tree

namespace Manifest

/-- The name of the file that holds a manifest in a format. -/
def Format.fileName : Format → String
  | toml => "ymsl.toml"
  | yaml => "ymsl.yaml"

/-- Why no manifest is loaded. -/
inductive LoadError where
  /-- There is none in the directory, which is given as asked for. -/
  | missing (dir : String)
  /-- What has the name of a manifest is not a file. -/
  | unreadable (path : String)
  | malformed (path : String)
deriving DecidableEq

def LoadError.message : LoadError → String
  | missing dir =>
    "no " ++ Format.toml.fileName ++ " or " ++ Format.yaml.fileName ++ " in " ++ dir ++
      ": file does not exist"
  | unreadable path => "cannot read " ++ path
  | malformed path => "parse error in " ++ path

/-- The format of the manifest in a folder, if it has one. -/
def formatIn? (t : Tree) (f : Folder) : Option Format :=
  [Format.toml, .yaml].find? fun format => (t.entry? (f.entry format.fileName)).isSome

/-- Read the manifest of a folder, which was asked for as `dir`. -/
def loadFrom (t : Tree) (f : Folder) (dir : String) : Except LoadError Manifest :=
  match formatIn? t f with
  | none => .error (.missing dir)
  | some format =>
    let place := f.entry format.fileName
    match t.entry? place with
    | some (.file text) =>
      match parse format text with
      | .ok m => .ok { m with dir := f.render }
      | .error _ => .error (.malformed place.render)
    | _ => .error (.unreadable place.render)

/-- Load the manifest in the directory at an absolute path. -/
def load (t : Tree) (dir : String) : Except LoadError Manifest := loadFrom t (.ofPath dir) dir

/-- Load the manifest of the nearest folder that has one, going upward until there is no
other folder around. -/
def findFrom (t : Tree) (f : Folder) : Option (Except LoadError Manifest) :=
  if (formatIn? t f).isSome then some (load t f.render)
  else if _h : f.outer = f then none
  else findFrom t f.outer
termination_by f.names.length
decreasing_by exact Folder.length_outer_lt ‹_›

/-- Load the nearest manifest from the directory at a path upward. -/
def find (t : Tree) (here : Folder) (start : String) : Option (Except LoadError Manifest) :=
  findFrom t (here.resolve start)

end Manifest
end Stackwork
