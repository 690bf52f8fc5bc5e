/-!
# Paths

Texts that name places in a tree of directories, with slashes between the parts. Cleaning
a path drops empty parts and dots and lets two dots take back the part before them; it
looks at nothing but the text. Folders are cleaned paths from the root.
-/
namespace Stackwork
namespace Path

/-- Whether a path starts at the root. -/
def isAbsolute (p : String) : Bool := p.startsWith "/"

/-- The parts of a path between its slashes. -/
def parts (p : String) : List String := (p.toList.splitOn '/').map String.ofList

/-- The parts of a path after cleaning, innermost first. Above the root there is nothing;
a relative path may lead up out of where it starts. -/
def cleanParts (absolute : Bool) : List String → List String → List String
  | done, [] => done
  | done, part :: rest =>
    if part = "" ∨ part = "." then cleanParts absolute done rest
    else if part = ".." then
      match done with
      | [] => cleanParts absolute (if absolute then [] else [".."]) rest
      | ".." :: _ => cleanParts absolute (".." :: done) rest
      | _ :: outer => cleanParts absolute outer rest
    else cleanParts absolute (part :: done) rest

/-- The shortest path to the same place. -/
def clean (p : String) : String :=
  let absolute := isAbsolute p
  let inner := "/".intercalate (cleanParts absolute [] (parts p)).reverse
  if absolute then "/" ++ inner else if inner = "" then "." else inner

/-- A path taken from a directory; an empty directory is where we are. -/
def join (dir p : String) : String :=
  if dir ≠ "" then clean (dir ++ "/" ++ p) else if p ≠ "" then clean p else ""

end Path

/-- A directory, by the names from the root to it, innermost first. -/
structure Folder where
  names : List String
deriving DecidableEq

namespace Folder

/-- The folder that an absolute path leads to. -/
def ofPath (p : String) : Folder := ⟨Path.cleanParts true [] (Path.parts p)⟩

def render (f : Folder) : String := "/" ++ "/".intercalate f.names.reverse

/-- The folder that a path leads to, from the root or from where we are. -/
def resolve (here : Folder) (p : String) : Folder :=
  if Path.isAbsolute p then ofPath p else ofPath (here.render ++ "/" ++ p)

/-- The folder around a folder. The root is around itself. -/
def outer (f : Folder) : Folder := ⟨f.names.tail⟩

theorem length_outer_lt {f : Folder} (h : f.outer ≠ f) : f.outer.names.length < f.names.length := by
  match f, h with
  | ⟨[]⟩, h => exact absurd rfl h
  | ⟨_ :: names⟩, _ => exact Nat.lt_succ_self names.length

/-- The path of an entry of a folder. -/
def entry (f : Folder) (name : String) : Folder := ⟨name :: f.names⟩

end Folder
end Stackwork
