import Stackwork.Digest
import Stackwork.Image.Encode

/-!
# Archives of modules

A table of module images, one row a module name, each with the digest of its image and
the identifier of the module. A module is stored together with everything it imports,
all rows or none. Rows are listed by name.
-/
namespace Stackwork

/-- The digest of an image: 32 bytes. -/
structure Hash where
  bytes : List UInt8
deriving DecidableEq

/-- Why a text is not a digest. -/
inductive HashError where
  | hex (e : Text.HexError)
  | size (got : Nat)
deriving DecidableEq

def HashError.message : HashError → String
  | hex e => e.message
  | size got => "hash has " ++ toString got ++ " bytes, want 32"

namespace Hash

/-- The digest of nothing that was ever written: all bytes zero. -/
def zero : Hash := ⟨List.replicate 32 0⟩

def of (image : List UInt8) : Hash := ⟨Digest.sha256 image⟩

def render (h : Hash) : String := Text.renderHex h.bytes

/-- Read the text form of a digest. -/
def parse (s : String) : Except HashError Hash := do
  let bytes ← (Text.parseHex s).mapError .hex
  if bytes.length ≠ 32 then throw (.size bytes.length)
  return ⟨bytes⟩

end Hash

/-- One stored module. -/
structure Row where
  name : String
  hash : Hash
  id : Uuid
  image : List UInt8
deriving DecidableEq

/-- All stored modules, no name twice. -/
structure Archive where
  rows : List Row := []
deriving DecidableEq

namespace Archive

def find? (a : Archive) (name : String) : Option Row := a.rows.find? (·.name = name)

def findHash? (a : Archive) (h : Hash) : Option Row := a.rows.find? (·.hash = h)

/-- Whether an image with a digest is stored. -/
def has (a : Archive) (h : Hash) : Bool := (a.findHash? h).isSome

/-- Store a row in place of an older one with its name. -/
def insert (a : Archive) (r : Row) : Archive := ⟨a.rows.filter (·.name ≠ r.name) ++ [r]⟩

/-- The rows by name. -/
def list (a : Archive) : List Row := a.rows.mergeSort fun r s => r.name ≤ s.name

/-- The names in order. -/
def names (a : Archive) : List String := a.list.map (·.name)

/-- Remove a row; nothing if there is none. -/
def delete? (a : Archive) (name : String) : Option Archive :=
  match a.find? name with
  | some _ => some ⟨a.rows.filter (·.name ≠ name)⟩
  | none => none

/-- The row that stores a module. -/
def rowOf (g : Graph) (m : Module) : Except Image.NoCode Row := do
  let image ← Image.encode g m
  return { name := m.name, hash := .of image, id := m.id, image }

/-- Store modules in order. The digest is that of the last image written, or the one given if there
is none. -/
def store (g : Graph) : List ModuleId → Hash → Archive → Except Image.NoCode (Hash × Archive)
  | [], h, a => .ok (h, a)
  | m :: ms, _, a => do
    let row ← rowOf g (g.get m)
    store g ms row.hash (a.insert row)

/-- Store a module and everything it imports, and give the digest of the last image written. -/
def put (a : Archive) (g : Graph) (m : ModuleId) : Except Image.NoCode (Hash × Archive) :=
  store g (g.flatten [m]) .zero a

end Archive
end Stackwork
