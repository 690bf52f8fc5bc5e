import Stackwork.Text.Bytes

/-!
# Identifiers

Sixteen bytes that name a module, written as 32 hexadecimal digits in five groups.
-/
namespace Stackwork

/-- How many bytes an identifier has. -/
def Uuid.size : Nat := 16

/-- A row of sixteen bytes. -/
structure Uuid where
  bytes : List UInt8
  length_eq : bytes.length = Uuid.size
deriving DecidableEq

namespace Uuid

/-- The identifier of no module in particular. -/
def zero : Uuid := ⟨List.replicate size 0, List.length_replicate⟩

instance : Inhabited Uuid := ⟨zero⟩

/-- An identifier from exactly sixteen bytes. -/
def ofBytes? (bytes : List UInt8) : Option Uuid :=
  if h : bytes.length = size then some ⟨bytes, h⟩ else none

/-- Groups of four, two, two, two and six bytes. -/
def render (u : Uuid) : String :=
  let group := fun start count => Text.renderHex ((u.bytes.drop start).take count)
  "-".intercalate [group 0 4, group 4 2, group 6 2, group 8 2, group 10 6]

/-- Read an identifier written in five groups. -/
def parse? (s : String) : Option Uuid :=
  let groups := s.splitOn "-"
  if groups.map String.length = [8, 4, 4, 4, 12] then
    match Text.parseHex (String.join groups) with
    | .ok bytes => ofBytes? bytes
    | .error _ => none
  else none

end Uuid
end Stackwork
