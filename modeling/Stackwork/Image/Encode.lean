import Stackwork.Image.Error
import Stackwork.Image.Record
import Stackwork.Module.Graph

/-!
# Writing images

A module image is a magic word, a version and a record. Types are listed once each, in
the order in which they are first needed, components before what is built from them.
-/
namespace Stackwork.Image

/-- The bytes every image starts with. -/
def magic : List UInt8 := "YMSL".toUTF8.toList

/-- The types listed so far, and the position of each by registration number. -/
structure TypeList where
  records : List TypeRecord := []
  positions : List (Nat × Int) := []

namespace TypeList

/-- Append a type under the next position. -/
def push (l : TypeList) (t : Ty) (r : TypeRecord) : Int × TypeList :=
  let position : Int := l.records.length + 1
  (position, ⟨l.records ++ [r], (t.id, position) :: l.positions⟩)

mutual
/-- The position of a type, which is listed now unless it is already. -/
def ref (l : TypeList) (t : Ty) : Int × TypeList :=
  match l.positions.lookup t.id with
  | some position => (position, l)
  | none =>
    match t with
    | .prim _ p => l.push t { kind := p.kind.code }
    | .array _ e =>
      let (elem, l) := l.ref e
      l.push t { kind := TyKind.array.code, elem }
    | .set _ e =>
      let (elem, l) := l.ref e
      l.push t { kind := TyKind.set.code, elem }
    | .map _ k e =>
      let (key, l) := l.ref k
      let (elem, l) := l.ref e
      l.push t { kind := TyKind.map.code, key, elem }
    | .enum _ name members =>
      l.push t { kind := TyKind.enum.code, name, members := members.map fun m => (m.name, m.value) }
    | .function _ o is =>
      let (output, l) := l.ref o
      let (inputs, l) := l.refs is
      l.push t { kind := TyKind.function.code, output, inputs }

/-- The positions of several types. -/
def refs (l : TypeList) : List Ty → List Int × TypeList
  | [] => ([], l)
  | t :: ts =>
    let (first, l) := l.ref t
    let (rest, l) := l.refs ts
    (first :: rest, l)
end

end TypeList

/-- A routine without code cannot be written. -/
structure NoCode where
  routine : String
deriving DecidableEq

/-- The records of globals. -/
def globalRecords (l : TypeList) : List Variable → List VariableRecord × TypeList
  | [] => ([], l)
  | v :: vs =>
    let (type, l) := l.ref v.type
    let (rest, l) := globalRecords l vs
    ({ name := v.name, type, index := v.index } :: rest, l)

/-- The records of routines. -/
def routineRecords (l : TypeList) : List Routine → Except NoCode (List RoutineRecord × TypeList)
  | [] => .ok ([], l)
  | r :: rs => do
    let (type, l) := l.ref r.type
    let record : RoutineRecord := { name := r.name, type, index := r.index }
    let record ←
      match r.body with
      | .host _ => pure { record with builtin := true }
      | .compiled none _ => throw ⟨r.name⟩
      | .compiled (some code) locals =>
        pure { record with code := code.toList, locals := locals.map (·.code) }
    let (rest, l) ← routineRecords l rs
    return (record :: rest, l)

/-- The record of a module of a collection. -/
def record (g : Graph) (m : Module) : Except NoCode ModuleRecord := do
  let (globals, l) := globalRecords {} m.globals
  let (routines, l) ← routineRecords l m.routines
  return {
    name := m.name
    id := m.id.bytes
    imports := m.imports.map fun i => (g.get i).name
    functionBase := m.bases.functions
    globalBase := m.bases.globals
    stringBase := m.bases.strings
    types := l.records
    globals, routines
    strings := m.strings
    init := (m.init.map Code.toList).getD [] }

/-- The image of a module. -/
def encode (g : Graph) (m : Module) : Except NoCode (List UInt8) := do
  let r ← record g m
  return magic ++ Cbor.bigEndian 2 version ++ r.item.encode

end Stackwork.Image
