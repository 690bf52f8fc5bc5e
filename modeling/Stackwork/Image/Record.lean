import Stackwork.Cbor.View
import Stackwork.Cbor.Write

/-!
# Image records

What an image says about a module, as plain data: types by position in a list, code as
numbers, imports and host functions by name. A record is written as a map with numbered
fields; a field that is empty or zero is left out where its absence says the same.
-/
namespace Stackwork.Image

open Stackwork.Cbor

/-- A type. Components are positions in the list of types, counted from one. -/
structure TypeRecord where
  kind : Nat := 0
  name : String := ""
  elem : Int := 0
  key : Int := 0
  output : Int := 0
  inputs : List Int := []
  members : List (String × Int) := []
deriving DecidableEq

/-- A global. -/
structure VariableRecord where
  name : String := ""
  type : Int := 0
  index : Int := 0
deriving DecidableEq

/-- A routine. -/
structure RoutineRecord where
  name : String := ""
  type : Int := 0
  index : Int := 0
  builtin : Bool := false
  code : List UInt32 := []
  locals : List UInt8 := []
deriving DecidableEq

/-- A module. -/
structure ModuleRecord where
  name : String := ""
  id : List UInt8 := []
  imports : List String := []
  functionBase : Int := 0
  globalBase : Int := 0
  stringBase : Int := 0
  types : List TypeRecord := []
  globals : List VariableRecord := []
  routines : List RoutineRecord := []
  strings : List String := []
  init : List UInt32 := []
deriving DecidableEq

/-- A field that is always written. -/
def always (key : Nat) (item : Item) : List (Nat × Item) := [(key, item)]

/-- A number that is written unless it is zero. -/
def unlessZero (key : Nat) (i : Int) : List (Nat × Item) := if i = 0 then [] else [(key, .ofInt i)]

/-- A text that is written unless it is empty. -/
def unlessBlank (key : Nat) (s : String) : List (Nat × Item) :=
  if s = "" then [] else [(key, .ofString s)]

/-- A list that is written unless it is empty. -/
def unlessEmpty {α : Type} (key : Nat) (f : α → Item) (xs : List α) : List (Nat × Item) :=
  if xs.isEmpty then [] else [(key, .array (xs.map f))]

def ofWord (w : UInt32) : Item := .uint w.toNat

def memberItem (m : String × Int) : Item :=
  .ofFields (always 1 (.ofString m.1) ++ always 2 (.ofInt m.2))

def TypeRecord.item (t : TypeRecord) : Item :=
  .ofFields (always 1 (.uint t.kind) ++ unlessBlank 2 t.name ++ unlessZero 3 t.elem ++
    unlessZero 4 t.key ++ unlessZero 5 t.output ++ unlessEmpty 6 Item.ofInt t.inputs ++
    unlessEmpty 7 memberItem t.members)

def VariableRecord.item (v : VariableRecord) : Item :=
  .ofFields (always 1 (.ofString v.name) ++ always 2 (.ofInt v.type) ++ always 3 (.ofInt v.index))

def RoutineRecord.item (r : RoutineRecord) : Item :=
  .ofFields (always 1 (.ofString r.name) ++ always 2 (.ofInt r.type) ++ always 3 (.ofInt r.index) ++
    (if r.builtin then always 4 (.ofBool true) else []) ++ unlessEmpty 5 ofWord r.code ++
    (if r.locals.isEmpty then [] else always 6 (.ofBytes r.locals)))

def ModuleRecord.item (m : ModuleRecord) : Item :=
  .ofFields (always 1 (.ofString m.name) ++ always 2 (.ofBytes m.id) ++
    unlessEmpty 3 Item.ofString m.imports ++ always 4 (.ofInt m.functionBase) ++
    always 5 (.ofInt m.globalBase) ++ always 6 (.ofInt m.stringBase) ++
    unlessEmpty 7 TypeRecord.item m.types ++ unlessEmpty 8 VariableRecord.item m.globals ++
    unlessEmpty 9 RoutineRecord.item m.routines ++ unlessEmpty 10 Item.ofString m.strings ++
    unlessEmpty 11 ofWord m.init)

def toWord? (item : Item) : Option UInt32 := (item.unsigned? 32).map UInt32.ofNat

def toMember? (item : Item) : Option (String × Int) := do
  let fs ← item.fields?
  return (← field? fs 1 "" Item.string?, ← field? fs 2 0 Item.int?)

def TypeRecord.ofItem? (item : Item) : Option TypeRecord := do
  let fs ← item.fields?
  return {
    kind := ← field? fs 1 0 (Item.unsigned? 8)
    name := ← field? fs 2 "" Item.string?
    elem := ← field? fs 3 0 Item.int?
    key := ← field? fs 4 0 Item.int?
    output := ← field? fs 5 0 Item.int?
    inputs := ← field? fs 6 [] (Item.list? Item.int?)
    members := ← field? fs 7 [] (Item.list? toMember?) }

def VariableRecord.ofItem? (item : Item) : Option VariableRecord := do
  let fs ← item.fields?
  return {
    name := ← field? fs 1 "" Item.string?
    type := ← field? fs 2 0 Item.int?
    index := ← field? fs 3 0 Item.int? }

def RoutineRecord.ofItem? (item : Item) : Option RoutineRecord := do
  let fs ← item.fields?
  return {
    name := ← field? fs 1 "" Item.string?
    type := ← field? fs 2 0 Item.int?
    index := ← field? fs 3 0 Item.int?
    builtin := ← field? fs 4 false Item.bool?
    code := ← field? fs 5 [] (Item.list? toWord?)
    locals := ← field? fs 6 [] Item.byteList? }

def ModuleRecord.ofItem? (item : Item) : Option ModuleRecord := do
  let fs ← item.fields?
  return {
    name := ← field? fs 1 "" Item.string?
    id := ← field? fs 2 [] Item.byteList?
    imports := ← field? fs 3 [] (Item.list? Item.string?)
    functionBase := ← field? fs 4 0 Item.int?
    globalBase := ← field? fs 5 0 Item.int?
    stringBase := ← field? fs 6 0 Item.int?
    types := ← field? fs 7 [] (Item.list? TypeRecord.ofItem?)
    globals := ← field? fs 8 [] (Item.list? VariableRecord.ofItem?)
    routines := ← field? fs 9 [] (Item.list? RoutineRecord.ofItem?)
    strings := ← field? fs 10 [] (Item.list? Item.string?)
    init := ← field? fs 11 [] (Item.list? toWord?) }

end Stackwork.Image
