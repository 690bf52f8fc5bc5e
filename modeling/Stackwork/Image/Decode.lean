import Stackwork.Cbor.Read
import Stackwork.Image.Encode
import Stackwork.Ty.Registry

/-!
# Reading images

The bytes of an image are read to a record, and the record is completed to a module: its
types are entered into a table, its imports and host functions are looked up by name.
Structural types are shared with what the table has, enums are new. Types entered before
an error is found stay in the table.
-/
namespace Stackwork.Image

/-- Check the magic word and read the version. -/
def readVersion (bytes : List UInt8) : Except ImageError Nat :=
  if bytes.length < magic.length + 2 then .error (.tooShort bytes.length)
  else if bytes.take magic.length ≠ magic then .error .wrongMagic
  else .ok (Cbor.ofBigEndian ((bytes.drop magic.length).take 2))

/-- Read the record of an image. -/
def readRecord (bytes : List UInt8) : Except ImageError ModuleRecord := do
  let v ← readVersion bytes
  if v ≠ version then throw (.wrongVersion v)
  match (Cbor.Item.decode? (bytes.drop (magic.length + 2))).bind ModuleRecord.ofItem? with
  | some r => return r
  | none => throw .unreadable

/-- The identifier in a record; without one it is zero. -/
def ModuleRecord.uuid (r : ModuleRecord) : Except ImageError Uuid :=
  if r.id.isEmpty then .ok .zero
  else
    match Uuid.ofBytes? r.id with
    | some u => .ok u
    | none => .error (.wrongId r.id.length)

/-- A position in a list, counted from one. -/
def atPosition? {α : Type} (xs : List α) (ref : Int) : Option α :=
  if 1 ≤ ref then xs[(ref - 1).toNat]? else none

/-- Host functions by name. A name may be bound to no function. -/
abbrev Builtins := String → Option (Option Builtin)

/-- Enter one type, built from those before it. -/
def addType (t : TableId) (before : List Ty) (r : TypeRecord) (types : Registry) :
    Except ImageError (Ty × Registry) := do
  let component := fun (ref : Int) =>
    match atPosition? before ref with
    | some c => pure c
    | none => Except.error (.componentOutOfRange (before.length + 1) ref)
  match TyKind.ofCode? r.kind with
  | some .void => return (types.prim t .void, types)
  | some .boolean => return (types.prim t .boolean, types)
  | some .int => return (types.prim t .int, types)
  | some .float => return (types.prim t .float, types)
  | some .string => return (types.prim t .string, types)
  | some .array => return types.arrayOf t (← component r.elem)
  | some .set => return types.setOf t (← component r.elem)
  | some .map =>
    let key ← component r.key
    return types.mapOf t key (← component r.elem)
  | some .enum => return types.enumOf t r.name (r.members.map fun (n, v) => ⟨n, v⟩)
  | some .function =>
    let output ← component r.output
    return types.functionOf t output (← r.inputs.mapM component)
  | none => throw (.unknownKind r.kind)

/-- Enter types in order; those entered before an error stay. -/
def addTypes (t : TableId) (before : List Ty) :
    List TypeRecord → Registry → Except ImageError (List Ty) × Registry
  | [], types => (.ok before, types)
  | r :: rs, types =>
    match addType t before r types with
    | .error e => (.error e, types)
    | .ok (ty, types) => addTypes t (before ++ [ty]) rs types

/-- The type at a position of the list. -/
def typeAt (types : List Ty) (ref : Int) : Except ImageError Ty :=
  match atPosition? types ref with
  | some t => .ok t
  | none => .error (.typeOutOfRange ref)

def readGlobal (types : List Ty) (r : VariableRecord) : Except ImageError Variable := do
  return { name := r.name, type := ← typeAt types r.type, binding := .global, index := r.index }

def readRoutine (types : List Ty) (builtins : Builtins) (r : RoutineRecord) :
    Except ImageError Routine := do
  let t ← typeAt types r.type
  if t.kind ≠ .function then throw (.notAFunction r.name t)
  if r.builtin then
    match builtins r.name with
    | none => throw (.unknownBuiltin r.name)
    | some (some builtin) => return ⟨r.name, t, r.index, .host builtin⟩
    | some none => return ⟨r.name, t, r.index, .compiled none []⟩
  else if r.locals.length < t.inputs.length then throw (.smallFrame r.name)
  else return ⟨r.name, t, r.index, .compiled (some (.ofList r.code)) (r.locals.map Kind.mk)⟩

/-- Complete a record to a module, given its identifier and imports. -/
def ModuleRecord.complete (r : ModuleRecord) (table : TableId) (builtins : Builtins) (id : Uuid)
    (imports : List ModuleId) (types : Registry) : Except ImageError Module × Registry :=
  match addTypes table [] r.types types with
  | (.error e, types) => (.error e, types)
  | (.ok tys, types) =>
    let m : Except ImageError Module := do
      let globals ← r.globals.mapM (readGlobal tys)
      let routines ← r.routines.mapM (readRoutine tys builtins)
      return {
        name := r.name, id, imports, routines, globals
        strings := r.strings
        bases := ⟨r.functionBase, r.globalBase, r.stringBase⟩
        init := if r.init.isEmpty then none else some (.ofList r.init) }
    (m, types)

/-- What a reader needs besides the bytes. -/
structure Options where
  /-- The table that takes the types; without one a new table is opened. -/
  table : Option TableId := none
  builtins : Builtins := fun _ => none
  /-- Finds a module by name, or says why not. -/
  resolve : Option (String → Except String ModuleId) := none

/-- Look imports up in order. -/
def resolveImports (resolve : Option (String → Except String ModuleId)) (names : List String) :
    Except ImageError (List ModuleId) :=
  names.mapM fun name =>
    match resolve with
    | none => .error (.unresolvedImport name none)
    | some find => (find name).mapError fun reason => .unresolvedImport name (some reason)

/-- The table to use: the one given, or a new one. -/
def openTable (table : Option TableId) (types : Registry) : TableId × Registry :=
  match table with
  | some t => (t, types)
  | none => types.newTable

/-- Read the image of a module. -/
def decode (bytes : List UInt8) (options : Options) (types : Registry) :
    Except ImageError Module × Registry :=
  match readRecord bytes with
  | .error e => (.error e, types)
  | .ok r =>
    let (table, types) := openTable options.table types
    match (do return (← r.uuid, ← resolveImports options.resolve r.imports)) with
    | .error e => (.error e, types)
    | .ok (id, imports) => r.complete table options.builtins id imports types

end Stackwork.Image
