import Stackwork.Lang.Fold
import Stackwork.Lang.Generate
import Stackwork.Lang.Scope
import Stackwork.Module.Graph

/-!
# Programs and the workspace

A program collects the declarations and statements of one module and gives every global,
local and function its index as it is declared, without gaps. A workspace holds
everything that programs share: types, scopes, finished modules and the programs
themselves. A declaration that fails leaves an error with its program and changes
nothing else, apart from types it may have registered.
-/
namespace Stackwork

/-- Names one program of a workspace. -/
structure ProgramId where
  index : Nat
deriving DecidableEq, Inhabited

/-- What a declared function consists of. -/
inductive FunctionBody where
  | host (builtin : Builtin)
  /-- The scope of the parameters, how many there are, every local in index order with
  the parameters first, and the statements. -/
  | source (scope : ScopeId) (params : Nat) (locals : Array Variable) (stmts : Array Stmt)

/-- A function of a program. -/
structure FunctionDecl where
  name : String
  type : Ty
  index : Int
  body : FunctionBody

/-- A module under construction. -/
structure Program where
  name : String
  table : TableId
  imports : List ModuleId := []
  /-- Sizes of the imported tables, which are the bases of this module. -/
  layout : Layout := {}
  scope : ScopeId
  globals : Array Variable := #[]
  functions : Array FunctionDecl := #[]
  /-- String literals of the code generated so far. -/
  texts : List String := []
  /-- The enums declared here, by registration number, with the scopes of their members. -/
  enums : List (Nat × ScopeId) := []
  init : Array Stmt := #[]
  errors : Array CompileError := #[]

instance : Inhabited Program := ⟨{ name := "", table := default, scope := default }⟩

/-- Everything programs share. -/
structure Workspace where
  types : Registry := .empty
  scopes : Forest := {}
  modules : Graph := {}
  programs : Array Program := #[]
  /-- The next label to hand out. -/
  nextLabel : Nat := 0

namespace Program

def render (p : Program) : String :=
  "program " ++ p.name ++ " (" ++ toString p.functions.size ++ " functions, " ++
    toString p.globals.size ++ " globals)"

/-- The heap index of the next global. -/
def nextGlobal (p : Program) : Int := p.layout.globals + p.globals.size

/-- The function index of the next function. -/
def nextFunction (p : Program) : Int := p.layout.functions + p.functions.size

end Program

namespace Workspace

def program (w : Workspace) (p : ProgramId) : Program := w.programs.getD p.index default

def modifyProgram (w : Workspace) (p : ProgramId) (f : Program → Program) : Workspace :=
  { w with programs := w.programs.modify p.index f }

/-- Keep an error with a program. -/
def record (w : Workspace) (p : ProgramId) (e : CompileError) : Workspace :=
  w.modifyProgram p fun prog => { prog with errors := prog.errors.push e }

/-- The declaration of a function that has a body. -/
def declared? (w : Workspace) (key : UnitKey) : Option FunctionDecl :=
  (w.program ⟨key.program⟩).functions[key.position]?

/-- The scope of a function's parameters, how many there are, and its locals; only a
function with a body has them. -/
def source? (w : Workspace) (f : Callable) : Option (ScopeId × Nat × List Variable) :=
  match f.origin with
  | .declared key =>
    match w.declared? key with
    | some { body := .source scope params locals _, .. } => some (scope, params, locals.toList)
    | _ => none
  | _ => none

/-- The scope that holds the parameters of a function. -/
def scopeOf? (w : Workspace) (f : Callable) : Option ScopeId := (w.source? f).map (·.1)

/-- Every local of a function in index order. -/
def localsOf (w : Workspace) (f : Callable) : List Variable :=
  ((w.source? f).map (·.2.2)).getD []

/-- The parameters of a function, which are its first locals. -/
def paramsOf (w : Workspace) (f : Callable) : List Variable :=
  ((w.source? f).map fun (_, params, locals) => locals.take params).getD []

/-- The types of a program. -/
def tableOf (w : Workspace) (p : ProgramId) : TyTable := w.types.table (w.program p).table

end Workspace

/-- Commit a declaration to the workspace `w`. One that fails is only recorded. -/
def Workspace.commit {α : Type} (w : Workspace) (p : ProgramId) :
    Except CompileError (α × Workspace) → Except CompileError α × Workspace
  | .ok (a, w) => (.ok a, w)
  | .error e => (.error e, w.record p e)

namespace Workspace

/-- Open a table of types. -/
def newTable (w : Workspace) : TableId × Workspace :=
  let (t, types) := w.types.newTable
  (t, { w with types })

/-- The type of a shape in a table. -/
def intern (w : Workspace) (t : TableId) (s : Shape) : Ty × Workspace :=
  let (ty, types) := w.types.intern t s
  (ty, { w with types })

/-- A new enum type in a table. -/
def newEnum (w : Workspace) (t : TableId) (name : String) (members : List EnumMember) :
    Ty × Workspace :=
  let (ty, types) := w.types.enumOf t name members
  (ty, { w with types })

/-- Add a finished module. -/
def addModule (w : Workspace) (m : Module) : ModuleId × Workspace :=
  let (m, modules) := w.modules.add m
  (m, { w with modules })

/-- A label of its own. -/
def newLabel (w : Workspace) (name : String) : Label × Workspace :=
  (⟨w.nextLabel, name⟩, { w with nextLabel := w.nextLabel + 1 })

def newScope (w : Workspace) (parent : Option ScopeId) (name : String) : ScopeId × Workspace :=
  let (s, scopes) := w.scopes.new parent name
  (s, { w with scopes })

def declare (w : Workspace) (s : ScopeId) (name : String) (e : Entry) :
    Except CompileError Workspace :=
  (w.scopes.declare s name e).map fun scopes => { w with scopes }

/-- Make one import visible as a scope that holds its exports. Names that clash are
recorded and the rest goes on. -/
def importModule (p : ProgramId) (top : ScopeId) (w : Workspace) (m : Module) : Workspace :=
  let attempt := fun (w : Workspace) (r : Except CompileError Forest) =>
    match r with
    | .ok scopes => { w with scopes }
    | .error e => w.record p e
  let (s, w) := w.newScope (some top) m.name
  let w := m.routines.foldl
    (fun w r => attempt w (w.scopes.declare s r.name (.function ⟨r.name, r.type, r.index, .imported⟩))) w
  let w := m.globals.foldl (fun w v => attempt w (w.scopes.declare s v.name (.variable v))) w
  attempt w (w.scopes.declareScope top s)

/-- Start a program. Everything it declares is numbered behind what its imports bring. -/
def newProgram (w : Workspace) (name : String) (table : TableId) (imports : List ModuleId) :
    ProgramId × Workspace :=
  let (scope, w) := w.newScope none ""
  let layout := w.modules.layoutOf (w.modules.flatten imports)
  let p : ProgramId := ⟨w.programs.size⟩
  let w := { w with programs := w.programs.push { name, table, imports, layout, scope } }
  (p, (imports.map w.modules.get).foldl (importModule p scope) w)

/-- Allocate the next heap slot. -/
def declareGlobal (w : Workspace) (p : ProgramId) (scope : ScopeId) (name : String) (t : Ty) :
    Except CompileError Variable × Workspace :=
  w.commit p do
    let prog := w.program p
    (checkStorable name t).mapError (⟨prog.name, ·⟩)
    let v : Variable := { name, type := t, binding := .global, index := prog.nextGlobal }
    let w ← w.declare scope name (.variable v)
    return (v, w.modifyProgram p fun prog => { prog with globals := prog.globals.push v })

/-- Bind a function and give it the next function slot. -/
def addFunction (w : Workspace) (p : ProgramId) (scope : ScopeId) (origin : Origin)
    (name : String) (type : Ty) (body : FunctionBody) :
    Except CompileError (Callable × Workspace) := do
  let index := (w.program p).nextFunction
  let f : Callable := { name, type, index, origin }
  let w ← w.declare scope name (.function f)
  return (f, w.modifyProgram p fun prog =>
    { prog with functions := prog.functions.push { name, type, index, body } })

/-- Declare the parameters of a function in its scope, as its first locals. -/
def declareParams (unit : String) (key : UnitKey) (scope : ScopeId) :
    List (String × Ty) → Workspace × Array Variable → Except CompileError (Workspace × Array Variable)
  | [], done => .ok done
  | (name, t) :: rest, (w, locals) => do
    (checkStorable name t).mapError (⟨unit, ·⟩)
    let v : Variable :=
      { name, type := t, binding := .local, index := locals.size, owner := some key }
    let w ← w.declare scope name (.variable v)
    declareParams unit key scope rest (w, locals.push v)

/-- Declare a function with a body. Its parameters are the first locals, in a scope of
their own. -/
def declareFunction (w : Workspace) (p : ProgramId) (scope : ScopeId) (name : String)
    (output : Ty) (params : List (String × Ty)) : Except CompileError Callable × Workspace :=
  let prog := w.program p
  let (type, w) := w.intern prog.table (.function output (params.map (·.2)))
  w.commit p do
    let key : UnitKey := ⟨p.index, prog.functions.size⟩
    let (own, w) := w.newScope (some scope) name
    if output.kind ≠ .void then (checkElements output).mapError (⟨name, ·⟩)
    let (w, locals) ← declareParams prog.name key own params (w, #[])
    w.addFunction p scope (.declared key) name type (.source own params.length locals #[])

/-- Declare a host function. -/
def declareBuiltin (w : Workspace) (p : ProgramId) (scope : ScopeId) (name : String)
    (output : Ty) (inputs : List Ty) (builtin : Builtin) : Except CompileError Callable × Workspace :=
  let (type, w) := w.intern (w.program p).table (.function output inputs)
  w.commit p (w.addFunction p scope .builtin name type (.host builtin))

/-- The members of an enum from its items. A value that is not given is one more than
the one before, and zero at first; names and values are not repeated. -/
def enumMembers (tt : TyTable) (enum : String) :
    List (String × Option Expr) → Int → List EnumMember → Except CompileError (List EnumMember)
  | [], _, done => .ok done
  | (name, value) :: rest, next, done => do
    let next ←
      match value with
      | none => pure next
      | some e =>
        let v ← (e.fold tt).mapError (⟨"", ·⟩)
        if v.type.kind ≠ .int then throw ⟨enum, .memberValue name v.type⟩
        pure v.value.toInt.toInt
    if done.any (·.name = name) then throw ⟨enum, .memberTwice name⟩
    match done.find? (·.value = next) with
    | some earlier => throw ⟨enum, .valueTwice earlier.name name next⟩
    | none => enumMembers tt enum rest (next + 1) (done ++ [⟨name, next⟩])

/-- The constant of an enum member. At run time values have 32 bits. -/
def memberConstant (t : Ty) (m : EnumMember) : Constant where
  name := m.name
  type := t
  value := .ofInt (Int32.ofInt m.value)

/-- Declare an enum with one constant an item, in a scope of its own. -/
def declareEnum (w : Workspace) (p : ProgramId) (scope : ScopeId) (name : String)
    (items : List (String × Option Expr)) : Except CompileError Ty × Workspace :=
  match enumMembers (w.tableOf p) name items 0 [] with
  | .error e => (.error e, w.record p e)
  | .ok members =>
    let (t, w) := w.newEnum (w.program p).table name members
    w.commit p do
      let (own, w) := w.newScope (some scope) name
      let w ← members.foldlM (fun w m => w.declare own m.name (.constant (memberConstant t m))) w
      let w ← w.declare scope name (.type t (some own))
      return (t, w.modifyProgram p fun prog => { prog with enums := (t.id, own) :: prog.enums })

/-- The member of an enum declared in a program. -/
def enumConstant (w : Workspace) (p : ProgramId) (t : Ty) (name : String) :
    Except CompileError Constant :=
  let prog := w.program p
  match prog.enums.lookup t.id with
  | none => .error ⟨prog.name, .foreignEnum t⟩
  | some members =>
    match w.scopes.lookupLocal members name with
    | some (.constant c) => .ok c
    | _ => .error ⟨prog.name, .noMember t.name name⟩

/-- Fold an expression and bind the result. -/
def declareConst (w : Workspace) (p : ProgramId) (scope : ScopeId) (name : String) (t : Ty)
    (e : Expr) : Except CompileError Constant × Workspace :=
  w.commit p do
    let unit := (w.program p).name
    match t.kind with
    | .boolean | .int | .float | .enum => pure ()
    | _ => throw ⟨unit, .constantType name t⟩
    let v ← (e.fold (w.tableOf p)).mapError (⟨"", ·⟩)
    if !assignable t v.type then throw ⟨unit, .constantValue name v.type t⟩
    let c : Constant := { name, type := t, value := convert v.value v.type t }
    let w ← w.declare scope name (.constant c)
    return (c, w)

/-- Bind another name for a type. The name of an enum declared here leads to its members
too. -/
def declareType (w : Workspace) (p : ProgramId) (scope : ScopeId) (name : String) (t : Ty) :
    Except CompileError Unit × Workspace :=
  w.commit p do
    let w ← w.declare scope name (.type t ((w.program p).enums.lookup t.id))
    return ((), w)

end Workspace
end Stackwork
