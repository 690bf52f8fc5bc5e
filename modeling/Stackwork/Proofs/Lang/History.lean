import Stackwork.Lang.Block
import Stackwork.Lang.Compile

/-!
# Histories of a workspace

Everything a client can do with a workspace, as data, and the workspaces that come about in
this way, in any order of requests over any number of programs. Structured statements are
series of the requests listed here. Modules that did not come from a compilation are added in
groups that bring the imports they need; a compiled module keeps the program it came from as
its source.
-/
namespace Stackwork

namespace Workspace

/-- A request to a workspace. -/
inductive Request where
  | newTable
  | intern (t : TableId) (s : Shape)
  | newEnum (t : TableId) (name : String) (members : List EnumMember)
  /-- Modules from elsewhere, which may import each other. -/
  | addModules (ms : List Module)
  | setId (m : ModuleId) (id : Uuid)
  | newLabel (name : String)
  | newScope (parent : Option ScopeId) (name : String)
  | declare (s : ScopeId) (name : String) (e : Entry)
  | newProgram (name : String) (table : TableId) (imports : List ModuleId)
  | declareGlobal (p : ProgramId) (scope : ScopeId) (name : String) (t : Ty)
  | declareFunction (p : ProgramId) (scope : ScopeId) (name : String) (output : Ty)
      (params : List (String × Ty))
  | declareBuiltin (p : ProgramId) (scope : ScopeId) (name : String) (output : Ty)
      (inputs : List Ty) (builtin : Builtin)
  | declareEnum (p : ProgramId) (scope : ScopeId) (name : String)
      (items : List (String × Option Expr))
  | declareConst (p : ProgramId) (scope : ScopeId) (name : String) (t : Ty) (e : Expr)
  | declareType (p : ProgramId) (scope : ScopeId) (name : String) (t : Ty)
  | append (b : Block) (stmts : List Stmt)
  | declareVar (b : Block) (name : String) (t : Ty)
  | declareLabel (b : Block) (name : String)
  | breakLoop (b : Block)
  | continueLoop (b : Block)
  | compile (p : ProgramId) (id : Uuid)

/-- A program as it was when a module was compiled from it. -/
structure Source where
  key : ProgramId
  program : Program
  table : TyTable

namespace Request

/-- The workspace after a request. -/
def apply (w : Workspace) : Request → Workspace
  | newTable => w.newTable.2
  | intern t s => (w.intern t s).2
  | newEnum t name members => (w.newEnum t name members).2
  | addModules ms => ms.foldl (fun w m => (w.addModule m).2) w
  | setId m id => { w with modules := w.modules.setId m id }
  | newLabel name => (w.newLabel name).2
  | newScope parent name => (w.newScope parent name).2
  | declare s name e =>
    match w.declare s name e with
    | .ok w' => w'
    | .error _ => w
  | newProgram name table imports => (w.newProgram name table imports).2
  | declareGlobal p scope name t => (w.declareGlobal p scope name t).2
  | declareFunction p scope name output params => (w.declareFunction p scope name output params).2
  | declareBuiltin p scope name output inputs builtin =>
    (w.declareBuiltin p scope name output inputs builtin).2
  | declareEnum p scope name items => (w.declareEnum p scope name items).2
  | declareConst p scope name t e => (w.declareConst p scope name t e).2
  | declareType p scope name t => (w.declareType p scope name t).2
  | append b stmts => b.append w stmts
  | declareVar b name t => (b.declareVar w name t).2
  | declareLabel b name => (b.declareLabel w name).2
  | breakLoop b => (b.breakLoop w).2
  | continueLoop b => (b.continueLoop w).2
  | compile p id => (w.compile p id).2

/-- Imports have to exist. -/
def Admissible (w : Workspace) : Request → Prop
  | addModules ms => ∀ m ∈ ms, ∀ i ∈ m.imports, i.index < w.modules.size + ms.length
  | newProgram _ _ imports => ∀ i ∈ imports, i.index < w.modules.size
  | _ => True

/-- The sources of the modules that a request adds. -/
def sources (w : Workspace) : Request → List (Option Source)
  | addModules ms => ms.map fun _ => none
  | compile p id =>
    match (w.compile p id).1 with
    | .ok _ => [some ⟨p, w.program p, w.tableOf p⟩]
    | .error _ => []
  | _ => []

/-- The types that a request brings into programs. -/
def types (w : Workspace) : Request → List Ty
  | newTable => (TyTable.startingAt w.types.next).types
  | newProgram _ table _ => Prim.all.map (w.types.table table).prim
  | declareGlobal _ _ _ t | declareVar _ _ t => [t]
  | declareFunction p _ _ output params =>
    (w.intern (w.program p).table (.function output (params.map (·.2)))).1 :: params.map (·.2)
  | declareBuiltin p _ _ output inputs _ =>
    [(w.intern (w.program p).table (.function output inputs)).1]
  | _ => []

end Request

/-- The workspaces that admissible requests lead to, with the sources of their modules. -/
inductive Built (allowed : Workspace → Request → Prop) : Workspace → List (Option Source) → Prop where
  | start : Built allowed {} []
  | next {w : Workspace} {sources : List (Option Source)} (built : Built allowed w sources)
      (r : Request) (ok : allowed w r) : Built allowed (r.apply w) (sources ++ r.sources w)

/-- Every request of a series is allowed when its turn comes. -/
def AllAllowed (allowed : Workspace → Request → Prop) : Workspace → List Request → Prop
  | _, [] => True
  | w, r :: rs => allowed w r ∧ AllAllowed allowed (r.apply w) rs

/-- The sources of the modules that a series of requests adds. -/
def sourcesOf : Workspace → List Request → List (Option Source)
  | _, [] => []
  | w, r :: rs => r.sources w ++ sourcesOf (r.apply w) rs

/-- A series of allowed requests. -/
theorem Built.foldl {allowed : Workspace → Request → Prop} {w : Workspace}
    {sources : List (Option Source)} (h : Built allowed w sources) {rs : List Request}
    (ok : AllAllowed allowed w rs) :
    Built allowed (rs.foldl Request.apply w) (sources ++ sourcesOf w rs) := by
  induction rs generalizing w sources with
  | nil => rwa [sourcesOf, List.append_nil]
  | cons r rs ih =>
    rw [sourcesOf, ← List.append_assoc]
    exact ih (h.next r ok.1) ok.2

end Workspace
end Stackwork
