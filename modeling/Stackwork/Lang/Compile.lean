import Stackwork.Lang.Program

/-!
# Compilation

A program becomes a module when no declaration failed and every unit has code. Units are
generated in the order of declaration, the top level last, and share one pool of string
literals, which later compilations extend. All problems are collected: one for each unit
that has any.
-/
namespace Stackwork

/-- Why a program has no module. -/
inductive CompileFailure where
  /-- Every error recorded so far. -/
  | errors (es : List CompileError)
  /-- A variable of a type that no instruction reads or writes. -/
  | undefinedInstr (i : Instr)

/-- What has been compiled of a program. -/
structure Compiled where
  pool : Pool
  routines : List Routine := []
  init : Option Code := none
  errors : List CompileError := []

namespace Workspace

/-- The kinds of a function's frame slots. -/
def frameKinds (locals : Array Variable) : List Kind := locals.toList.map (·.kind)

/-- Generate a unit. A problem is kept under the unit's name. -/
def compileUnit (ctx : Context) (unit : String) (stmts : List Stmt) (acc : Compiled) :
    Except CompileFailure (Option Code × Compiled) :=
  match generate ctx acc.pool stmts with
  | .ok (code, pool) => .ok (some code, { acc with pool })
  | .error (.problem p) => .ok (none, { acc with errors := acc.errors ++ [⟨unit, p⟩] })
  | .error (.undefinedInstr i) => .error (.undefinedInstr i)

/-- Compile the function at one position. -/
def compileFunction (w : Workspace) (p : ProgramId) (acc : Compiled) (d : FunctionDecl × Nat) :
    Except CompileFailure Compiled := do
  let (d, position) := d
  match d.body with
  | .host builtin =>
    return { acc with routines := acc.routines ++ [⟨d.name, d.type, d.index, .host builtin⟩] }
  | .source _ _ locals stmts =>
    let ctx : Context := ⟨w.tableOf p, some ⟨p.index, position⟩, d.type.output?⟩
    let (code, acc) ← compileUnit ctx d.name stmts.toList acc
    match code with
    | none => return acc
    | some code =>
      let body := RoutineBody.compiled (some code) (frameKinds locals)
      return { acc with routines := acc.routines ++ [⟨d.name, d.type, d.index, body⟩] }

/-- Compile the top level, if it has statements. -/
def compileTop (w : Workspace) (p : ProgramId) (acc : Compiled) :
    Except CompileFailure Compiled := do
  let prog := w.program p
  if prog.init.isEmpty then return acc
  let (code, acc) ← compileUnit ⟨w.tableOf p, none, none⟩ prog.name prog.init.toList acc
  return { acc with init := code }

/-- Compile every unit of a program. -/
def compileAll (w : Workspace) (p : ProgramId) : Except CompileFailure Compiled := do
  let prog := w.program p
  let start : Compiled := { pool := ⟨prog.layout.strings, prog.texts⟩ }
  w.compileTop p (← prog.functions.toList.zipIdx.foldlM (w.compileFunction p) start)

/-- Turn a program into a module with the given identifier. -/
def compile (w : Workspace) (p : ProgramId) (id : Uuid) :
    Except CompileFailure ModuleId × Workspace :=
  let prog := w.program p
  if !prog.errors.isEmpty then (.error (.errors prog.errors.toList), w)
  else
    match w.compileAll p with
    | .error e => (.error e, w)
    | .ok done =>
      if !done.errors.isEmpty then
        (.error (.errors done.errors),
          w.modifyProgram p fun prog => { prog with errors := done.errors.toArray })
      else
        let (m, w) := w.addModule
          { name := prog.name, id, imports := prog.imports, routines := done.routines
            globals := prog.globals.toList, strings := done.pool.texts, bases := prog.layout
            init := done.init }
        (.ok m, w.modifyProgram p fun prog => { prog with texts := done.pool.texts })

end Workspace
end Stackwork
