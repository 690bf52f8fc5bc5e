import Stackwork.Lang.Program

/-!
# Blocks

A block appends statements to a function body or to the top level of a program. Blocks
inside it have scopes of their own and write to the same stream, so structured statements
become labels and branches as they are added; what goes into their parts is given as
actions on the blocks inside. A function without a body of its own, a host function or an
import, can be given a block too: what is added there goes nowhere, and declarations are
refused.
-/
namespace Stackwork

/-- What a block belongs to. -/
inductive BlockUnit where
  | top (p : ProgramId)
  | body (key : UnitKey)
  /-- A function without a body. -/
  | detached
deriving DecidableEq

/-- Where to go on when a loop is left, and when its next round begins. -/
structure LoopTargets where
  leave : Label
  again : Label
deriving DecidableEq

/-- A scope and a statement stream. -/
structure Block where
  unit : BlockUnit
  /-- Absent in the outermost block of a function without a body. -/
  scope : Option ScopeId
  loop : Option LoopTargets := none
deriving DecidableEq

/-- Why a block refuses a declaration. -/
inductive BlockError where
  | error (e : CompileError)
  /-- The block has no program. -/
  | detached

namespace Workspace

/-- The block of top-level statements; variables declared in it are globals. -/
def topBlock (w : Workspace) (p : ProgramId) : Block where
  unit := .top p
  scope := some (w.program p).scope

/-- The outermost block of a function. -/
def bodyBlock (w : Workspace) (f : Callable) : Block :=
  match f.origin, w.scopeOf? f with
  | .declared key, some scope => { unit := .body key, scope := some scope }
  | _, _ => { unit := .detached, scope := none }

/-- Change the body of a function. -/
def modifyBody (w : Workspace) (key : UnitKey)
    (f : Array Variable → Array Stmt → Array Variable × Array Stmt) : Workspace :=
  w.modifyProgram ⟨key.program⟩ fun prog =>
    { prog with
      functions := prog.functions.modify key.position fun d =>
        match d.body with
        | .source scope params locals stmts =>
          let (locals, stmts) := f locals stmts
          { d with body := .source scope params locals stmts }
        | .host _ => d }

end Workspace

namespace Block

/-- The program in which a block's errors are recorded. -/
def program? (b : Block) : Option ProgramId :=
  match b.unit with
  | .top p => some p
  | .body key => some ⟨key.program⟩
  | .detached => none

/-- The name of the unit in messages. -/
def unitName (b : Block) (w : Workspace) : String :=
  match b.unit with
  | .top p => (w.program p).name
  | .body key => ((w.declared? key).map (·.name)).getD ""
  | .detached => ""

/-- Fail, and keep the error with the program. -/
def refuse {α : Type} (b : Block) (w : Workspace) (e : CompileError) :
    Except BlockError α × Workspace :=
  match b.program? with
  | some p => (.error (.error e), w.record p e)
  | none => (.error .detached, w)

/-- Append statements. -/
def append (b : Block) (w : Workspace) (stmts : List Stmt) : Workspace :=
  match b.unit with
  | .top p => w.modifyProgram p fun prog => { prog with init := prog.init ++ stmts }
  | .body key => w.modifyBody key fun locals body => (locals, body ++ stmts)
  | .detached => w

/-- Declare a local in the body of a function. It takes the next frame slot; slots are
never used again, so blocks side by side have different ones. -/
def declareLocal (b : Block) (w : Workspace) (key : UnitKey) (scope : ScopeId) (name : String)
    (t : Ty) : Except BlockError Variable × Workspace :=
  match checkStorable name t with
  | .error problem => b.refuse w ⟨(w.program ⟨key.program⟩).name, problem⟩
  | .ok () =>
    match w.scopes.lookupLocal scope name, w.declared? key with
    | some earlier, _ => b.refuse w ⟨b.unitName w, .taken name earlier.kind⟩
    | none, some { body := .source _ _ locals _, .. } =>
      let v : Variable :=
        { name, type := t, binding := .local, index := locals.size, owner := some key }
      match w.declare scope name (.variable v) with
      | .error e => b.refuse w e
      | .ok w => (.ok v, w.modifyBody key fun locals body => (locals.push v, body))
    | none, _ => (.error .detached, w)

/-- Declare a variable: a local in a function, a global at top level. -/
def declareVar (b : Block) (w : Workspace) (name : String) (t : Ty) :
    Except BlockError Variable × Workspace :=
  match b.unit, b.scope with
  | .top p, some scope =>
    let (r, w) := w.declareGlobal p scope name t
    (r.mapError .error, w)
  | .body key, some scope => b.declareLocal w key scope name t
  | _, _ => (.error .detached, w)

/-- Declare a named jump target. -/
def declareLabel (b : Block) (w : Workspace) (name : String) :
    Except BlockError Label × Workspace :=
  match b.scope with
  | none => (.error .detached, w)
  | some scope =>
    let (l, w) := w.newLabel name
    match w.declare scope name (.label l) with
    | .ok w => (.ok l, w)
    | .error e => b.refuse w e

/-- Jump out of the innermost loop. -/
def breakLoop (b : Block) (w : Workspace) : Except BlockError Unit × Workspace :=
  match b.loop with
  | some targets => (.ok (), b.append w [.jump targets.leave])
  | none => b.refuse w ⟨b.unitName w, .outsideLoop "break"⟩

/-- Jump to the next round of the innermost loop. -/
def continueLoop (b : Block) (w : Workspace) : Except BlockError Unit × Workspace :=
  match b.loop with
  | some targets => (.ok (), b.append w [.jump targets.again])
  | none => b.refuse w ⟨b.unitName w, .outsideLoop "continue"⟩

variable {m : Type → Type} [Monad m] [MonadStateOf Workspace m]

/-- Append statements, with the workspace as a state. -/
def add (b : Block) (stmts : List Stmt) : m Unit := modify (b.append · stmts)

/-- A label of its own, with the workspace as a state. -/
def freshLabel (name : String) : m Label := modifyGet fun w : Workspace => w.newLabel name

/-- A block inside this one, with a scope of its own. -/
def nested (b : Block) : m Block := do
  let scope ← modifyGet fun w : Workspace => w.newScope b.scope ""
  return { b with scope := some scope }

/-- The body of a loop. -/
def loopBody (b : Block) (leave again : Label) : m Block := do
  return { ← b.nested with loop := some ⟨leave, again⟩ }

/-- A conditional statement. -/
def addIf (b : Block) (cond : Expr) (yes : Block → m Unit)
    (no : Option (Block → m Unit)) : m Unit := do
  let stop ← freshLabel "if.end"
  match no with
  | none =>
    b.add [.branchFalse cond stop]
    yes (← b.nested)
    b.add [.place stop]
  | some no =>
    let other ← freshLabel "if.else"
    b.add [.branchFalse cond other]
    yes (← b.nested)
    b.add [.jump stop, .place other]
    no (← b.nested)
    b.add [.place stop]

/-- A loop with its condition in front. -/
def addWhile (b : Block) (cond : Expr) (body : Block → m Unit) : m Unit := do
  let top ← freshLabel "while.top"
  let stop ← freshLabel "while.end"
  b.add [.place top, .branchFalse cond stop]
  body (← b.loopBody stop top)
  b.add [.jump top, .place stop]

/-- A loop with its condition behind. -/
def addDoWhile (b : Block) (body : Block → m Unit) (cond : Expr) : m Unit := do
  let top ← freshLabel "do.top"
  let again ← freshLabel "do.cond"
  let stop ← freshLabel "do.end"
  b.add [.place top]
  body (← b.loopBody stop again)
  b.add [.place again, .branchTrue cond top, .place stop]

/-- A counting loop. What its first part declares is visible in the whole loop; breaks in
its first and last part belong to the loop around it. -/
def addFor (b : Block) (first : Option (Block → m Unit)) (cond : Option Expr)
    (last : Option (Block → m Unit)) (body : Block → m Unit) : m Unit := do
  let outer ← b.nested
  if let some first := first then first outer
  let top ← freshLabel "for.top"
  let again ← freshLabel "for.next"
  let stop ← freshLabel "for.end"
  outer.add [.place top]
  if let some cond := cond then outer.add [.branchFalse cond stop]
  body (← outer.loopBody stop again)
  outer.add [.place again]
  if let some last := last then last outer
  outer.add [.jump top, .place stop]

end Block
end Stackwork
