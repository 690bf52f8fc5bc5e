import Stackwork.Machine.Basic
import Stackwork.Proofs.Lang.History
import Stackwork.Proofs.Lang.Units

/-!
# What programs mean

The meaning of expressions, statements and host functions, told without code, stack or
frames. A program acts on a world: its globals, the objects of the host, and whether it has
been halted. A value is a slot with the type of the expression it came from, and operators
work on values as the folder does on constants. Evaluation is from left to right; functions
are values, and what is called is evaluated after its arguments. Statements are a flat
stream, so running them means to be at a position; both the statements run and the depth of
calls are bounded by a number, and an evaluation that needs more of either is unfinished.
-/
namespace Stackwork

/-- What a program acts on besides its locals. -/
structure World where
  globals : Array Slot
  objects : Array HostObject
  halted : Bool

namespace World

/-- Overwrite a global. -/
def setGlobal? (w : World) (i : Int) (v : Slot) : Option World :=
  if 0 ≤ i ∧ i < w.globals.size then some { w with globals := w.globals.setIfInBounds i.toNat v }
  else none

/-- Register an object and give its handle. -/
def newObject (w : World) (o : HostObject) : UInt64 × World :=
  (UInt64.ofNat (w.objects.size + 1), { w with objects := w.objects.push o })

/-- The object behind a handle. -/
def object (w : World) (handle : UInt64) : HostObject :=
  if handle = 0 then .null else w.objects.getD (handle.toNat - 1) .null

end World

/-- What a program acts on when a machine runs it. -/
def Machine.world (m : Machine) : World := ⟨m.heap, m.objects, m.halted⟩

/-- Why an evaluation comes to no value. -/
inductive Stop where
  /-- The program has been halted. -/
  | halted
  /-- There is no such value, as with a division by zero. -/
  | undefined
  /-- More statements or deeper calls are needed. -/
  | unfinished
deriving DecidableEq

/-- An evaluation in a world. -/
abbrev Eval := EStateM Stop World

namespace Eval

variable {α : Type}

def stop (s : Stop) : Eval α := fun w => .error s w

def require (a : Option α) : Eval α :=
  match a with
  | some a => pure a
  | none => stop .undefined

/-- Halt the program. -/
def halt : Eval α := fun w => .error .halted { w with halted := true }

/-- Come to a value unless the program has been halted. -/
def unlessHalted (a : α) : Eval α := fun w => if w.halted then .error .halted w else .ok a w

/-- An evaluation on behalf of the host, which goes on when the program has been halted. -/
def settle (x : Eval Slot) : Eval Slot := fun w =>
  match x w with
  | .error .halted w => .ok .zero w
  | r => r

end Eval

/-- What an expression is evaluated in. -/
structure Env where
  /-- The types of the program. -/
  table : TyTable
  /-- The object handles of string literals. -/
  literal : String → UInt64
  /-- What the function with a number makes of arguments. -/
  call : Int → List Slot → Eval Slot
  /-- The locals of the function at work, parameters first. -/
  locals : List Slot := []

namespace Env

/-- The value of a variable. -/
def read (env : Env) (v : Variable) : Eval Slot := do
  if v.isGlobal then Eval.require (Machine.at? (← get).globals v.index)
  else Eval.require (Machine.at? env.locals.toArray v.index)

/-- Assign a value; the result are the locals afterwards. -/
def assign (env : Env) (v : Variable) (x : Slot) : Eval (List Slot) := do
  if v.isGlobal then
    set (← Eval.require ((← get).setGlobal? v.index x))
    return env.locals
  else if 0 ≤ v.index ∧ v.index < env.locals.length then
    return env.locals.set v.index.toNat x
  else Eval.stop .undefined

end Env

/-- A unary operator on a value of type `t`. Conversions to what a value already is keep it
as it is. -/
def UnaryOp.value (op : UnaryOp) (t : Ty) (x : Slot) : Slot :=
  match op, t.kind with
  | .neg, .float => .ofFloat (-x.toFloat)
  | .neg, _ => .ofInt (-x.toInt)
  | .bitNot, _ => .ofInt (~~~x.toInt)
  | .logNot, _ => .ofBool (x.toInt == 0)
  | .toBool, .boolean => x
  | .toBool, .float => .ofBool (x.toFloat != 0)
  | .toBool, _ => .ofBool (x.toInt != 0)
  | .toInt, .float => .ofInt x.toFloat.toInt32
  | .toInt, _ => x
  | .toFloat, .int => .ofFloat x.toInt.toFloat
  | .toFloat, _ => x

/-- An infix operator on two values of type `t`. Objects are compared for being the same;
other values are combined as constants are. -/
def BinaryCode.value? (op : BinaryCode) (t : Ty) (l r : Slot) : Option Slot :=
  if Kind.ofTy t = .obj then
    match op with
    | .eq => some (.ofBool (l.bits == r.bits))
    | .ne => some (.ofBool (l.bits != r.bits))
    | _ => none
  else (foldBinary (.plain op) l r t).toOption

/-- The value of a named constant. -/
def Constant.slot (c : Constant) : Slot :=
  if c.type.kind = .float then c.value else .ofInt c.value.toInt

/-- Values brought to the types that are expected. -/
def convertAll (xs : List Folded) (ts : List Ty) : List Slot :=
  xs.zipWith (fun x t => convert x.value x.type t) ts

mutual
/-- Evaluate an expression. -/
def Expr.eval (env : Env) : Expr → Eval Folded
  | .missing => Eval.stop .undefined
  | .int v => return ⟨.ofInt v, env.table.int⟩
  | .float bits => return ⟨⟨bits⟩, env.table.float⟩
  | .bool b => return ⟨.ofBool b, env.table.boolean⟩
  | .text s => return ⟨⟨env.literal s⟩, env.table.string⟩
  | .var v => return ⟨← env.read v, v.type⟩
  | .const c => return ⟨c.slot, c.type⟩
  | .func f => return ⟨.ofInt (Int32.ofInt f.index), f.type⟩
  | .unary op x => do
    let x ← x.eval env
    let t ← Eval.require (unaryType env.table op x.type)
    return ⟨op.value x.type x.value, t⟩
  | .binary .logAnd x y => do
    let x ← x.eval env
    if x.value.toBool then return ⟨(← y.eval env).value, x.type⟩ else return ⟨.ofBool false, x.type⟩
  | .binary .logOr x y => do
    let x ← x.eval env
    if x.value.toBool then return ⟨.ofBool true, x.type⟩ else return ⟨(← y.eval env).value, x.type⟩
  | .binary (.plain op) x y => do
    let x ← x.eval env
    let y ← y.eval env
    let t ← Eval.require (binaryType env.table (.plain op) x.type y.type)
    let l := convert x.value x.type t.operand
    let r := convert y.value y.type t.operand
    return ⟨← Eval.require (op.value? t.operand l r), t.result⟩
  | .ternary c a b => do
    let c ← c.eval env
    let a ← a.eval env
    let b ← b.eval env
    let t ← Eval.require (unify env.table a.type b.type)
    let chosen := if c.value.toBool then a else b
    return ⟨convert chosen.value chosen.type t, t⟩
  | .call callee args => do
    let args ← evalAll env args
    let f ← callee.eval env
    let output ← Eval.require f.type.output?
    return ⟨← env.call f.value.toInt.toInt (convertAll args f.type.inputs), output⟩

/-- Evaluate several expressions, first to last. -/
def evalAll (env : Env) : List Expr → Eval (List Folded)
  | [] => return []
  | e :: es => return (← e.eval env) :: (← evalAll env es)
end

/-- Where a statement leads. -/
inductive Course where
  /-- To the next statement, with the locals as they are then. -/
  | on (locals : List Slot)
  /-- To the statement at a position. -/
  | goto (position : Nat)
  /-- Back to the caller. -/
  | back (result : Slot)

/-- Whether a statement places a label. -/
def Stmt.places (l : Label) : Stmt → Bool
  | .place l' => l' = l
  | _ => false

/-- The statements of a function or of a top level. -/
structure Body where
  /-- The types of the program. -/
  table : TyTable
  literal : String → UInt64
  /-- What the function returns; nothing at top level. -/
  output : Option Ty
  stmts : List Stmt

namespace Body

/-- Assign the value of an expression. -/
def store (env : Env) (v : Variable) (e : Expr) : Eval Course := do
  let x ← e.eval env
  return .on (← env.assign v (convert x.value x.type v.type))

/-- Step a number up or down by one. -/
def step (env : Env) (v : Variable) (onInt : Int32 → Int32) (onFloat : Float → Float) : Eval Course := do
  let x ← env.read v
  return .on (← env.assign v
    (if v.type.kind = .float then .ofFloat (onFloat x.toFloat) else .ofInt (onInt x.toInt)))

/-- Go to where a label is placed. -/
def goto (b : Body) (l : Label) : Eval Course :=
  return .goto (← Eval.require (b.stmts.findIdx? (·.places l)))

/-- Run one statement. -/
def exec (b : Body) (env : Env) : Stmt → Eval Course
  | .missing => Eval.stop .undefined
  | .store v e => store env v e
  | .combine v op e => store env v (.binary op (.var v) e)
  | .increment v => step env v (· + 1) (· + 1)
  | .decrement v => step env v (· - 1) (· - 1)
  | .eval e => do
    let _ ← e.eval env
    return .on env.locals
  | .ret value =>
    match b.output, value with
    | none, _ => Eval.halt
    | some _, none => return .back .zero
    | some out, some e => do
      let x ← e.eval env
      return .back (convert x.value x.type out)
  | .jump l => b.goto l
  | .branchTrue c l => do
    let x ← c.eval env
    if x.value.toBool then b.goto l else return .on env.locals
  | .branchFalse c l => do
    let x ← c.eval env
    if x.value.toBool then return .on env.locals else b.goto l
  | .place _ => return .on env.locals
  | .halt => Eval.halt

/-- Run at most so many statements from a position on. Behind the last one, the result is
zero. -/
def run (b : Body) : Nat → Env → Nat → Eval Slot
  | 0, _, _ => Eval.stop .unfinished
  | fuel + 1, env, i =>
    match b.stmts[i]? with
    | none => return .zero
    | some s => do
      match ← b.exec env s with
      | .on locals => b.run fuel { env with locals } (i + 1)
      | .goto j => b.run fuel env j
      | .back v => return v

end Body

/-- Evaluate a host function. Calls that it makes are refused in some cases. A host function
that looks at registers or at the stack, or that runs code of its own, has no meaning here. -/
def HostScript.eval (refusal? : Int → List Slot → Option CallError)
    (call : Int → List Slot → Eval Slot) : HostScript → Eval Slot
  | .done result => return result
  | .log _ next => next.eval refusal? call
  | .readGlobal index next => do
    let v ← Eval.require (Machine.at? (← get).globals index)
    (next v).eval refusal? call
  | .writeGlobal index value next => do
    set (← Eval.require ((← get).setGlobal? index value))
    next.eval refusal? call
  | .newObject value next => do
    let handle ← modifyGet (·.newObject value)
    (next handle).eval refusal? call
  | .object handle next => do (next ((← get).object handle)).eval refusal? call
  | .call index args next =>
    match refusal? index args with
    | some e => (next (.error e)).eval refusal? call
    | none => do
      modify ({ · with halted := false })
      let v ← Eval.settle (call index args)
      (next (.ok v)).eval refusal? call
  | .registers _ | .stack _ | .execute .. => Eval.stop .undefined

/-- A function with what its body depends on. -/
structure Definition where
  decl : FunctionDecl
  table : TyTable
  literal : String → UInt64

namespace Definition

def arity (f : Definition) : Nat := f.decl.type.inputs.length

def body (f : Definition) (stmts : Array Stmt) : Body where
  table := f.table
  literal := f.literal
  output := f.decl.type.output?
  stmts := stmts.toList

end Definition

/-- A program with everything it needs. Functions and top levels that are only known as code
are left open. -/
structure WholeProgram where
  functions : Array (Option Definition)
  /-- The top levels in the order in which they run. -/
  tops : List (Option Body)

namespace WholeProgram

/-- Why a call from the host is refused. -/
def refusal? (P : WholeProgram) (index : Int) (args : List Slot) : Option CallError :=
  match Machine.at? P.functions index with
  | none => some (.noSuchIndex index)
  | some none => none
  | some (some f) =>
    if args.length = f.arity then none else some (.wrongArity f.decl.name f.arity args.length)

/-- Call a function, with calls nested at most so deep. Locals behind the parameters start as
zero. -/
def invoke (P : WholeProgram) : Nat → Int → List Slot → Eval Slot
  | 0, _, _ => Eval.stop .unfinished
  | fuel + 1, index, args => do
    let f ← Eval.require (Machine.at? P.functions index).join
    if args.length ≠ f.arity then Eval.stop .undefined
    match f.decl.body with
    | .host builtin =>
      let result ← (builtin args).eval P.refusal? (P.invoke fuel)
      Eval.unlessHalted result
    | .source _ _ locals stmts =>
      let zeros := List.replicate (locals.size - args.length) Slot.zero
      (f.body stmts).run fuel ⟨f.table, f.literal, P.invoke fuel, args ++ zeros⟩ 0

/-- A call from the host. -/
def call (P : WholeProgram) (fuel : Nat) (index : Int) (args : List Slot) : Eval Slot := do
  modify ({ · with halted := false })
  Eval.settle (P.invoke fuel index args)

/-- Run top levels in order, up to one that halts. -/
def runAll (P : WholeProgram) (fuel : Nat) : List (Option Body) → Eval Unit
  | [] => return ()
  | b :: rest => do
    let b ← Eval.require b
    modify ({ · with halted := false })
    let _ ← Eval.settle (b.run fuel ⟨b.table, b.literal, P.invoke fuel, []⟩ 0)
    if (← get).halted then return () else P.runAll fuel rest

/-- Run a program. -/
def run (P : WholeProgram) (fuel : Nat) : Eval Unit := P.runAll fuel P.tops

end WholeProgram

namespace Workspace

/-- The functions of a module, from its source. -/
def definitions (m : Module) : Option Source → List (Option Definition)
  | none => m.routines.map fun _ => none
  | some s => s.program.functions.toList.map fun d => some ⟨d, s.table, m.pool.handle⟩

/-- The top level of a module, from its source; an empty one is none. -/
def top? (m : Module) : Option Source → Option (Option Body)
  | none => m.init.map fun _ => none
  | some s =>
    if s.program.init.isEmpty then none
    else some (some ⟨s.table, m.pool.handle, none, s.program.init.toList⟩)

/-- What a module means together with everything it needs. -/
def whole (w : Workspace) (sources : List (Option Source)) (root : ModuleId) : WholeProgram where
  functions := ((w.modules.flatten [root]).flatMap fun i =>
    definitions (w.modules.get i) (sources.getD i.index none)).toArray
  tops := (w.modules.flatten [root]).filterMap fun i =>
    top? (w.modules.get i) (sources.getD i.index none)

end Workspace
end Stackwork
