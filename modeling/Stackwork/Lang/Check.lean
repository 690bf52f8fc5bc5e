import Stackwork.Code.Instr
import Stackwork.Lang.Typing

/-!
# Checked programs

Checking turns expressions and statements into terms and commands, in which everything
the machine needs is explicit: the kind each operation works on, the conversion of an
integer to a float, the slot of a variable, and whether a call is direct. Checking stops
at the first problem. Evaluation is from left to right; the arguments of a call through a
value come before that value.
-/
namespace Stackwork

/-- A checked expression. -/
inductive Term where
  | int (v : Int32)
  | float (bits : UInt64)
  | text (s : String)
  | load (v : Variable)
  | unary (op : UnaryCode) (k : Kind) (x : Term)
  | binary (op : BinaryCode) (k : Kind) (x y : Term)
  /-- The right operand only if the left one is true. -/
  | both (x y : Term)
  /-- The right operand only if the left one is false. -/
  | either (x y : Term)
  | select (k : Kind) (cond yes no : Term)
  | call (index : Int) (args : List Term)
  /-- A call of the function that a value stands for. -/
  | callValue (callee : Term) (args : List Term)

/-- A checked statement. -/
inductive Command where
  | store (v : Variable) (value : Term)
  | drop (x : Term)
  /-- Return from a function, with the kind of the result. -/
  | ret (k : Kind) (value : Option Term)
  | jump (target : Label)
  | branchTrue (cond : Term) (target : Label)
  | branchFalse (cond : Term) (target : Label)
  | place (l : Label)
  | halt

/-- A term with the type of the expression it came from. -/
structure Typed where
  term : Term
  type : Ty

/-- Where the checked code belongs. -/
structure Context where
  /-- The types of the program. -/
  table : TyTable
  /-- The function whose body is checked; nothing at top level. -/
  owner : Option UnitKey
  /-- What the function returns. -/
  output : Option Ty

namespace Context

/-- Locals belong to one function and are used nowhere else. -/
def checkVariable (ctx : Context) (v : Variable) : Except Problem Unit :=
  if v.isGlobal then .ok ()
  else if v.owner.isSome && v.owner = ctx.owner then .ok ()
  else .error (.foreignLocal v.name)

end Context

/-- The term brought to a type it can be assigned to. -/
def Typed.as (x : Typed) (t : Ty) : Term :=
  if widens x.type t then .unary .toFloat .int x.term else x.term

/-- The term of a unary operator on a checked operand. Conversions that change nothing
leave no trace. -/
def unaryTerm (op : UnaryOp) (x : Typed) : Term :=
  let k := Kind.ofTy x.type
  match op with
  | .neg => .unary .minus k x.term
  | .bitNot => .unary .not k x.term
  | .logNot => .unary .logNot k x.term
  | .toBool => if x.type.kind = .boolean then x.term else .unary .toBool k x.term
  | .toInt => if k = .float then .unary .toInt k x.term else x.term
  | .toFloat => if k = .int then .unary .toFloat k x.term else x.term

/-- The term of an infix operator on checked operands. -/
def binaryTerm (op : BinaryOp) (operand : Ty) (x y : Typed) : Term :=
  match op with
  | .plain op => .binary op (Kind.ofTy operand) (x.as operand) (y.as operand)
  | .logAnd => .both x.term y.term
  | .logOr => .either x.term y.term

/-- The term of a named constant. -/
def constantTerm (c : Constant) : Term :=
  if Kind.ofTy c.type = .float then .float c.value.bits else .int c.value.toInt

mutual
/-- Check an expression. -/
def Expr.check (ctx : Context) : Expr → Except Problem Typed
  | .missing => .error (.unknownExpr Expr.missing.sort)
  | .int v => .ok ⟨.int v, ctx.table.int⟩
  | .float bits => .ok ⟨.float bits, ctx.table.float⟩
  | .bool b => .ok ⟨.int (if b then 1 else 0), ctx.table.boolean⟩
  | .text s => .ok ⟨.text s, ctx.table.string⟩
  | .var v => do
    ctx.checkVariable v
    return ⟨.load v, v.type⟩
  | .const c => .ok ⟨constantTerm c, c.type⟩
  | .func f => .ok ⟨.int (Int32.ofInt f.index), f.type⟩
  | .unary op x => do
    let x ← x.check ctx
    match unaryType ctx.table op x.type with
    | some t => return ⟨unaryTerm op x, t⟩
    | none => throw (.unaryOperator op x.type)
  | .binary op x y => do
    let x ← x.check ctx
    let y ← y.check ctx
    match binaryType ctx.table op x.type y.type with
    | some t => return ⟨binaryTerm op t.operand x y, t.result⟩
    | none => throw (.binaryOperator x.type op y.type)
  | .ternary c a b => do
    let c ← c.check ctx
    if c.type.kind ≠ .boolean then throw (.condition c.type)
    let a ← a.check ctx
    let b ← b.check ctx
    match unify ctx.table a.type b.type with
    | some t =>
      if t.kind = .void then throw (.branches a.type b.type)
      return ⟨.select (Kind.ofTy t) c.term (a.as t) (b.as t), t⟩
    | none => throw (.branches a.type b.type)
  | .call callee args => do
    let f ← callee.check ctx
    match f.type with
    | .function _ output inputs =>
      if args.length ≠ inputs.length then throw (.arity f.type inputs.length args.length)
      let terms ← checkArgs ctx 1 args inputs
      match callee with
      | .func g => return ⟨.call g.index terms, output⟩
      | _ => return ⟨.callValue f.term terms, output⟩
    | other => throw (.notFunction other)

/-- Check arguments against parameter types, counting from `n`. -/
def checkArgs (ctx : Context) (n : Nat) : List Expr → List Ty → Except Problem (List Term)
  | a :: rest, t :: ts => do
    let x ← a.check ctx
    if !assignable t x.type then throw (.argument n x.type t)
    return x.as t :: (← checkArgs ctx (n + 1) rest ts)
  | _, _ => .ok []
end

/-- Check a condition. -/
def Expr.checkCondition (ctx : Context) (e : Expr) : Except Problem Term := do
  let x ← e.check ctx
  if x.type.kind ≠ .boolean then throw (.condition x.type)
  return x.term

/-- Check an assignment. -/
def checkStore (ctx : Context) (v : Variable) (e : Expr) : Except Problem Command := do
  ctx.checkVariable v
  let x ← e.check ctx
  if !assignable v.type x.type then throw (.assignment x.type v.type v.name)
  return .store v (x.as v.type)

/-- Check a step up or down by one. -/
def checkStep (ctx : Context) (v : Variable) (onInt : UnaryCode) (onFloat : BinaryCode) :
    Except Problem Command := do
  ctx.checkVariable v
  match v.type.kind with
  | .int => return .store v (.unary onInt v.kind (.load v))
  | .float => return .store v (.binary onFloat v.kind (.load v) (.float 0x3ff0000000000000))
  | _ => throw (.stepping v.type)

/-- Check a return. -/
def checkReturn (ctx : Context) (value : Option Expr) : Except Problem Command := do
  match ctx.output, value with
  | none, some _ => throw .resultAtTop
  | none, none => return .halt
  | some out, value =>
    if out.kind = .void then
      if value.isSome then throw .resultOfVoid
      return .ret .none none
    match value with
    | none => throw (.resultMissing out)
    | some e =>
      let x ← e.check ctx
      if !assignable out x.type then throw (.result x.type out)
      return .ret (Kind.ofTy out) (some (x.as out))

/-- Check a statement. Labels are looked at elsewhere. -/
def Stmt.check (ctx : Context) : Stmt → Except Problem Command
  | .missing => .error .unknownStmt
  | .store v e => checkStore ctx v e
  | .combine v op e => checkStore ctx v (.binary op (.var v) e)
  | .increment v => checkStep ctx v .inc .add
  | .decrement v => checkStep ctx v .dec .sub
  | .eval e => do return .drop (← e.check ctx).term
  | .ret value => checkReturn ctx value
  | .jump l => .ok (.jump l)
  | .branchTrue c l => do return .branchTrue (← c.checkCondition ctx) l
  | .branchFalse c l => do return .branchFalse (← c.checkCondition ctx) l
  | .place l => .ok (.place l)
  | .halt => .ok .halt

end Stackwork
