import Stackwork.Lang.Operator
import Stackwork.Module.Variable
import Stackwork.Slot

/-!
# Expressions and statements

Programs after names have been resolved: expressions refer to variables, constants and
functions themselves. A statement stream is flat; structure is already lowered to labels,
jumps and branches. A place where an expression or statement should be may be empty,
which only the checker objects to.
-/
namespace Stackwork

/-- A jump target. Two labels are the same when they were made once, whatever their
names. -/
structure Label where
  uid : Nat
  name : String
deriving DecidableEq

/-- A named value known at compile time. -/
structure Constant where
  name : String
  type : Ty
  value : Slot

/-- Where a function that can be referred to comes from. -/
inductive Origin where
  /-- Exported by an imported module. -/
  | imported
  /-- A host function of some program. -/
  | builtin
  /-- Declared in a program, with a body of statements. -/
  | declared (key : UnitKey)
deriving DecidableEq

/-- A function as seen by the code that refers to it. -/
structure Callable where
  name : String
  type : Ty
  /-- Slot in the function table of the whole program. -/
  index : Int
  origin : Origin

/-- An expression. -/
inductive Expr where
  /-- Nothing where an expression should be. -/
  | missing
  | int (v : Int32)
  /-- A float, by its bits. -/
  | float (bits : UInt64)
  | bool (b : Bool)
  | text (s : String)
  | var (v : Variable)
  | const (c : Constant)
  /-- A function as a value. -/
  | func (f : Callable)
  | unary (op : UnaryOp) (x : Expr)
  | binary (op : BinaryOp) (x y : Expr)
  /-- Evaluates both branches and keeps one. -/
  | ternary (cond yes no : Expr)
  | call (callee : Expr) (args : List Expr)

/-- What sort of expression it is, as messages show it. -/
def Expr.sort : Expr → String
  | missing => "<nil>"
  | int _ => "*compiler.IntConst"
  | float _ => "*compiler.FloatConst"
  | bool _ => "*compiler.BoolConst"
  | text _ => "*compiler.StringConst"
  | var _ => "*compiler.VarRef"
  | const _ => "*compiler.ConstRef"
  | func _ => "*compiler.FuncRef"
  | unary .. => "*compiler.Unary"
  | binary .. => "*compiler.Binary"
  | ternary .. => "*compiler.Ternary"
  | call .. => "*compiler.Call"

/-- A statement. -/
inductive Stmt where
  /-- Nothing where a statement should be. -/
  | missing
  | store (v : Variable) (value : Expr)
  | increment (v : Variable)
  | decrement (v : Variable)
  /-- Combine a variable with a value and store the result. -/
  | combine (v : Variable) (op : BinaryOp) (value : Expr)
  /-- Evaluate and forget. -/
  | eval (x : Expr)
  /-- Leave the function; at top level, end the program. -/
  | ret (value : Option Expr)
  | jump (target : Label)
  | branchTrue (cond : Expr) (target : Label)
  | branchFalse (cond : Expr) (target : Label)
  /-- Give a label the position of the next statement. -/
  | place (l : Label)
  | halt

end Stackwork
