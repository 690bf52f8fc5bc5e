import Stackwork.Lang.Problem
import Stackwork.Lang.Syntax
import Stackwork.Ty.Registry

/-!
# Type rules

The rules that the checker and the constant folder share. The only implicit conversion
is from int to float. Where a rule names a type of its own, it is the one of the table
the program uses; where it passes an operand type on, it is that very type.
-/
namespace Stackwork

/-- Whether a value of type `src` can be put where `dst` is expected. -/
def assignable (dst src : Ty) : Bool :=
  dst.same src || (dst.kind = .float && src.kind = .int)

/-- The result type of a unary operator. -/
def unaryType (tt : TyTable) (op : UnaryOp) (x : Ty) : Option Ty :=
  match op, x.kind with
  | .neg, .int | .neg, .float => some x
  | .bitNot, .int => some x
  | .logNot, .boolean => some x
  | .toBool, .boolean | .toBool, .int | .toBool, .float => some tt.boolean
  | .toInt, .boolean | .toInt, .int | .toInt, .float | .toInt, .enum => some tt.int
  | .toFloat, .int | .toFloat, .float => some tt.float
  | _, _ => none

/-- The type in which two numbers are combined. -/
def numericType (tt : TyTable) (x y : Ty) : Option Ty :=
  if x.isNumeric && y.isNumeric then
    some (if x.kind = .float || y.kind = .float then tt.float else tt.int)
  else none

/-- The types of an infix operation. -/
structure BinaryTyping where
  result : Ty
  /-- What both operands are brought to before the operation. -/
  operand : Ty

/-- The types of `x op y`. -/
def binaryType (tt : TyTable) (op : BinaryOp) (x y : Ty) : Option BinaryTyping :=
  match op with
  | .plain .add | .plain .sub | .plain .mul | .plain .div =>
    (numericType tt x y).map fun t => ⟨t, t⟩
  | .plain .mod | .plain .shl | .plain .shr =>
    if x.kind = .int && y.kind = .int then some ⟨x, x⟩ else none
  | .plain .and | .plain .or | .plain .xor =>
    if x.same y && (x.kind = .int || x.kind = .boolean) then some ⟨x, x⟩ else none
  | .logAnd | .logOr =>
    if x.kind = .boolean && y.kind = .boolean then some ⟨x, x⟩ else none
  | .plain .lt | .plain .le | .plain .gt | .plain .ge =>
    (numericType tt x y).map fun t => ⟨tt.boolean, t⟩
  | .plain .eq | .plain .ne =>
    match numericType tt x y with
    | some t => some ⟨tt.boolean, t⟩
    | none => if x.same y && x.kind ≠ .void then some ⟨tt.boolean, x⟩ else none

/-- The common type of the two branches of a conditional. -/
def unify (tt : TyTable) (a b : Ty) : Option Ty :=
  if a.same b then some a
  else if a.isNumeric && b.isNumeric then some tt.float
  else none

/-- Whether a value of type `source` changes its representation to become a `target`. -/
def widens (source target : Ty) : Bool := target.kind = .float && source.kind = .int

/-- Containers hold something at every level. The first container of nothing is the
problem. -/
def checkElements : Ty → Except Problem Unit
  | t@(.array _ e) | t@(.set _ e) =>
    if e.kind = .void then .error (.elementType t) else checkElements e
  | t@(.map _ k e) =>
    if k.kind = .void || e.kind = .void then .error (.elementType t)
    else do
      checkElements k
      checkElements e
  | _ => .ok ()

/-- Whether a variable can hold values of a type. -/
def checkStorable (name : String) (t : Ty) : Except Problem Unit :=
  if t.kind = .void then .error (.declaredVoid name) else checkElements t

end Stackwork
