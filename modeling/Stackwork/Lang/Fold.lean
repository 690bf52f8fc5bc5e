import Stackwork.Lang.Typing

/-!
# Constant folding

The value of an expression that needs no machine: literals, named constants and the
operators over them. Integers wrap and floats follow the usual rules, as when the
program runs; division by zero is not a constant. The logical connectives evaluate both
operands here.
-/
namespace Stackwork

/-- Bring a value from one type to another; only int to float changes anything. -/
def convert (v : Slot) (source target : Ty) : Slot :=
  if widens source target then .ofFloat v.toInt.toFloat else v

/-- A unary operator on a constant of type `t`. -/
def foldUnary (op : UnaryOp) (x : Slot) (t : Ty) : Slot :=
  if t.kind = .float then
    match op with
    | .neg => .ofFloat (-x.toFloat)
    | .toBool => .ofBool (x.toFloat != 0)
    | .toInt => .ofInt x.toFloat.toInt32
    | _ => x
  else
    let i := x.toInt
    match op with
    | .neg => .ofInt (-i)
    | .bitNot => .ofInt (~~~i)
    | .logNot => .ofBool (i == 0)
    | .toBool => .ofBool (i != 0)
    | .toFloat => .ofFloat i.toFloat
    | .toInt => .ofInt i

/-- An infix operator on two floats. -/
def foldFloats (op : BinaryOp) (l r : Float) : Except Problem Slot :=
  match op with
  | .plain .add => .ok (.ofFloat (l + r))
  | .plain .sub => .ok (.ofFloat (l - r))
  | .plain .mul => .ok (.ofFloat (l * r))
  | .plain .div => .ok (.ofFloat (l / r))
  | .plain .eq => .ok (.ofBool (l == r))
  | .plain .ne => .ok (.ofBool (l != r))
  | .plain .lt => .ok (.ofBool (l < r))
  | .plain .le => .ok (.ofBool (l ≤ r))
  | .plain .gt => .ok (.ofBool (l > r))
  | .plain .ge => .ok (.ofBool (l ≥ r))
  | op => .error (.constantOperator .float op)

/-- An infix operator on two integers. -/
def foldInts (op : BinaryOp) (l r : Int32) : Except Problem Slot :=
  match op with
  | .plain .add => .ok (.ofInt (l + r))
  | .plain .sub => .ok (.ofInt (l - r))
  | .plain .mul => .ok (.ofInt (l * r))
  | .plain .div => if r = 0 then .error .divisionByZero else .ok (.ofInt (l / r))
  | .plain .mod => if r = 0 then .error .divisionByZero else .ok (.ofInt (l % r))
  | .plain .shl => .ok (.ofInt (l <<< (r &&& 31)))
  | .plain .shr => .ok (.ofInt (l >>> (r &&& 31)))
  | .plain .and | .logAnd => .ok (.ofInt (l &&& r))
  | .plain .or | .logOr => .ok (.ofInt (l ||| r))
  | .plain .xor => .ok (.ofInt (l ^^^ r))
  | .plain .eq => .ok (.ofBool (l == r))
  | .plain .ne => .ok (.ofBool (l != r))
  | .plain .lt => .ok (.ofBool (l < r))
  | .plain .le => .ok (.ofBool (l ≤ r))
  | .plain .gt => .ok (.ofBool (l > r))
  | .plain .ge => .ok (.ofBool (l ≥ r))

/-- An infix operator on two constants of type `t`. -/
def foldBinary (op : BinaryOp) (x y : Slot) (t : Ty) : Except Problem Slot :=
  if t.kind = .float then foldFloats op x.toFloat y.toFloat else foldInts op x.toInt y.toInt

/-- A value with its type. -/
structure Folded where
  value : Slot
  type : Ty

/-- Fold a constant expression. -/
def Expr.fold (tt : TyTable) : Expr → Except Problem Folded
  | .int v => .ok ⟨.ofInt v, tt.int⟩
  | .float bits => .ok ⟨⟨bits⟩, tt.float⟩
  | .bool b => .ok ⟨.ofBool b, tt.boolean⟩
  | .const c => .ok ⟨c.value, c.type⟩
  | .unary op x => do
    let x ← x.fold tt
    match unaryType tt op x.type with
    | some t => return ⟨foldUnary op x.value x.type, t⟩
    | none => throw (.unaryOperator op x.type)
  | .binary op x y => do
    let x ← x.fold tt
    let y ← y.fold tt
    match binaryType tt op x.type y.type with
    | some t =>
      let l := convert x.value x.type t.operand
      let r := convert y.value y.type t.operand
      return ⟨← foldBinary op l r t.operand, t.result⟩
    | none => throw (.binaryOperator x.type op y.type)
  | .ternary c a b => do
    let c ← c.fold tt
    if c.type.kind ≠ .boolean then throw (.constantCondition c.type)
    let a ← a.fold tt
    let b ← b.fold tt
    match unify tt a.type b.type with
    | some t =>
      let chosen := if c.value.toBool then a else b
      return ⟨convert chosen.value chosen.type t, t⟩
    | none => throw (.branches a.type b.type)
  | e => .error (.notConstant e.sort)

end Stackwork
