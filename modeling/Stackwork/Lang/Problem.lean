import Stackwork.Lang.Operator
import Stackwork.Text.Quoted
import Stackwork.Ty.Basic

/-!
# Problems in programs

What can be wrong with a program. Every problem belongs to one of a few causes and has a
detail of its own; an error adds the unit it was found in, a function, the program, or a
scope, which may be left out.
-/
namespace Stackwork

/-- What a name in a scope stands for. -/
inductive EntryKind where
  | variable | function | type | label | scope | constant
deriving DecidableEq

def EntryKind.name : EntryKind → String
  | .variable => "variable" | function => "function" | type => "type"
  | label => "label" | .scope => "scope" | constant => "constant"

/-- The general causes of errors. -/
inductive Cause where
  | duplicate | undeclared | arity | typeMismatch | memberNotFound | elementType
  | notConstant | notFunction | invalidOperator | outsideLoop | labelNotPlaced
deriving DecidableEq

def Cause.message : Cause → String
  | duplicate => "duplicate definition"
  | undeclared => "undeclared name"
  | arity => "wrong number of arguments"
  | typeMismatch => "type mismatch"
  | memberNotFound => "enum constant not found"
  | elementType => "invalid element type"
  | notConstant => "not a constant expression"
  | notFunction => "not a function"
  | invalidOperator => "invalid operator for type"
  | outsideLoop => "break or continue outside a loop"
  | labelNotPlaced => "label never placed"

/-- What exactly is wrong. -/
inductive Problem where
  /-- A name declared as one thing is already taken by another. -/
  | redeclared (what : EntryKind) (name : String) (earlier : EntryKind)
  /-- A name of a block is already taken. -/
  | taken (name : String) (earlier : EntryKind)
  | memberTwice (name : String)
  /-- Two members of an enum with one value. -/
  | valueTwice (first second : String) (value : Int)
  | placedTwice (label : String)
  /-- A local used outside its function. -/
  | foreignLocal (name : String)
  /-- An enum of another program, or no enum at all. -/
  | foreignEnum (t : Ty)
  | noMember (enum name : String)
  | arity (t : Ty) (wanted got : Nat)
  | declaredVoid (name : String)
  /-- A container of nothing. -/
  | elementType (t : Ty)
  /-- A type that constants cannot have. -/
  | constantType (name : String) (t : Ty)
  | constantValue (name : String) (value t : Ty)
  | memberValue (name : String) (t : Ty)
  /-- A condition in a statement or expression that is not boolean. -/
  | condition (t : Ty)
  /-- A condition of a constant expression that is not boolean. -/
  | constantCondition (t : Ty)
  | branches (yes no : Ty)
  | argument (position : Nat) (got wanted : Ty)
  | assignment (value target : Ty) (name : String)
  | result (got wanted : Ty)
  | resultMissing (wanted : Ty)
  | resultOfVoid
  | resultAtTop
  | unknownExpr (sort : String)
  | unknownStmt
  | notConstant (sort : String)
  | divisionByZero
  | notFunction (t : Ty)
  | unaryOperator (op : UnaryOp) (t : Ty)
  | binaryOperator (x : Ty) (op : BinaryOp) (y : Ty)
  /-- An operator that does not exist for constants of a sort. -/
  | constantOperator (sort : TyKind) (op : BinaryOp)
  | stepping (t : Ty)
  | outsideLoop (word : String)
  | neverPlaced (label : String)

namespace Problem

def cause : Problem → Cause
  | redeclared .. | taken .. | memberTwice _ | valueTwice .. | placedTwice _ => .duplicate
  | foreignLocal _ | foreignEnum _ => .undeclared
  | noMember .. => .memberNotFound
  | arity .. => .arity
  | elementType _ => .elementType
  | declaredVoid _ | constantType .. | constantValue .. | memberValue .. => .typeMismatch
  | condition _ | constantCondition _ | branches .. | argument .. => .typeMismatch
  | assignment .. | result .. | resultMissing _ | resultOfVoid | resultAtTop => .typeMismatch
  | unknownExpr _ | unknownStmt => .typeMismatch
  | notConstant _ | divisionByZero => .notConstant
  | notFunction _ => .notFunction
  | unaryOperator .. | binaryOperator .. | constantOperator .. | stepping _ => .invalidOperator
  | outsideLoop _ => .outsideLoop
  | neverPlaced _ => .labelNotPlaced

def detail : Problem → String
  | redeclared what name earlier =>
    what.name ++ " " ++ Text.quoted name ++ " already declared as a " ++ earlier.name
  | taken name earlier => Text.quoted name ++ " already declared as a " ++ earlier.name
  | memberTwice name => "enum constant " ++ name
  | valueTwice first second value =>
    first ++ " and " ++ second ++ " both have value " ++ toString value
  | placedTwice label => "label " ++ label ++ " placed twice"
  | foreignLocal name => "local " ++ name ++ " is not in scope"
  | foreignEnum t => "enum " ++ t.render
  | noMember enum name => enum ++ "." ++ name
  | arity t wanted got =>
    t.render ++ " takes " ++ toString wanted ++ " arguments, got " ++ toString got
  | declaredVoid name => name ++ " declared void"
  | elementType t => t.render
  | constantType name t => "constant " ++ name ++ " of type " ++ t.render
  | constantValue name value t =>
    "constant " ++ name ++ ": " ++ value.render ++ " value for " ++ t.render
  | memberValue name t => "value of " ++ name ++ " is " ++ t.render ++ ", want int"
  | condition t => "condition is " ++ t.render ++ ", want boolean"
  | constantCondition t => "condition is " ++ t.render
  | branches yes no => "branches are " ++ yes.render ++ " and " ++ no.render
  | argument position got wanted =>
    "argument " ++ toString position ++ " is " ++ got.render ++ ", want " ++ wanted.render
  | assignment value target name =>
    "cannot assign " ++ value.render ++ " to " ++ target.render ++ " " ++ name
  | result got wanted => "returns " ++ got.render ++ ", want " ++ wanted.render
  | resultMissing wanted => "missing return value of type " ++ wanted.render
  | resultOfVoid => "void function returns a value"
  | resultAtTop => "top-level return with a value"
  | unknownExpr sort => "unknown expression " ++ sort
  | unknownStmt => "unknown statement <nil>"
  | notConstant sort => sort
  | divisionByZero => "integer division by zero"
  | notFunction t => "call of " ++ t.render
  | unaryOperator op t => op.symbol ++ t.render
  | binaryOperator x op y => x.render ++ " " ++ op.symbol ++ " " ++ y.render
  | constantOperator sort op => sort.name ++ " " ++ op.symbol
  | stepping t => "++/-- on " ++ t.render
  | outsideLoop word => word
  | neverPlaced label => label

/-- The cause, and the detail behind a colon. -/
def message (p : Problem) : String :=
  p.cause.message ++ (if p.detail = "" then "" else ": " ++ p.detail)

end Problem

/-- A problem and the unit it was found in. -/
structure CompileError where
  unit : String
  problem : Problem

def CompileError.message (e : CompileError) : String :=
  if e.unit = "" then e.problem.message else e.unit ++ ": " ++ e.problem.message

end Stackwork
