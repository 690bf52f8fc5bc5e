import Stackwork.Code.Opcode

/-!
# Operators of the language

Unary operators and conversions, and infix operators. All but the two logical
connectives stand for one operation of the machine; the connectives decide whether
their right operand is evaluated at all.
-/
namespace Stackwork

/-- A prefix operator or conversion. -/
inductive UnaryOp where
  | neg | bitNot | logNot | toBool | toInt | toFloat
deriving DecidableEq

namespace UnaryOp

def symbol : UnaryOp → String
  | neg => "-" | bitNot => "~" | logNot => "!"
  | toBool => "boolean()" | toInt => "int()" | toFloat => "float()"

/-- Every operator. -/
def all : List UnaryOp := [neg, bitNot, logNot, toBool, toInt, toFloat]

/-- The operator written as a symbol. -/
def ofSymbol? (s : String) : Option UnaryOp := all.find? (·.symbol = s)

end UnaryOp

/-- An infix operator. -/
inductive BinaryOp where
  /-- An operator that is one operation of the machine. -/
  | plain (op : BinaryCode)
  | logAnd
  | logOr
deriving DecidableEq

namespace BinaryOp

def symbol : BinaryOp → String
  | plain .add => "+" | plain .sub => "-" | plain .mul => "*" | plain .div => "/"
  | plain .mod => "%" | plain .shl => "<<" | plain .shr => ">>"
  | plain .and => "&" | plain .or => "|" | plain .xor => "^"
  | logAnd => "&&" | logOr => "||"
  | plain .eq => "==" | plain .ne => "!=" | plain .lt => "<" | plain .le => "<="
  | plain .gt => ">" | plain .ge => ">="

/-- Every operator. -/
def all : List BinaryOp :=
  [plain .add, plain .sub, plain .mul, plain .div, plain .mod, plain .shl, plain .shr,
   plain .and, plain .or, plain .xor, logAnd, logOr,
   plain .eq, plain .ne, plain .lt, plain .le, plain .gt, plain .ge]

/-- The operator written as a symbol. -/
def ofSymbol? (s : String) : Option BinaryOp := all.find? (·.symbol = s)

end BinaryOp
end Stackwork
