import Stackwork.Code.Opcode
import Stackwork.Slot

/-!
# Arithmetic of the machine

What each operation makes of its operands, with the kind of the result. Integers are 32
bits wide and wrap, division goes toward zero, shifts use the low five bits of the
distance, comparisons give the integers 0 and 1. An operation that does not exist for
floats makes nothing of them. Objects can only be compared for being the same.
-/
namespace Stackwork

/-- A slot and the kind it was written as. -/
structure Tagged where
  slot : Slot
  kind : Kind
deriving DecidableEq

namespace Tagged

def int (i : Int32) : Tagged := ⟨.ofInt i, .int⟩

def float (f : Float) : Tagged := ⟨.ofFloat f, .float⟩

/-- Truth values are integers. -/
def bool (b : Bool) : Tagged := ⟨.ofBool b, .int⟩

end Tagged

/-- An operation on an integer. -/
def UnaryCode.onInt (v : Int32) : UnaryCode → Option Tagged
  | minus => some (.int (-v))
  | inc => some (.int (v + 1))
  | dec => some (.int (v - 1))
  | not => some (.int (~~~v))
  | logNot => some (.bool (v == 0))
  | toBool => some (.bool (v != 0))
  | toFloat => some (.float v.toFloat)
  | toInt => none

/-- An operation on a float. -/
def UnaryCode.onFloat (v : Float) : UnaryCode → Option Tagged
  | minus => some (.float (-v))
  | toBool => some (.bool (v != 0))
  | toInt => some (.int v.toInt32)
  | _ => none

/-- An operation on two integers; only division by zero has no result. -/
def BinaryCode.onInt (l r : Int32) : BinaryCode → Option Tagged
  | add => some (.int (l + r))
  | sub => some (.int (l - r))
  | mul => some (.int (l * r))
  | div => if r = 0 then none else some (.int (l / r))
  | mod => if r = 0 then none else some (.int (l % r))
  | shl => some (.int (l <<< (r &&& 31)))
  | shr => some (.int (l >>> (r &&& 31)))
  | eq => some (.bool (l == r))
  | ne => some (.bool (l != r))
  | lt => some (.bool (l < r))
  | le => some (.bool (l ≤ r))
  | gt => some (.bool (l > r))
  | ge => some (.bool (l ≥ r))
  | and => some (.int (l &&& r))
  | or => some (.int (l ||| r))
  | xor => some (.int (l ^^^ r))

/-- An operation on two floats. -/
def BinaryCode.onFloat (l r : Float) : BinaryCode → Option Tagged
  | add => some (.float (l + r))
  | sub => some (.float (l - r))
  | mul => some (.float (l * r))
  | div => some (.float (l / r))
  | eq => some (.bool (l == r))
  | ne => some (.bool (l != r))
  | lt => some (.bool (l < r))
  | le => some (.bool (l ≤ r))
  | gt => some (.bool (l > r))
  | ge => some (.bool (l ≥ r))
  | _ => none

/-- An operation on two object handles: every one but equality tells them apart. -/
def BinaryCode.onObject (l r : UInt64) : BinaryCode → Tagged
  | eq => .bool (l == r)
  | _ => .bool (l != r)

end Stackwork
