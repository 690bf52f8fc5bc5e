import Stackwork.Kind

/-!
# Opcodes

The operations of the machine, apart from the kind of slot they work on. Each has a
byte, the kinds it is defined for, a mnemonic with a place for the kind, and a number
of operand words.
-/
namespace Stackwork

/-- Operations on the top slot. -/
inductive UnaryCode where
  | minus | inc | dec | not | logNot | toBool | toFloat | toInt
deriving DecidableEq

/-- Operations on the two top slots; the right operand is on top. -/
inductive BinaryCode where
  | add | sub | mul | div | mod | shl | shr
  | eq | ne | lt | le | gt | ge
  | and | or | xor
deriving DecidableEq

/-- An operation of the machine. -/
inductive Opcode where
  | nop | pop
  | pushImm | pushZero | pushOne | pushNull
  | loadGlobal | storeGlobal | loadLocal | storeLocal
  | unary (op : UnaryCode)
  | binary (op : BinaryCode)
  /-- Keep one of two slots, by a condition below them. -/
  | select
  /-- The three jumps to a written address. -/
  | jump | branchTrue | branchFalse
  /-- The three jumps to an address taken from the stack. -/
  | jumpR | branchTrueR | branchFalseR
  | call | callR | ret | halt
deriving DecidableEq

namespace UnaryCode

def code : UnaryCode → UInt8
  | minus => 0x20 | inc => 0x21 | dec => 0x22 | not => 0x23
  | logNot => 0x24 | toBool => 0x25 | toFloat => 0x26 | toInt => 0x27

def mnemonic : UnaryCode → String
  | minus => "MINUS" | inc => "INC" | dec => "DEC" | not => "NOT"
  | logNot => "LOGNOT" | toBool => "TO_BOOL" | toFloat => "TO_FLOAT" | toInt => "TO_INT"

def kinds : UnaryCode → List Kind
  | minus | toBool => [.int, .float]
  | inc | dec | not | logNot | toFloat => [.int]
  | toInt => [.float]

end UnaryCode

namespace BinaryCode

def code : BinaryCode → UInt8
  | add => 0x30 | sub => 0x31 | mul => 0x32 | div => 0x33 | mod => 0x34
  | shl => 0x35 | shr => 0x36
  | eq => 0x37 | ne => 0x38 | lt => 0x39 | le => 0x3a | gt => 0x3b | ge => 0x3c
  | and => 0x3d | or => 0x3e | xor => 0x3f

def mnemonic : BinaryCode → String
  | add => "ADD" | sub => "SUB" | mul => "MUL" | div => "DIV" | mod => "MOD"
  | shl => "LSHIFT" | shr => "RSHIFT"
  | eq => "EQ" | ne => "NE" | lt => "LT" | le => "LE" | gt => "GT" | ge => "GE"
  | and => "AND" | or => "OR" | xor => "XOR"

def kinds : BinaryCode → List Kind
  | add | sub | mul | div | lt | le | gt | ge => [.int, .float]
  | mod | shl | shr | and | or | xor => [.int]
  | eq | ne => [.int, .float, .obj]

end BinaryCode

/-- How an instruction is spelled: a fixed word, or text around the name of the kind. -/
inductive Mnemonic where
  | fixed (text : String)
  | around (before after : String)

/-- What follows an instruction word. -/
inductive Operand where
  /-- Nothing. -/
  | none
  /-- One word: an address, a slot index or a function index. -/
  | word
  /-- A constant as wide as its kind. -/
  | immediate

namespace Opcode

/-- The byte an opcode is written as. -/
def code : Opcode → UInt8
  | nop => 0x00 | pop => 0x01
  | pushImm => 0x02 | pushZero => 0x03 | pushOne => 0x04 | pushNull => 0x05
  | loadGlobal => 0x10 | storeGlobal => 0x11 | loadLocal => 0x12 | storeLocal => 0x13
  | unary op => op.code
  | binary op => op.code
  | select => 0x40
  | jump => 0x50 | jumpR => 0x51 | branchTrue => 0x52 | branchFalse => 0x53
  | branchTrueR => 0x54 | branchFalseR => 0x55
  | call => 0x60 | callR => 0x61 | ret => 0x62 | halt => 0x63

/-- The opcode written as a byte. -/
def ofCode? (b : UInt8) : Option Opcode :=
  match b.toNat with
  | 0x00 => some nop | 0x01 => some pop
  | 0x02 => some pushImm | 0x03 => some pushZero | 0x04 => some pushOne | 0x05 => some pushNull
  | 0x10 => some loadGlobal | 0x11 => some storeGlobal
  | 0x12 => some loadLocal | 0x13 => some storeLocal
  | 0x20 => some (unary .minus) | 0x21 => some (unary .inc)
  | 0x22 => some (unary .dec) | 0x23 => some (unary .not)
  | 0x24 => some (unary .logNot) | 0x25 => some (unary .toBool)
  | 0x26 => some (unary .toFloat) | 0x27 => some (unary .toInt)
  | 0x30 => some (binary .add) | 0x31 => some (binary .sub)
  | 0x32 => some (binary .mul) | 0x33 => some (binary .div)
  | 0x34 => some (binary .mod) | 0x35 => some (binary .shl)
  | 0x36 => some (binary .shr) | 0x37 => some (binary .eq)
  | 0x38 => some (binary .ne) | 0x39 => some (binary .lt)
  | 0x3a => some (binary .le) | 0x3b => some (binary .gt)
  | 0x3c => some (binary .ge) | 0x3d => some (binary .and)
  | 0x3e => some (binary .or) | 0x3f => some (binary .xor)
  | 0x40 => some select
  | 0x50 => some jump | 0x51 => some jumpR
  | 0x52 => some branchTrue | 0x53 => some branchFalse
  | 0x54 => some branchTrueR | 0x55 => some branchFalseR
  | 0x60 => some call | 0x61 => some callR | 0x62 => some ret | 0x63 => some halt
  | _ => none

@[simp] theorem ofCode?_code (op : Opcode) : ofCode? op.code = some op := by
  cases op with
  | unary op => cases op <;> rfl
  | binary op => cases op <;> rfl
  | _ => rfl

/-- The kinds an opcode is defined for. -/
def kinds : Opcode → List Kind
  | unary op => op.kinds
  | binary op => op.kinds
  | pushImm | loadGlobal | storeGlobal | loadLocal | storeLocal | select => [.int, .float, .obj]
  | pushZero | pushOne => [.int, .float]
  | pushNull => [.obj]
  | ret => [.none, .int, .float, .obj]
  | _ => [.none]

/-- The kinds as a set of bits, the kind with byte `k` at bit `k`. -/
def kindMask (op : Opcode) : Nat := op.kinds.foldl (fun mask k => mask + Nat.pow 2 k.code.toNat) 0

def mnemonic : Opcode → Mnemonic
  | nop => .fixed "NOP" | pop => .fixed "POP"
  | pushImm => .around "PUSH_" "_IMM" | pushZero => .around "PUSH_" "_ZERO"
  | pushOne => .around "PUSH_" "_ONE" | pushNull => .around "PUSH_" "_NULL"
  | loadGlobal => .around "LOAD_GLOBAL_" "" | storeGlobal => .around "STORE_GLOBAL_" ""
  | loadLocal => .around "LOAD_LOCAL_" "" | storeLocal => .around "STORE_LOCAL_" ""
  | unary op => .around "" ("_" ++ op.mnemonic)
  | binary op => .around "" ("_" ++ op.mnemonic)
  | select => .around "" "_ITE"
  | jump => .fixed "JUMP" | jumpR => .fixed "JUMP_R"
  | branchTrue => .fixed "BRANCH_TRUE" | branchFalse => .fixed "BRANCH_FALSE"
  | branchTrueR => .fixed "BRANCH_TRUE_R" | branchFalseR => .fixed "BRANCH_FALSE_R"
  | call => .fixed "CALL" | callR => .fixed "CALL_R"
  | ret => .around "RETURN_" "" | halt => .fixed "HALT"

def operand : Opcode → Operand
  | pushImm => .immediate
  | loadGlobal | storeGlobal | loadLocal | storeLocal => .word
  | jump | branchTrue | branchFalse | call => .word
  | _ => .none

/-- Whether the operand is a code address. -/
def isJump : Opcode → Bool
  | jump | branchTrue | branchFalse => true
  | _ => false

end Opcode
end Stackwork
