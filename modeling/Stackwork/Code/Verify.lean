import Stackwork.Code.Stream
import Stackwork.Text.Numeral

/-!
# Verification

A code is accepted when it is a row of valid instructions, each followed by all of its
operands, and every operand that is a jump address, a function index or a variable
index is in range. A jump may go to the end of the code, which acts as a return. The
machine relies on this and checks none of it while running. Addresses and indices that
are taken from the stack are outside its reach.
-/
namespace Stackwork

/-- How far the indices in a code may go. -/
structure Limits where
  functions : Nat
  globals : Nat
  locals : Nat

/-- What is wrong with the first instruction that is not acceptable. -/
inductive Defect where
  /-- The opcode is unknown, or undefined for the kind. -/
  | undefinedInstr (i : Instr) (pos : Nat)
  /-- The code ends before the operands do. -/
  | truncated (i : Instr) (pos : Nat)
  | outOfRange (i : Instr) (operand : Int) (pos : Nat)
deriving DecidableEq

namespace Defect

def message : Defect → String
  | undefinedInstr i pos =>
    "malformed bytecode: invalid instruction 0x" ++ Text.hex i.word.toNat ++ " at " ++ toString pos
  | truncated i pos => "malformed bytecode: " ++ i.render ++ " at " ++ toString pos ++ " truncated"
  | outOfRange i operand pos =>
    "malformed bytecode: " ++ i.render ++ " " ++ toString operand ++ " at " ++ toString pos ++
      " out of range"

/-- The position of the offending instruction. -/
def pos : Defect → Nat
  | undefinedInstr _ p | truncated _ p | outOfRange _ _ p => p

end Defect

/-- The least operand that is too large, in a code of `size` words. Only opcodes with a
one-word operand have such a limit. -/
def Limits.bound? (lim : Limits) (size : Nat) : Opcode → Option Nat
  | .jump | .branchTrue | .branchFalse => some (size + 1)
  | .call => some lim.functions
  | .loadGlobal | .storeGlobal => some lim.globals
  | .loadLocal | .storeLocal => some lim.locals
  | _ => none

/-- Whether the operands of `i` are in range. -/
def Limits.admits (lim : Limits) (size : Nat) (i : Instr) (operands : List UInt32) : Bool :=
  match i.op?.bind (lim.bound? size), operands with
  | some bound, w :: _ => 0 ≤ w.toInt32.toInt && w.toInt32.toInt < bound
  | _, _ => true

/-- Check the words from position `pos` on, of a code with `size` words. -/
def verifyFrom (lim : Limits) (size : Nat) (pos : Nat) : List UInt32 → Except Defect Unit
  | [] => .ok ()
  | w :: rest =>
    let i : Instr := ⟨w⟩
    if !i.valid then .error (.undefinedInstr i pos)
    else if rest.length < i.operandWords then .error (.truncated i pos)
    else if lim.admits size i (rest.take i.operandWords) then
      verifyFrom lim size (pos + 1 + i.operandWords) (rest.drop i.operandWords)
    else .error (.outOfRange i ((rest.headD 0).toInt32.toInt) pos)
termination_by ws => ws.length
decreasing_by
  simp only [List.length_drop, List.length_cons]
  omega

/-- Check a code; the error is about its first unacceptable instruction. -/
def Code.verify (c : Code) (lim : Limits) : Except Defect Unit := verifyFrom lim c.size 0 c.toList

end Stackwork
