import Stackwork.Code.Listing
import Stackwork.Machine.Memory

/-!
# One instruction

What an instruction does to the machine, and where the loop that runs it goes on. No
checks are made here: a word with an unknown opcode does nothing, an opcode takes the
branch its kind leads to even where it is not defined for it, and operands are read from
wherever they should be. Running past the end of the code acts as a return without a
value.
-/
namespace Stackwork

/-- Where a dispatch loop goes on. -/
inductive Next where
  /-- At a position of the same code. -/
  | goto (pc : Int)
  /-- In another code, after a call or a return. -/
  | move (code : Code) (pc : Int)
  /-- With a host function, and then at a position of the same code. -/
  | host (routine : Routine) (builtin : Builtin) (pc : Int)
  /-- Nowhere: the loop is over. -/
  | leave

namespace Machine

/-- Push the result of an operation, if it has one. -/
def pushResult (t : Option Tagged) : Op Unit :=
  match t with
  | some t => pushTagged t
  | none => pure ()

def unary (op : UnaryCode) (k : Kind) : Op Unit := do
  if k = .int then pushResult (op.onInt (← popInt))
  else pushResult (op.onFloat (← popFloat))

def binary (op : BinaryCode) (k : Kind) : Op Unit := do
  if k = .int then
    let r ← popInt
    let l ← popInt
    match op.onInt l r with
    | some t => pushTagged t
    | none => fault .division
  else if k = .float then
    let r ← popFloat
    let l ← popFloat
    pushResult (op.onFloat l r)
  else
    let r ← pop .obj
    let l ← pop .obj
    pushTagged (op.onObject l.bits r.bits)

/-- Keep one of the two top slots, by the condition below them. -/
def select (k : Kind) : Op Unit := do
  let other ← pop k
  let value ← pop k
  if (← popInt) ≠ 0 then push value k else push other k

/-- Put a constant on the stack. -/
def pushImmediate (code : Code) (pc : Int) (k : Kind) : Op Next := do
  if k = .int then
    push ⟨(← require (code.word? pc)).toUInt64⟩ .int
    return .goto (pc + 1)
  else
    push ⟨← require (code.double? pc)⟩ k
    return .goto (pc + 2)

/-- The operand at `pc`, as a signed number. -/
def operand (code : Code) (pc : Int) : Op Int := do
  return (← require (code.int? pc)).toInt

/-- Call a routine from code that goes on at `pc`. -/
def callRoutine (code : Code) (pc : Int) (index : Int) : Op Next := do
  let r ← require (at? (← get).routines index)
  match r.body with
  | .host builtin => return .host r builtin pc
  | .compiled target _ =>
    modify fun m => { m with frames := m.frames.push ⟨code, pc, m.base⟩ }
    let base ← enter r
    modify fun m => { m with base }
    match target with
    | some target => return .move target 0
    | none => fault .absent

/-- Leave a routine: its result takes the place of its frame. The loop that began at
frame depth `depth` is over when no frame of its own is left. -/
def returnFrom (k : Kind) (depth : Nat) : Op Next := do
  let result ← if k = .none then pure .zero else pop k
  let base := (← get).base
  writeStack base result k
  modify fun m => { m with sp := base + 1 }
  if (← get).frames.size = depth then return .leave
  match (← get).frames.back? with
  | none => return .leave
  | some f =>
    modify fun m => { m with frames := m.frames.pop, base := f.base }
    return .move f.code f.pc

/-- Execute an instruction whose operands start at `pc`. -/
def execute (code : Code) (pc : Int) (depth : Nat) (op : Opcode) (k : Kind) : Op Next :=
  match op with
  | .nop => return .goto pc
  | .pop => do
    modify fun m => { m with sp := m.sp - 1 }
    return .goto pc
  | .pushImm => pushImmediate code pc k
  | .pushZero => do
    if k = .int then pushTagged (.int 0) else pushTagged (.float 0)
    return .goto pc
  | .pushOne => do
    if k = .int then pushTagged (.int 1) else pushTagged (.float 1)
    return .goto pc
  | .pushNull => do
    push .zero .obj
    return .goto pc
  | .loadGlobal => do
    let index ← operand code pc
    push (← readHeap index k) k
    return .goto (pc + 1)
  | .storeGlobal => do
    let index ← operand code pc
    writeHeap index (← pop k) k
    return .goto (pc + 1)
  | .loadLocal => do
    let slot := (← get).base + (← operand code pc)
    push (← readStack slot k) k
    return .goto (pc + 1)
  | .storeLocal => do
    let slot := (← get).base + (← operand code pc)
    writeStack slot (← pop k) k
    return .goto (pc + 1)
  | .unary op => do
    unary op k
    return .goto pc
  | .binary op => do
    binary op k
    return .goto pc
  | .select => do
    select k
    return .goto pc
  | .jump => return .goto (← operand code pc)
  | .jumpR => return .goto (← popInt).toInt
  | .branchTrue => do
    let address ← operand code pc
    return .goto (if (← popInt) ≠ 0 then address else pc + 1)
  | .branchFalse => do
    let address ← operand code pc
    return .goto (if (← popInt) ≠ 0 then pc + 1 else address)
  | .branchTrueR => do
    let address ← popInt
    return .goto (if (← popInt) ≠ 0 then address.toInt else pc)
  | .branchFalseR => do
    let address ← popInt
    return .goto (if (← popInt) ≠ 0 then pc else address.toInt)
  | .call => do
    let index ← operand code pc
    callRoutine code (pc + 1) index
  | .callR => do
    let index ← popInt
    callRoutine code pc index.toInt
  | .ret => returnFrom k depth
  | .halt => do
    modify fun m => { m with halted := true, frames := m.frames.take depth }
    return .leave

/-- The journal line of an instruction about to run. -/
def traceLine (m : Machine) (code : Code) (pc : Int) (i : Instr) : String :=
  Listing.lineAt code pc.toNat i ++ "    ; sp=" ++ toString m.sp ++ " base=" ++
    toString m.base ++ " depth=" ++ toString m.frames.size

/-- Fetch and execute one instruction. -/
def dispatch (code : Code) (pc : Int) (depth : Nat) : Op Next := do
  if pc < code.size then
    let i : Instr := ⟨← require (code.word? pc)⟩
    if (← get).settings.trace then
      modify fun m => m.write (m.traceLine code pc i)
    match i.op? with
    | some op => execute code (pc + 1) depth op i.kind
    | none => return .goto (pc + 1)
  else returnFrom .none depth

end Machine
end Stackwork
