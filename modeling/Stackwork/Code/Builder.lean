import Stackwork.Code.Assembly
import Stackwork.Text.Quoted

/-!
# Building code

A builder collects code word by word and hands out labels for addresses that may not
be known yet. A reference to a label stays symbolic until the code is built, so it
does not matter whether it comes before or after the label is placed. Operations that
make no sense are refused and change nothing.
-/
namespace Stackwork

/-- Why a builder refuses an operation. -/
inductive BuilderError where
  /-- The instruction is not defined for its kind. -/
  | undefinedInstr (i : Instr) (k : Kind)
  /-- The instruction takes no address. -/
  | notAJump (i : Instr)
  | alreadyPlaced (label : String)
  /-- Some code refers to a label without an address. -/
  | neverPlaced (label : String)
  /-- The address of an unplaced label was asked for. -/
  | noAddress (label : String)
deriving DecidableEq

/-- The wording of a refusal. -/
def BuilderError.message : BuilderError → String
  | undefinedInstr i k => "vm: invalid instruction " ++ i.render ++ " for kind " ++ k.name
  | notAJump i => "vm: " ++ i.render ++ " is not a jump"
  | alreadyPlaced l => "vm: label " ++ Text.quoted l ++ " already placed"
  | neverPlaced l => "vm: label " ++ Text.quoted l ++ " referenced but never placed"
  | noAddress l => "vm: label " ++ Text.quoted l ++ " has no address"

/-- A label of one builder, by number. -/
structure BuilderLabel where
  index : Nat
deriving DecidableEq, Inhabited

/-- What a builder knows of a label. -/
structure LabelEntry where
  name : String
  address : Option Nat := none
deriving DecidableEq, Inhabited

/-- Code under construction. -/
structure Builder where
  items : List (Item BuilderLabel) := []
  labels : Array LabelEntry := #[]

namespace Builder

def empty : Builder := {}

/-- The number of words so far, which is the address of the next one. -/
def size (b : Builder) : Nat := b.items.length

def append (b : Builder) (items : List (Item BuilderLabel)) : Builder :=
  { b with items := b.items ++ items }

/-- Append an instruction, unless it is undefined for its kind. -/
def emit (b : Builder) (op : UInt8) (k : Kind) : Except BuilderError Builder :=
  let i := Instr.ofBytes op k
  if i.valid then .ok (b.append [.word i.word]) else .error (.undefinedInstr i k)

def emitInt (b : Builder) (v : Int32) : Builder := b.append [.int v]

/-- Append a constant of two words: a float's bits or an object handle. -/
def emitDouble (b : Builder) (v : UInt64) : Builder := b.append (Item.double v)

def pushInt (b : Builder) (v : Int32) : Builder := b.append (Item.pushInt v)

def pushFloat (b : Builder) (bits : UInt64) : Builder := b.append (Item.pushFloat bits)

def pushObj (b : Builder) (handle : UInt64) : Builder := b.append (Item.pushObj handle)

/-- Append an instruction with a slot or function index. -/
def emitIndexed (b : Builder) (op : UInt8) (k : Kind) (index : Int) :
    Except BuilderError Builder :=
  (b.emit op k).map (·.emitInt (Int32.ofInt index))

/-- Hand out a label without an address. -/
def newLabel (b : Builder) (name : String) : BuilderLabel × Builder :=
  (⟨b.labels.size⟩, { b with labels := b.labels.push { name } })

def label (b : Builder) (l : BuilderLabel) : LabelEntry := b.labels.getD l.index default

/-- Give a label the address of the next word. -/
def place (b : Builder) (l : BuilderLabel) : Except BuilderError Builder :=
  let entry := b.label l
  if entry.address.isSome then .error (.alreadyPlaced entry.name)
  else .ok { b with labels := b.labels.modify l.index ({ · with address := some b.size }) }

/-- Append the address of a label as an operand. -/
def emitAddress (b : Builder) (l : BuilderLabel) : Builder := b.append [.address l]

/-- Append a jump to a label. -/
def emitJump (b : Builder) (op : UInt8) (l : BuilderLabel) : Except BuilderError Builder :=
  match Opcode.ofCode? op with
  | some op =>
    if op.isJump then .ok (b.append [.instr op .none, .address l])
    else .error (.notAJump (Instr.make op .none))
  | none => .error (.notAJump (Instr.ofBytes op .none))

/-- The address of a placed label. -/
def address (b : Builder) (l : BuilderLabel) : Except BuilderError Nat :=
  match (b.label l).address with
  | some a => .ok a
  | none => .error (.noAddress (b.label l).name)

/-- Whether some operand refers to a label. -/
def refersTo (b : Builder) (l : BuilderLabel) : Bool := b.items.contains (.address l)

/-- The labels that are referred to but have no address, oldest first. -/
def dangling (b : Builder) : List BuilderLabel :=
  ((List.range b.labels.size).map BuilderLabel.mk).filter fun l =>
    (b.label l).address.isNone && b.refersTo l

/-- The finished code, once every label in use has an address. -/
def build (b : Builder) : Except BuilderError Code :=
  match b.dangling with
  | l :: _ => .error (.neverPlaced (b.label l).name)
  | [] =>
    let addressOf := fun l => (b.label l).address.getD 0
    .ok (.ofList (Item.resolveFrom addressOf 0 b.items))

end Builder
end Stackwork
