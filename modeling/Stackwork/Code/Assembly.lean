import Stackwork.Code.Stream

/-!
# Assembly

Code before its addresses are known. An item stands for one word: a finished word, the
address of a label, or an address a fixed distance ahead. Items say nothing about where
they stand, so pieces of assembly can be joined freely; positions come in once, when
the whole row is resolved.
-/
namespace Stackwork

/-- One word of unfinished code, over labels of type `L`. -/
inductive Item (L : Type) where
  | word (w : UInt32)
  /-- The address at which a label is placed. -/
  | address (l : L)
  /-- The address `n` words behind the word after this one. -/
  | ahead (n : Nat)
deriving DecidableEq

namespace Item

variable {L : Type}

def instr (op : Opcode) (k : Kind) : Item L := .word (Instr.make op k).word

def int (v : Int32) : Item L := .word v.toUInt32

/-- A constant of two words, low half first. -/
def double (v : UInt64) : List (Item L) := [.word v.toUInt32, .word (v >>> 32).toUInt32]

/-- Push an integer; zero and one have instructions of their own. -/
def pushInt (v : Int32) : List (Item L) :=
  if v = 0 then [instr .pushZero .int]
  else if v = 1 then [instr .pushOne .int]
  else [instr .pushImm .int, int v]

/-- Push the float with the given bits; positive zero and one have instructions of
their own. -/
def pushFloat (bits : UInt64) : List (Item L) :=
  if bits = 0 then [instr .pushZero .float]
  else if bits = 0x3ff0000000000000 then [instr .pushOne .float]
  else instr .pushImm .float :: double bits

/-- Push an object handle; the null handle has an instruction of its own. -/
def pushObj (handle : UInt64) : List (Item L) :=
  if handle = 0 then [instr .pushNull .obj]
  else instr .pushImm .obj :: double handle

/-- An instruction with a slot or function index. -/
def indexed (op : Opcode) (k : Kind) (index : Int) : List (Item L) :=
  [instr op k, int (Int32.ofInt index)]

/-- The word an item becomes at position `pos`. -/
def resolve (addressOf : L → Nat) (pos : Nat) : Item L → UInt32
  | .word w => w
  | .address l => UInt32.ofNat (addressOf l)
  | .ahead n => UInt32.ofNat (pos + 1 + n)

/-- The words of a row of items that starts at position `pos`. -/
def resolveFrom (addressOf : L → Nat) : Nat → List (Item L) → List UInt32
  | _, [] => []
  | pos, i :: rest => i.resolve addressOf pos :: resolveFrom addressOf (pos + 1) rest

@[simp] theorem length_resolveFrom (addressOf : L → Nat) (pos : Nat) (items : List (Item L)) :
    (resolveFrom addressOf pos items).length = items.length := by
  induction items generalizing pos with
  | nil => rfl
  | cons i rest ih => simp [resolveFrom, ih]

theorem resolveFrom_append (addressOf : L → Nat) (pos : Nat) (a b : List (Item L)) :
    resolveFrom addressOf pos (a ++ b) =
      resolveFrom addressOf pos a ++ resolveFrom addressOf (pos + a.length) b := by
  induction a generalizing pos with
  | nil => simp [resolveFrom]
  | cons i rest ih => simp [resolveFrom, ih, Nat.add_assoc, Nat.add_comm 1]

end Item
end Stackwork
