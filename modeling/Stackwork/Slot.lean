/-!
# Slots

One untagged 64-bit cell of the machine. Nothing in a slot records what it holds;
the instruction that reads it decides. An integer occupies the low 32 bits with the
rest clear, a truth value is the integer 0 or 1, a float is its bit pattern and an
object handle the number itself.
-/
namespace Stackwork

/-- One cell of the stack or of the heap. -/
structure Slot where
  bits : UInt64
deriving DecidableEq, Inhabited

namespace Slot

/-- The cell every fresh stack and heap is filled with. -/
def zero : Slot := ⟨0⟩

def ofInt (i : Int32) : Slot := ⟨i.toUInt32.toUInt64⟩

def ofFloat (f : Float) : Slot := ⟨f.toBits⟩

def ofBool (b : Bool) : Slot := ⟨if b then 1 else 0⟩

/-- The low half, read as a signed number. -/
def toInt (s : Slot) : Int32 := s.bits.toUInt32.toInt32

def toFloat (s : Slot) : Float := Float.ofBits s.bits

/-- Any integer but zero counts as true. -/
def toBool (s : Slot) : Bool := s.toInt != 0

@[simp] theorem toInt_ofInt (i : Int32) : (ofInt i).toInt = i := by
  simp [ofInt, toInt]

@[simp] theorem toBool_ofBool (b : Bool) : (ofBool b).toBool = b := by
  cases b <;> decide

end Slot
end Stackwork
