import Stackwork.Code.Assembly

/-!
# Words and what they stand for

An instruction word gives back the opcode and the kind it was made from, a small number
written as an operand is read back as itself, and the two halves of a long constant join
to that constant. Nothing here depends on where a word stands.
-/
namespace Stackwork

/-- How many operand words an opcode takes for a kind. -/
def Opcode.width (op : Opcode) (k : Kind) : Nat :=
  match op.operand with
  | .none => 0
  | .word => 1
  | .immediate => k.words

namespace Instr

@[simp] theorem opByte_ofBytes (op : UInt8) (k : Kind) : (ofBytes op k).opByte = op := by
  apply UInt8.toBitVec_inj.1
  simp only [opByte, ofBytes, UInt32.toBitVec_toUInt8, UInt32.toBitVec_or,
    UInt8.toBitVec_toUInt32, UInt32.toBitVec_shiftLeft]
  ext i hi
  simp

@[simp] theorem kind_ofBytes (op : UInt8) (k : Kind) : (ofBytes op k).kind = k := by
  obtain ⟨code⟩ := k
  simp only [kind, ofBytes, Kind.mk.injEq]
  apply UInt8.toBitVec_inj.1
  simp only [UInt32.toBitVec_toUInt8, UInt32.toBitVec_or, UInt8.toBitVec_toUInt32,
    UInt32.toBitVec_shiftLeft, UInt32.toBitVec_shiftRight]
  ext i hi
  simp
  grind

theorem high_ofBytes (op : UInt8) (k : Kind) : (ofBytes op k).word >>> 16 = 0 := by
  apply UInt32.toBitVec_inj.1
  simp only [ofBytes, UInt32.toBitVec_or, UInt8.toBitVec_toUInt32, UInt32.toBitVec_shiftLeft,
    UInt32.toBitVec_shiftRight]
  ext i hi
  simp
  grind

@[simp] theorem op?_make (op : Opcode) (k : Kind) : (make op k).op? = some op := by
  simp [make, op?]

@[simp] theorem kind_make (op : Opcode) (k : Kind) : (make op k).kind = k := by
  simp [make]

@[simp] theorem operandWords_make (op : Opcode) (k : Kind) :
    (make op k).operandWords = op.width k := by
  simp only [operandWords, op?_make, kind_make]
  rfl

theorem valid_make {op : Opcode} {k : Kind} : (make op k).valid = op.kinds.contains k := by
  simp [valid, make, op?, high_ofBytes]

/-- A word is the instruction with some opcode and kind when it is valid. -/
theorem exists_op_of_valid {i : Instr} (h : i.valid) : ∃ op, i.op? = some op := by
  cases hop : i.op? with
  | none => simp [valid, hop] at h
  | some op => exact ⟨op, rfl⟩

end Instr

/-- The first number that is too large for an operand, which is read as signed. -/
def operandLimit : Nat := 2147483648

/-- An operand that is not negative and not too large is read back as the number it was
written for. -/
theorem toInt_ofInt_operand {i : Int} (h₀ : 0 ≤ i) (h : i < operandLimit) :
    (Int32.ofInt i).toUInt32.toInt32.toInt = i := by
  simp only [operandLimit] at h
  simp only [Int32.toInt32_toUInt32]
  exact Int32.toInt_ofInt_of_le (by omega) (by omega)

theorem toInt_ofNat_operand {n : Nat} (h : n < operandLimit) :
    (UInt32.ofNat n).toInt32.toInt = n := by
  rw [UInt32.toInt32_ofNat']
  exact Int32.toInt_ofNat_of_lt h

/-- The halves of a long constant, low half first, join to it. -/
theorem joinWords_halves (v : UInt64) : Code.joinWords v.toUInt32 (v >>> 32).toUInt32 = v := by
  apply UInt64.toNat_inj.1
  have hv := v.toNat_lt
  have hlow : v.toNat % 2 ^ 32 < 2 ^ 32 := Nat.mod_lt _ (by decide)
  have hhigh : v.toNat >>> 32 < 2 ^ 32 := by
    rw [Nat.shiftRight_eq_div_pow]
    omega
  simp only [Code.joinWords, UInt64.toNat_or, UInt32.toNat_toUInt64, UInt64.toNat_shiftLeft,
    UInt64.toNat_toUInt32, UInt64.toNat_shiftRight, UInt64.reduceToNat, Nat.reduceMod]
  rw [Nat.mod_eq_of_lt hhigh, Nat.or_comm, Nat.mod_eq_of_lt, ← Nat.shiftLeft_add_eq_or_of_lt hlow]
  · rw [Nat.shiftRight_eq_div_pow, Nat.shiftLeft_eq]
    omega
  · rw [Nat.shiftLeft_eq]
    omega

end Stackwork
