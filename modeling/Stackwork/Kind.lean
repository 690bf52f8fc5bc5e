import Stackwork.Ty.Basic

/-!
# Machine kinds

How an instruction reads the slots it works on. Four kinds have a meaning; the byte
in an instruction word or in a frame layout may hold any value, and kinds without a
meaning are shown by number.
-/
namespace Stackwork

/-- A kind byte. -/
structure Kind where
  code : UInt8
deriving DecidableEq, Inhabited

namespace Kind

def none : Kind := ⟨0⟩
def int : Kind := ⟨1⟩
def float : Kind := ⟨2⟩
def obj : Kind := ⟨3⟩

/-- The part of a mnemonic that names the kind. -/
def name (k : Kind) : String :=
  if k = none then "NONE"
  else if k = int then "INT"
  else if k = float then "FLOAT"
  else if k = obj then "OBJ"
  else "KIND_" ++ toString k.code.toNat

/-- How many code words an immediate of this kind takes. -/
def words (k : Kind) : Nat :=
  if k = int then 1 else if k = float ∨ k = obj then 2 else 0

/-- How values of a sort of type travel: truth values, enums and functions as
integers, text and containers as object handles. -/
def ofTyKind : TyKind → Kind
  | .boolean | .int | .enum | .function => int
  | .float => float
  | .string | .array | .set | .map => obj
  | .void => none

/-- How values of a type travel. -/
def ofTy (t : Ty) : Kind := ofTyKind t.kind

end Kind
end Stackwork
