import Stackwork.Ty.Basic

/-!
# Errors in images

Everything that can be wrong with the bytes of a module image, or with what the reader of
an image was given to complete it.
-/
namespace Stackwork.Image

/-- The only version there is. -/
def version : Nat := 1

/-- Why an image gives no module. -/
inductive ImageError where
  | tooShort (size : Nat)
  | wrongMagic
  | wrongVersion (got : Nat)
  /-- The record is not well-formed, or a field does not hold what it should. -/
  | unreadable
  | wrongId (size : Nat)
  | smallFrame (function : String)
  /-- An import that cannot be found, with the reason if there is one. -/
  | unresolvedImport (name : String) (reason : Option String)
  /-- A variable or function whose type is not in the list. -/
  | typeOutOfRange (ref : Int)
  /-- A type built from one that does not come before it. -/
  | componentOutOfRange (type : Nat) (ref : Int)
  | unknownKind (kind : Nat)
  | notAFunction (name : String) (type : Ty)
  | unknownBuiltin (name : String)

def ImageError.message : ImageError → String
  | tooShort size => "corrupt image data: " ++ toString size ++ " bytes"
  | wrongMagic => "invalid magic number: expected YMSL"
  | wrongVersion got =>
    "image version mismatch: got " ++ toString got ++ ", want " ++ toString version
  | unreadable => "corrupt image data"
  | wrongId size =>
    "corrupt image data: module id: invalid UUID (got " ++ toString size ++ " bytes)"
  | smallFrame f => "corrupt image data: function " ++ f ++ " frame smaller than its parameters"
  | unresolvedImport name reason =>
    "unresolved import: " ++ name ++ ((reason.map (": " ++ ·)).getD "")
  | typeOutOfRange ref => "invalid type reference: " ++ toString ref
  | componentOutOfRange type ref =>
    "invalid type reference: type " ++ toString type ++ " refers to " ++ toString ref
  | unknownKind kind => "invalid type reference: unknown kind " ++ toString kind
  | notAFunction name type =>
    "invalid type reference: function " ++ name ++ " has type " ++ type.render
  | unknownBuiltin name => "unknown builtin: " ++ name

end Stackwork.Image
