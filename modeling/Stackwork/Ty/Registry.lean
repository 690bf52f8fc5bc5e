import Stackwork.Ty.Basic

/-!
# Tables of types

A registry holds any number of tables and hands out registration numbers, counting
over all of them. Asking a table twice for the same container or signature gives the
type registered first; an enum is new on every request. The components of a type may
come from any table.
-/
namespace Stackwork

/-- Names one table of a registry. -/
structure TableId where
  index : Nat
deriving DecidableEq, Inhabited

/-- The types of one table in the order of registration, the five primitives first. -/
structure TyTable where
  void : Ty
  boolean : Ty
  int : Ty
  float : Ty
  string : Ty
  types : List Ty

/-- All tables, and the next free registration number. -/
structure Registry where
  next : Nat
  tables : Array TyTable

namespace TyTable

/-- A table whose primitives have the numbers `n`, …, `n + 4`. -/
def startingAt (n : Nat) : TyTable :=
  let void := Ty.prim n .void
  let boolean := Ty.prim (n + 1) .boolean
  let int := Ty.prim (n + 2) .int
  let float := Ty.prim (n + 3) .float
  let string := Ty.prim (n + 4) .string
  { void, boolean, int, float, string, types := [void, boolean, int, float, string] }

instance : Inhabited TyTable := ⟨startingAt 0⟩

def prim (t : TyTable) : Prim → Ty
  | .void => t.void
  | .boolean => t.boolean
  | .int => t.int
  | .float => t.float
  | .string => t.string

def size (t : TyTable) : Nat := t.types.length

end TyTable

/-- A request for a type that is determined by its components. -/
inductive Shape where
  | array (elem : Ty)
  | set (elem : Ty)
  | map (key elem : Ty)
  | function (output : Ty) (inputs : List Ty)

namespace Shape

/-- The type of this shape with registration number `n`. -/
def withId (n : Nat) : Shape → Ty
  | array e => .array n e
  | set e => .set n e
  | map k e => .map n k e
  | function o is => .function n o is

/-- A signature as text: the number of the result, then those of the parameters, each behind a
comma. -/
def signatureKey (output : Ty) (inputs : List Ty) : String :=
  ",".intercalate ((output :: inputs).map fun t => toString t.id)

/-- Whether a registered type has this shape, comparing components as types and signatures as
texts. -/
def fits : Shape → Ty → Bool
  | array e, .array _ e' => e.same e'
  | set e, .set _ e' => e.same e'
  | map k e, .map _ k' e' => k.same k' && e.same e'
  | function o is, .function _ o' is' => signatureKey o is == signatureKey o' is'
  | _, _ => false

end Shape

namespace Registry

/-- No tables yet; numbering starts at zero. -/
def empty : Registry := ⟨0, #[]⟩

/-- Open a new table, which takes five numbers for its primitives. -/
def newTable (r : Registry) : TableId × Registry :=
  (⟨r.tables.size⟩, ⟨r.next + Prim.all.length, r.tables.push (.startingAt r.next)⟩)

def table (r : Registry) (t : TableId) : TyTable := r.tables.getD t.index default

def prim (r : Registry) (t : TableId) (p : Prim) : Ty := (r.table t).prim p

/-- Enter the type that `make` gives for the next number. -/
def register (r : Registry) (t : TableId) (make : Nat → Ty) : Ty × Registry :=
  let new := make r.next
  (new, ⟨r.next + 1, r.tables.modify t.index fun tt => { tt with types := tt.types ++ [new] }⟩)

/-- The type of the given shape, registered now unless the table has it already. -/
def intern (r : Registry) (t : TableId) (s : Shape) : Ty × Registry :=
  match (r.table t).types.find? s.fits with
  | some known => (known, r)
  | none => r.register t fun n => s.withId n

def arrayOf (r : Registry) (t : TableId) (elem : Ty) : Ty × Registry := r.intern t (.array elem)

def setOf (r : Registry) (t : TableId) (elem : Ty) : Ty × Registry := r.intern t (.set elem)

def mapOf (r : Registry) (t : TableId) (key elem : Ty) : Ty × Registry :=
  r.intern t (.map key elem)

def functionOf (r : Registry) (t : TableId) (output : Ty) (inputs : List Ty) : Ty × Registry :=
  r.intern t (.function output inputs)

/-- A new enum type, also when name and members repeat. -/
def enumOf (r : Registry) (t : TableId) (name : String) (members : List EnumMember) :
    Ty × Registry :=
  r.register t fun n => .enum n name members

/-- Every type of a table in the order of registration. -/
def all (r : Registry) (t : TableId) : List Ty := (r.table t).types

/-- Number of types in a table. -/
def size (r : Registry) (t : TableId) : Nat := (r.table t).size

end Registry
end Stackwork
