/-!
# Types of the language

Primitive types, containers, function signatures and enums. A type is a value that
carries its whole structure and, at every node, the number it was registered under.
Registration numbers are never reused, so two types are the same type exactly when
their numbers agree; two enums with the same name and members are different types.
-/
namespace Stackwork

/-- What sort of type a type is. -/
inductive TyKind where
  | void | boolean | int | float | string | array | set | map | enum | function
deriving DecidableEq

namespace TyKind

/-- The number a sort is written under. -/
def code : TyKind → Nat
  | void => 0 | boolean => 1 | int => 2 | float => 3 | string => 4
  | array => 5 | set => 6 | map => 7 | enum => 8 | function => 9

/-- The sort written under a number. -/
def ofCode? : Nat → Option TyKind
  | 0 => some void | 1 => some boolean | 2 => some int | 3 => some float
  | 4 => some string | 5 => some array | 6 => some set | 7 => some map
  | 8 => some enum | 9 => some function | _ => none

@[simp] theorem ofCode?_code (k : TyKind) : ofCode? k.code = some k := by
  cases k <;> rfl

def name : TyKind → String
  | void => "void" | boolean => "boolean" | int => "int" | float => "float"
  | string => "string" | array => "array" | set => "set" | map => "map"
  | enum => "enum" | function => "function"

/-- The name of the sort with the given number; numbers without a sort are shown. -/
def nameOfCode (n : Nat) : String :=
  match ofCode? n with
  | some k => k.name
  | none => "kind(" ++ toString n ++ ")"

/-- Primitive types have no components. -/
def isPrimitive : TyKind → Bool
  | void | boolean | int | float | string => true
  | _ => false

end TyKind

/-- A sort without components. -/
inductive Prim where
  | void | boolean | int | float | string
deriving DecidableEq

namespace Prim

/-- Every primitive, in the order in which a table registers them. -/
def all : List Prim := [void, boolean, int, float, string]

def kind : Prim → TyKind
  | void => .void | boolean => .boolean | int => .int | float => .float | string => .string

end Prim

/-- A member of an enum. Values are not bounded. -/
structure EnumMember where
  name : String
  value : Int
deriving DecidableEq

/-- A registered type. -/
inductive Ty where
  | prim (id : Nat) (p : Prim)
  | array (id : Nat) (elem : Ty)
  | set (id : Nat) (elem : Ty)
  | map (id : Nat) (key elem : Ty)
  | enum (id : Nat) (name : String) (members : List EnumMember)
  | function (id : Nat) (output : Ty) (inputs : List Ty)

namespace Ty

/-- The registration number. -/
def id : Ty → Nat
  | prim n _ | array n _ | set n _ | map n _ _ | enum n _ _ | function n _ _ => n

/-- Types are the same when they were registered once. -/
def same (a b : Ty) : Bool := a.id == b.id

def kind : Ty → TyKind
  | prim _ p => p.kind
  | array .. => .array
  | set .. => .set
  | map .. => .map
  | enum .. => .enum
  | function .. => .function

/-- Element type of a container. -/
def elem? : Ty → Option Ty
  | array _ e | set _ e | map _ _ e => some e
  | _ => none

def key? : Ty → Option Ty
  | map _ k _ => some k
  | _ => none

/-- Result type of a function type. -/
def output? : Ty → Option Ty
  | function _ o _ => some o
  | _ => none

/-- Parameter types; a type that is no function type has none. -/
def inputs : Ty → List Ty
  | function _ _ is => is
  | _ => []

/-- Name of an enum; other types have none. -/
def name : Ty → String
  | enum _ n _ => n
  | _ => ""

def members : Ty → List EnumMember
  | enum _ _ ms => ms
  | _ => []

/-- Position of a named member. -/
def memberIndex? (t : Ty) (name : String) : Option Nat :=
  t.members.findIdx? (·.name = name)

/-- Value of a named member. -/
def memberValue? (t : Ty) (name : String) : Option Int :=
  (t.members.find? (·.name = name)).map (·.value)

/-- Types that take part in arithmetic. -/
def isNumeric (t : Ty) : Bool := t.kind = .int || t.kind = .float

mutual
/-- A type in source notation. -/
def render : Ty → String
  | prim _ p => p.kind.name
  | array _ e => "array<" ++ e.render ++ ">"
  | set _ e => "set<" ++ e.render ++ ">"
  | map _ k e => "map<" ++ k.render ++ ", " ++ e.render ++ ">"
  | enum _ n _ => "enum " ++ n
  | function _ o is => "function(" ++ ", ".intercalate (renderAll is) ++ "): " ++ o.render

/-- Each of several types in source notation. -/
def renderAll : List Ty → List String
  | [] => []
  | t :: ts => t.render :: renderAll ts
end

end Ty
end Stackwork
