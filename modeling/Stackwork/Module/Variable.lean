import Stackwork.Kind

/-!
# Variables

A named, typed storage slot with a fixed address: a place in the heap, or a place in
the frame of one function. A local knows which declared function it belongs to; a local
made without a function belongs to none.
-/
namespace Stackwork

/-- Where a variable lives. -/
inductive Binding where
  | global
  | local
deriving DecidableEq

def Binding.name : Binding → String
  | global => "global"
  | .local => "local"

/-- A function declared in a program: the program, and its place among the program's
functions. -/
structure UnitKey where
  program : Nat
  position : Nat
deriving DecidableEq

/-- A storage slot with a name and a type. -/
structure Variable where
  name : String
  type : Ty
  binding : Binding
  /-- Heap index of a global, frame offset of a local. -/
  index : Int
  owner : Option UnitKey := none

namespace Variable

def isGlobal (v : Variable) : Bool := v.binding = .global

def kind (v : Variable) : Kind := Kind.ofTy v.type

def render (v : Variable) : String :=
  v.binding.name ++ " " ++ v.name ++ ": " ++ v.type.render ++ " #" ++ toString v.index

end Variable
end Stackwork
