import Stackwork.Host
import Stackwork.Code.Listing

/-!
# Routines

An entry of the function table: a host function, or compiled code with a fixed frame.
The first slots of a frame are the parameters.
-/
namespace Stackwork

/-- What a routine runs. -/
inductive RoutineBody where
  | host (builtin : Builtin)
  /-- Code, absent in a routine that cannot run, and the kind of each frame slot. -/
  | compiled (code : Option Code) (locals : List Kind)

/-- An entry of the function table. -/
structure Routine where
  name : String
  type : Ty
  index : Int
  body : RoutineBody

/-- A frame with fewer slots than the routine has parameters. -/
structure SmallFrame where
  routine : String
  slots : Nat
  parameters : Nat
deriving DecidableEq

def SmallFrame.message (e : SmallFrame) : String :=
  "vm: function " ++ e.routine ++ " has " ++ toString e.slots ++ " frame slots for " ++
    toString e.parameters ++ " parameters"

namespace Routine

/-- A routine backed by code; its frame must hold the parameters. -/
def ofCode (name : String) (type : Ty) (index : Int) (code : Option Code) (locals : List Kind) :
    Except SmallFrame Routine :=
  if locals.length < type.inputs.length then .error ⟨name, locals.length, type.inputs.length⟩
  else .ok ⟨name, type, index, .compiled code locals⟩

/-- Number of parameters. -/
def arity (r : Routine) : Nat := r.type.inputs.length

def isBuiltin (r : Routine) : Bool :=
  match r.body with
  | .host _ => true
  | .compiled .. => false

def code? (r : Routine) : Option Code :=
  match r.body with
  | .host _ => none
  | .compiled code _ => code

/-- Kinds of the frame slots of compiled code. -/
def locals (r : Routine) : List Kind :=
  match r.body with
  | .host _ => []
  | .compiled _ ks => ks

/-- How many stack slots a call takes. -/
def frameSize (r : Routine) : Nat :=
  match r.body with
  | .host _ => r.arity
  | .compiled _ ks => ks.length

/-- Kind of the result; only a function type has one. -/
def returnKind? (r : Routine) : Option Kind := r.type.output?.map Kind.ofTy

def render (r : Routine) : String :=
  "#" ++ toString r.index ++ " " ++ r.name ++ " " ++ r.type.render

/-- The listing of a routine under a line with its name; there is none without code. -/
def listing? (r : Routine) : Option (List String) :=
  match r.body with
  | .host _ => some [r.render ++ "  ; builtin"]
  | .compiled none _ => none
  | .compiled (some c) ks =>
    some ((r.render ++ "  ; frame " ++ toString ks.length) :: Listing.lines c)

end Routine
end Stackwork
