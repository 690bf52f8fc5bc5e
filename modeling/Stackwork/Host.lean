import Stackwork.Code.Stream

/-!
# Host functions

A builtin is a function of the host that code can call. It is given as a script: a tree
of requests to the machine, each with the rest of the script as a function of the
answer. A script can log, look at the registers and the stack, use objects and globals,
and run more code; it cannot see the machine in any other way, nor change its registers
except by running code that restores them.
-/
namespace Stackwork

/-- A host object behind a handle: a text, something the machine knows nothing about,
or nothing at all. -/
inductive HostObject where
  | text (s : String)
  | other
  | null
deriving DecidableEq, Inhabited

/-- The text of an object that is one. -/
def HostObject.text? : HostObject → Option String
  | .text s => some s
  | _ => none

/-- Why a call from the host is refused. -/
inductive CallError where
  | notLoaded
  | noSuchIndex (index : Int)
  | noSuchName (name : String)
  | wrongArity (name : String) (wanted got : Nat)
deriving DecidableEq

def CallError.message : CallError → String
  | notLoaded => "no executable loaded"
  | noSuchIndex i => "no such function: index " ++ toString i
  | noSuchName n => "no such function: " ++ n
  | wrongArity n wanted got =>
    "function " ++ n ++ " takes " ++ toString wanted ++ " arguments, got " ++ toString got

/-- What a script sees of the registers. -/
structure Registers where
  sp : Int
  base : Int
  halted : Bool

/-- A host function in progress. -/
inductive HostScript where
  /-- Return to the caller. -/
  | done (result : Slot)
  | log (line : String) (next : HostScript)
  | registers (next : Registers → HostScript)
  /-- The live part of the stack, bottom first. -/
  | stack (next : List Slot → HostScript)
  | readGlobal (index : Int) (next : Slot → HostScript)
  | writeGlobal (index : Int) (value : Slot) (next : HostScript)
  | newObject (value : HostObject) (next : UInt64 → HostScript)
  | object (handle : UInt64) (next : HostObject → HostScript)
  /-- Call a function of the loaded program. -/
  | call (index : Int) (args : List Slot) (next : Except CallError Slot → HostScript)
  /-- Run code as a block of its own. -/
  | execute (code : Code) (next : HostScript)

/-- A host function: the script it runs on given arguments. -/
abbrev Builtin := List Slot → HostScript

end Stackwork
