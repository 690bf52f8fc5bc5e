import Stackwork.Code.Verify
import Stackwork.Module.Link

/-!
# The machine

Globals live in a heap of fixed size, locals and temporaries on one stack addressed
from the register BASE; SP is the next free slot. Both registers are integers without
bounds: moving them never fails, only touching a slot outside the stack does. A tagged
machine also keeps the kind last written to each slot and refuses to read it as another
kind. Lines that the machine and its host functions write are collected in a journal.
-/
namespace Stackwork

/-- The two slot memories. -/
inductive Region where
  | stack
  | heap
deriving DecidableEq

def Region.name : Region → String
  | stack => "stack"
  | heap => "heap"

/-- Why a machine stops for good. -/
inductive Fault where
  /-- Integer division by zero. -/
  | division
  /-- A position outside the stack, the heap, the code or the function table. -/
  | outOfRange
  /-- A slot written as one kind and read as another. -/
  | tag (region : Region) (slot : Int) (held wanted : Kind)
  /-- A routine without code, or without a result type where one is needed. -/
  | absent
deriving DecidableEq

/-- The wording of a fault that has one. -/
def Fault.message? : Fault → Option String
  | tag region slot held wanted =>
    some ("vm: " ++ region.name ++ " slot " ++ toString slot ++ " holds " ++ held.name ++
      ", read as " ++ wanted.name)
  | _ => none

/-- What a caller returns to. -/
structure Frame where
  code : Code
  pc : Int
  base : Int

/-- How a machine is watched. Neither choice changes what a finished run computes. -/
structure Settings where
  /-- Write every executed instruction to the journal. -/
  trace : Bool := false
  /-- Keep and check a kind for every slot. -/
  tagged : Bool := false

/-- A machine between or during executions. -/
structure Machine where
  settings : Settings
  heap : Array Slot
  stack : Array Slot
  heapTags : Array Kind
  stackTags : Array Kind
  sp : Int := 0
  base : Int := 0
  frames : Array Frame := #[]
  exe : Option Executable := none
  objects : Array HostObject := #[]
  halted : Bool := false
  journal : Array String := #[]

/-- Why an executable is not taken. -/
inductive LoadError where
  | tooManyGlobals (globals heap : Nat)
  | wrongIndex (name : String) (slot : Nat) (index : Int)
  | noCode (name : String)
  | function (name : String) (defect : Defect)
  | init (defect : Defect)
deriving DecidableEq

def LoadError.message : LoadError → String
  | tooManyGlobals globals heap =>
    "malformed bytecode: " ++ toString globals ++ " globals exceed heap size " ++ toString heap
  | wrongIndex name slot index =>
    "malformed bytecode: function " ++ name ++ " at slot " ++ toString slot ++ " has index " ++
      toString index
  | noCode name => "malformed bytecode: function " ++ name ++ " has no code"
  | function name defect => "function " ++ name ++ ": " ++ defect.message
  | init defect => "init code: " ++ defect.message

namespace Executable

def limits (e : Executable) (locals : Nat) : Limits where
  functions := e.routines.size
  globals := e.globals.length
  locals := locals

/-- Check the routine in one slot of the function table. -/
def checkRoutine (e : Executable) (slot : Nat) (r : Routine) : Except LoadError Unit :=
  if r.index ≠ slot then .error (.wrongIndex r.name slot r.index)
  else
    match r.body with
    | .host _ => .ok ()
    | .compiled none _ => .error (.noCode r.name)
    | .compiled (some code) locals =>
      (code.verify (e.limits locals.length)).mapError (.function r.name)

/-- Check an executable for a heap of the given size. The first defect found decides:
first the globals, then the routines in order, then the init codes. -/
def check (e : Executable) (heap : Nat) : Except LoadError Unit := do
  if e.globals.length > heap then throw (.tooManyGlobals e.globals.length heap)
  for (r, slot) in e.routines.toList.zipIdx do
    e.checkRoutine slot r
  for code in e.inits do
    (code.verify (e.limits 0)).mapError .init

end Executable

namespace Machine

def defaultHeapSize : Nat := 4096

def defaultStackSize : Nat := 65536

/-- A machine with a cleared heap and stack and nothing loaded. -/
def new (heapSize stackSize : Nat) (settings : Settings) : Machine where
  settings := settings
  heap := Array.replicate heapSize .zero
  stack := Array.replicate stackSize .zero
  heapTags := if settings.tagged then Array.replicate heapSize .none else #[]
  stackTags := if settings.tagged then Array.replicate stackSize .none else #[]

/-- Clear the heap and the registers. The program and its objects stay. -/
def reset (m : Machine) : Machine :=
  { m with
    heap := Array.replicate m.heap.size .zero
    sp := 0
    base := 0
    frames := #[]
    halted := false }

/-- Write a line to the journal. -/
def write (m : Machine) (line : String) : Machine := { m with journal := m.journal.push line }

/-- Kinds written over the first tags of a memory. -/
def retag (tags : Array Kind) (kinds : List Kind) : Array Kind :=
  (kinds.zipIdx).foldl (fun ts (k, i) => ts.setIfInBounds i k) tags

/-- Put a checked executable in place: all registers reset, the string literals being
the first objects. -/
def install (m : Machine) (e : Executable) : Machine :=
  let m := m.reset
  { m with
    exe := some e
    heapTags := if m.settings.tagged then retag m.heapTags e.globals else m.heapTags
    objects := (e.strings.map HostObject.text).toArray
    journal := m.journal.push ("loaded " ++ e.name ++ ": " ++ toString e.routines.size ++
      " functions, " ++ toString e.globals.length ++ " globals, " ++
      toString e.strings.length ++ " strings") }

/-- Load an executable. A refused one leaves the machine as it was. -/
def load (m : Machine) (e : Executable) : Except LoadError Machine :=
  (e.check m.heap.size).map fun _ => m.install e

/-- The function table of the loaded program. -/
def routines (m : Machine) : Array Routine :=
  match m.exe with
  | some e => e.routines
  | none => #[]

/-- Register a host object and give its handle; handles count from one. -/
def newObject (m : Machine) (o : HostObject) : UInt64 × Machine :=
  (UInt64.ofNat (m.objects.size + 1), { m with objects := m.objects.push o })

/-- The object behind a handle; there is none behind zero and unknown handles. -/
def object (m : Machine) (handle : UInt64) : HostObject :=
  if handle = 0 then .null else m.objects.getD (handle.toNat - 1) .null

def registers (m : Machine) : Registers := ⟨m.sp, m.base, m.halted⟩

/-- An element by an integer position. -/
def at? {α : Type} (xs : Array α) (i : Int) : Option α :=
  if 0 ≤ i then xs[i.toNat]? else none

/-- A heap slot. -/
def global? (m : Machine) (i : Int) : Option Slot := at? m.heap i

/-- Overwrite a heap slot. -/
def setGlobal? (m : Machine) (i : Int) (v : Slot) : Option Machine :=
  if 0 ≤ i ∧ i < m.heap.size then some { m with heap := m.heap.setIfInBounds i.toNat v } else none

/-- The live part of the stack, unless SP has left it. -/
def liveStack? (m : Machine) : Option (List Slot) :=
  if 0 ≤ m.sp ∧ m.sp ≤ m.stack.size then some (m.stack.toList.take m.sp.toNat) else none

end Machine
end Stackwork
