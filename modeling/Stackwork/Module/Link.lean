import Stackwork.Module.Graph

/-!
# Linking

A module and all it imports joined to one executable: one function table, the heap
layout, the string pool and the init codes in dependency order. Linking succeeds when
every module starts where its bases say and numbers its routines and globals without
gaps from there.
-/
namespace Stackwork

/-- A linked program. -/
structure Executable where
  name : String
  modules : List Module := []
  routines : Array Routine := #[]
  /-- The kind of each global. -/
  globals : List Kind := []
  strings : List String := []
  inits : List Code := []

/-- Why modules do not fit together. -/
inductive LinkError where
  | bases (module : String) (expected actual : Layout)
  | function (module name : String) (index slot : Int)
  | global (module name : String) (index slot : Int)
deriving DecidableEq

namespace LinkError

private def bar (l : Layout) : String :=
  toString l.functions ++ "/" ++ toString l.globals ++ "/" ++ toString l.strings

private def misplaced (what m n : String) (index slot : Int) : String :=
  "module layout conflict: " ++ what ++ " " ++ m ++ "." ++ n ++ " has index " ++ toString index ++
    ", slot is " ++ toString slot

def message : LinkError → String
  | bases m expected actual =>
    "module layout conflict: module " ++ m ++ " expects bases " ++ bar expected ++
      ", linked at " ++ bar actual
  | function m n index slot => misplaced "function" m n index slot
  | global m n index slot => misplaced "global" m n index slot

end LinkError

namespace Executable

/-- The tables as they stand. -/
def layout (e : Executable) : Layout where
  functions := e.routines.size
  globals := e.globals.length
  strings := e.strings.length

/-- The routine with a name, from the module linked last that has one. -/
def routine? (e : Executable) (name : String) : Option Routine :=
  e.modules.reverse.findSome? (·.routine? name)

/-- Append one routine of `m`, which has to carry the number of its slot. -/
def addRoutine (m : Module) (e : Executable) (r : Routine) : Except LinkError Executable :=
  let slot : Int := e.routines.size
  if r.index = slot then .ok { e with routines := e.routines.push r }
  else .error (.function m.name r.name r.index slot)

/-- Append one global of `m`, which has to live in the heap under the number of its slot. -/
def addGlobal (m : Module) (e : Executable) (v : Variable) : Except LinkError Executable :=
  let slot : Int := e.globals.length
  if v.isGlobal ∧ v.index = slot then .ok { e with globals := e.globals ++ [v.kind] }
  else .error (.global m.name v.name v.index slot)

/-- Append a module. -/
def addModule (e : Executable) (m : Module) : Except LinkError Executable := do
  if m.bases ≠ e.layout then throw (.bases m.name m.bases e.layout)
  let e ← m.routines.foldlM (addRoutine m) e
  let e ← m.globals.foldlM (addGlobal m) e
  return { e with
    modules := e.modules ++ [m]
    strings := e.strings ++ m.strings
    inits := e.inits ++ m.init.toList }

end Executable

/-- Join a module and everything it needs. -/
def Graph.link (g : Graph) (root : ModuleId) : Except LinkError Executable :=
  ((g.flatten [root]).map g.get).foldlM Executable.addModule { name := (g.get root).name }

end Stackwork
