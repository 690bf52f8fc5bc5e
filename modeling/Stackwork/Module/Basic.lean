import Stackwork.Module.Routine
import Stackwork.Module.Variable
import Stackwork.Uuid

/-!
# Modules

The result of compiling one program. Its routines, globals and string literals take
ranges of the tables of the whole program, which start at the recorded bases; the
modules it imports come before it. Imports are by number in a collection of modules, so
a module may be shared, and nothing keeps a collection from having cycles.
-/
namespace Stackwork

/-- Sizes of the whole-program tables, or positions in them. -/
structure Layout where
  functions : Int := 0
  globals : Int := 0
  strings : Int := 0
deriving DecidableEq, Inhabited

/-- Names one module of a collection. -/
structure ModuleId where
  index : Nat
deriving DecidableEq, Inhabited

/-- A compiled unit. -/
structure Module where
  name : String
  id : Uuid := .zero
  imports : List ModuleId := []
  routines : List Routine := []
  globals : List Variable := []
  strings : List String := []
  bases : Layout := {}
  /-- The top-level statements, if there are any. -/
  init : Option Code := none
deriving Inhabited

namespace Module

/-- The exported routine with a name. -/
def routine? (m : Module) (name : String) : Option Routine := m.routines.find? (·.name = name)

/-- The exported global with a name. -/
def global? (m : Module) (name : String) : Option Variable := m.globals.find? (·.name = name)

/-- How much of each table the module takes. -/
def extent (m : Module) : Layout where
  functions := m.routines.length
  globals := m.globals.length
  strings := m.strings.length

end Module

/-- Table sizes added up. -/
def Layout.add (a b : Layout) : Layout where
  functions := a.functions + b.functions
  globals := a.globals + b.globals
  strings := a.strings + b.strings

end Stackwork
