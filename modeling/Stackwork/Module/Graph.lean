import Stackwork.Module.Basic

/-!
# Module graphs

A collection of modules with their imports. The modules that some roots need are listed
in dependency order: depth first, imports in the order written, each module once, and a
module after its imports. A module on a cycle of imports comes after those of its
imports that were not already begun.
-/
namespace Stackwork

/-- Modules by number. -/
structure Graph where
  modules : Array Module := #[]
deriving Inhabited

namespace Graph

def size (g : Graph) : Nat := g.modules.size

def get? (g : Graph) (m : ModuleId) : Option Module := g.modules[m.index]?

def get (g : Graph) (m : ModuleId) : Module := (g.get? m).getD default

/-- Add a module under a new number. -/
def add (g : Graph) (m : Module) : ModuleId × Graph := (⟨g.modules.size⟩, ⟨g.modules.push m⟩)

/-- Exchange the identifier of a module. -/
def setId (g : Graph) (m : ModuleId) (id : Uuid) : Graph :=
  ⟨g.modules.modify m.index ({ · with id })⟩

def importsOf (g : Graph) (m : ModuleId) : List ModuleId := ((g.get? m).map (·.imports)).getD []

/-- A depth-first walk: the modules begun, and those finished in their order. -/
structure Walk where
  begun : List ModuleId := []
  order : List ModuleId := []

/-- Walk from a module. The fuel bounds how deep imports are followed; a path of begun
modules has no repetition, so the number of modules is deep enough. -/
def visit (g : Graph) : Nat → Walk → ModuleId → Walk
  | 0, w, _ => w
  | fuel + 1, w, m =>
    if w.begun.contains m then w
    else
      let w := (g.importsOf m).foldl (g.visit fuel) { w with begun := m :: w.begun }
      { w with order := w.order ++ [m] }

/-- Everything the roots need, in dependency order. -/
def flatten (g : Graph) (roots : List ModuleId) : List ModuleId :=
  (roots.foldl (g.visit (g.size + 1)) {}).order

/-- The tables that the listed modules fill. -/
def layoutOf (g : Graph) (order : List ModuleId) : Layout :=
  order.foldl (fun acc m => acc.add (g.get m).extent) {}

end Graph
end Stackwork
