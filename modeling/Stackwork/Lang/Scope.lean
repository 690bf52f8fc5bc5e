import Stackwork.Lang.Problem
import Stackwork.Lang.Syntax

/-!
# Scopes

A forest of scopes, each mapping names to what they stand for. A name is declared at
most once in a scope and may hide the same name further out. Looking a name up goes from
a scope outward; looking a dotted name up does so for its first part only and then looks
into the member scopes of what it finds.
-/
namespace Stackwork

/-- Names one scope of a forest. -/
structure ScopeId where
  index : Nat
deriving DecidableEq, Inhabited

/-- What a name stands for. -/
inductive Entry where
  | variable (v : Variable)
  | function (f : Callable)
  /-- A type, with the scope of its members if it has named ones. -/
  | type (t : Ty) (members : Option ScopeId)
  | label (l : Label)
  | scope (s : ScopeId)
  | constant (c : Constant)

namespace Entry

def kind : Entry → EntryKind
  | .variable _ => .variable
  | function _ => .function
  | type .. => .type
  | label _ => .label
  | .scope _ => .scope
  | constant _ => .constant

/-- The scope in which the rest of a dotted name is looked up. -/
def members? : Entry → Option ScopeId
  | type _ members => members
  | .scope s => some s
  | _ => none

end Entry

/-- One scope: the scopes from itself outward, its own name, which may be empty, and its
entries in the order of declaration. -/
structure Scope where
  chain : List ScopeId
  name : String
  entries : List (String × Entry) := []
deriving Inhabited

/-- All scopes. -/
structure Forest where
  scopes : Array Scope := #[]

namespace Forest

def get (f : Forest) (s : ScopeId) : Scope := f.scopes.getD s.index default

/-- Add a scope inside another one, or a root. -/
def new (f : Forest) (parent : Option ScopeId) (name : String) : ScopeId × Forest :=
  let id : ScopeId := ⟨f.scopes.size⟩
  let outer := (parent.map fun p => (f.get p).chain).getD []
  (id, ⟨f.scopes.push { chain := id :: outer, name }⟩)

/-- The scope around a scope. -/
def parent? (f : Forest) (s : ScopeId) : Option ScopeId := (f.get s).chain[1]?

/-- The names of a scope and the scopes around it, outermost first, without empty ones. -/
def fullName (f : Forest) (s : ScopeId) : String :=
  ".".intercalate ((((f.get s).chain.map fun c => (f.get c).name).filter (· ≠ "")).reverse)

/-- Find a name in one scope. -/
def lookupLocal (f : Forest) (s : ScopeId) (name : String) : Option Entry :=
  (f.get s).entries.lookup name

/-- Find a name in a scope or the nearest scope around it. -/
def lookup (f : Forest) (s : ScopeId) (name : String) : Option Entry :=
  (f.get s).chain.findSome? (f.lookupLocal · name)

/-- Follow names through member scopes. -/
def follow (f : Forest) : Entry → List String → Option Entry
  | e, [] => some e
  | e, name :: rest => do
    let next ← f.lookupLocal (← e.members?) name
    f.follow next rest

/-- Find what a dotted name stands for. -/
def lookupPath (f : Forest) (s : ScopeId) : List String → Option Entry
  | [] => none
  | name :: rest => do f.follow (← f.lookup s name) rest

/-- Enter a name, unless the scope has it already. -/
def declare (f : Forest) (s : ScopeId) (name : String) (e : Entry) :
    Except CompileError Forest :=
  match f.lookupLocal s name with
  | some earlier => .error ⟨f.fullName s, .redeclared e.kind name earlier.kind⟩
  | none =>
    .ok ⟨f.scopes.modify s.index fun sc => { sc with entries := sc.entries ++ [(name, e)] }⟩

/-- Enter a scope under its own name. -/
def declareScope (f : Forest) (s child : ScopeId) : Except CompileError Forest :=
  f.declare s (f.get child).name (.scope child)

end Forest
end Stackwork
