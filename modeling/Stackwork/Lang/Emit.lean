import Stackwork.Code.Assembly
import Stackwork.Lang.Check

/-!
# Code of checked programs

The assembly of terms and commands. Every term leaves exactly one slot on the stack and
every command none. The connectives jump a known distance ahead, so the assembly of a
term needs no labels of its own and can stand anywhere.
-/
namespace Stackwork

/-- The string literals of a module, numbered behind those of its imports. -/
structure Pool where
  base : Int
  texts : List String := []
deriving DecidableEq

namespace Pool

/-- Add a literal, unless it is there already. -/
def intern (p : Pool) (s : String) : Pool :=
  if p.texts.contains s then p else { p with texts := p.texts ++ [s] }

def internAll (p : Pool) (ss : List String) : Pool := ss.foldl intern p

/-- The object handle of a literal; handles count from one. -/
def handle (p : Pool) (s : String) : UInt64 :=
  UInt64.ofNat (p.base + (p.texts.idxOf s) + 1).toNat

end Pool

mutual
/-- The literals of a term in the order in which they are pushed. -/
def Term.texts : Term → List String
  | .int _ | .float _ | .load _ => []
  | .text s => [s]
  | .unary _ _ x => x.texts
  | .binary _ _ x y | .both x y | .either x y => x.texts ++ y.texts
  | .select _ c a b => c.texts ++ a.texts ++ b.texts
  | .call _ args => textsOf args
  | .callValue f args => textsOf args ++ f.texts

/-- The literals of several terms. -/
def textsOf : List Term → List String
  | [] => []
  | t :: ts => t.texts ++ textsOf ts
end

mutual
/-- The variables a term reads, in order. -/
def Term.loads : Term → List Variable
  | .int _ | .float _ | .text _ => []
  | .load v => [v]
  | .unary _ _ x => x.loads
  | .binary _ _ x y | .both x y | .either x y => x.loads ++ y.loads
  | .select _ c a b => c.loads ++ a.loads ++ b.loads
  | .call _ args => loadsOf args
  | .callValue f args => loadsOf args ++ f.loads

/-- The variables several terms read. -/
def loadsOf : List Term → List Variable
  | [] => []
  | t :: ts => t.loads ++ loadsOf ts
end

namespace Variable

def loadCode (v : Variable) : Opcode := if v.isGlobal then .loadGlobal else .loadLocal

def storeCode (v : Variable) : Opcode := if v.isGlobal then .storeGlobal else .storeLocal

end Variable

/-- Evaluate `x`; if the branch is taken the result is `short`, else it is that of `y`. -/
def connective (branch : Opcode) (short : Int32) (x y : List (Item Label)) :
    List (Item Label) :=
  x ++ [.instr branch .none, .ahead (y.length + 2)] ++ y ++
    [.instr .jump .none, .ahead 1] ++ Item.pushInt short

mutual
/-- The assembly of a term. `handle` gives the handles of string literals. -/
def Term.items (handle : String → UInt64) : Term → List (Item Label)
  | .int v => Item.pushInt v
  | .float bits => Item.pushFloat bits
  | .text s => Item.pushObj (handle s)
  | .load v => Item.indexed v.loadCode v.kind v.index
  | .unary op k x => x.items handle ++ [.instr (.unary op) k]
  | .binary op k x y => x.items handle ++ y.items handle ++ [.instr (.binary op) k]
  | .both x y => connective .branchFalse 0 (x.items handle) (y.items handle)
  | .either x y => connective .branchTrue 1 (x.items handle) (y.items handle)
  | .select k c a b => c.items handle ++ a.items handle ++ b.items handle ++ [.instr .select k]
  | .call index args => itemsOf handle args ++ Item.indexed .call .none index
  | .callValue f args => itemsOf handle args ++ f.items handle ++ [.instr .callR .none]

/-- The assembly of several terms, one after the other. -/
def itemsOf (handle : String → UInt64) : List Term → List (Item Label)
  | [] => []
  | t :: ts => t.items handle ++ itemsOf handle ts
end

namespace Command

/-- The literals of a command. -/
def texts : Command → List String
  | store _ x | drop x | branchTrue x _ | branchFalse x _ | ret _ (some x) => x.texts
  | _ => []

/-- The variables a command reads. -/
def loads : Command → List Variable
  | store _ x | drop x | branchTrue x _ | branchFalse x _ | ret _ (some x) => x.loads
  | _ => []

/-- The label a command jumps to or places. -/
def label? : Command → Option Label
  | jump l | branchTrue _ l | branchFalse _ l | place l => some l
  | _ => none

/-- An access to a variable whose type has no machine kind: no instruction does it. -/
def undefined? (c : Command) : Option Instr :=
  match c.loads.find? (·.kind = .none), c with
  | some v, _ => some (Instr.make v.loadCode v.kind)
  | none, store v _ => if v.kind = .none then some (Instr.make v.storeCode v.kind) else none
  | none, _ => none

/-- The assembly of a command. Placing a label takes no room. -/
def items (handle : String → UInt64) : Command → List (Item Label)
  | store v x => x.items handle ++ Item.indexed v.storeCode v.kind v.index
  | drop x => x.items handle ++ [.instr .pop .none]
  | ret k none => [.instr .ret k]
  | ret k (some x) => x.items handle ++ [.instr .ret k]
  | jump l => [.instr .jump .none, .address l]
  | branchTrue x l => x.items handle ++ [.instr .branchTrue .none, .address l]
  | branchFalse x l => x.items handle ++ [.instr .branchFalse .none, .address l]
  | place _ => []
  | halt => [.instr .halt .none]

end Command

/-- The end of a function body: a function that should return a value returns zero. -/
def epilogue (output : Option Ty) : List (Item Label) :=
  match output with
  | none => []
  | some out =>
    let k := Kind.ofTy out
    if out.kind = .void then [.instr .ret .none]
    else if k = .obj then [.instr .pushNull k, .instr .ret k]
    else [.instr .pushZero k, .instr .ret k]

end Stackwork
