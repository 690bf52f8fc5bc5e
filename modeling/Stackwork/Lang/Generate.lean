import Stackwork.Lang.Emit

/-!
# Code of units

A unit is a function body or the top level of a program. Its statements are checked in
order; a label may be placed once, and every label that is used has to be placed. Then
the unit is laid out: each label gets the number of words before it, and the addresses
in the assembly are filled in.
-/
namespace Stackwork

/-- Why a unit has no code. -/
inductive Rejection where
  | problem (p : Problem)
  /-- A variable of a type that no instruction reads or writes. -/
  | undefinedInstr (i : Instr)

/-- Check statements, given the labels placed before them. -/
def checkAll (ctx : Context) (placed : List Label) : List Stmt → Except Rejection (List Command)
  | [] => .ok []
  | s :: rest => do
    let c ← (s.check ctx).mapError Rejection.problem
    let placed ←
      match c with
      | .place l =>
        if placed.contains l then throw (.problem (.placedTwice l.name)) else pure (l :: placed)
      | _ => pure placed
    match c.undefined? with
    | some i => throw (.undefinedInstr i)
    | none => return c :: (← checkAll ctx placed rest)

/-- The labels that commands place, with the positions they get. -/
def placements (handle : String → UInt64) : Nat → List Command → List (Label × Nat)
  | _, [] => []
  | pos, c :: rest =>
    let later := placements handle (pos + (c.items handle).length) rest
    match c with
    | .place l => (l, pos) :: later
    | _ => later

/-- The first label in use that is not placed. -/
def unplaced? (commands : List Command) : Option Label :=
  let placed := commands.filterMap fun c =>
    match c with
    | .place l => some l
    | _ => none
  (commands.filterMap Command.label?).find? fun l => !placed.contains l

/-- The words of checked commands and of the unit's end. -/
def assemble (handle : String → UInt64) (output : Option Ty) (commands : List Command) :
    List UInt32 :=
  let places := placements handle 0 commands
  let addressOf := fun l => (places.lookup l).getD 0
  Item.resolveFrom addressOf 0 (commands.flatMap (·.items handle) ++ epilogue output)

/-- The code of a unit, and the pool with its literals. -/
def generate (ctx : Context) (pool : Pool) (stmts : List Stmt) : Except Rejection (Code × Pool) := do
  let commands ← checkAll ctx [] stmts
  match unplaced? commands with
  | some l => throw (.problem (.neverPlaced l.name))
  | none =>
    let pool := pool.internAll (commands.flatMap Command.texts)
    return (.ofList (assemble pool.handle ctx.output commands), pool)

end Stackwork
