import Stackwork.Machine.Arith
import Stackwork.Machine.Basic

/-!
# Touching slots

Operations on a machine that may fault. Pushing and popping move SP whether or not the
slot exists and then touch it. A tagged machine records the kind of what it writes and
compares it with the kind it reads; the kind NONE on either side fits everything.
-/
namespace Stackwork

/-- A computation on a machine that may end in a fault, which keeps the machine reached. -/
abbrev Op := EStateM Fault Machine

namespace Machine

/-- Stop with a fault. -/
@[inline] def fault {α : Type} (f : Fault) : Op α := fun m => .error f m

/-- The value, or the fault of touching something that is not there. -/
@[inline] def require {α : Type} (a : Option α) : Op α :=
  match a with
  | some a => pure a
  | none => fault .outOfRange

/-- Compare a recorded kind with the one wanted. -/
def checkTag (region : Region) (slot : Int) (held wanted : Kind) : Op Unit :=
  if wanted ≠ .none ∧ held ≠ .none ∧ held ≠ wanted then fault (.tag region slot held wanted)
  else pure ()

/-- Write a stack slot and its tag. -/
def writeStack (slot : Int) (v : Slot) (k : Kind) : Op Unit := fun m =>
  if 0 ≤ slot ∧ slot < m.stack.size then
    .ok () { m with
      stack := m.stack.setIfInBounds slot.toNat v
      stackTags := if m.settings.tagged then m.stackTags.setIfInBounds slot.toNat k
                   else m.stackTags }
  else .error .outOfRange m

/-- Write a heap slot and its tag. -/
def writeHeap (slot : Int) (v : Slot) (k : Kind) : Op Unit := fun m =>
  if 0 ≤ slot ∧ slot < m.heap.size then
    .ok () { m with
      heap := m.heap.setIfInBounds slot.toNat v
      heapTags := if m.settings.tagged then m.heapTags.setIfInBounds slot.toNat k
                  else m.heapTags }
  else .error .outOfRange m

/-- Read a stack slot as a kind. -/
def readStack (slot : Int) (k : Kind) : Op Slot := do
  let v ← require (at? (← get).stack slot)
  if (← get).settings.tagged then
    checkTag .stack slot (← require (at? (← get).stackTags slot)) k
  return v

/-- Read a heap slot as a kind. -/
def readHeap (slot : Int) (k : Kind) : Op Slot := do
  let v ← require (at? (← get).heap slot)
  if (← get).settings.tagged then
    checkTag .heap slot (← require (at? (← get).heapTags slot)) k
  return v

/-- Put a slot on the stack. -/
def push (v : Slot) (k : Kind) : Op Unit := do
  writeStack (← get).sp v k
  modify fun m => { m with sp := m.sp + 1 }

/-- Take the top slot, read as a kind. -/
def pop (k : Kind) : Op Slot := do
  modify fun m => { m with sp := m.sp - 1 }
  readStack (← get).sp k

def pushTagged (t : Tagged) : Op Unit := push t.slot t.kind

def popInt : Op Int32 := Slot.toInt <$> pop .int

def popFloat : Op Float := Slot.toFloat <$> pop .float

/-- Clear `n` stack slots from a position on. -/
def clearFrom (stack : Array Slot) (from_ n : Nat) : Array Slot :=
  n.fold (fun i _ s => s.setIfInBounds (from_ + i) .zero) stack

/-- Lay out the frame of a routine whose arguments are on the stack: locals behind the
parameters start cleared. The result is the new BASE. -/
def enter (r : Routine) : Op Int := fun m =>
  let base := m.sp - r.arity
  let top := base + r.locals.length
  if 0 ≤ m.sp ∧ m.sp ≤ top ∧ top ≤ m.stack.size ∧ (m.settings.tagged → 0 ≤ base) then
    .ok base { m with
      stack := clearFrom m.stack m.sp.toNat (top - m.sp).toNat
      stackTags :=
        if m.settings.tagged then
          (r.locals.zipIdx).foldl (fun ts (k, i) => ts.setIfInBounds (base.toNat + i) k) m.stackTags
        else m.stackTags
      sp := top }
  else .error .outOfRange m

end Machine
end Stackwork
