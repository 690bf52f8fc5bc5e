import Stackwork.Code.Stream
import Stackwork.Decimal.Layout

/-!
# Listings

Code as text, one line a segment. A segment is an instruction with its operands, a
word that is no valid instruction, or an instruction whose operands the end of the
code cuts off, which takes the rest of the code with it. The segments of a code follow
each other without gaps and cover it.
-/
namespace Stackwork

/-- What a segment of code turned out to be. -/
inductive SegmentForm where
  /-- A word that is no valid instruction. -/
  | data
  /-- An instruction without all of its operands. -/
  | truncated
  /-- An instruction with all of its operands. -/
  | whole
deriving DecidableEq

/-- A stretch of code that is listed on one line. -/
structure Segment where
  start : Nat
  instr : Instr
  form : SegmentForm
  /-- The position behind the segment. -/
  stop : Nat
deriving DecidableEq

namespace Code

/-- The segment that starts with the instruction word `i` at `pos`. -/
def segmentAt (c : Code) (pos : Nat) (i : Instr) : Segment :=
  if !i.valid then ⟨pos, i, .data, pos + 1⟩
  else if pos + 1 + i.operandWords > c.size then ⟨pos, i, .truncated, max c.size (pos + 1)⟩
  else ⟨pos, i, .whole, pos + 1 + i.operandWords⟩

theorem lt_stop_segmentAt (c : Code) (pos : Nat) (i : Instr) : pos < (c.segmentAt pos i).stop := by
  unfold segmentAt
  split
  · exact Nat.lt_succ_self pos
  · split
    · exact Nat.lt_of_lt_of_le (Nat.lt_succ_self pos) (Nat.le_max_right _ _)
    · exact Nat.lt_of_lt_of_le (Nat.lt_succ_self pos) (Nat.le_add_right _ _)

/-- The segments from a position to the end. -/
def segmentsFrom (c : Code) (pos : Nat) : List Segment :=
  if h : pos < c.size then
    let s := c.segmentAt pos ⟨c.words[pos]⟩
    s :: c.segmentsFrom s.stop
  else []
termination_by c.size - pos
decreasing_by
  have := lt_stop_segmentAt c pos ⟨c.words[pos]⟩
  omega

/-- The segments of a code, first to last. -/
def segments (c : Code) : List Segment := c.segmentsFrom 0

end Code

namespace Listing

/-- Floats are listed with the fewest digits, in places from `0.0001` up to six of them
before the point. -/
def floats : Decimal.Layout where
  placesFrom := -4
  placesBelow := 6
  exponentDigits := 2

/-- The number at `pos`, read as signed. -/
def number (c : Code) (pos : Nat) : Int := ((c.int? pos).getD 0).toInt

/-- The operands of a whole segment, or nothing if it has none. -/
def operand? (c : Code) (s : Segment) : Option String :=
  let pos := s.start + 1
  match s.instr.op? with
  | some .pushImm =>
    if s.instr.kind = .int then some (toString (number c pos))
    else
      let v := (c.double? pos).getD 0
      if s.instr.kind = .float then some (floats.render v)
      else some ("@" ++ toString v.toNat)
  | some op =>
    if op.isJump then some ("-> " ++ Text.decimal 4 (number c pos))
    else if s.instr.operandWords = 1 then some (toString (number c pos))
    else none
  | none => none

/-- The line of a segment. -/
def line (c : Code) (s : Segment) : String :=
  let at_ := Text.decimal 4 s.start ++ "  "
  match s.form with
  | .data => at_ ++ ".word 0x" ++ Text.hex s.instr.word.toNat
  | .truncated => at_ ++ s.instr.render ++ " <truncated>"
  | .whole =>
    match operand? c s with
    | none => at_ ++ s.instr.render
    | some text => at_ ++ Text.padRight 20 s.instr.render ++ " " ++ text

/-- The listing of a code. -/
def lines (c : Code) : List String := c.segments.map (line c)

/-- The line for the instruction at one position of a running machine. -/
def lineAt (c : Code) (pos : Nat) (i : Instr) : String := line c (c.segmentAt pos i)

end Listing
end Stackwork
