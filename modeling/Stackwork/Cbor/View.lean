import Stackwork.Cbor.Item

/-!
# Reading values out of CBOR items

What an item means where a number, a text, a list or a record is expected. Null and
undefined stand for the zero value of anything. Tags are looked through; a tag that
promises a sort of content has to keep the promise. Numbers may also be written as simple
values or as byte strings under the tags for large integers; floats are never numbers
here.
-/
namespace Stackwork.Cbor

/-- The tag that only says that data is in this format. -/
def selfDescribed : Nat := 55799

/-- Whether a tag admits its content: dates are texts or numbers, large integers are byte
strings. -/
def tagAdmits (number : Nat) (content : Item) : Bool :=
  match number, content with
  | 0, .text _ => true
  | 0, _ => false
  | 1, .uint _ | 1, .nint _ | 1, .float .. => true
  | 1, _ => false
  | 2, .bytes _ | 3, .bytes _ => true
  | 2, _ | 3, _ => false
  | _, _ => true

/-- An item with its tags looked through. Large integers keep theirs. -/
def Item.untag? : Item → Option Item
  | .tag number content =>
    if number = selfDescribed then content.untag?
    else if !tagAdmits number content then none
    else if number = 2 ∨ number = 3 then some (.tag number content)
    else content.untag?
  | item => some item

/-- The number that some bytes hold, most significant first. -/
def magnitude (pieces : List (List UInt8)) : Nat :=
  pieces.flatten.foldl (fun n b => n * 256 + b.toNat) 0

/-- A number, without any limit but that of 64-bit words. -/
def Item.number? (item : Item) : Option Int := do
  match ← item.untag? with
  | .uint n => some n
  | .nint n => some (-1 - n)
  | .tag 2 (.bytes pieces) =>
    if magnitude pieces < Nat.pow 2 64 then some (magnitude pieces) else none
  | .tag 3 (.bytes pieces) =>
    if magnitude pieces < Nat.pow 2 63 then some (-1 - magnitude pieces) else none
  | .simple 20 | .simple 21 => none
  | .simple 22 | .simple 23 => some 0
  | .simple n => some n
  | _ => none

/-- A number in a closed range. -/
def Item.numberIn? (lo hi : Int) (item : Item) : Option Int := do
  let n ← item.number?
  if lo ≤ n ∧ n ≤ hi then some n else none

/-- A signed number of 64 bits. -/
def Item.int? (item : Item) : Option Int := item.numberIn? (-(Nat.pow 2 63 : Int)) (Nat.pow 2 63 - 1)

/-- An unsigned number of a width in bits. -/
def Item.unsigned? (width : Nat) (item : Item) : Option Nat :=
  (item.numberIn? 0 (Nat.pow 2 width - 1)).map Int.toNat

def Item.bool? (item : Item) : Option Bool := do
  match ← item.untag? with
  | .simple 20 | .simple 22 | .simple 23 => some false
  | .simple 21 => some true
  | _ => none

/-- The text of some bytes, if they are valid. -/
def decodeText? (pieces : List (List UInt8)) : Option String :=
  (pieces.mapM fun p => String.fromUTF8? p.toByteArray).map String.join

def Item.string? (item : Item) : Option String := do
  match ← item.untag? with
  | .text pieces => decodeText? pieces
  | .simple 22 | .simple 23 => some ""
  | _ => none

/-- A list whose elements `f` understands. -/
def Item.list? {α : Type} (f : Item → Option α) (item : Item) : Option (List α) := do
  match ← item.untag? with
  | .array items => items.mapM f
  | .simple 22 | .simple 23 => some []
  | _ => none

/-- A row of bytes: a byte string, or a list of numbers that are bytes. -/
def Item.byteList? (item : Item) : Option (List UInt8) := do
  match ← item.untag? with
  | .bytes pieces | .tag _ (.bytes pieces) => some pieces.flatten
  | other => other.list? fun i => (i.unsigned? 8).map UInt8.ofNat

/-- The number that a text spells in decimal digits, without a zero in front. -/
def spelledNumber? (s : String) : Option Nat := s.toNat?.filter (toString · = s)

/-- The key of a field, if it is a number or a text that spells one; other texts are keys
that no field has. -/
def fieldKey? : Item → Option (Option Int)
  | .uint n => some (some n)
  | .nint n => if n < Nat.pow 2 63 then some (some (-1 - n)) else none
  | .text pieces => (decodeText? pieces).map fun s => (spelledNumber? s).map Int.ofNat
  | _ => none

/-- A record: the values of its numbered fields. The first field with a number counts. -/
def Item.fields? (item : Item) : Option (List (Int × Item)) := do
  match ← item.untag? with
  | .map pairs =>
    let keyed ← pairs.mapM fun (k, v) => (fieldKey? k).map (·, v)
    some (keyed.filterMap fun (k, v) => k.map (·, v))
  | .simple 22 | .simple 23 => some []
  | _ => none

/-- One field of a record, with the zero value if it is not there. -/
def field? {α : Type} (fields : List (Int × Item)) (key : Int) (zero : α)
    (f : Item → Option α) : Option α :=
  match fields.lookup key with
  | none => some zero
  | some item => f item

end Stackwork.Cbor
