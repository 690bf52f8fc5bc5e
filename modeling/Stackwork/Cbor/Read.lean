import Stackwork.Cbor.Item

/-!
# Reading CBOR

Any well-formed item is read: heads of any width, definite and indefinite lengths.
Arrays and maps may be nested to a limit; a tag directly behind a tag counts as a level
too. Nothing may follow the item. Reading does not look into texts.
-/
namespace Stackwork.Cbor

/-- How deep arrays, maps and chains of tags may be nested. -/
def maxDepth : Nat := 32

/-- How many elements or pairs an array or a map may have. -/
def maxCount : Nat := 131072

/-- The number in some bytes, most significant first. -/
def ofBigEndian (bs : List UInt8) : Nat := bs.foldl (fun n b => n * 256 + b.toNat) 0

/-- The first `n` bytes and the rest. -/
def take? (n : Nat) (bs : List UInt8) : Option (List UInt8 × List UInt8) :=
  if bs.length < n then none else some (bs.splitAt n)

/-- The head of an item. -/
structure Head where
  major : Nat
  /-- The low five bits of the first byte. -/
  info : Nat
  value : Nat

/-- Read a head. Three values of the low bits are reserved; a simple value of two bytes
is at least 32. -/
def readHead : List UInt8 → Option (Head × List UInt8)
  | [] => none
  | b :: rest => do
    let major := b.toNat / 32
    let info := b.toNat % 32
    if info < 24 then some (⟨major, info, info⟩, rest)
    else if info < 28 then
      let (bs, rest) ← take? (Nat.pow 2 (info - 24)) rest
      let value := ofBigEndian bs
      if major = 7 ∧ info = 24 ∧ value < 32 then none
      else some (⟨major, info, value⟩, rest)
    else if info = 31 ∧ 2 ≤ major ∧ major ≤ 5 then some (⟨major, info, 0⟩, rest)
    else none

/-- The rest behind a break code, if there is one. -/
def afterBreak? : List UInt8 → Option (List UInt8)
  | 0xff :: rest => some rest
  | _ => none

/-- Read the pieces of a string of indefinite length: strings of the same sort, each of
definite length, up to a break. -/
def readPieces (major : Nat) : Nat → List UInt8 → Option (List (List UInt8) × List UInt8)
  | 0, _ => none
  | fuel + 1, bs =>
    match afterBreak? bs with
    | some rest => some ([], rest)
    | none => do
      let (h, rest) ← readHead bs
      if h.major ≠ major ∨ h.info = 31 then none
      else
        let (piece, rest) ← take? h.value rest
        let (pieces, rest) ← readPieces major fuel rest
        some (piece :: pieces, rest)

/-- Read a string whose head has been read. -/
def readString (h : Head) (fuel : Nat) (bs : List UInt8) :
    Option (List (List UInt8) × List UInt8) :=
  if h.info = 31 then readPieces h.major fuel bs
  else (take? h.value bs).map fun (piece, rest) => ([piece], rest)

/-- Group the elements of a map by two. -/
def pairUp : List Item → Option (List (Item × Item))
  | [] => some []
  | [_] => none
  | k :: v :: rest => (pairUp rest).map ((k, v) :: ·)

mutual
/-- Read an item at a nesting depth. `tagged` says that a tag stands in front of it. -/
def readItem : Nat → Nat → Bool → List UInt8 → Option (Item × List UInt8)
  | 0, _, _, _ => none
  | fuel + 1, depth, tagged, bs => do
    let (h, rest) ← readHead bs
    match h.major with
    | 0 => some (.uint h.value, rest)
    | 1 => some (.nint h.value, rest)
    | 2 => (readString h fuel rest).map fun (pieces, rest) => (.bytes pieces, rest)
    | 3 => (readString h fuel rest).map fun (pieces, rest) => (.text pieces, rest)
    | 4 =>
      let (items, rest) ← readElements h fuel (depth + 1) 1 rest
      some (.array items, rest)
    | 5 =>
      let (items, rest) ← readElements h fuel (depth + 1) 2 rest
      some (.map (← pairUp items), rest)
    | 6 =>
      let depth := if tagged then depth + 1 else depth
      if maxDepth < depth then none
      else
        let (content, rest) ← readItem fuel depth true rest
        some (.tag h.value content, rest)
    | _ =>
      if h.info < 25 then some (.simple h.value, rest)
      else some (.float (Nat.pow 2 (h.info - 24)) h.value, rest)

/-- Read the elements of an array, or the keys and values of a map, whose head has been
read; `each` is one or two. -/
def readElements (h : Head) : Nat → Nat → Nat → List UInt8 → Option (List Item × List UInt8)
  | 0, _, _, _ => none
  | fuel + 1, depth, each, bs =>
    if maxDepth < depth then none
    else if h.info = 31 then readUntilBreak fuel depth bs
    else if maxCount < h.value then none
    else readMany fuel depth (h.value * each) bs

/-- Read a number of items. -/
def readMany : Nat → Nat → Nat → List UInt8 → Option (List Item × List UInt8)
  | _, _, 0, bs => some ([], bs)
  | 0, _, _, _ => none
  | fuel + 1, depth, n + 1, bs => do
    let (item, rest) ← readItem fuel depth false bs
    let (items, rest) ← readMany fuel depth n rest
    some (item :: items, rest)

/-- Read items up to a break. -/
def readUntilBreak : Nat → Nat → List UInt8 → Option (List Item × List UInt8)
  | 0, _, _ => none
  | fuel + 1, depth, bs =>
    match afterBreak? bs with
    | some rest => some ([], rest)
    | none => do
      let (item, rest) ← readItem fuel depth false bs
      let (items, rest) ← readUntilBreak fuel depth rest
      some (item :: items, rest)
end

/-- Read exactly one item. Every byte takes at most three steps. -/
def Item.decode? (bs : List UInt8) : Option Item :=
  match readItem (3 * bs.length + 3) 0 false bs with
  | some (item, []) => some item
  | _ => none

end Stackwork.Cbor
