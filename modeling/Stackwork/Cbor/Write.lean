import Stackwork.Cbor.Item

/-!
# Writing CBOR

The shortest form of every head, and definite lengths throughout. Maps are written in
the order in which they are given.
-/
namespace Stackwork.Cbor

/-- `count` bytes of a number, most significant first. -/
def bigEndian : Nat → Nat → List UInt8
  | 0, _ => []
  | count + 1, n => UInt8.ofNat (n / Nat.pow 256 count) :: bigEndian count n

/-- The head of an item: its major type and a number. -/
def head (major : Nat) (n : Nat) : List UInt8 :=
  let first := fun info => UInt8.ofNat (major * 32 + info)
  if n < 24 then [first n]
  else if n < 0x100 then first 24 :: bigEndian 1 n
  else if n < 0x10000 then first 25 :: bigEndian 2 n
  else if n < 0x100000000 then first 26 :: bigEndian 4 n
  else first 27 :: bigEndian 8 n

mutual
/-- The bytes of an item. -/
def Item.encode : Item → List UInt8
  | .uint n => head 0 n
  | .nint n => head 1 n
  | .bytes pieces => head 2 pieces.flatten.length ++ pieces.flatten
  | .text pieces => head 3 pieces.flatten.length ++ pieces.flatten
  | .array items => head 4 items.length ++ encodeAll items
  | .map pairs => head 5 pairs.length ++ encodePairs pairs
  | .tag number content => head 6 number ++ content.encode
  | .simple value => head 7 value
  | .float width bits =>
    UInt8.ofNat (7 * 32 + (if width = 2 then 25 else if width = 4 then 26 else 27)) ::
      bigEndian width bits

def encodeAll : List Item → List UInt8
  | [] => []
  | i :: rest => i.encode ++ encodeAll rest

def encodePairs : List (Item × Item) → List UInt8
  | [] => []
  | (k, v) :: rest => k.encode ++ v.encode ++ encodePairs rest
end

end Stackwork.Cbor
