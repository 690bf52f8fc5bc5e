/-!
# CBOR items

The data model of a compact binary format: integers, byte and text strings, arrays,
maps, tagged items, and a small set of simple values and floats. A string written in
pieces keeps its pieces, because each piece of a text has to be valid by itself.
-/
namespace Stackwork.Cbor

/-- A data item. -/
inductive Item where
  | uint (n : Nat)
  /-- The number `-1 - n`. -/
  | nint (n : Nat)
  | bytes (pieces : List (List UInt8))
  /-- A text as its bytes, which may not be valid. -/
  | text (pieces : List (List UInt8))
  | array (items : List Item)
  | map (pairs : List (Item × Item))
  | tag (number : Nat) (content : Item)
  | simple (value : Nat)
  /-- A float of 2, 4 or 8 bytes, by its bits. -/
  | float (width : Nat) (bits : Nat)

namespace Item

/-- The simple values 20 to 23 are false, true, null and undefined. -/
def ofBool (b : Bool) : Item := simple (if b then 21 else 20)

def ofInt (i : Int) : Item := if 0 ≤ i then uint i.toNat else nint (-1 - i).toNat

def ofBytes (bs : List UInt8) : Item := bytes [bs]

def ofString (s : String) : Item := text [s.toUTF8.toList]

/-- A map whose keys are numbers. -/
def ofFields (fields : List (Nat × Item)) : Item := map (fields.map fun (k, v) => (uint k, v))

end Item
end Stackwork.Cbor
