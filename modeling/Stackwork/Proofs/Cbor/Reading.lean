import Mathlib.Tactic.Ring
import Stackwork.Cbor.Read
import Stackwork.Cbor.View
import Stackwork.Cbor.Write

/-!
# Reading what was written

Reading refuses some of what writing produces, since it has limits on nesting and on the length of
lists. But where it gives a result at all, this is the item that was written, with numbers cut to 64
bits.
-/
namespace Stackwork.Cbor

open List
open Option (bind_eq_bind bind_some map_some)
open Item (encode)

theorem length_bigEndian (count n : Nat) : (bigEndian count n).length = count := by
  induction count with
  | zero => rfl
  | succ count ih => rw [bigEndian, length_cons, ih]

theorem foldl_bigEndian (count n acc : Nat) :
    (bigEndian count n).foldl (fun n b => n * 256 + b.toNat) acc = acc * 256 ^ count + n % 256 ^ count := by
  induction count generalizing acc with
  | zero => simp [bigEndian, Nat.mod_one]
  | succ count ih =>
    have hbyte : (UInt8.ofNat (n / 256 ^ count)).toNat = n / 256 ^ count % 256 := UInt8.toNat_ofNat'
    have hmod : n % 256 ^ (count + 1) = n % 256 ^ count + 256 ^ count * (n / 256 ^ count % 256) := Nat.mod_pow_succ
    rw [bigEndian, foldl_cons, ih, Nat.pow_eq, hbyte, hmod, Nat.pow_succ, Nat.add_mul]
    ring

theorem ofBigEndian_bigEndian (count n : Nat) : ofBigEndian (bigEndian count n) = n % 256 ^ count := by
  rw [ofBigEndian, foldl_bigEndian, Nat.zero_mul, Nat.zero_add]

theorem take?_append (bs rest : List UInt8) : take? bs.length (bs ++ rest) = some (bs, rest) := by
  simp [take?, splitAt_eq]

/-- How large a number can be written. -/
def wordLimit : Nat := 2 ^ 64

/-- The numbers that one head holds. -/
theorem readHead_wide {major width n : Nat} (hmajor : major < 7) (hwidth : width < 4) (rest : List UInt8) :
    readHead (UInt8.ofNat (major * 32 + (24 + width)) :: bigEndian (2 ^ width) n ++ rest) =
      some (⟨major, 24 + width, n % 256 ^ 2 ^ width⟩, rest) := by
  have hbyte : (UInt8.ofNat (major * 32 + (24 + width))).toNat = major * 32 + (24 + width) := by
    rw [UInt8.toNat_ofNat', Nat.mod_eq_of_lt (by omega)]
  have hdiv : (major * 32 + (24 + width)) / 32 = major := by omega
  have hmod : (major * 32 + (24 + width)) % 32 = 24 + width := by omega
  have hwide : 24 + width - 24 = width := by omega
  have htake := take?_append (bigEndian (2 ^ width) n) rest
  rw [length_bigEndian] at htake
  simp only [cons_append, readHead, hbyte, hdiv, hmod, hwide, if_neg (show ¬ 24 + width < 24 by omega),
    if_pos (show 24 + width < 28 by omega), Nat.pow_eq, htake, bind_eq_bind, bind_some,
    ofBigEndian_bigEndian, if_neg (show ¬ (major = 7 ∧ 24 + width = 24 ∧ n % 256 ^ 2 ^ width < 32) by omega)]

/-- A head is read back, with its number cut to 64 bits. -/
theorem readHead_head (major : Nat) (hmajor : major < 7) (n : Nat) (rest : List UInt8) :
    ∃ info, info ≠ 31 ∧ readHead (head major n ++ rest) = some (⟨major, info, n % wordLimit⟩, rest) := by
  have wide (width : Nat) (hwidth : width < 4) (hn : n % 256 ^ 2 ^ width = n % wordLimit) : ∃ info, info ≠ 31 ∧
      readHead (UInt8.ofNat (major * 32 + (24 + width)) :: bigEndian (2 ^ width) n ++ rest) =
        some (⟨major, info, n % wordLimit⟩, rest) :=
    ⟨24 + width, by omega, hn ▸ readHead_wide hmajor hwidth rest⟩
  simp only [head]
  split
  · next hn =>
    have hbyte : (UInt8.ofNat (major * 32 + n)).toNat = major * 32 + n := by
      rw [UInt8.toNat_ofNat', Nat.mod_eq_of_lt (by omega)]
    have hdiv : (major * 32 + n) / 32 = major := by omega
    have hmod : (major * 32 + n) % 32 = n := by omega
    refine ⟨n, by omega, ?_⟩
    rw [Nat.mod_eq_of_lt (show n < wordLimit from Nat.lt_trans hn (by decide))]
    simp only [cons_append, nil_append, readHead, hbyte, hdiv, hmod, if_pos hn]
  · split
    · exact wide 0 (by omega) (by simp only [wordLimit]; omega)
    · split
      · exact wide 1 (by omega) (by simp only [wordLimit]; omega)
      · split
        · exact wide 2 (by omega) (by simp only [wordLimit]; omega)
        · exact wide 3 (by omega) (by simp only [wordLimit]; omega)

mutual
/-- An item as it is written for records: strings in one piece, no tags and no floats. -/
def Item.Plain : Item → Prop
  | .uint _ | .nint _ => True
  | .bytes pieces | .text pieces => ∃ piece, pieces = [piece]
  | .array items => PlainAll items
  | .map pairs => PlainPairs pairs
  | .simple value => value < 24
  | .tag .. | .float .. => False

def PlainAll : List Item → Prop
  | [] => True
  | i :: rest => i.Plain ∧ PlainAll rest

def PlainPairs : List (Item × Item) → Prop
  | [] => True
  | (k, v) :: rest => k.Plain ∧ v.Plain ∧ PlainPairs rest
end

mutual
/-- An item with its numbers cut to 64 bits. -/
def Item.wrap : Item → Item
  | .uint n => .uint (n % wordLimit)
  | .nint n => .nint (n % wordLimit)
  | .array items => .array (wrapAll items)
  | .map pairs => .map (wrapPairs pairs)
  | other => other

def wrapAll : List Item → List Item
  | [] => []
  | i :: rest => i.wrap :: wrapAll rest

def wrapPairs : List (Item × Item) → List (Item × Item)
  | [] => []
  | (k, v) :: rest => (k.wrap, v.wrap) :: wrapPairs rest
end

theorem one_le_length_head (major n : Nat) : 1 ≤ (head major n).length := by
  unfold head
  grind

theorem Item.one_le_length_encode (i : Item) : 1 ≤ i.encode.length := by
  cases i <;> simp only [encode, length_append, length_cons] <;>
    first | exact Nat.le_add_right_of_le (one_le_length_head _ _) | exact one_le_length_head _ _ | omega

theorem length_le_encodeAll (items : List Item) : items.length ≤ (encodeAll items).length := by
  induction items with
  | nil => exact Nat.zero_le _
  | cons i items ih =>
    have := i.one_le_length_encode
    rw [encodeAll, length_append, length_cons]
    omega

theorem length_le_encodePairs (pairs : List (Item × Item)) : pairs.length ≤ (encodePairs pairs).length := by
  induction pairs with
  | nil => exact Nat.zero_le _
  | cons p pairs ih =>
    have := p.1.one_le_length_encode
    rw [encodePairs, length_append, length_append, length_cons]
    omega

theorem pairUp_eq (pairs : List (Item × Item)) : pairUp (pairs.flatMap fun (k, v) => [k, v]) = some pairs := by
  induction pairs with
  | nil => rfl
  | cons p pairs ih => simp [pairUp, ih]

theorem readString_append {h : Head} (hinfo : h.info ≠ 31) {bs : List UInt8} (hvalue : h.value = bs.length)
    (fuel : Nat) (rest : List UInt8) : readString h fuel (bs ++ rest) = some ([bs], rest) := by
  rw [readString, if_neg hinfo, hvalue, take?_append, map_some]

/-- Elements are read as many as the head says. -/
theorem readMany_of_readElements {h : Head} (hinfo : h.info ≠ 31) {fuel depth each : Nat} {bs : List UInt8}
    {r : List Item × List UInt8} (hr : readElements h fuel depth each bs = some r) :
    ∃ fuel, readMany fuel depth (h.value * each) bs = some r := by
  cases fuel with
  | zero => simp [readElements] at hr
  | succ fuel =>
    simp only [readElements, if_neg hinfo] at hr
    split at hr
    · cases hr
    · split at hr
      · cases hr
      · exact ⟨fuel, hr⟩

mutual
/-- What is read from a written item is this item, if anything is read at all. -/
theorem Item.eq_of_readItem (i : Item) (plain : i.Plain) (short : i.encode.length < wordLimit)
    {fuel depth : Nat} {tagged : Bool}
    {rest : List UInt8} {r : Item × List UInt8} (h : readItem fuel depth tagged (i.encode ++ rest) = some r) :
    r = (i.wrap, rest) := by
  cases fuel with
  | zero => simp [readItem] at h
  | succ fuel =>
    cases i with
    | uint n =>
      obtain ⟨info, -, hhead⟩ := readHead_head 0 (by omega) n rest
      rw [readItem, encode, hhead] at h
      cases h
      rfl
    | nint n =>
      obtain ⟨info, -, hhead⟩ := readHead_head 1 (by omega) n rest
      rw [readItem, encode, hhead] at h
      cases h
      rfl
    | bytes pieces =>
      obtain ⟨piece, rfl⟩ := plain
      rw [encode, flatten_singleton, length_append] at short
      obtain ⟨info, hinfo, hhead⟩ := readHead_head 2 (by omega) piece.length (piece ++ rest)
      have hstring := readString_append (h := ⟨2, info, piece.length % wordLimit⟩) hinfo
        (Nat.mod_eq_of_lt (by omega)) fuel rest
      rw [readItem, encode, flatten_singleton, append_assoc, hhead] at h
      simp only [bind_eq_bind, bind_some, hstring, map_some] at h
      cases h
      rfl
    | text pieces =>
      obtain ⟨piece, rfl⟩ := plain
      rw [encode, flatten_singleton, length_append] at short
      obtain ⟨info, hinfo, hhead⟩ := readHead_head 3 (by omega) piece.length (piece ++ rest)
      have hstring := readString_append (h := ⟨3, info, piece.length % wordLimit⟩) hinfo
        (Nat.mod_eq_of_lt (by omega)) fuel rest
      rw [readItem, encode, flatten_singleton, append_assoc, hhead] at h
      simp only [bind_eq_bind, bind_some, hstring, map_some] at h
      cases h
      rfl
    | array items =>
      rw [encode, length_append] at short
      have hcount := length_le_encodeAll items
      obtain ⟨info, hinfo, hhead⟩ := readHead_head 4 (by omega) items.length (encodeAll items ++ rest)
      rw [Nat.mod_eq_of_lt (by omega)] at hhead
      rw [readItem, encode, append_assoc, hhead, bind_eq_bind, bind_some] at h
      obtain ⟨⟨read, left⟩, hread, hr⟩ := Option.bind_eq_some_iff.1 h
      obtain ⟨fuel, hmany⟩ := readMany_of_readElements hinfo hread
      rw [Nat.mul_one] at hmany
      obtain ⟨rfl, rfl⟩ := Prod.mk.inj (eq_of_readMany items plain (by omega) hmany)
      cases hr
      rfl
    | map pairs =>
      rw [encode, length_append] at short
      have hcount := length_le_encodePairs pairs
      obtain ⟨info, hinfo, hhead⟩ := readHead_head 5 (by omega) pairs.length (encodePairs pairs ++ rest)
      rw [Nat.mod_eq_of_lt (by omega)] at hhead
      rw [readItem, encode, append_assoc, hhead, bind_eq_bind, bind_some] at h
      obtain ⟨⟨read, left⟩, hread, hr⟩ := Option.bind_eq_some_iff.1 h
      obtain ⟨fuel, hmany⟩ := readMany_of_readElements hinfo hread
      obtain ⟨rfl, rfl⟩ := Prod.mk.inj (eq_of_readPairs pairs plain (by omega) hmany)
      simp only [pairUp_eq, bind_eq_bind, bind_some] at hr
      cases hr
      rfl
    | tag number content | float width bits => exact plain.elim
    | simple value =>
      have hvalue : value < 24 := plain
      have hbyte : (UInt8.ofNat (7 * 32 + value)).toNat = 7 * 32 + value := by
        rw [UInt8.toNat_ofNat', Nat.mod_eq_of_lt (by omega)]
      have hdiv : (7 * 32 + value) / 32 = 7 := by omega
      have hmod : (7 * 32 + value) % 32 = value := by omega
      simp only [readItem, encode, head, if_pos hvalue, cons_append, nil_append, readHead, hbyte, hdiv,
        hmod, bind_eq_bind, bind_some, if_pos (show value < 25 by omega)] at h
      cases h
      rfl

theorem eq_of_readMany (items : List Item) (plain : PlainAll items)
    (short : (encodeAll items).length < wordLimit) {fuel depth : Nat}
    {rest : List UInt8} {r : List Item × List UInt8}
    (h : readMany fuel depth items.length (encodeAll items ++ rest) = some r) : r = (wrapAll items, rest) := by
  cases items with
  | nil =>
    rw [length_nil, readMany] at h
    cases h
    rfl
  | cons i items =>
    rw [encodeAll, length_append] at short
    cases fuel with
    | zero => simp [readMany] at h
    | succ fuel =>
      rw [length_cons, readMany, encodeAll, append_assoc] at h
      obtain ⟨first, hfirst, h⟩ := Option.bind_eq_some_iff.1 h
      obtain rfl := i.eq_of_readItem plain.1 (by omega) hfirst
      obtain ⟨others, hothers, h⟩ := Option.bind_eq_some_iff.1 h
      obtain rfl := eq_of_readMany items plain.2 (by omega) hothers
      cases h
      rfl

theorem eq_of_readPairs (pairs : List (Item × Item)) (plain : PlainPairs pairs)
    (short : (encodePairs pairs).length < wordLimit)
    {fuel depth : Nat} {rest : List UInt8} {r : List Item × List UInt8}
    (h : readMany fuel depth (pairs.length * 2) (encodePairs pairs ++ rest) = some r) :
    r = ((wrapPairs pairs).flatMap fun (k, v) => [k, v], rest) := by
  cases pairs with
  | nil =>
    rw [length_nil, Nat.zero_mul, readMany] at h
    cases h
    rfl
  | cons p pairs =>
    obtain ⟨k, v⟩ := p
    rw [encodePairs, length_append, length_append] at short
    rw [length_cons, Nat.add_mul, Nat.one_mul] at h
    match fuel, h with
    | 0, h => simp [readMany] at h
    | 1, h =>
      rw [readMany] at h
      obtain ⟨first, -, h⟩ := Option.bind_eq_some_iff.1 h
      obtain ⟨others, hothers, -⟩ := Option.bind_eq_some_iff.1 h
      simp [readMany] at hothers
    | fuel + 2, h =>
      rw [readMany, encodePairs, append_assoc, append_assoc] at h
      obtain ⟨first, hfirst, h⟩ := Option.bind_eq_some_iff.1 h
      obtain rfl := k.eq_of_readItem plain.1 (by omega) hfirst
      obtain ⟨others, hothers, h⟩ := Option.bind_eq_some_iff.1 h
      rw [readMany] at hothers
      obtain ⟨second, hsecond, hothers⟩ := Option.bind_eq_some_iff.1 hothers
      obtain rfl := v.eq_of_readItem plain.2.1 (by omega) hsecond
      obtain ⟨more, hmore, hothers⟩ := Option.bind_eq_some_iff.1 hothers
      obtain rfl := eq_of_readPairs pairs plain.2.2 (by omega) hmore
      cases hothers
      cases h
      rfl
end

theorem Item.eq_of_decode {i j : Item} (plain : i.Plain) (short : i.encode.length < wordLimit)
    (h : Item.decode? i.encode = some j) :
    j = i.wrap := by
  unfold Item.decode? at h
  split at h
  · next item hread =>
    cases h
    rw [← append_nil i.encode] at hread
    exact (Prod.mk.inj (i.eq_of_readItem plain short hread)).1
  · cases h

/-! ### Fields of records -/

theorem plainAll_map {α : Type} {f : α → Item} (xs : List α) (h : ∀ x, (f x).Plain) : PlainAll (xs.map f) := by
  induction xs with
  | nil => trivial
  | cons x xs ih => exact ⟨h x, ih⟩

theorem Item.Plain.ofString (s : String) : (Item.ofString s).Plain := ⟨_, rfl⟩

theorem Item.Plain.ofBytes (bs : List UInt8) : (Item.ofBytes bs).Plain := ⟨_, rfl⟩

theorem Item.Plain.ofInt (i : Int) : (Item.ofInt i).Plain := by
  unfold Item.ofInt
  split <;> trivial

theorem Item.Plain.ofFields {fields : List (Nat × Item)} (h : ∀ p ∈ fields, p.2.Plain) :
    (Item.ofFields fields).Plain := by
  change PlainPairs _
  induction fields with
  | nil => trivial
  | cons p fields ih =>
    exact ⟨trivial, h p mem_cons_self, ih fun q hq => h q (mem_cons_of_mem p hq)⟩

theorem wrapAll_eq (items : List Item) : wrapAll items = items.map Item.wrap := by
  induction items with
  | nil => rfl
  | cons i items ih => rw [wrapAll, ih, map_cons]

theorem wrapPairs_eq (pairs : List (Item × Item)) : wrapPairs pairs = pairs.map fun p => (p.1.wrap, p.2.wrap) := by
  induction pairs with
  | nil => rfl
  | cons p pairs ih => rw [wrapPairs, ih, map_cons]

/-- The fields of a record, as they are read back. -/
theorem Item.fields?_wrap_ofFields (fields : List (Nat × Item)) :
    (Item.ofFields fields).wrap.fields? = some (fields.map fun p => (((p.1 % wordLimit : Nat) : Int), p.2.wrap)) := by
  have hkeys : (wrapPairs (fields.map fun p => (Item.uint p.1, p.2))).mapM (fun p => (fieldKey? p.1).map (·, p.2)) =
      some (fields.map fun p => (some ((p.1 % wordLimit : Nat) : Int), p.2.wrap)) := by
    rw [wrapPairs_eq, map_map]
    induction fields with
    | nil => rfl
    | cons p fields ih =>
      rw [map_cons, mapM_cons, ih]
      rfl
  have huntag : (Item.ofFields fields).wrap.untag? =
      some (.map (wrapPairs (fields.map fun p => (Item.uint p.1, p.2)))) := by
    rw [ofFields, Item.wrap]
    rfl
  simp only [fields?, huntag, bind_eq_bind, bind_some, hkeys, filterMap_map]
  exact congrArg some (congrFun filterMap_eq_map fields)

theorem toList_loop_eq (bytes : ByteArray) (i : Nat) (acc : List UInt8) :
    ByteArray.toList.loop bytes i acc = acc.reverse ++ bytes.data.toList.drop i := by
  fun_induction ByteArray.toList.loop bytes i acc with
  | case1 i acc hlt ih =>
    have hi : i < bytes.data.toList.length := hlt
    have hget : bytes.get! i = bytes.data.toList.get ⟨i, hi⟩ := getElem!_pos bytes.data i hlt
    rw [ih, drop_eq_getElem_cons hi, hget]
    simp
  | case2 i acc hge =>
    have hle : bytes.data.toList.length ≤ i := Nat.not_lt.1 hge
    rw [drop_eq_nil_of_le hle, append_nil]

theorem toByteArray_toList (bytes : ByteArray) : bytes.toList.toByteArray = bytes := by
  apply ByteArray.ext
  rw [data_toByteArray, ByteArray.toList, toList_loop_eq]
  rfl

theorem decodeText?_toUTF8 (s : String) : decodeText? [s.toUTF8.toList] = some s := by
  have htext : String.fromUTF8? s.toUTF8 = some s := by
    rw [String.fromUTF8?, dif_pos (show s.toUTF8.IsValidUTF8 from s.isValidUTF8)]
    rfl
  rw [decodeText?, mapM_cons, toByteArray_toList, htext, mapM_nil]
  simp

theorem Item.string?_wrap_ofString (s : String) : (Item.ofString s).wrap.string? = some s := decodeText?_toUTF8 s

theorem Item.byteList?_wrap_ofBytes (bs : List UInt8) : (Item.ofBytes bs).wrap.byteList? = some bs := by
  simp [ofBytes, Item.wrap, byteList?, untag?]

theorem Item.list?_wrap_array {α : Type} {f : α → Item} {f' : Item → Option α} (h : ∀ a, f' (f a).wrap = some a)
    (xs : List α) : (Item.array (xs.map f)).wrap.list? f' = some xs := by
  have hall : (wrapAll (xs.map f)).mapM f' = some xs := by
    rw [wrapAll_eq, map_map]
    induction xs with
    | nil => rfl
    | cons x xs ih =>
      rw [map_cons, mapM_cons, ih, Function.comp_apply, h]
      rfl
  rw [Item.wrap]
  exact hall

end Stackwork.Cbor
