import Stackwork.Image.Decode
import Stackwork.Proofs.Cbor.Reading

/-!
# Reading back an image

An image that can be read names the imports that its record names, whatever the limits of the reader
make of the rest.
-/
namespace Stackwork.Image

open ModuleRecord Option
open List (append_assoc)

open Stackwork.Cbor

variable {key : Nat} {item : Cbor.Item} {α : Type} {f : α → Cbor.Item} {p : Nat × Cbor.Item} {y x : ModuleRecord}

theorem plain_of_mem_always (h : item.Plain) : ∀ p ∈ always key item, p.2.Plain :=
  fun _ hp => List.mem_singleton.1 hp ▸ h

theorem plain_of_mem_unlessZero (key : Nat) (i : Int) : ∀ p ∈ unlessZero key i, p.2.Plain := by
  unfold unlessZero
  split
  · simp
  · exact plain_of_mem_always (.ofInt i)

theorem plain_of_mem_unlessBlank (key : Nat) (s : String) : ∀ p ∈ unlessBlank key s, p.2.Plain := by
  unfold unlessBlank
  split
  · simp
  · exact plain_of_mem_always (.ofString s)

theorem plain_of_mem_unlessEmpty (key : Nat) (xs : List α) (h : ∀ x, (f x).Plain) :
    ∀ p ∈ unlessEmpty key f xs, p.2.Plain := by
  unfold unlessEmpty
  split
  · simp
  · exact plain_of_mem_always (plainAll_map xs h)

theorem plain_of_mem_append {fields fields' : List (Nat × Cbor.Item)} (h : ∀ p ∈ fields, p.2.Plain)
    (h' : ∀ p ∈ fields', p.2.Plain) : ∀ p ∈ fields ++ fields', p.2.Plain :=
  fun p hp => (List.mem_append.1 hp).elim (h p) (h' p)

theorem plain_memberItem (m : String × Int) : (memberItem m).Plain :=
  .ofFields (plain_of_mem_append (plain_of_mem_always (.ofString m.1)) (plain_of_mem_always (.ofInt m.2)))

theorem TypeRecord.plain_item (t : TypeRecord) : t.item.Plain := by
  refine .ofFields ?_
  refine plain_of_mem_append ?_ (plain_of_mem_unlessEmpty 7 _ plain_memberItem)
  refine plain_of_mem_append ?_ (plain_of_mem_unlessEmpty 6 _ .ofInt)
  refine plain_of_mem_append ?_ (plain_of_mem_unlessZero 5 _)
  refine plain_of_mem_append ?_ (plain_of_mem_unlessZero 4 _)
  refine plain_of_mem_append ?_ (plain_of_mem_unlessZero 3 _)
  exact plain_of_mem_append (plain_of_mem_always trivial) (plain_of_mem_unlessBlank 2 _)

theorem VariableRecord.plain_item (v : VariableRecord) : v.item.Plain := by
  refine .ofFields (plain_of_mem_append ?_ (plain_of_mem_always (.ofInt _)))
  exact plain_of_mem_append (plain_of_mem_always (.ofString _)) (plain_of_mem_always (.ofInt _))

theorem RoutineRecord.plain_item (r : RoutineRecord) : r.item.Plain := by
  have locals : ∀ p ∈ (if r.locals.isEmpty then [] else always 6 (.ofBytes r.locals)), p.2.Plain := by
    split
    · simp
    · exact plain_of_mem_always (.ofBytes _)
  have builtin : ∀ p ∈ (if r.builtin then always 4 (.ofBool true) else []), p.2.Plain := by
    split
    · exact plain_of_mem_always (show 21 < 24 by omega)
    · simp
  refine .ofFields (plain_of_mem_append ?_ locals)
  refine plain_of_mem_append ?_ (plain_of_mem_unlessEmpty 5 _ fun _ => trivial)
  refine plain_of_mem_append ?_ builtin
  refine plain_of_mem_append ?_ (plain_of_mem_always (.ofInt _))
  exact plain_of_mem_append (plain_of_mem_always (.ofString _)) (plain_of_mem_always (.ofInt _))

theorem ModuleRecord.plain_item (m : ModuleRecord) : m.item.Plain := by
  refine .ofFields ?_
  refine plain_of_mem_append ?_ (plain_of_mem_unlessEmpty 11 _ fun _ => trivial)
  refine plain_of_mem_append ?_ (plain_of_mem_unlessEmpty 10 _ .ofString)
  refine plain_of_mem_append ?_ (plain_of_mem_unlessEmpty 9 _ RoutineRecord.plain_item)
  refine plain_of_mem_append ?_ (plain_of_mem_unlessEmpty 8 _ VariableRecord.plain_item)
  refine plain_of_mem_append ?_ (plain_of_mem_unlessEmpty 7 _ TypeRecord.plain_item)
  refine plain_of_mem_append ?_ (plain_of_mem_always (.ofInt _))
  refine plain_of_mem_append ?_ (plain_of_mem_always (.ofInt _))
  refine plain_of_mem_append ?_ (plain_of_mem_always (.ofInt _))
  refine plain_of_mem_append ?_ (plain_of_mem_unlessEmpty 3 _ .ofString)
  exact plain_of_mem_append (plain_of_mem_always (.ofString _)) (plain_of_mem_always (.ofBytes _))

theorem fst_of_mem_always (h : p ∈ always key item) : p.1 = key := by
  rw [List.mem_singleton.1 h]

theorem fst_of_mem_unlessEmpty {xs : List α} (h : p ∈ unlessEmpty key f xs) : p.1 = key := by
  unfold unlessEmpty at h
  split at h
  · cases h
  · exact fst_of_mem_always h

/-- A list is read from the field with its number. -/
theorem field?_unlessEmpty {f' : Cbor.Item → Option α} (hf : ∀ a, f' (f a).wrap = some a) (key : Nat)
    (hkey : key < wordLimit) (xs : List α) {before after : List (Nat × Cbor.Item)}
    (hbefore : ∀ p ∈ before, p.1 % wordLimit ≠ key) (hafter : ∀ p ∈ after, p.1 % wordLimit ≠ key) :
    field? ((before ++ (unlessEmpty key f xs ++ after)).map fun p => (((p.1 % wordLimit : Nat) : Int), p.2.wrap)) key []
      (Cbor.Item.list? f') = some xs := by
  have none {fields : List (Nat × Cbor.Item)} (h : ∀ p ∈ fields, p.1 % wordLimit ≠ key) :
      (fields.map fun p => (((p.1 % wordLimit : Nat) : Int), p.2.wrap)).lookup (key : Int) = none := by
    rw [List.lookup_eq_none_iff, List.forall_mem_map]
    intro p hp
    exact bne_iff_ne.2 fun e => h p hp (Int.ofNat_inj.1 e).symm
  rw [field?, List.map_append, List.map_append, List.lookup_append, List.lookup_append, none hbefore, none hafter]
  cases xs with
  | nil => rfl
  | cons x xs =>
    rw [unlessEmpty, if_neg (by simp), List.map_singleton, List.lookup_cons, Nat.mod_eq_of_lt hkey, beq_self_eq_true]
    exact Cbor.Item.list?_wrap_array hf (x :: xs)

/-- The first fields of a record are read on their own. -/
theorem ModuleRecord.fields_of_ofItem (h : ofItem? item = some y) :
    ∃ fs, item.fields? = some fs ∧ field? fs 1 "" Cbor.Item.string? = some y.name ∧
      field? fs 2 [] Cbor.Item.byteList? = some y.id ∧
      field? fs 3 [] (Cbor.Item.list? Cbor.Item.string?) = some y.imports := by
  rw [ofItem?, bind_eq_bind, bind_eq_some_iff] at h
  obtain ⟨fs, hfs, h⟩ := h
  obtain ⟨name, hname, h⟩ := bind_eq_some_iff.1 h
  obtain ⟨id, hid, h⟩ := bind_eq_some_iff.1 h
  obtain ⟨imports, himports, h⟩ := bind_eq_some_iff.1 h
  obtain ⟨functions, -, h⟩ := bind_eq_some_iff.1 h
  obtain ⟨globals, -, h⟩ := bind_eq_some_iff.1 h
  obtain ⟨strings, -, h⟩ := bind_eq_some_iff.1 h
  obtain ⟨types, -, h⟩ := bind_eq_some_iff.1 h
  obtain ⟨entries, -, h⟩ := bind_eq_some_iff.1 h
  obtain ⟨routines, -, h⟩ := bind_eq_some_iff.1 h
  obtain ⟨texts, -, h⟩ := bind_eq_some_iff.1 h
  obtain ⟨init, -, h⟩ := bind_eq_some_iff.1 h
  cases h
  exact ⟨fs, hfs, hname, hid, himports⟩

/-- What tells a record from others: its name, its identifier and its imports. -/
structure ModuleRecord.SameHeading (y x : ModuleRecord) : Prop where
  name : y.name = x.name
  id : y.id = x.id
  imports : y.imports = x.imports

/-- A record that is read back has the heading that was written. -/
theorem ModuleRecord.heading_of_ofItem (h : ofItem? x.item.wrap = some y) : y.SameHeading x := by
  have hbefore : ∀ p ∈ always 1 (.ofString x.name) ++ always 2 (.ofBytes x.id), p.1 % wordLimit ≠ 3 := by
    intro p hp
    rcases List.mem_append.1 hp with hp | hp <;> rw [fst_of_mem_always hp] <;> decide
  have hafter : ∀ p ∈ always 4 (.ofInt x.functionBase) ++ always 5 (.ofInt x.globalBase) ++
      always 6 (.ofInt x.stringBase) ++ unlessEmpty 7 TypeRecord.item x.types ++
      unlessEmpty 8 VariableRecord.item x.globals ++ unlessEmpty 9 RoutineRecord.item x.routines ++
      unlessEmpty 10 Cbor.Item.ofString x.strings ++ unlessEmpty 11 ofWord x.init, p.1 % wordLimit ≠ 3 := by
    intro p hp
    simp only [List.mem_append] at hp
    rcases hp with ((((((hp | hp) | hp) | hp) | hp) | hp) | hp) | hp
    · rw [fst_of_mem_always hp]; decide
    · rw [fst_of_mem_always hp]; decide
    · rw [fst_of_mem_always hp]; decide
    all_goals rw [fst_of_mem_unlessEmpty hp]; decide
  have himports := field?_unlessEmpty Cbor.Item.string?_wrap_ofString 3 (by decide) x.imports hbefore hafter
  simp only [← append_assoc] at himports
  obtain ⟨fs, hfs, hname, hid, hread⟩ := fields_of_ofItem h
  rw [item, Cbor.Item.fields?_wrap_ofFields] at hfs
  cases hfs
  refine ⟨?_, ?_, some.inj (hread.symm.trans himports)⟩
  · have hfirst := Cbor.Item.string?_wrap_ofString x.name
    simp only [append_assoc] at hname
    exact some.inj (hname.symm.trans hfirst)
  · have hsecond := Cbor.Item.byteList?_wrap_ofBytes x.id
    simp only [append_assoc] at hid
    exact some.inj (hid.symm.trans hsecond)

/-- The image of a record. -/
def ModuleRecord.image (x : ModuleRecord) : List UInt8 := magic ++ bigEndian 2 version ++ x.item.encode

/-- Behind the magic word and the version, an image is read like its record. -/
theorem readRecord_image (x : ModuleRecord) : readRecord x.image =
      ((Cbor.Item.decode? x.item.encode).bind ofItem?).elim (.error .unreadable) .ok := by
  have hversion : bigEndian 2 version = [0, 1] := by decide
  have hread (body : List UInt8) : readVersion (magic ++ ([0, 1] ++ body)) = .ok version := by
    rw [readVersion, if_neg (by simp), if_neg (by simp), List.drop_left]
    rfl
  have hrest (body : List UInt8) : (magic ++ ([0, 1] ++ body)).drop (magic.length + 2) = body := by
    rw [← List.drop_drop, List.drop_left]
    rfl
  rw [image, hversion, append_assoc, readRecord, hread]
  simp only [hrest]
  cases (Cbor.Item.decode? x.item.encode).bind ofItem? <;> rfl

theorem uuid_eq {id : Uuid} (h : x.id = id.bytes) : x.uuid = .ok id := by
  have hne : ¬ x.id.isEmpty := by
    rw [List.isEmpty_iff_length_eq_zero, h, id.length_eq]
    decide
  rw [uuid, if_neg hne, h, Uuid.ofBytes?, dif_pos id.length_eq]

/-- An image that can be read gives the heading of the record it was made from. -/
theorem heading_of_readRecord (short : x.image.length < wordLimit) (h : readRecord x.image = .ok y) :
    y.SameHeading x := by
  rw [image, List.length_append] at short
  rw [readRecord_image] at h
  cases hitem : Cbor.Item.decode? x.item.encode with
  | none =>
    rw [hitem] at h
    cases h
  | some item =>
    have hwrap : item = x.item.wrap := Cbor.Item.eq_of_decode x.plain_item (by omega) hitem
    cases hrecord : ofItem? item with
    | none =>
      rw [hitem, bind_some, hrecord] at h
      cases h
    | some z =>
      rw [hitem, bind_some, hrecord] at h
      cases h
      exact heading_of_ofItem (hwrap ▸ hrecord)

end Stackwork.Image
