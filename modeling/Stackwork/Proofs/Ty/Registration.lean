import Stackwork.Proofs.Lang.Operations

/-!
# Registered types

Types are told apart by the numbers they are registered under. In a registry that came about
by opening tables and asking them for types, this is the same as telling them apart: a number
belongs to one type, the parts of a known type are known, and every table begins with
primitives of its own.
-/
namespace Stackwork

open Array

/-- The types a type is made of. -/
def Ty.parts : Ty → List Ty
  | prim .. | enum .. => []
  | array _ e | set _ e => [e]
  | map _ k e => [k, e]
  | function _ o is => o :: is

namespace Shape

/-- The types that a type of this shape is made of. -/
def parts : Shape → List Ty
  | array e | set e => [e]
  | map k e => [k, e]
  | function o is => o :: is

@[simp] theorem id_withId (n : Nat) (s : Shape) : (s.withId n).id = n := by
  cases s <;> rfl

@[simp] theorem parts_withId (n : Nat) (s : Shape) : (s.withId n).parts = s.parts := by
  cases s <;> rfl

/-- The digits of a number are no commas, and the number can be read off them. -/
theorem toList_toString (n : Nat) :
    ',' ∉ (toString n).toList ∧ Nat.ofDigitChars 10 (toString n).toList 0 = n := by
  rw [Nat.toString_eq_ofList_toDigits, String.toList_ofList]
  refine ⟨fun h => ?_, Nat.ofDigitChars_ten_toDigits⟩
  have : ','.isDigit = true := Nat.isDigit_of_mem_toDigits (by decide) (by decide) h
  simp at this

/-- The text of a signature tells which types it consists of. -/
theorem signatureKey_eq_iff {o o' : Ty} {is is' : List Ty} :
    signatureKey o is = signatureKey o' is' ↔ o.id = o'.id ∧ is.map Ty.id = is'.map Ty.id := by
  let texts (ts : List Ty) := ts.map fun t => toString t.id
  -- cutting at the commas gives the numbers back
  have cut (ts : List Ty) (hne : ts ≠ []) :
      ((",".intercalate (texts ts)).toList.splitOn ',').map (Nat.ofDigitChars 10 · 0) = ts.map Ty.id := by
    have hsplit : (",".intercalate (texts ts)).toList.splitOn ',' = (texts ts).map String.toList := by
      rw [String.toList_intercalate]
      refine List.splitOn_intercalate ',' (fun l hl => ?_) (by simpa [texts] using hne)
      obtain ⟨s, hs, rfl⟩ := List.mem_map.1 hl
      obtain ⟨t, -, rfl⟩ := List.mem_map.1 hs
      exact (toList_toString t.id).1
    rw [hsplit, List.map_map, List.map_map]
    exact List.map_congr_left fun t _ => (toList_toString t.id).2
  constructor
  · intro h
    have hids := (cut (o :: is) (List.cons_ne_nil _ _)).symm.trans
      ((congrArg (fun s => (s.toList.splitOn ',').map (Nat.ofDigitChars 10 · 0)) h).trans
        (cut (o' :: is') (List.cons_ne_nil _ _)))
    exact List.cons.inj hids
  · rintro ⟨ho, his⟩
    have htexts := congrArg (List.map fun n : Nat => toString n) his
    rw [List.map_map, List.map_map] at htexts
    simp only [signatureKey, List.map_cons, ho]
    exact congrArg (fun ts => ",".intercalate (toString o'.id :: ts)) htexts

end Shape

/-- The primitives of a new table are numbered in order. -/
theorem TyTable.prim_startingAt (n : Nat) (p : Prim) :
    (startingAt n).prim p = .prim (n + Prim.all.idxOf p) p := by
  cases p <;> rfl

theorem Prim.idxOf_lt (p : Prim) : all.idxOf p < all.length := by
  cases p <;> decide

theorem Prim.idxOf_inj {p q : Prim} (h : all.idxOf p = all.idxOf q) : p = q := by
  have (p : Prim) : all[all.idxOf p]? = some p := by cases p <;> rfl
  exact Option.some.inj ((this p).symm.trans (h ▸ this q))

namespace Registry

/-- A type of one of the tables. -/
def Knows (r : Registry) (t : Ty) : Prop := ∃ tt ∈ r.tables, t ∈ tt.types

/-- The registries that come about by opening tables and asking them for types with known
parts. -/
inductive Made : Registry → Prop where
  | empty : Made .empty
  | newTable {r : Registry} (made : r.Made) : Made r.newTable.2
  | intern {r : Registry} (made : r.Made) (t : TableId) (s : Shape) (known : ∀ u ∈ s.parts, r.Knows u) :
      Made (r.intern t s).2
  | enumOf {r : Registry} (made : r.Made) (t : TableId) (name : String) (members : List EnumMember) :
      Made (r.enumOf t name members).2

/-- What holds of every registry that came about by requests. -/
structure Sound (r : Registry) : Prop where
  lt_next : ∀ {t}, r.Knows t → t.id < r.next
  distinct : ∀ {t u}, r.Knows t → r.Knows u → t.id = u.id → t = u
  parts : ∀ {t}, r.Knows t → ∀ u ∈ t.parts, r.Knows u
  proper : ∀ tt ∈ r.tables, tt.Proper
  prims : ∀ tt ∈ r.tables, ∀ p, tt.prim p ∈ tt.types

variable {r : Registry} {t : Ty}

theorem knows_newTable :
    r.newTable.2.Knows t ↔ r.Knows t ∨ ∃ p : Prim, t = (TyTable.startingAt r.next).prim p := by
  have hnew : (∃ tt, tt = TyTable.startingAt r.next ∧ t ∈ tt.types) ↔
      ∃ p : Prim, t = (TyTable.startingAt r.next).prim p := by
    constructor
    · rintro ⟨_, rfl, h⟩
      rcases (by simpa [TyTable.startingAt] using h :
        t = .prim r.next .void ∨ t = .prim (r.next + 1) .boolean ∨ t = .prim (r.next + 2) .int ∨
          t = .prim (r.next + 3) .float ∨ t = .prim (r.next + 4) .string) with h | h | h | h | h
      · exact ⟨.void, h⟩
      · exact ⟨.boolean, h⟩
      · exact ⟨.int, h⟩
      · exact ⟨.float, h⟩
      · exact ⟨.string, h⟩
    · rintro ⟨p, rfl⟩
      exact ⟨_, rfl, by cases p <;> simp [TyTable.prim, TyTable.startingAt]⟩
  simp only [Knows, newTable, mem_push, or_and_right, exists_or, hnew]

/-- Registration adds one type to one table, if there is such a table. -/
theorem getElem?_tables_register (r : Registry) (id : TableId) (make : Nat → Ty) (i : Nat) :
    (r.register id make).2.tables[i]? =
      if id.index = i then r.tables[i]?.map fun tt => { tt with types := tt.types ++ [make r.next] }
      else r.tables[i]? :=
  getElem?_modify

/-- What is true of a table and stays true when a type is entered is true of all tables. -/
theorem forall_tables_register {P : TyTable → Prop} (h : ∀ tt ∈ r.tables, P tt) (t : TableId) (make : Nat → Ty)
    (step : ∀ tt, r.tables[t.index]? = some tt → P { tt with types := tt.types ++ [make r.next] }) :
    ∀ tt ∈ (r.register t make).2.tables, P tt := by
  intro tt htt
  obtain ⟨i, hi⟩ := mem_iff_getElem?.1 htt
  rw [getElem?_tables_register] at hi
  split at hi
  · next heq =>
    obtain ⟨old, hold, rfl⟩ := Option.map_eq_some_iff.1 hi
    exact step old (heq ▸ hold)
  · exact h tt (mem_of_getElem? hi)

section

variable {T : TableId}

theorem table_eq {tt : TyTable} (h : r.tables[T.index]? = some tt) : r.table T = tt := by
  simp [table, getD_eq_getD_getElem?, h]

theorem table_mem (hT : T.index < r.tables.size) : r.table T ∈ r.tables := by
  rw [table_eq (getElem?_eq_getElem hT)]
  exact getElem_mem hT

theorem table_register (r : Registry) (id : TableId) (make : Nat → Ty) (T : TableId) : ∃ more,
    (r.register id make).2.table T = { r.table T with types := (r.table T).types ++ more } := by
  have hnew := r.getElem?_tables_register id make T.index
  by_cases h : T.index < r.tables.size
  · rw [getElem?_eq_getElem h] at hnew
    rw [table_eq (getElem?_eq_getElem h)]
    split at hnew
    · exact ⟨_, table_eq hnew⟩
    · exact ⟨[], by rw [table_eq hnew, List.append_nil]⟩
  · exact ⟨[], by simp [table, register, getD_eq_getD_getElem?, h]⟩

theorem mem_register_self (hT : T.index < r.tables.size) (make : Nat → Ty) :
    make r.next ∈ ((r.register T make).2.table T).types := by
  have hnew := r.getElem?_tables_register T make T.index
  rw [if_pos rfl, getElem?_eq_getElem hT] at hnew
  rw [table_eq hnew]
  exact List.mem_append_right _ List.mem_cons_self

theorem mem_intern_self (hT : T.index < r.tables.size) (s : Shape) :
    (r.intern T s).1 ∈ ((r.intern T s).2.table T).types := by
  unfold intern
  split
  · next h => exact List.mem_of_find?_eq_some h
  · exact mem_register_self hT _

@[simp] theorem size_tables_register (r : Registry) (id : TableId) (make : Nat → Ty) :
    (r.register id make).2.tables.size = r.tables.size :=
  size_modify

end

theorem knows_register {id : TableId} {make : Nat → Ty} (h : (r.register id make).2.Knows t) :
    r.Knows t ∨ t = make r.next := by
  obtain ⟨tt, htt, ht⟩ := h
  obtain ⟨i, hi⟩ := mem_iff_getElem?.1 htt
  rw [getElem?_tables_register] at hi
  split at hi
  · obtain ⟨old, hold, rfl⟩ := Option.map_eq_some_iff.1 hi
    rcases List.mem_append.1 ht with ht | ht
    · exact .inl ⟨old, mem_of_getElem? hold, ht⟩
    · exact .inr (List.mem_singleton.1 ht)
  · exact .inl ⟨tt, mem_of_getElem? hi, ht⟩

theorem Knows.register (h : r.Knows t) (id : TableId) (make : Nat → Ty) :
    (r.register id make).2.Knows t := by
  obtain ⟨tt, htt, ht⟩ := h
  obtain ⟨i, hi⟩ := mem_iff_getElem?.1 htt
  have hnew := r.getElem?_tables_register id make i
  rw [hi] at hnew
  split at hnew
  · exact ⟨_, mem_of_getElem? hnew, List.mem_append_left _ ht⟩
  · exact ⟨tt, mem_of_getElem? hnew, ht⟩

theorem Knows.newTable (h : r.Knows t) : r.newTable.2.Knows t :=
  knows_newTable.2 (.inl h)

theorem Knows.intern (h : r.Knows t) (id : TableId) (s : Shape) : (r.intern id s).2.Knows t := by
  unfold Registry.intern
  split
  · exact h
  · exact h.register id _

namespace Sound

variable {r : Registry}

theorem newTable (h : r.Sound) : r.newTable.2.Sound where
  lt_next ht := by
    rcases knows_newTable.1 ht with ht | ⟨p, rfl⟩
    · exact Nat.lt_of_lt_of_le (h.lt_next ht) (Nat.le_add_right _ _)
    · rw [TyTable.prim_startingAt]
      exact Nat.add_lt_add_left p.idxOf_lt _
  distinct ht hu heq := by
    rcases knows_newTable.1 ht with ht | ⟨p, rfl⟩ <;> rcases knows_newTable.1 hu with hu | ⟨q, rfl⟩
    · exact h.distinct ht hu heq
    · have := h.lt_next ht
      rw [heq, TyTable.prim_startingAt, Ty.id] at this
      omega
    · have := h.lt_next hu
      rw [← heq, TyTable.prim_startingAt, Ty.id] at this
      omega
    · rw [TyTable.prim_startingAt, TyTable.prim_startingAt] at heq ⊢
      rw [Prim.idxOf_inj (Nat.add_left_cancel heq)]
  parts ht u hu := by
    rcases knows_newTable.1 ht with ht | ⟨p, rfl⟩
    · exact (h.parts ht u hu).newTable
    · cases p <;> cases hu
  proper tt htt := by
    rcases mem_push.1 htt with htt | rfl
    · exact h.proper tt htt
    · exact ⟨rfl, rfl, rfl, rfl, rfl⟩
  prims tt htt p := by
    rcases mem_push.1 htt with htt | rfl
    · exact h.prims tt htt p
    · cases p <;> simp [TyTable.prim, TyTable.startingAt]

/-- A new type has a new number. -/
theorem register (h : r.Sound) (id : TableId) {make : Nat → Ty} (hid : ∀ n, (make n).id = n)
    (known : ∀ n, ∀ u ∈ (make n).parts, r.Knows u) : (r.register id make).2.Sound where
  lt_next ht := by
    rcases knows_register ht with ht | rfl
    · exact Nat.lt_succ_of_lt (h.lt_next ht)
    · rw [hid]
      exact Nat.lt_succ_self _
  distinct ht hu heq := by
    rcases knows_register ht with ht | rfl <;> rcases knows_register hu with hu | rfl
    · exact h.distinct ht hu heq
    · rw [hid] at heq
      exact absurd heq (Nat.ne_of_lt (h.lt_next ht))
    · rw [hid] at heq
      exact absurd heq.symm (Nat.ne_of_lt (h.lt_next hu))
    · rfl
  parts ht u hu := by
    rcases knows_register ht with ht | rfl
    · exact (h.parts ht u hu).register id make
    · exact (known _ u hu).register id make
  proper := forall_tables_register h.proper id make fun tt htt => by
    have := h.proper tt (mem_of_getElem? htt)
    exact ⟨this.void, this.boolean, this.int, this.float, this.string⟩
  prims := forall_tables_register h.prims id make fun tt htt p => by
    have := h.prims tt (mem_of_getElem? htt) p
    cases p <;> exact List.mem_append_left _ this

theorem intern (h : r.Sound) (id : TableId) {s : Shape} (known : ∀ u ∈ s.parts, r.Knows u) :
    (r.intern id s).2.Sound := by
  unfold Registry.intern
  split
  · exact h
  · exact h.register id (fun n => s.id_withId n) fun n => by simpa using known

end Sound

theorem Made.sound (made : r.Made) : r.Sound := by
  induction made with
  | empty =>
    have none (t : Ty) : ¬ Registry.empty.Knows t := by simp [Knows, Registry.empty]
    exact ⟨fun h => absurd h (none _), fun h => absurd h (none _), fun h => absurd h (none _),
      fun _ h => by simp [Registry.empty] at h, fun _ h => by simp [Registry.empty] at h⟩
  | newTable _ ih => exact ih.newTable
  | intern _ t s known ih => exact ih.intern t known
  | enumOf _ t name members ih => exact ih.register t (fun _ => rfl) fun _ _ h => by cases h

end Registry
end Stackwork
