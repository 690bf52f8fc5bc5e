import Stackwork.Proofs.Ty.Sharing

/-!
# Identity of types

Tables are asked for types in any order, and the parts of a type may come from any of them. Two
requests then get the very same type exactly when they are the same request to the same table and
do not ask for an enum. A registered type never changes, its number is larger than all numbers given
before, and its table lists it once, behind those of its parts that are in the table. So inside one
table types without enums can be told apart by what they are made of.
-/
namespace Stackwork

open List

namespace Ty

mutual
/-- A type with all its numbers struck out: what it is made of and nothing else. -/
def outline : Ty → Ty
  | prim _ p => prim 0 p
  | array _ e => array 0 e.outline
  | set _ e => set 0 e.outline
  | map _ k e => map 0 k.outline e.outline
  | enum _ name members => enum 0 name members
  | function _ o is => function 0 o.outline (outlineAll is)

/-- Several types with their numbers struck out. -/
def outlineAll : List Ty → List Ty
  | [] => []
  | t :: ts => t.outline :: outlineAll ts
end

theorem outlineAll_eq_map (ts : List Ty) : outlineAll ts = ts.map outline := by
  induction ts with
  | nil => rfl
  | cons t ts ih => rw [outlineAll, ih, map_cons]

end Ty

namespace Shape

theorem outline_withId (n : Nat) (s : Shape) : (s.withId n).outline = (s.mapParts Ty.outline).withId 0 := by
  cases s <;> simp [withId, Ty.outline, mapParts, Ty.outlineAll_eq_map]

/-- If the parts can be told apart by their outlines, so can the types. -/
theorem eq_of_outline {s s' : Shape} {n n' : Nat}
    (parts : ∀ t ∈ s.parts, ∀ u ∈ s'.parts, t.outline = u.outline → t = u)
    (h : (s.withId n).outline = (s'.withId n').outline) : s = s' := by
  rw [outline_withId, outline_withId] at h
  exact eq_of_mapParts parts (withId_inj h).1

end Shape

namespace Registry

/-- A request to a table. -/
inductive Call where
  | prim (p : Prim)
  /-- For a type that is determined by its parts. -/
  | shape (s : Shape)
  | enum (name : String) (members : List EnumMember)

namespace Call

/-- The types that the type asked for is made of. -/
def parts : Call → List Ty
  | prim _ | enum .. => []
  | shape s => s.parts

/-- The type asked for, under a number. -/
def make (n : Nat) : Call → Ty
  | prim p => .prim n p
  | shape s => s.withId n
  | enum name members => .enum n name members

/-- The type that a table gives, and the registry afterwards. -/
def run (r : Registry) (T : TableId) : Call → Ty × Registry
  | prim p => (r.prim T p, r)
  | shape s => r.intern T s
  | enum name members => r.enumOf T name members

/-- An enum is new each time; everything else is shared. -/
def Shared : Call → Prop
  | prim _ | shape _ => True
  | enum .. => False

theorem make_inj {c c' : Call} {n n' : Nat} (h : c.make n = c'.make n') : c = c' := by
  cases c with
  | prim p => cases c' with
    | prim q => cases h; rfl
    | shape s => cases s <;> cases h
    | enum => cases h
  | shape s => cases c' with
    | prim q | enum => cases s <;> cases h
    | shape s' => rw [(Shape.withId_inj h).1]
  | enum name members => cases c' with
    | prim q => cases h
    | shape s => cases s <;> cases h
    | enum => cases h; rfl

end Call

/-- The registries that come about from `r`, by opening tables and by requests to any of them for
types with known parts. -/
inductive Reaches (r : Registry) : Registry → Prop where
  | refl : Reaches r r
  | newTable {r' : Registry} (h : Reaches r r') : Reaches r r'.newTable.2
  | call {r' : Registry} (h : Reaches r r') {T : TableId} (table : T.index < r'.tables.size) {c : Call}
      (known : ∀ u ∈ c.parts, r'.Knows u) : Reaches r (c.run r' T).2

theorem Made.call {r : Registry} (made : r.Made) (T : TableId) {c : Call} (known : ∀ u ∈ c.parts, r.Knows u) :
    (c.run r T).2.Made := by
  cases c with
  | prim p => exact made
  | shape s => exact made.intern T s known
  | enum name members => exact made.enumOf T name members

theorem Made.reaches {r r' : Registry} (made : r.Made) (h : r.Reaches r') : r'.Made := by
  induction h with
  | refl => exact made
  | newTable _ ih => exact ih.newTable
  | call _ _ known ih => exact ih.call _ known

/-- How the types of a registry are spread over its tables. -/
structure Arranged (r : Registry) : Prop where
  ascending : ∀ tt ∈ r.tables, tt.types.Pairwise (·.id < ·.id)
  below : ∀ {t}, r.Knows t → ∀ u ∈ t.parts, u.id < t.id
  apart : ∀ {i j : Nat} {tt tt' : TyTable} {t : Ty}, r.tables[i]? = some tt → r.tables[j]? = some tt' →
    t ∈ tt.types → t ∈ tt'.types → i = j

variable {r r' : Registry} {T T' : TableId}

theorem Arranged.newTable (h : r.Arranged) (sound : r.Sound) : r.newTable.2.Arranged where
  ascending tt htt := by
    rcases Array.mem_push.1 htt with htt | rfl
    · exact h.ascending tt htt
    · simp [TyTable.startingAt, Ty.id]
  below ht u hu := by
    rcases knows_newTable.1 ht with ht | ⟨p, rfl⟩
    · exact h.below ht u hu
    · cases p <;> cases hu
  apart {i j tt tt' t} hi hj ht ht' := by
    -- the new table has only numbers that no type had before
    have old {tt : TyTable} (htt : tt ∈ r.tables) (ht : t ∈ tt.types) : t.id < r.next :=
      sound.lt_next ⟨tt, htt, ht⟩
    have new (ht : t ∈ (TyTable.startingAt r.next).types) : r.next ≤ t.id := by
      rcases (by simpa [TyTable.startingAt] using ht :
        t = .prim r.next .void ∨ t = .prim (r.next + 1) .boolean ∨ t = .prim (r.next + 2) .int ∨
          t = .prim (r.next + 3) .float ∨ t = .prim (r.next + 4) .string) with h | h | h | h | h <;>
        rw [h, Ty.id] <;> omega
    simp only [Registry.newTable, Array.getElem?_push] at hi hj
    split at hi <;> split at hj
    · omega
    · cases hi
      exact absurd (old (Array.mem_of_getElem? hj) ht') (Nat.not_lt.2 (new ht))
    · cases hj
      exact absurd (old (Array.mem_of_getElem? hi) ht) (Nat.not_lt.2 (new ht'))
    · exact h.apart hi hj ht ht'

theorem Arranged.register (h : r.Arranged) (sound : r.Sound) (T : TableId) {make : Nat → Ty}
    (hid : ∀ n, (make n).id = n) (known : ∀ n, ∀ u ∈ (make n).parts, r.Knows u) :
    (r.register T make).2.Arranged where
  ascending := by
    refine forall_tables_register h.ascending T make fun tt htt => ?_
    have hmem := Array.mem_of_getElem? htt
    refine pairwise_append.2 ⟨h.ascending tt hmem, pairwise_singleton _ _, fun t ht u hu => ?_⟩
    rw [mem_singleton.1 hu, hid]
    exact sound.lt_next ⟨tt, hmem, ht⟩
  below ht u hu := by
    rcases knows_register ht with ht | rfl
    · exact h.below ht u hu
    · rw [hid]
      exact sound.lt_next (known _ u hu)
  apart {i j tt tt' t} hi hj ht ht' := by
    -- the new type is in no table but the one that it is entered into
    have old {k : Nat} {tt : TyTable} (hk : (r.register T make).2.tables[k]? = some tt) (ht : t ∈ tt.types) :
        (∃ old, r.tables[k]? = some old ∧ t ∈ old.types) ∨ t = make r.next ∧ T.index = k := by
      rw [getElem?_tables_register] at hk
      split at hk
      · next heq =>
        obtain ⟨old, hold, rfl⟩ := Option.map_eq_some_iff.1 hk
        exact (mem_append.1 ht).imp (fun ht => ⟨old, hold, ht⟩) fun ht => ⟨mem_singleton.1 ht, heq⟩
      · exact .inl ⟨tt, hk, ht⟩
    have fresh {k : Nat} {old : TyTable} (hk : r.tables[k]? = some old) (ht : t ∈ old.types) : t ≠ make r.next := by
      rintro rfl
      have := sound.lt_next ⟨_, Array.mem_of_getElem? hk, ht⟩
      rw [hid] at this
      exact Nat.lt_irrefl _ this
    rcases old hi ht with ⟨o, ho, ht⟩ | ⟨heq, rfl⟩ <;> rcases old hj ht' with ⟨o', ho', ht'⟩ | ⟨heq', rfl⟩
    · exact h.apart ho ho' ht ht'
    · exact absurd heq' (fresh ho ht)
    · exact absurd heq (fresh ho' ht')
    · rfl

theorem Made.arranged (made : r.Made) : r.Arranged := by
  induction made with
  | empty => exact ⟨by simp [Registry.empty], fun h => by simp [Knows, Registry.empty] at h,
      fun h => by simp [Registry.empty] at h⟩
  | newTable made ih => exact ih.newTable made.sound
  | intern made T s known ih =>
    unfold Registry.intern
    split
    · exact ih
    · exact ih.register made.sound T (fun n => s.id_withId n) fun n => by simpa using known
  | enumOf made T name members ih =>
    exact ih.register made.sound T (fun _ => rfl) fun _ _ h => by cases h

/-- What a registry keeps of an earlier one. -/
structure Later (r r' : Registry) : Prop where
  size : r.tables.size ≤ r'.tables.size
  next : r.next ≤ r'.next
  all : ∀ T : TableId, T.index < r.tables.size → r.all T <+: r'.all T
  prim : ∀ T : TableId, T.index < r.tables.size → ∀ p, r'.prim T p = r.prim T p
  new : ∀ {t}, r'.Knows t → r.Knows t ∨ r.next ≤ t.id

namespace Later

theorem refl (r : Registry) : r.Later r :=
  ⟨Nat.le_refl _, Nat.le_refl _, fun _ _ => prefix_rfl, fun _ _ _ => rfl, .inl⟩

theorem trans {r'' : Registry} (h : r.Later r') (h' : r'.Later r'') : r.Later r'' where
  size := Nat.le_trans h.size h'.size
  next := Nat.le_trans h.next h'.next
  all T hT := (h.all T hT).trans (h'.all T (Nat.lt_of_lt_of_le hT h.size))
  prim T hT p := (h'.prim T (Nat.lt_of_lt_of_le hT h.size) p).trans (h.prim T hT p)
  new ht := (h'.new ht).elim h.new fun hle => .inr (Nat.le_trans h.next hle)

theorem newTable (r : Registry) : r.Later r.newTable.2 := by
  have same (T : TableId) (hT : T.index < r.tables.size) : r.newTable.2.table T = r.table T := by
    simp only [Registry.newTable, table, Array.getD_eq_getD_getElem?, Array.getElem?_push, if_neg (Nat.ne_of_lt hT)]
  refine ⟨by simp [Registry.newTable], Nat.le_add_right _ _, fun T hT => ?_, fun T hT p => ?_, fun ht => ?_⟩
  · have hall : r.newTable.2.all T = r.all T := by simp only [Registry.all, same T hT]
    exact hall ▸ prefix_rfl
  · rw [Registry.prim, Registry.prim, same T hT]
  · rcases knows_newTable.1 ht with ht | ⟨p, rfl⟩
    · exact .inl ht
    · rw [TyTable.prim_startingAt]
      exact .inr (Nat.le_add_right _ _)

theorem register (r : Registry) (T : TableId) {make : Nat → Ty} (hid : ∀ n, (make n).id = n) :
    r.Later (r.register T make).2 := by
  refine ⟨by simp, Nat.le_succ _, fun U _ => ?_, fun U _ p => ?_, fun ht => ?_⟩
  · obtain ⟨more, heq⟩ := r.table_register T make U
    rw [Registry.all, Registry.all, heq]
    exact prefix_append _ _
  · obtain ⟨more, heq⟩ := r.table_register T make U
    rw [Registry.prim, Registry.prim, heq]
    cases p <;> rfl
  · rcases knows_register ht with ht | rfl
    · exact .inl ht
    · rw [hid]
      exact .inr (Nat.le_refl _)

theorem call (r : Registry) (T : TableId) (c : Call) : r.Later (c.run r T).2 := by
  cases c with
  | prim p => exact refl r
  | shape s =>
    change r.Later (r.intern T s).2
    unfold Registry.intern
    split
    · exact refl r
    · exact register r T fun n => s.id_withId n
  | enum name members => exact register r T fun _ => rfl

theorem of_reaches (h : r.Reaches r') : r.Later r' := by
  induction h with
  | refl => exact refl r
  | newTable _ ih => exact ih.trans (newTable _)
  | call _ _ _ ih => exact ih.trans (call _ _ _)

theorem mem_all {t : Ty} (h : r.Later r') (hT : T.index < r.tables.size) (ht : t ∈ r.all T) : t ∈ r'.all T :=
  (h.all T hT).subset ht

end Later

theorem knows_of_mem_all {t : Ty} (hT : T.index < r.tables.size) (ht : t ∈ r.all T) : r.Knows t :=
  ⟨_, table_mem hT, ht⟩

/-- A table gives what it is asked for, and has it from then on. -/
theorem Made.run_spec (made : r.Made) (hT : T.index < r.tables.size) {c : Call} (known : ∀ u ∈ c.parts, r.Knows u) :
    (∃ n, (c.run r T).1 = c.make n) ∧ (c.run r T).1 ∈ (c.run r T).2.all T := by
  cases c with
  | prim p =>
    exact ⟨Ty.eq_prim_of_kind ((made.sound.proper _ (table_mem hT)).kind_prim p), made.sound.prims _ (table_mem hT) p⟩
  | shape s =>
    obtain ⟨n, heq, -⟩ := made.intern_spec hT known
    exact ⟨⟨n, heq⟩, mem_intern_self hT s⟩
  | enum name members => exact ⟨⟨r.next, rfl⟩, mem_register_self hT _⟩

/-- A request that is made again gets what it got before, unless it asks for an enum. -/
theorem Made.run_of_mem (made : r.Made) (hT : T.index < r.tables.size) {c : Call} (shared : c.Shared) {n : Nat}
    (h : c.make n ∈ r.all T) : (c.run r T).1 = c.make n := by
  cases c with
  | prim p => exact made.prim_of_mem hT h
  | shape s => exact congrArg Prod.fst (made.intern_of_mem hT h)
  | enum name members => exact shared.elim

/-- An enum has a number that was not there. -/
theorem not_knows_enumOf (sound : r.Sound) (T : TableId) (name : String) (members : List EnumMember) :
    ¬ r.Knows (r.enumOf T name members).1 := fun h =>
  Nat.lt_irrefl _ (sound.lt_next h)

/-- Two requests get the same type exactly if they are one request to one table, and not for an enum. -/
theorem Made.run_eq_iff (made : r.Made) (hT : T.index < r.tables.size) {c c' : Call}
    (known : ∀ u ∈ c.parts, r.Knows u) (later : (c.run r T).2.Reaches r') (hT' : T'.index < r'.tables.size)
    (known' : ∀ u ∈ c'.parts, r'.Knows u) :
    (c.run r T).1 = (c'.run r' T').1 ↔ T = T' ∧ c = c' ∧ c.Shared := by
  have made' : r'.Made := (made.call T known).reaches later
  obtain ⟨⟨n, hmake⟩, hmem⟩ := made.run_spec hT known
  obtain ⟨⟨n', hmake'⟩, hmem'⟩ := made'.run_spec hT' known'
  have later' : r.Later r' := (Later.call r T c).trans (Later.of_reaches later)
  have hsize : T.index < r'.tables.size := Nat.lt_of_lt_of_le hT later'.size
  replace hmem := (Later.of_reaches later).mem_all (Nat.lt_of_lt_of_le hT (Later.call r T c).size) hmem
  constructor
  · intro heq
    obtain rfl : c = c' := Call.make_inj (hmake.symm.trans (heq.trans hmake'))
    have htables : T.index = T'.index := by
      have step := Later.call r' T' c
      have hin := step.mem_all hsize hmem
      rw [heq] at hin
      exact (made'.call T' known').arranged.apart
        (Array.getElem?_eq_getElem (Nat.lt_of_lt_of_le hsize step.size))
        (Array.getElem?_eq_getElem (Nat.lt_of_lt_of_le hT' step.size))
        (by rwa [Registry.all, table_eq (Array.getElem?_eq_getElem (Nat.lt_of_lt_of_le hsize step.size))] at hin)
        (by rwa [Registry.all, table_eq (Array.getElem?_eq_getElem (Nat.lt_of_lt_of_le hT' step.size))] at hmem')
    refine ⟨congrArg TableId.mk htables, rfl, ?_⟩
    cases c with
    | prim p | shape s => exact trivial
    | enum name members =>
      refine not_knows_enumOf made'.sound T' name members ?_
      exact heq ▸ knows_of_mem_all hsize hmem
  · rintro ⟨rfl, rfl, shared⟩
    rw [hmake] at hmem
    rw [hmake, made'.run_of_mem hT' shared hmem]

/-- A type all parts of which are in one table. -/
def Within (r : Registry) (T : TableId) (t : Ty) : Prop := ∀ u : Ty, u.Occurs t → u ∈ r.all T

theorem Made.eq_of_outline (made : r.Made) (hT : T.index < r.tables.size) {t u : Ty} (ht : r.Within T t)
    (hu : r.Within T u) (free : t.EnumFree) (h : t.outline = u.outline) : t = u := by
  induction t using Ty.induct generalizing u with
  | step t ih =>
    have htT := ht t .self
    have huT := hu u .self
    rcases t.shape_cases with ⟨n, p, rfl⟩ | ⟨n, name, members, rfl⟩ | ⟨s, n, rfl⟩
    · obtain ⟨n', rfl⟩ : ∃ n', u = .prim n' p := by
        cases u <;> cases h
        exact ⟨_, rfl⟩
      exact (made.prim_of_mem hT htT).symm.trans (made.prim_of_mem hT huT)
    · exact absurd rfl (free _ .self)
    · obtain ⟨s', n', rfl⟩ : ∃ s' n', u = Shape.withId n' s' := by
        rcases u.shape_cases with ⟨n', p, rfl⟩ | ⟨n', name, members, rfl⟩ | hu
        · cases s <;> cases h
        · cases s <;> cases h
        · exact hu
      have hshape : s = s' := by
        refine Shape.eq_of_outline (fun v hv w hw => ?_) h
        have hv' : v ∈ (s.withId n).parts := by rwa [Shape.parts_withId]
        have hw' : w ∈ (s'.withId n').parts := by rwa [Shape.parts_withId]
        exact ih v hv' (fun x hx => ht x (.part hv' hx)) (fun x hx => hu x (.part hw' hx)) (free.of_mem_parts hv')
      subst hshape
      have := (made.intern_of_mem hT htT).symm.trans (made.intern_of_mem hT huT)
      exact congrArg Prod.fst this

/-- What can be said of the types of a registry and of all later ones. -/
structure Consed (r : Registry) : Prop where
  /-- A number belongs to one type. -/
  number : ∀ t u, r.Knows t → r.Knows u → t.id = u.id → t = u
  /-- Numbers grow from registration to registration. -/
  grows : ∀ r', r.Reaches r' → ∀ t u, r.Knows t → r'.Knows u → ¬ r.Knows u → t.id < u.id
  /-- What is registered stays in its place as it is. -/
  stays : ∀ r', r.Reaches r' → ∀ T : TableId, T.index < r.tables.size → r.all T <+: r'.all T
  /-- A table lists its types in the order of registration, each of them once. -/
  ascending : ∀ T : TableId, T.index < r.tables.size → (r.all T).Pairwise (·.id < ·.id)
  /-- What a type is made of comes before it. -/
  parts : ∀ T : TableId, T.index < r.tables.size → ∀ before t after, r.all T = before ++ t :: after →
    ∀ u ∈ t.parts, u ∈ r.all T → u ∈ before
  /-- A table gives what it is asked for, and lists it. -/
  answer : ∀ T : TableId, T.index < r.tables.size → ∀ c : Call, (∀ u ∈ c.parts, r.Knows u) →
    (∃ n, (c.run r T).1 = c.make n) ∧ (c.run r T).1 ∈ (c.run r T).2.all T
  /-- Two requests get the same type exactly if they are one request to one table, and not for an enum. -/
  identical : ∀ T : TableId, T.index < r.tables.size → ∀ c : Call, (∀ u ∈ c.parts, r.Knows u) →
    ∀ r', (c.run r T).2.Reaches r' → ∀ T' : TableId, T'.index < r'.tables.size →
      ∀ c' : Call, (∀ u ∈ c'.parts, r'.Knows u) →
        ((c.run r T).1 = (c'.run r' T').1 ↔ T = T' ∧ c = c' ∧ c.Shared)
  /-- An enum is always a type that was not there. -/
  enum : ∀ T name members, ¬ r.Knows (r.enumOf T name members).1
  /-- Inside one table types without enums are told apart by what they are made of. -/
  structural : ∀ T : TableId, T.index < r.tables.size → ∀ t u, r.Within T t → r.Within T u →
    t.EnumFree → u.EnumFree → (t = u ↔ t.outline = u.outline)

/-- Types are shared exactly as they should be, however the requests to the tables come. -/
theorem consed_of_reaches (history : Registry.empty.Reaches r) : r.Consed := by
  have made : r.Made := Made.empty.reaches history
  have listed {T : TableId} (hT : T.index < r.tables.size) : (r.all T).Pairwise (·.id < ·.id) :=
    made.arranged.ascending _ (table_mem hT)
  refine ⟨fun t u => made.sound.distinct, fun r' later t u ht hu hnew => ?_,
    fun r' later => (Later.of_reaches later).all, fun T hT => listed hT, fun T hT before t after heq u hu hin => ?_,
    fun T hT c => made.run_spec hT, fun T hT c known r' later T' hT' c' => made.run_eq_iff hT known later hT',
    fun T => not_knows_enumOf made.sound T, fun T hT t u ht hu free _ =>
      ⟨fun h => h ▸ rfl, made.eq_of_outline hT ht hu free⟩⟩
  · exact Nat.lt_of_lt_of_le (made.sound.lt_next ht) (((Later.of_reaches later).new hu).resolve_left hnew)
  · have ht : r.Knows t := knows_of_mem_all hT (heq ▸ List.mem_append_right _ List.mem_cons_self)
    have hlt := made.arranged.below ht u hu
    have hsorted := listed hT
    rw [heq] at hsorted hin
    rcases List.mem_append.1 hin with hin | hin
    · exact hin
    · rcases List.mem_cons.1 hin with rfl | hin
      · exact absurd hlt (Nat.lt_irrefl _)
      · exact absurd hlt (Nat.lt_asymm ((List.pairwise_cons.1 (List.pairwise_append.1 hsorted).2.1).1 u hin))

namespace Crossing

/-- Two tables. -/
def opened : Registry := Registry.empty.newTable.2.newTable.2

/-- The int types of the first and of the second table. -/
def near : Ty := .prim 2 .int

def far : Ty := .prim 7 .int

/-- Signatures over parts from both tables. -/
def forth : Call := .shape (.function far [near, far])

def back : Call := .shape (.function far [far, near])

theorem known_near : opened.Knows near := knows_newTable.2 (.inl (knows_newTable.2 (.inr ⟨.int, rfl⟩)))

theorem known_far : opened.Knows far := knows_newTable.2 (.inr ⟨.int, rfl⟩)

theorem known_forth : ∀ u ∈ forth.parts, opened.Knows u := by
  simp [forth, Call.parts, Shape.parts, known_near, known_far]

theorem known_back : ∀ u ∈ back.parts, opened.Knows u := by
  simp [back, Call.parts, Shape.parts, known_near, known_far]

end Crossing

theorem consed_of_reaches_crossing :
    Registry.empty.Reaches Crossing.opened ∧ Crossing.opened.Consed ∧
      (Crossing.forth.run Crossing.opened ⟨0⟩).1 ≠
        (Crossing.back.run (Crossing.forth.run Crossing.opened ⟨0⟩).2 ⟨0⟩).1 := by
  open Crossing in
  have history : Registry.empty.Reaches opened := .newTable (.newTable .refl)
  have consed : opened.Consed := consed_of_reaches history
  have hback : ∀ u ∈ back.parts, (forth.run opened ⟨0⟩).2.Knows u := fun u hu =>
    (known_back u hu).intern ⟨0⟩ _
  refine ⟨history, consed, fun heq => ?_⟩
  have hsame := (consed.identical ⟨0⟩ (by decide) forth known_forth _ .refl ⟨0⟩ (by decide) back hback).1 heq
  simp [forth, back, near, far] at hsame

end Registry
end Stackwork
