import Stackwork.Proofs.Ty.Registration

/-!
# Sharing of types

A table has one type of each shape and one primitive of each sort, so asking it for a type that it
has gives that very type. What a table gives has the shape that was asked for.
-/
namespace Stackwork

open List
open Array (mem_of_getElem?)

namespace Ty

variable {t u : Ty}

theorem sizeOf_lt_of_mem_parts (h : u ∈ t.parts) : sizeOf u < sizeOf t := by
  cases t with
  | prim | enum => cases h
  | array n e =>
    rw [mem_singleton.1 h, array.sizeOf_spec]
    omega
  | set n e =>
    rw [mem_singleton.1 h, set.sizeOf_spec]
    omega
  | map n k e =>
    rw [map.sizeOf_spec]
    rcases mem_cons.1 h with rfl | h
    · omega
    · rw [mem_singleton.1 h]
      omega
  | function n o is =>
    rw [function.sizeOf_spec]
    rcases mem_cons.1 h with rfl | h
    · omega
    · have := sizeOf_lt_of_mem h
      omega

/-- Types are built from their parts. -/
@[elab_as_elim] theorem induct {P : Ty → Prop} (step : ∀ t : Ty, (∀ u ∈ t.parts, P u) → P t) (t : Ty) : P t :=
  step t fun u _ => induct step u
termination_by sizeOf t
decreasing_by exact sizeOf_lt_of_mem_parts ‹_›

/-- The types that a type is made of, itself included. -/
inductive Occurs (u : Ty) : Ty → Prop where
  | self : Occurs u u
  | part {t p : Ty} (hp : p ∈ t.parts) (hu : Occurs u p) : Occurs u t

theorem Occurs.sizeOf_le (h : u.Occurs t) : sizeOf u ≤ sizeOf t := by
  induction h with
  | self => exact Nat.le_refl _
  | part hp _ ih => exact Nat.le_trans ih (Nat.le_of_lt (sizeOf_lt_of_mem_parts hp))

/-- No enum occurs in the type. -/
def EnumFree (t : Ty) : Prop := ∀ u : Ty, u.Occurs t → u.kind ≠ .enum

theorem EnumFree.of_mem_parts (h : t.EnumFree) (hu : u ∈ t.parts) : u.EnumFree := fun v hv =>
  h v (.part hu hv)

end Ty

namespace Shape

theorem fits_withId (s : Shape) (n : Nat) : s.fits (s.withId n) = true := by
  cases s <;> simp [fits, withId, Ty.same]

variable {s : Shape}

theorem withId_inj {s' : Shape} {n n' : Nat} (h : s.withId n = s'.withId n') : s = s' ∧ n = n' := by
  cases s <;> cases s' <;> cases h <;> exact ⟨rfl, rfl⟩

/-- Equal values belong to equal types, if different types have different ones. -/
theorem eq_of_map_eq {β : Type} {g : Ty → β} {ts us : List Ty} (distinct : ∀ t ∈ ts, ∀ u ∈ us, g t = g u → t = u)
    (h : ts.map g = us.map g) : ts = us := by
  induction ts generalizing us with
  | nil => exact (map_eq_nil_iff.1 h.symm).symm
  | cons t ts ih =>
    cases us with
    | nil => cases h
    | cons u us =>
      obtain ⟨hid, hids⟩ := cons.inj h
      rw [distinct t mem_cons_self u mem_cons_self hid,
        ih (fun t ht u hu => distinct t (mem_cons_of_mem _ ht) u (mem_cons_of_mem _ hu)) hids]

/-- A type that fits a shape has this shape. -/
theorem eq_withId_of_fits {u : Ty} (distinct : ∀ t ∈ s.parts, ∀ v ∈ u.parts, t.id = v.id → t = v) (h : s.fits u) :
    u = s.withId u.id := by
  have hparts : s.parts = u.parts := by
    refine eq_of_map_eq distinct ?_
    cases s <;> cases u <;> simp_all [fits, parts, Ty.parts, Ty.same, signatureKey_eq_iff]
  cases s <;> cases u <;> simp_all [fits, parts, Ty.parts, withId, Ty.id]

end Shape

/-- A shape with other parts. -/
def Shape.mapParts (f : Ty → Ty) : Shape → Shape
  | array e => .array (f e)
  | set e => .set (f e)
  | map k e => .map (f k) (f e)
  | function o is => .function (f o) (is.map f)

theorem Shape.parts_mapParts (f : Ty → Ty) (s : Shape) : (s.mapParts f).parts = s.parts.map f := by
  cases s <;> rfl

variable {f : Ty → Ty} {s : Shape}

theorem Shape.mapParts_eq_self (h : ∀ p ∈ s.parts, f p = p) : s.mapParts f = s := by
  cases s with
  | array e | set e => simp only [mapParts, h e mem_cons_self]
  | map k e => simp only [mapParts, h k mem_cons_self, h e (mem_cons_of_mem _ mem_cons_self)]
  | function o is =>
    have his : is.map f = is := map_congr_left (fun p hp => h p (mem_cons_of_mem _ hp)) |>.trans is.map_id
    simp only [mapParts, h o mem_cons_self, his]

/-- Shapes that go over into one shape are the same, if their parts can be told apart afterwards. -/
theorem Shape.eq_of_mapParts {s' : Shape} (apart : ∀ p ∈ s.parts, ∀ q ∈ s'.parts, f p = f q → p = q)
    (h : s.mapParts f = s'.mapParts f) : s = s' := by
  have hparts : s.parts = s'.parts := by
    have hmap := congrArg Shape.parts h
    rw [parts_mapParts, parts_mapParts] at hmap
    exact eq_of_map_eq apart hmap
  cases s <;> cases s' <;> simp_all [mapParts, parts]

/-- A type is a primitive, an enum, or has a shape. -/
theorem Ty.shape_cases (t : Ty) :
    (∃ n p, t = prim n p) ∨ (∃ n name members, t = enum n name members) ∨ ∃ s n, t = Shape.withId n s := by
  cases t with
  | prim n p => exact .inl ⟨n, p, rfl⟩
  | enum n name members => exact .inr (.inl ⟨n, name, members, rfl⟩)
  | array n e => exact .inr (.inr ⟨.array e, n, rfl⟩)
  | set n e => exact .inr (.inr ⟨.set e, n, rfl⟩)
  | map n k e => exact .inr (.inr ⟨.map k e, n, rfl⟩)
  | function n o is => exact .inr (.inr ⟨.function o is, n, rfl⟩)

theorem Prim.kind_ne_enum (p : Prim) : p.kind ≠ .enum := by
  cases p <;> decide

theorem Ty.eq_prim_of_kind {t : Ty} {p : Prim} (h : t.kind = p.kind) : ∃ n, t = prim n p := by
  cases t with
  | prim n q => cases p <;> cases q <;> first | exact ⟨n, rfl⟩ | cases h
  | _ => cases p <;> cases h

theorem TyTable.Proper.kind_prim {tt : TyTable} (h : tt.Proper) (p : Prim) : (tt.prim p).kind = p.kind := by
  cases p with
  | void => exact h.void
  | boolean => exact h.boolean
  | int => exact h.int
  | float => exact h.float
  | string => exact h.string

/-- A table in which everything is there once. -/
structure TyTable.Single (tt : TyTable) : Prop where
  shape : ∀ s n, Shape.withId n s ∈ tt.types → tt.types.find? s.fits = some (s.withId n)
  prim : ∀ n p, Ty.prim n p ∈ tt.types → tt.prim p = .prim n p

namespace Registry

variable {r : Registry}

theorem Made.single (made : r.Made) : ∀ tt ∈ r.tables, tt.Single := by
  induction made with
  | empty => simp [Registry.empty]
  | @newTable r _ ih =>
    intro tt htt
    rcases Array.mem_push.1 htt with htt | rfl
    · exact ih tt htt
    · refine ⟨fun s n h => ?_, fun n p h => ?_⟩
      · cases s <;> simp [TyTable.startingAt, Shape.withId] at h
      · cases p <;> simp [TyTable.startingAt] at h <;> cases h <;> rfl
  | @intern r _ t s _ ih =>
    unfold Registry.intern
    split
    · exact ih
    · next hnone =>
      refine forall_tables_register ih t _ fun tt htt => ?_
      have old := ih tt (mem_of_getElem? htt)
      rw [table_eq htt] at hnone
      refine ⟨fun s' n h => ?_, fun n p h => ?_⟩
      · rw [find?_append]
        rcases mem_append.1 h with h | h
        · rw [old.shape s' n h, Option.some_or]
        · obtain ⟨rfl, rfl⟩ := Shape.withId_inj (mem_singleton.1 h)
          rw [hnone, Option.none_or, find?_cons_of_pos (s'.fits_withId _)]
      · refine old.prim n p ((mem_append.1 h).resolve_right fun h => ?_)
        cases s <;> cases mem_singleton.1 h
  | @enumOf r _ t name members ih =>
    refine forall_tables_register ih t _ fun tt htt => ?_
    have old := ih tt (mem_of_getElem? htt)
    refine ⟨fun s n h => ?_, fun n p h => ?_⟩
    · rw [find?_append, old.shape s n ((mem_append.1 h).resolve_right fun h => ?_), Option.some_or]
      cases s <;> cases mem_singleton.1 h
    · exact old.prim n p ((mem_append.1 h).resolve_right fun h => by cases mem_singleton.1 h)

/-- A table of a registry has got more types. -/
structure Grows (t : TableId) (r r' : Registry) : Prop where
  next : r.next ≤ r'.next
  size : r'.tables.size = r.tables.size
  types : ∀ u ∈ (r.table t).types, u ∈ (r'.table t).types

namespace Grows

variable {t : TableId} {r' r'' : Registry}

theorem refl (t : TableId) (r : Registry) : Grows t r r := ⟨Nat.le_refl _, rfl, fun _ h => h⟩

theorem trans (h : Grows t r r') (h' : Grows t r' r'') : Grows t r r'' :=
  ⟨Nat.le_trans h.next h'.next, h'.size.trans h.size, fun u hu => h'.types u (h.types u hu)⟩

theorem register (r : Registry) (t : TableId) (make : Nat → Ty) : Grows t r (r.register t make).2 := by
  obtain ⟨more, heq⟩ := r.table_register t make t
  exact ⟨Nat.le_succ _, r.size_tables_register t make, fun u hu => by rw [heq]; exact mem_append_left _ hu⟩

theorem intern (r : Registry) (t : TableId) (s : Shape) : Grows t r (r.intern t s).2 := by
  unfold Registry.intern
  split
  · exact refl t r
  · exact register r t _

end Grows

variable {t : TableId} {s : Shape} {n : Nat}

theorem knows_register_self (ht : t.index < r.tables.size) (make : Nat → Ty) :
    (r.register t make).2.Knows (make r.next) :=
  ⟨_, table_mem (by simpa using ht), mem_register_self ht make⟩

/-- A type that is asked for has the shape that is asked for. -/
theorem Made.intern_spec (made : r.Made) (ht : t.index < r.tables.size) (known : ∀ u ∈ s.parts, r.Knows u) :
    ∃ n, (r.intern t s).1 = s.withId n ∧ (r.intern t s).2.Knows (s.withId n) := by
  unfold Registry.intern
  split
  · next u hu =>
    have hknown : r.Knows u := ⟨_, table_mem ht, mem_of_find?_eq_some hu⟩
    have heq : u = s.withId u.id := Shape.eq_withId_of_fits
      (fun v hv p hp => made.sound.distinct (known v hv) (made.sound.parts hknown p hp)) (find?_some hu)
    exact ⟨u.id, heq, heq ▸ hknown⟩
  · exact ⟨r.next, rfl, knows_register_self ht _⟩

/-- Asking for a type that is there. -/
theorem Made.intern_of_mem (made : r.Made) (ht : t.index < r.tables.size) (h : s.withId n ∈ (r.table t).types) :
    r.intern t s = (s.withId n, r) := by
  rw [Registry.intern, (made.single _ (table_mem ht)).shape s n h]

theorem Made.prim_of_mem (made : r.Made) (ht : t.index < r.tables.size) {p : Prim}
    (h : .prim n p ∈ (r.table t).types) : r.prim t p = .prim n p :=
  (made.single _ (table_mem ht)).prim n p h

theorem Knows.of_occurs (sound : r.Sound) {t u : Ty} (h : r.Knows t) (hu : u.Occurs t) : r.Knows u := by
  induction hu with
  | self => exact h
  | part hp _ ih => exact ih (sound.parts h _ hp)

end Registry
end Stackwork
