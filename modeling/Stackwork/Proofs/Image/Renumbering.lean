import Stackwork.Proofs.Image.Rebuilding

/-!
# Renumbering types

The record of a module refers to types by position, in the order in which the module comes to them.
The numbers of the types only say which types are the same. So a module whose types are replaced by
copies, different ones for different types, has the record it had.
-/
namespace Stackwork

namespace Ty

/-- The record of a type whose parts have the given positions. -/
def recordAt : Ty → List Int → Image.TypeRecord
  | prim _ p, _ => { kind := p.kind.code }
  | array _ _, positions => { kind := TyKind.array.code, elem := positions.headD 0 }
  | set _ _, positions => { kind := TyKind.set.code, elem := positions.headD 0 }
  | map _ _ _, positions =>
    { kind := TyKind.map.code, key := positions.headD 0, elem := positions.tail.headD 0 }
  | enum _ name members, _ =>
    { kind := TyKind.enum.code, name, members := members.map fun m => (m.name, m.value) }
  | function _ _ _, positions =>
    { kind := TyKind.function.code, output := positions.headD 0, inputs := positions.tail }

variable {f : Ty → Ty} {t u : Ty}

theorem Copies.parts_eq (h : u.Copies f t) : u.parts = t.parts.map f := by
  cases t <;> obtain ⟨n, rfl⟩ := h <;> rfl

theorem Copies.recordAt_eq (h : u.Copies f t) (positions : List Int) : u.recordAt positions = t.recordAt positions := by
  cases t <;> obtain ⟨n, rfl⟩ := h <;> rfl

end Ty

/-- One copy for each of some types, which have their parts among them; different types have different
copies. -/
structure Renumbers (U : Ty → Prop) (f : Ty → Ty) : Prop where
  parts : ∀ t, U t → ∀ p ∈ t.parts, U p
  copies : ∀ t, U t → (f t).Copies f t
  ids : ∀ t u, U t → U u → ((f t).id = (f u).id ↔ t.id = u.id)

namespace Image

namespace TypeList

variable {l : TypeList} {t : Ty}

theorem ref_of_lookup_eq_some {position : Int} (h : l.positions.lookup t.id = some position) :
    l.ref t = (position, l) := by
  unfold TypeList.ref
  rw [h]

/-- A type that is not listed is listed behind its parts. -/
theorem ref_of_lookup_eq_none (h : l.positions.lookup t.id = none) :
    l.ref t = (l.refs t.parts).2.push t (t.recordAt (l.refs t.parts).1) := by
  cases t <;> rw [TypeList.ref, h] <;> rfl

/-- The same records, with the positions of the types at their copies. -/
structure Mirrors (U : Ty → Prop) (f : Ty → Ty) (l l' : TypeList) : Prop where
  records : l'.records = l.records
  positions : ∀ t, U t → l'.positions.lookup (f t).id = l.positions.lookup t.id

variable {U : Ty → Prop} {f : Ty → Ty} {l l' : TypeList}

theorem Mirrors.push (h : Mirrors U f l l') (renumbers : Renumbers U f) (ht : U t) (r : TypeRecord) :
    (l'.push (f t) r).1 = (l.push t r).1 ∧ Mirrors U f (l.push t r).2 (l'.push (f t) r).2 := by
  have hposition : (l'.push (f t) r).1 = (l.push t r).1 := by
    simp only [TypeList.push, h.records]
  refine ⟨hposition, by simp only [TypeList.push, h.records], fun u hu => ?_⟩
  have hids : ((f u).id == (f t).id) = (u.id == t.id) := by
    rw [Bool.eq_iff_iff, beq_iff_eq, beq_iff_eq]
    exact renumbers.ids u t hu ht
  simp only [TypeList.push, List.lookup_cons, hids, h.records, h.positions u hu]

theorem Mirrors.refs (h : Mirrors U f l l') {ts : List Ty}
    (step : ∀ t ∈ ts, ∀ l l', Mirrors U f l l' → (l'.ref (f t)).1 = (l.ref t).1 ∧
      Mirrors U f (l.ref t).2 (l'.ref (f t)).2) :
    (l'.refs (ts.map f)).1 = (l.refs ts).1 ∧ Mirrors U f (l.refs ts).2 (l'.refs (ts.map f)).2 := by
  induction ts generalizing l l' with
  | nil => exact ⟨rfl, h⟩
  | cons t ts ih =>
    obtain ⟨hfirst, hthen⟩ := step t List.mem_cons_self l l' h
    obtain ⟨hrest, hend⟩ := ih hthen fun u hu => step u (List.mem_cons_of_mem _ hu)
    exact ⟨congrArg₂ List.cons hfirst hrest, hend⟩

/-- A copy is listed as the type is. -/
theorem Mirrors.ref (renumbers : Renumbers U f) (ht : U t) :
    ∀ l l', Mirrors U f l l' → (l'.ref (f t)).1 = (l.ref t).1 ∧ Mirrors U f (l.ref t).2 (l'.ref (f t)).2 := by
  induction t using Ty.induct with
  | step t ih =>
  intro l l' h
  cases hlookup : l.positions.lookup t.id with
  | some position =>
    rw [ref_of_lookup_eq_some hlookup, ref_of_lookup_eq_some ((h.positions t ht).trans hlookup)]
    exact ⟨rfl, h⟩
  | none =>
    have copies := renumbers.copies t ht
    obtain ⟨hpositions, hparts⟩ := h.refs fun p hp => ih p hp (renumbers.parts t ht p hp)
    rw [ref_of_lookup_eq_none hlookup, ref_of_lookup_eq_none ((h.positions t ht).trans hlookup), copies.parts_eq,
      hpositions, copies.recordAt_eq]
    exact hparts.push renumbers ht _

end TypeList

variable {U : Ty → Prop} {f : Ty → Ty} {l l' : TypeList}

theorem globalRecords_copy (renumbers : Renumbers U f) (h : TypeList.Mirrors U f l l') {vs vs' : List Variable}
    (copies : List.Forall₂ (Variable.CopyOf f) vs' vs) (used : ∀ v ∈ vs, U v.type) :
    (globalRecords l' vs').1 = (globalRecords l vs).1 ∧
      TypeList.Mirrors U f (globalRecords l vs).2 (globalRecords l' vs').2 := by
  induction copies generalizing l l' with
  | nil => exact ⟨rfl, h⟩
  | @cons v' v vs' vs copy _ ih =>
    obtain ⟨hv, used⟩ := List.forall_mem_cons.1 used
    obtain ⟨hposition, hthen⟩ := TypeList.Mirrors.ref renumbers hv l l' h
    obtain ⟨hrest, hend⟩ := ih hthen used
    simp only [globalRecords, copy.name, copy.index, copy.type, hposition]
    exact ⟨congrArg (List.cons _) hrest, hend⟩

/-- The record of a routine whose type has the given position. -/
def routineRecord (position : Int) (r : Routine) : RoutineRecord where
  name := r.name
  type := position
  index := r.index
  builtin := r.isBuiltin
  code := (r.code?.map Code.toList).getD []
  locals := r.locals.map (·.code)

variable {r : Routine} {builtins : Builtins}

theorem routineRecords_cons (code : r.isBuiltin = false → ∃ c, r.code? = some c) (rs : List Routine) :
    routineRecords l (r :: rs) = (routineRecords (l.ref r.type).2 rs).map fun x =>
      (routineRecord (l.ref r.type).1 r :: x.1, x.2) := by
  obtain ⟨name, type, index, body⟩ := r
  cases body with
  | host b =>
    cases hrest : routineRecords (l.ref type).2 rs <;> simp only [routineRecords, hrest] <;> rfl
  | compiled c ks =>
    obtain ⟨c, hc⟩ := code rfl
    cases hc
    cases hrest : routineRecords (l.ref type).2 rs <;> simp only [routineRecords, hrest] <;> rfl

theorem Routine.CopyOf.routineRecord_eq {r' : Routine} (h : r'.CopyOf f builtins r) (i : Int) :
    routineRecord i r' = routineRecord i r := by
  simp only [routineRecord, h.name, h.index, h.builtin, h.code, h.locals]

theorem routineRecords_copy (renumbers : Renumbers U f) (h : TypeList.Mirrors U f l l') {rs rs' : List Routine}
    (copies : List.Forall₂ (Routine.CopyOf f builtins) rs' rs) (used : ∀ r ∈ rs, U r.type)
    (code : ∀ r ∈ rs, r.isBuiltin = false → ∃ c, r.code? = some c) {xs : List RoutineRecord} {k : TypeList}
    (hxs : routineRecords l rs = .ok (xs, k)) :
    ∃ k', routineRecords l' rs' = .ok (xs, k') ∧ TypeList.Mirrors U f k k' := by
  induction copies generalizing l l' xs with
  | nil =>
    cases hxs
    exact ⟨l', rfl, h⟩
  | @cons r' r rs' rs copy _ ih =>
    obtain ⟨hr, used⟩ := List.forall_mem_cons.1 used
    obtain ⟨hcode, code⟩ := List.forall_mem_cons.1 code
    obtain ⟨hposition, hthen⟩ := TypeList.Mirrors.ref renumbers hr l l' h
    have hcode' : r'.isBuiltin = false → ∃ c, r'.code? = some c := by
      rw [copy.builtin, copy.code]
      exact hcode
    rw [routineRecords_cons hcode] at hxs
    cases hrest : routineRecords (l.ref r.type).2 rs with
    | error e =>
      rw [hrest] at hxs
      cases hxs
    | ok x =>
      rw [hrest] at hxs
      cases hxs
      obtain ⟨k', hk', hend⟩ := ih hthen used code hrest
      refine ⟨k', ?_, hend⟩
      rw [routineRecords_cons hcode', copy.type, hposition, hk', Routine.CopyOf.routineRecord_eq copy]
      rfl

/-- A module with copies of its types has the record that the module has. -/
theorem record_copy {g : Graph} {m m' : Module} (copy : m'.CopyOf f builtins m) (renumbers : Renumbers m.Mentions f)
    (imports : m'.imports.map (fun i => (g.get i).name) = m.imports.map fun i => (g.get i).name)
    (code : ∀ r ∈ m.routines, r.isBuiltin = false → ∃ c, r.code? = some c) {x : ModuleRecord}
    (hx : record g m = .ok x) : record g m' = .ok x := by
  have hempty : TypeList.Mirrors m.Mentions f {} {} := ⟨rfl, fun _ _ => rfl⟩
  obtain ⟨hglobals, hlist⟩ := globalRecords_copy renumbers hempty copy.globals fun v hv => .inl ⟨v, hv, .self⟩
  have hinit : (m'.init.map Code.toList).getD [] = (m.init.map Code.toList).getD [] := by
    rw [copy.init]
    cases hinit : m.init with
    | none => rfl
    | some c =>
      rcases Nat.eq_zero_or_pos c.size with hsize | hsize
      · have hempty : c.toList = [] := List.eq_nil_of_length_eq_zero hsize
        simp [hempty, hsize, Option.filter_some]
      · simp [hsize, Option.filter_some]
  cases hroutines : routineRecords (globalRecords {} m.globals).2 m.routines with
  | error e =>
    simp only [record, hroutines] at hx
    cases hx
  | ok y =>
    obtain ⟨k', hroutines', hend⟩ := routineRecords_copy renumbers hlist copy.routines
      (fun r hr => .inr ⟨r, hr, .self⟩) code hroutines
    simp only [record, hroutines] at hx
    simp only [record, hroutines', bind, Except.bind, hglobals, copy.name, copy.id, copy.bases, copy.strings, imports,
      hinit, hend.records]
    exact hx

end Image

theorem Ty.Copies.eq_withId {f : Ty → Ty} {u : Ty} {s : Shape} {n : Nat} (h : u.Copies f (s.withId n)) :
    ∃ n', u = (s.mapParts f).withId n' := by
  cases s <;> exact h

namespace Image

variable {R R' R₀ : Registry} {T T₀ : TableId} {ts : List Ty} {f : Ty → Ty}

/-- Different types of one table have different copies. -/
theorem Rebuilt.eq_of_id_eq (rebuilt : Rebuilt R T ts f R') (closed : ∀ t ∈ ts, ∀ p ∈ t.parts, p ∈ ts)
    (made : R₀.Made) (hT : T₀.index < R₀.tables.size) (all : ∀ t ∈ ts, t ∈ (R₀.table T₀).types) {t : Ty} (ht : t ∈ ts) :
    ∀ u ∈ ts, (f t).id = (f u).id → t = u := by
  induction t using Ty.induct with
  | step t ih =>
  intro u hu hid
  have heq : f t = f u := rebuilt.made.sound.distinct (rebuilt.knows t ht) (rebuilt.knows u hu) hid
  have hkind : t.kind = u.kind := by
    rw [← (rebuilt.copies t ht).kind_eq, heq, (rebuilt.copies u hu).kind_eq]
  rcases t.shape_cases with ⟨n, p, rfl⟩ | ⟨n, name, members, rfl⟩ | ⟨s, n, rfl⟩
  · obtain ⟨n', rfl⟩ := Ty.eq_prim_of_kind hkind.symm
    rw [← made.prim_of_mem hT (all _ ht), made.prim_of_mem hT (all _ hu)]
  · exact rebuilt.apart _ ht u hu rfl hkind.symm hid
  · rcases u.shape_cases with ⟨n', p, rfl⟩ | ⟨n', name, members, rfl⟩ | ⟨s', n', rfl⟩
    · cases s <;> cases p <;> cases hkind
    · cases s <;> cases hkind
    · obtain ⟨k, hk⟩ := (rebuilt.copies _ ht).eq_withId
      obtain ⟨k', hk'⟩ := (rebuilt.copies _ hu).eq_withId
      have hshape : s.mapParts f = s'.mapParts f := (Shape.withId_inj (hk.symm.trans (heq.trans hk'))).1
      obtain rfl : s = s' := by
        refine Shape.eq_of_mapParts (fun p hp q hq hpq => ?_) hshape
        rw [← Shape.parts_withId n s] at hp
        rw [← Shape.parts_withId n' s'] at hq
        exact ih p hp (closed _ ht p hp) q (closed _ hu q hq) (congrArg Ty.id hpq)
      exact (Prod.mk.inj ((made.intern_of_mem hT (all _ ht)).symm.trans (made.intern_of_mem hT (all _ hu)))).1

end Image
end Stackwork
