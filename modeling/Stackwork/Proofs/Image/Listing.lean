import Mathlib.Data.List.Forall2
import Stackwork.Image.Decode
import Stackwork.Proofs.Ty.Sharing

/-!
# Listing types

The writer of an image lists each type once, its parts before it, and refers to it by position. The
list of types is kept here next to the records: a record describes a type with the positions of its
parts in the list before it, and a position that the writer hands out leads to the type it was handed
out for.
-/
namespace Stackwork.Image

open List (append_assoc)

section

variable {α β : Type} {xs ys : List α} {x : α} {i : Int}

theorem atPosition?_eq_some : atPosition? xs i = some x ↔ ∃ k : Nat, i = k + 1 ∧ xs[k]? = some x := by
  unfold atPosition?
  split
  · next h =>
    constructor
    · exact fun hx => ⟨(i - 1).toNat, by omega, hx⟩
    · rintro ⟨k, rfl, hx⟩
      rwa [show ((k : Int) + 1 - 1).toNat = k by omega]
  · next h =>
    constructor
    · exact fun hx => by cases hx
    · rintro ⟨k, rfl, -⟩
      omega

theorem atPosition?_append (h : atPosition? xs i = some x) (ys : List α) :
    atPosition? (xs ++ ys) i = some x := by
  obtain ⟨k, rfl, hk⟩ := atPosition?_eq_some.1 h
  refine atPosition?_eq_some.2 ⟨k, rfl, ?_⟩
  rw [List.getElem?_append_left (List.getElem?_eq_some_iff.1 hk).1, hk]

theorem atPosition?_last (xs : List α) (x : α) : atPosition? (xs ++ [x]) (xs.length + 1) = some x :=
  atPosition?_eq_some.2 ⟨xs.length, rfl, List.getElem?_concat_length⟩

theorem atPosition?_map (f : α → β) (h : atPosition? xs i = some x) :
    atPosition? (xs.map f) i = some (f x) := by
  obtain ⟨k, rfl, hk⟩ := atPosition?_eq_some.1 h
  exact atPosition?_eq_some.2 ⟨k, rfl, by rw [List.getElem?_map, hk]; rfl⟩

theorem mem_of_atPosition? (h : atPosition? xs i = some x) : x ∈ xs := by
  obtain ⟨k, -, hk⟩ := atPosition?_eq_some.1 h
  exact List.mem_of_getElem? hk

end

/-- A record describes a type, with the types that are listed before it. -/
def TypeRecord.Describes (ts : List Ty) (r : TypeRecord) : Ty → Prop
  | .prim _ p => r = { kind := p.kind.code }
  | .array _ e => ∃ elem, atPosition? ts elem = some e ∧ r = { kind := TyKind.array.code, elem }
  | .set _ e => ∃ elem, atPosition? ts elem = some e ∧ r = { kind := TyKind.set.code, elem }
  | .map _ k e => ∃ key elem, atPosition? ts key = some k ∧ atPosition? ts elem = some e ∧
      r = { kind := TyKind.map.code, key, elem }
  | .enum _ name members =>
    r = { kind := TyKind.enum.code, name, members := members.map fun m => (m.name, m.value) }
  | .function _ o is => ∃ output inputs, atPosition? ts output = some o ∧
      List.Forall₂ (fun i t => atPosition? ts i = some t) inputs is ∧
      r = { kind := TyKind.function.code, output, inputs }

theorem forall_of_forall₂ {α β : Type} {D : α → β → Prop} {P : β → Prop} {xs : List α} {ys : List β}
    (h : List.Forall₂ D xs ys) (step : ∀ x y, D x y → P y) : ∀ y ∈ ys, P y := by
  induction h with
  | nil => exact fun y hy => by cases hy
  | cons hx _ ih => exact List.forall_mem_cons.2 ⟨step _ _ hx, ih⟩

/-- The parts of a type that is described are listed. -/
theorem TypeRecord.Describes.mem_of_mem_parts {ts : List Ty} {r : TypeRecord} {t : Ty} (h : r.Describes ts t) :
    ∀ p ∈ t.parts, p ∈ ts := by
  intro p hp
  cases t with
  | prim | enum => cases hp
  | array n e | set n e =>
    obtain ⟨elem, he, -⟩ := h
    rw [List.mem_singleton.1 hp]
    exact mem_of_atPosition? he
  | map n k e =>
    obtain ⟨key, elem, hk, he, -⟩ := h
    rcases List.mem_cons.1 hp with rfl | hp
    · exact mem_of_atPosition? hk
    · rw [List.mem_singleton.1 hp]
      exact mem_of_atPosition? he
  | function n o is =>
    obtain ⟨output, inputs, ho, his, -⟩ := h
    rcases List.mem_cons.1 hp with rfl | hp
    · exact mem_of_atPosition? ho
    · exact forall_of_forall₂ his (fun _ _ => mem_of_atPosition?) p hp

namespace TypeList

/-- The types that a list of records was made for, in their order. -/
inductive Lists : TypeList → List Ty → Prop where
  | nil : Lists {} []
  | push {l : TypeList} {ts : List Ty} {t : Ty} {r : TypeRecord} (before : Lists l ts) (new : t ∉ ts)
      (describes : r.Describes ts t) : Lists (l.push t r).2 (ts ++ [t])

namespace Lists

variable {l : TypeList} {ts : List Ty} {R : Registry}

theorem length_eq (h : l.Lists ts) : l.records.length = ts.length := by
  induction h with
  | nil => rfl
  | push _ _ _ ih => simp [TypeList.push, ih]

/-- With a type its parts are listed. -/
theorem mem_of_mem_parts (h : l.Lists ts) : ∀ t ∈ ts, ∀ p ∈ t.parts, p ∈ ts := by
  induction h with
  | nil => exact fun t ht => by cases ht
  | push before _ describes ih =>
    intro t ht p hp
    rcases List.mem_append.1 ht with ht | ht
    · exact List.mem_append_left _ (ih t ht p hp)
    · rw [List.mem_singleton.1 ht] at hp
      exact List.mem_append_left _ (describes.mem_of_mem_parts p hp)

/-- A position that is on record leads to a type with this number. -/
theorem lookup_eq_some (h : l.Lists ts) {n : Nat} {i : Int} (hi : l.positions.lookup n = some i) :
    ∃ t, atPosition? ts i = some t ∧ t.id = n := by
  induction h with
  | nil => cases hi
  | @push l ts t r before _ _ ih =>
    rw [TypeList.push, List.lookup_cons] at hi
    split at hi
    · next heq =>
      cases hi
      rw [before.length_eq]
      exact ⟨t, atPosition?_last ts t, (eq_of_beq heq).symm⟩
    · obtain ⟨u, hu, hid⟩ := ih hi
      exact ⟨u, atPosition?_append hu _, hid⟩

/-- A type without a position is not listed. -/
theorem lookup_eq_none (h : l.Lists ts) {n : Nat} (hn : l.positions.lookup n = none) : ∀ t ∈ ts, t.id ≠ n := by
  induction h with
  | nil => exact fun t ht => absurd ht List.not_mem_nil
  | @push l ts t r before _ _ ih =>
    rw [TypeList.push, List.lookup_cons] at hn
    split at hn
    · cases hn
    · next hne =>
      intro u hu
      rcases List.mem_append.1 hu with hu | hu
      · exact ih hn u hu
      · rw [List.mem_singleton.1 hu]
        exact fun heq => by simp [heq] at hne

end Lists

/-- The list has been extended by what occurs in `t`, and `t` has a position in it. -/
structure Extends (ts new : List Ty) (t : Ty) (x : Int × TypeList) : Prop where
  lists : x.2.Lists (ts ++ new)
  position : atPosition? (ts ++ new) x.1 = some t
  occurs : ∀ u ∈ new, u.Occurs t

/-- The list has been extended by what occurs in some types, and they have positions in it. -/
structure ExtendsAll (ts new us : List Ty) (x : List Int × TypeList) : Prop where
  lists : x.2.Lists (ts ++ new)
  positions : List.Forall₂ (fun i t => atPosition? (ts ++ new) i = some t) x.1 us
  occurs : ∀ u ∈ new, ∃ t ∈ us, u.Occurs t

/-- Asking for the position of a type lists what is missing. -/
def Refers (R : Registry) (t : Ty) : Prop :=
  ∀ {l ts}, Lists l ts → (∀ u ∈ ts, R.Knows u) → R.Knows t → ∃ new, Extends ts new t (l.ref t)

variable {l : TypeList} {ts us new : List Ty} {t : Ty} {R : Registry}

theorem extends_push (lists : l.Lists (ts ++ new)) (hnone : t ∉ ts)
    (occurs : ∀ u ∈ new, ∃ p ∈ t.parts, u.Occurs p) {r : TypeRecord} (describes : r.Describes (ts ++ new) t) :
    ∃ new, Extends ts new t (l.push t r) := by
  have hnew : t ∉ ts ++ new := by
    intro h
    obtain ⟨p, hp, hocc⟩ := occurs t ((List.mem_append.1 h).resolve_left hnone)
    exact absurd hocc.sizeOf_le (Nat.not_le.2 (Ty.sizeOf_lt_of_mem_parts hp))
  refine ⟨new ++ [t], ?_, ?_, fun u hu => ?_⟩
  · rw [← append_assoc]
    exact .push lists hnew describes
  · rw [← append_assoc, TypeList.push, lists.length_eq]
    exact atPosition?_last _ t
  · rcases List.mem_append.1 hu with hu | hu
    · obtain ⟨p, hp, hocc⟩ := occurs u hu
      exact .part hp hocc
    · rw [List.mem_singleton.1 hu]
      exact .self

theorem Extends.knows (sound : R.Sound) {x : Int × TypeList} (h : Extends ts new t x) (known : ∀ u ∈ ts, R.Knows u)
    (ht : R.Knows t) : ∀ u ∈ ts ++ new, R.Knows u := fun u hu =>
  (List.mem_append.1 hu).elim (known u) fun hu => ht.of_occurs sound (h.occurs u hu)

theorem exists_extendsAll (sound : R.Sound) (refers : ∀ t ∈ us, Refers R t) (lists : l.Lists ts)
    (known : ∀ u ∈ ts, R.Knows u) (hus : ∀ t ∈ us, R.Knows t) : ∃ new, ExtendsAll ts new us (l.refs us) := by
  induction us generalizing l ts with
  | nil => exact ⟨[], by rwa [List.append_nil], .nil, fun u hu => by cases hu⟩
  | cons t us ih =>
    obtain ⟨ht, hus⟩ := List.forall_mem_cons.1 hus
    obtain ⟨refer, refers⟩ := List.forall_mem_cons.1 refers
    obtain ⟨new, first⟩ := refer lists known ht
    obtain ⟨new', rest⟩ := ih refers first.lists (first.knows sound known ht) hus
    refine ⟨new ++ new', ?_, ?_, fun u hu => ?_⟩
    · rw [← append_assoc]
      exact rest.lists
    · rw [← append_assoc]
      exact .cons (atPosition?_append first.position new') rest.positions
    · rcases List.mem_append.1 hu with hu | hu
      · exact ⟨t, List.mem_cons_self, first.occurs u hu⟩
      · obtain ⟨v, hv, hocc⟩ := rest.occurs u hu
        exact ⟨v, List.mem_cons_of_mem _ hv, hocc⟩

theorem refers (sound : R.Sound) (t : Ty) : Refers R t := by
  induction t using Ty.induct with
  | step t ih =>
  intro l ts lists known ht
  have parts := sound.parts ht
  unfold TypeList.ref
  split
  · next i hi =>
    obtain ⟨u, hu, hid⟩ := lists.lookup_eq_some hi
    rw [sound.distinct (known u (mem_of_atPosition? hu)) ht hid] at hu
    exact ⟨[], by rwa [List.append_nil], by rwa [List.append_nil], fun u hu => by cases hu⟩
  · next hnone =>
    have missing : t ∉ ts := fun hmem => lists.lookup_eq_none hnone t hmem rfl
    -- the parts are listed one after another, and then the type itself
    obtain ⟨new, all⟩ := exists_extendsAll sound ih lists known parts
    cases t with
    | prim n p | enum n name members => exact extends_push all.lists missing all.occurs rfl
    | array n e | set n e =>
      obtain ⟨he, -⟩ := List.forall₂_cons.1 all.positions
      exact extends_push all.lists missing all.occurs ⟨_, he, rfl⟩
    | map n k e =>
      obtain ⟨hk, hrest⟩ := List.forall₂_cons.1 all.positions
      obtain ⟨he, -⟩ := List.forall₂_cons.1 hrest
      exact extends_push all.lists missing all.occurs ⟨_, _, hk, he, rfl⟩
    | function n o is =>
      obtain ⟨ho, his⟩ := List.forall₂_cons.1 all.positions
      exact extends_push all.lists missing all.occurs ⟨_, _, ho, his, rfl⟩

end TypeList
/-- A record describes a global, with the types that are listed. -/
structure VariableRecord.Describes (ts : List Ty) (x : VariableRecord) (v : Variable) : Prop where
  name : x.name = v.name
  type : atPosition? ts x.type = some v.type
  index : x.index = v.index

/-- A record describes a routine, with the types that are listed. -/
structure RoutineRecord.Describes (ts : List Ty) (x : RoutineRecord) (r : Routine) : Prop where
  name : x.name = r.name
  type : atPosition? ts x.type = some r.type
  index : x.index = r.index
  builtin : x.builtin = r.isBuiltin
  code : x.code = (r.code?.map Code.toList).getD []
  locals : x.locals = r.locals.map (·.code)

variable {l : TypeList} {ts : List Ty} {R : Registry}

theorem VariableRecord.Describes.append {x : VariableRecord} {v : Variable} (h : x.Describes ts v) (new : List Ty) :
    x.Describes (ts ++ new) v :=
  { h with type := atPosition?_append h.type new }

theorem exists_globalRecords (sound : R.Sound) (lists : l.Lists ts) (known : ∀ u ∈ ts, R.Knows u)
    {vs : List Variable} (hvs : ∀ v ∈ vs, R.Knows v.type) :
    ∃ new, (globalRecords l vs).2.Lists (ts ++ new) ∧
      List.Forall₂ (VariableRecord.Describes (ts ++ new)) (globalRecords l vs).1 vs ∧
      ∀ u ∈ new, ∃ v ∈ vs, u.Occurs v.type := by
  induction vs generalizing l ts with
  | nil => exact ⟨[], by rwa [List.append_nil], .nil, fun u hu => by cases hu⟩
  | cons v vs ih =>
    obtain ⟨hv, hvs⟩ := List.forall_mem_cons.1 hvs
    obtain ⟨new, first⟩ := TypeList.refers sound v.type lists known hv
    obtain ⟨new', hlists, hrest, hoccurs⟩ := ih first.lists (first.knows sound known hv) hvs
    refine ⟨new ++ new', ?_, ?_, fun u hu => ?_⟩
    · rw [← append_assoc]
      exact hlists
    · rw [← append_assoc]
      exact .cons ⟨rfl, atPosition?_append first.position new', rfl⟩ hrest
    · rcases List.mem_append.1 hu with hu | hu
      · exact ⟨v, List.mem_cons_self, first.occurs u hu⟩
      · obtain ⟨w, hw, hocc⟩ := hoccurs u hu
        exact ⟨w, List.mem_cons_of_mem _ hw, hocc⟩

theorem exists_routineRecords (sound : R.Sound) (lists : l.Lists ts) (known : ∀ u ∈ ts, R.Knows u)
    {rs : List Routine} (hrs : ∀ r ∈ rs, R.Knows r.type)
    (code : ∀ r ∈ rs, r.isBuiltin = false → ∃ c, r.code? = some c) :
    ∃ new xs l', routineRecords l rs = .ok (xs, l') ∧ l'.Lists (ts ++ new) ∧
      List.Forall₂ (RoutineRecord.Describes (ts ++ new)) xs rs ∧ ∀ u ∈ new, ∃ r ∈ rs, u.Occurs r.type := by
  induction rs generalizing l ts with
  | nil => exact ⟨[], [], l, rfl, by rwa [List.append_nil], .nil, fun u hu => by cases hu⟩
  | cons r rs ih =>
    obtain ⟨hr, hrs⟩ := List.forall_mem_cons.1 hrs
    obtain ⟨hcode, code⟩ := List.forall_mem_cons.1 code
    obtain ⟨new, first⟩ := TypeList.refers sound r.type lists known hr
    obtain ⟨new', xs, l', hxs, hlists, hrest, hoccurs⟩ := ih first.lists (first.knows sound known hr) hrs code
    have position := atPosition?_append first.position new'
    obtain ⟨x, hx, describes⟩ : ∃ x, routineRecords l (r :: rs) = .ok (x :: xs, l') ∧
        x.Describes (ts ++ new ++ new') r := by
      rw [routineRecords]
      cases hbody : r.body with
      | host b =>
        simp only [hxs]
        exact ⟨_, rfl, rfl, position, rfl, by simp [Routine.isBuiltin, hbody], by simp [Routine.code?, hbody],
          by simp [Routine.locals, hbody]⟩
      | compiled c ks =>
        obtain ⟨c, hc⟩ := hcode (by simp [Routine.isBuiltin, hbody])
        simp only [Routine.code?, hbody] at hc
        subst hc
        simp only [hxs]
        exact ⟨_, rfl, rfl, position, rfl, by simp [Routine.isBuiltin, hbody], by simp [Routine.code?, hbody],
          by simp [Routine.locals, hbody]⟩
    refine ⟨new ++ new', x :: xs, l', hx, ?_, ?_, fun u hu => ?_⟩
    · rw [← append_assoc]
      exact hlists
    · rw [← append_assoc]
      exact .cons describes hrest
    · rcases List.mem_append.1 hu with hu | hu
      · exact ⟨r, List.mem_cons_self, first.occurs u hu⟩
      · obtain ⟨q, hq, hocc⟩ := hoccurs u hu
        exact ⟨q, List.mem_cons_of_mem _ hq, hocc⟩

end Stackwork.Image

namespace Stackwork

/-- A type that a module uses, as the type of something or inside one. -/
def Module.Mentions (m : Module) (t : Ty) : Prop :=
  (∃ v ∈ m.globals, t.Occurs v.type) ∨ ∃ r ∈ m.routines, t.Occurs r.type

namespace Image

/-- A record describes a module, with the types that are listed. -/
structure ModuleRecord.Describes (g : Graph) (ts : List Ty) (x : ModuleRecord) (m : Module) : Prop where
  name : x.name = m.name
  id : x.id = m.id.bytes
  imports : x.imports = m.imports.map fun i => (g.get i).name
  bases : (⟨x.functionBase, x.globalBase, x.stringBase⟩ : Layout) = m.bases
  globals : List.Forall₂ (VariableRecord.Describes ts) x.globals m.globals
  routines : List.Forall₂ (RoutineRecord.Describes ts) x.routines m.routines
  strings : x.strings = m.strings
  init : x.init = (m.init.map Code.toList).getD []

/-- A module whose routines have code has a record, which lists the types that it uses. -/
theorem exists_record {R : Registry} (sound : R.Sound) (g : Graph) {m : Module} (known : ∀ t, m.Mentions t → R.Knows t)
    (code : ∀ r ∈ m.routines, r.isBuiltin = false → ∃ c, r.code? = some c) :
    ∃ x, ∃ l : TypeList, ∃ ts, record g m = .ok x ∧ x.types = l.records ∧ l.Lists ts ∧ (∀ t ∈ ts, m.Mentions t) ∧
      x.Describes g ts m := by
  have hglobals : ∀ v ∈ m.globals, R.Knows v.type := fun v hv => known _ (.inl ⟨v, hv, .self⟩)
  have hroutines : ∀ r ∈ m.routines, R.Knows r.type := fun r hr => known _ (.inr ⟨r, hr, .self⟩)
  obtain ⟨ts, lists, describes, occurs⟩ := exists_globalRecords sound .nil (by simp) hglobals
  rcases hg : globalRecords {} m.globals with ⟨gs, l₀⟩
  rw [List.nil_append, hg] at lists describes
  obtain ⟨new, xs, l, hxs, lists, describes', occurs'⟩ := exists_routineRecords sound lists
    (fun u hu => known u (.inl (occurs u hu))) hroutines code
  refine ⟨_, l, ts ++ new, by simp only [record, hg, hxs]; rfl, rfl, lists, fun t ht => ?_, ?_⟩
  · exact (List.mem_append.1 ht).elim (fun ht => .inl (occurs t ht)) fun ht => .inr (occurs' t ht)
  · exact ⟨rfl, rfl, rfl, rfl, describes.imp fun x v h => h.append new, describes', rfl, rfl⟩

end Image
end Stackwork
