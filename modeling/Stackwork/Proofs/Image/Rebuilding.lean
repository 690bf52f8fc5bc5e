import Stackwork.Proofs.Image.Listing
import Stackwork.Proofs.Image.Reading

/-!
# Rebuilding modules

The reader of an image enters the listed types one after another into a table, each made of the
copies of its parts. So there is one copy of each listed type: it has the same structure, an enum is
copied to a new one, and a table that has a type already copies it to itself unless an enum occurs
in it. With these copies everything else is read back as it was written.
-/
namespace Stackwork

open List (mem_cons_self)

namespace Ty

/-- `u` is `t` under another number, with the images of its parts under `f`. -/
def Copies (f : Ty → Ty) (u : Ty) : Ty → Prop
  | prim _ p => ∃ n, u = prim n p
  | array _ e => ∃ n, u = array n (f e)
  | set _ e => ∃ n, u = set n (f e)
  | map _ k e => ∃ n, u = map n (f k) (f e)
  | enum _ name members => ∃ n, u = enum n name members
  | function _ o is => ∃ n, u = function n (f o) (is.map f)

variable {f : Ty → Ty} {t u : Ty}

theorem Copies.congr {f' : Ty → Ty} (h : t.Copies f u) (heq : ∀ p ∈ u.parts, f p = f' p) : t.Copies f' u := by
  cases u with
  | prim | enum => exact h
  | array n e | set n e =>
    simp only [Copies, ← heq e mem_cons_self]
    exact h
  | map n k e =>
    simp only [Copies, ← heq k mem_cons_self, ← heq e (List.mem_cons_of_mem _ mem_cons_self)]
    exact h
  | function n o is =>
    have his : is.map f = is.map f' := List.map_congr_left fun p hp => heq p (List.mem_cons_of_mem _ hp)
    simp only [Copies, ← heq o mem_cons_self, ← his]
    exact h

theorem Copies.kind_eq (h : t.Copies f u) : t.kind = u.kind := by
  cases u <;> obtain ⟨n, rfl⟩ := h <;> rfl

theorem Copies.length_inputs (h : t.Copies f u) : t.inputs.length = u.inputs.length := by
  cases u <;> obtain ⟨n, rfl⟩ := h <;> simp [inputs]

end Ty

theorem Shape.copies_withId (f : Ty → Ty) (s : Shape) (n n' : Nat) :
    ((s.mapParts f).withId n').Copies f (s.withId n) := by
  cases s <;> exact ⟨n', rfl⟩

namespace Registry

/-- Enter a copy of a type, whose parts have copies under `f`. -/
def copy (R : Registry) (T : TableId) (f : Ty → Ty) : Ty → Ty × Registry
  | .prim _ p => (R.prim T p, R)
  | .array _ e => R.arrayOf T (f e)
  | .set _ e => R.setOf T (f e)
  | .map _ k e => R.mapOf T (f k) (f e)
  | .enum _ name members => R.enumOf T name members
  | .function _ o is => R.functionOf T (f o) (is.map f)

theorem copy_withId (R : Registry) (T : TableId) (f : Ty → Ty) (s : Shape) (n : Nat) :
    R.copy T f (s.withId n) = R.intern T (s.mapParts f) := by
  cases s <;> rfl

/-- What a copy is, and what is left of the registry. -/
structure Copied (R : Registry) (T : TableId) (f : Ty → Ty) (t u : Ty) (R' : Registry) : Prop where
  made : R'.Made
  grows : Grows T R R'
  keeps : ∀ {v}, R.Knows v → R'.Knows v
  knows : R'.Knows u
  copies : u.Copies f t
  new : t.kind = .enum → u.id = R.next
  same : t ∈ (R.table T).types → t.kind ≠ .enum → (∀ p ∈ t.parts, f p = p) → u = t

theorem Made.copied {R : Registry} (made : R.Made) {T : TableId} (hT : T.index < R.tables.size) {f : Ty → Ty}
    {t : Ty} (known : ∀ p ∈ t.parts, R.Knows (f p)) : R.Copied T f t (R.copy T f t).1 (R.copy T f t).2 := by
  rcases t.shape_cases with ⟨n, p, rfl⟩ | ⟨n, name, members, rfl⟩ | ⟨s, n, rfl⟩
  · have hprim : R.prim T p ∈ (R.table T).types := made.sound.prims _ (table_mem hT) p
    have hkind : (R.prim T p).kind = p.kind := (made.sound.proper _ (table_mem hT)).kind_prim p
    exact ⟨made, .refl T R, fun h => h, ⟨_, table_mem hT, hprim⟩, Ty.eq_prim_of_kind hkind,
      fun h => absurd h p.kind_ne_enum, fun h _ _ => made.prim_of_mem hT h⟩
  · exact ⟨made.enumOf T name members, .register R T _, fun h => h.register T _, knows_register_self hT _,
      ⟨_, rfl⟩, fun _ => rfl, fun _ h => absurd rfl h⟩
  · rw [copy_withId]
    have known' : ∀ u ∈ (s.mapParts f).parts, R.Knows u := by
      rw [Shape.parts_mapParts]
      intro u hu
      obtain ⟨p, hp, rfl⟩ := List.mem_map.1 hu
      exact known p (by rwa [Shape.parts_withId])
    obtain ⟨n', heq, hknows⟩ := made.intern_spec hT known'
    refine ⟨made.intern T _ known', .intern R T _, fun h => h.intern T _, heq ▸ hknows, ?_, ?_, ?_⟩
    · rw [heq]
      exact s.copies_withId f n n'
    · cases s <;> exact fun h => by cases h
    · intro hmem _ hparts
      rw [Shape.mapParts_eq_self (by rwa [Shape.parts_withId] at hparts), made.intern_of_mem hT hmem]

end Registry

namespace Image

variable {R : Registry} {T : TableId} {ts : List Ty} {f : Ty → Ty}

theorem mapM_eq_ok {ε α β : Type} {g : α → Except ε β} {xs : List α} {ys : List β}
    (h : List.Forall₂ (fun x y => g x = .ok y) xs ys) : xs.mapM g = .ok ys := by
  induction h with
  | nil => rfl
  | cons hx _ ih => rw [List.mapM_cons, hx, ih]; rfl

variable {t : Ty}

/-- A record is read as what it describes, with the copies of the parts. -/
theorem addType_eq {r : TypeRecord} (h : r.Describes ts t) : addType T (ts.map f) r R = .ok (R.copy T f t) := by
  cases t with
  | prim n p =>
    cases h
    cases p <;> rfl
  | array n e | set n e =>
    obtain ⟨elem, he, rfl⟩ := h
    simp only [addType, TyKind.ofCode?_code, atPosition?_map f he]
    rfl
  | map n k e =>
    obtain ⟨key, elem, hk, he, rfl⟩ := h
    simp only [addType, TyKind.ofCode?_code, atPosition?_map f hk, atPosition?_map f he]
    rfl
  | enum n name members =>
    cases h
    simp only [addType, TyKind.ofCode?_code, List.map_map]
    exact congrArg (fun ms => Except.ok (R.enumOf T name ms)) members.map_id
  | function n o is =>
    obtain ⟨output, inputs, ho, his, rfl⟩ := h
    simp only [addType, TyKind.ofCode?_code, atPosition?_map f ho]
    rw [mapM_eq_ok (List.forall₂_map_right_iff.2 (his.imp fun i t hi => ?_))]
    · rfl
    · rw [atPosition?_map f hi]
      rfl

/-- What the copies of a list of types are, and what is left of the registry. -/
structure Rebuilt (R : Registry) (T : TableId) (ts : List Ty) (f : Ty → Ty) (R' : Registry) : Prop where
  made : R'.Made
  grows : Registry.Grows T R R'
  knows : ∀ t ∈ ts, R'.Knows (f t)
  copies : ∀ t ∈ ts, (f t).Copies f t
  fresh : ∀ t ∈ ts, t.kind = .enum → R.next ≤ (f t).id
  apart : ∀ t ∈ ts, ∀ u ∈ ts, t.kind = .enum → u.kind = .enum → (f t).id = (f u).id → t = u
  same : (∀ t ∈ ts, t ∈ (R.table T).types) → ∀ t ∈ ts, t.EnumFree → f t = t

/-- One more type is copied. -/
theorem Rebuilt.push {u : Ty} {g : Ty → Ty} {R' R'' : Registry} (old : Rebuilt R T ts f R')
    (step : R'.Copied T f t u R'') (closed : ∀ v ∈ ts, ∀ p ∈ v.parts, p ∈ ts) (parts : ∀ p ∈ t.parts, p ∈ ts)
    (ht : g t = u) (hg : ∀ v ∈ ts, g v = f v) : Rebuilt R T (ts ++ [t]) g R'' where
  made := step.made
  grows := old.grows.trans step.grows
  knows v hv := by
    rcases List.mem_append.1 hv with hv | hv
    · rw [hg v hv]
      exact step.keeps (old.knows v hv)
    · rw [List.mem_singleton.1 hv, ht]
      exact step.knows
  copies v hv := by
    rcases List.mem_append.1 hv with hv | hv
    · rw [hg v hv]
      exact (old.copies v hv).congr fun p hp => (hg p (closed v hv p hp)).symm
    · rw [List.mem_singleton.1 hv, ht]
      exact step.copies.congr fun p hp => (hg p (parts p hp)).symm
  fresh v hv henum := by
    rcases List.mem_append.1 hv with hv | hv
    · rw [hg v hv]
      exact old.fresh v hv henum
    · rw [List.mem_singleton.1 hv] at henum ⊢
      rw [ht, step.new henum]
      exact old.grows.next
  apart v hv w hw hve hwe heq := by
    have below (v) (hv : v ∈ ts) : (g v).id < R'.next := by
      rw [hg v hv]
      exact old.made.sound.lt_next (old.knows v hv)
    rcases List.mem_append.1 hv with hv | hv <;> rcases List.mem_append.1 hw with hw | hw
    · rw [hg v hv, hg w hw] at heq
      exact old.apart v hv w hw hve hwe heq
    · have := below v hv
      rw [heq, List.mem_singleton.1 hw, ht, step.new (List.mem_singleton.1 hw ▸ hwe)] at this
      omega
    · have := below w hw
      rw [← heq, List.mem_singleton.1 hv, ht, step.new (List.mem_singleton.1 hv ▸ hve)] at this
      omega
    · rw [List.mem_singleton.1 hv, List.mem_singleton.1 hw]
  same hmem v hv hfree := by
    have hold : ∀ v ∈ ts, v ∈ (R.table T).types := fun v hv => hmem v (List.mem_append_left _ hv)
    rcases List.mem_append.1 hv with hv | hv
    · rw [hg v hv]
      exact old.same hold v hv hfree
    · rw [List.mem_singleton.1 hv] at hfree ⊢
      rw [ht]
      have hmem := hmem t (List.mem_append_right _ mem_cons_self)
      exact step.same (old.grows.types t hmem) (hfree t .self)
        fun p hp => old.same hold p (parts p hp) (hfree.of_mem_parts hp)

theorem addTypes_append (before : List Ty) (rs rs' : List TypeRecord) (R : Registry) :
    addTypes T before (rs ++ rs') R = match addTypes T before rs R with
      | (.ok us, R') => addTypes T us rs' R'
      | (.error e, R') => (.error e, R') := by
  induction rs generalizing before R with
  | nil => rfl
  | cons r rs ih =>
    rw [List.cons_append, addTypes, addTypes]
    cases addType T before r R with
    | error e => rfl
    | ok x => exact ih _ _

/-- The types that are listed have copies. -/
theorem exists_rebuilt {l : TypeList} (lists : l.Lists ts) (made : R.Made) (hT : T.index < R.tables.size) :
    ∃ f R', addTypes T [] l.records R = (.ok (ts.map f), R') ∧ Rebuilt R T ts f R' := by
  classical
  induction lists with
  | nil => exact ⟨id, R, rfl, made, .refl T R, by simp, by simp, by simp, by simp, by simp⟩
  | @push l ts t r before new describes ih =>
    obtain ⟨f, R', hadd, old⟩ := ih
    have known := describes.mem_of_mem_parts
    have hsize : T.index < R'.tables.size := old.grows.size ▸ hT
    have step := old.made.copied hsize fun p hp => old.knows p (known p hp)
    obtain ⟨u, R'', hcopy⟩ : ∃ u R'', R'.copy T f t = (u, R'') := ⟨_, _, rfl⟩
    rw [hcopy] at step
    let g : Ty → Ty := fun v => if v = t then u else f v
    have ht : g t = u := if_pos rfl
    have hg : ∀ v ∈ ts, g v = f v := fun v hv => if_neg fun (heq : v = t) => new (heq ▸ hv)
    refine ⟨g, R'', ?_, old.push step before.mem_of_mem_parts known ht hg⟩
    rw [TypeList.push, addTypes_append, hadd]
    simp only [addTypes, addType_eq describes, hcopy]
    rw [List.map_append, List.map_congr_left hg, List.map_singleton, ht]

end Image

/-- A global as it was, with a copy of its type. -/
structure Variable.CopyOf (f : Ty → Ty) (v' v : Variable) : Prop where
  name : v'.name = v.name
  type : v'.type = f v.type
  binding : v'.binding = v.binding
  index : v'.index = v.index

/-- A routine as it was, with a copy of its type. A host function is the one that its name is bound
to. -/
structure Routine.CopyOf (f : Ty → Ty) (builtins : Image.Builtins) (r' r : Routine) : Prop where
  name : r'.name = r.name
  type : r'.type = f r.type
  index : r'.index = r.index
  builtin : r'.isBuiltin = r.isBuiltin
  host : r.isBuiltin → ∃ b, builtins r.name = some (some b) ∧ r'.body = .host b
  code : r'.code? = r.code?
  locals : r'.locals = r.locals

/-- A module as it was, with copies of its types. Top-level code without a word is none. -/
structure Module.CopyOf (f : Ty → Ty) (builtins : Image.Builtins) (m' m : Module) : Prop where
  name : m'.name = m.name
  id : m'.id = m.id
  bases : m'.bases = m.bases
  strings : m'.strings = m.strings
  globals : List.Forall₂ (Variable.CopyOf f) m'.globals m.globals
  routines : List.Forall₂ (Routine.CopyOf f builtins) m'.routines m.routines
  init : m'.init = m.init.filter fun c => 0 < c.size

/-- A module that can be read back. -/
structure Module.Complete (m : Module) : Prop where
  globals : ∀ v ∈ m.globals, v.binding = .global
  functions : ∀ r ∈ m.routines, r.type.kind = .function
  code : ∀ r ∈ m.routines, r.isBuiltin = false → ∃ c, r.code? = some c
  frames : ∀ r ∈ m.routines, r.isBuiltin = false → r.arity ≤ r.locals.length

namespace Image

variable {R : Registry} {T : TableId} {ts : List Ty} {f : Ty → Ty}

variable {t : Ty} {builtins : Builtins} {g : Graph} {x : ModuleRecord} {l : TypeList} {m : Module}

theorem typeAt_map {i : Int} (h : atPosition? ts i = some t) : typeAt (ts.map f) i = .ok (f t) := by
  rw [typeAt, atPosition?_map f h]

theorem exists_readGlobal {x : VariableRecord} {v : Variable} (h : x.Describes ts v) (hv : v.binding = .global) :
    ∃ v', readGlobal (ts.map f) x = .ok v' ∧ v'.CopyOf f v := by
  refine ⟨_, by rw [readGlobal, typeAt_map h.type]; rfl, h.name, rfl, hv.symm, h.index⟩

theorem exists_readRoutine {x : RoutineRecord} {r : Routine} (h : x.Describes ts r)
    (copies : (f r.type).Copies f r.type) (function : r.type.kind = .function)
    (code : r.isBuiltin = false → ∃ c, r.code? = some c) (frame : r.isBuiltin = false → r.arity ≤ r.locals.length)
    (bound : r.isBuiltin → ∃ b, builtins r.name = some (some b)) :
    ∃ r', readRoutine (ts.map f) builtins x = .ok r' ∧ r'.CopyOf f builtins r := by
  have hkind : (f r.type).kind = .function := copies.kind_eq.trans function
  cases hb : r.isBuiltin with
  | true =>
    obtain ⟨b, hbound⟩ := bound hb
    obtain ⟨hcode, hlocals⟩ : r.code? = none ∧ r.locals = [] := by
      cases hbody : r.body with
      | host b => simp [Routine.code?, Routine.locals, hbody]
      | compiled c ks => simp [Routine.isBuiltin, hbody] at hb
    refine ⟨⟨x.name, f r.type, x.index, .host b⟩, ?_, h.name, rfl, h.index, hb.symm, fun _ => ⟨b, hbound, rfl⟩,
      hcode.symm, hlocals.symm⟩
    simp [readRoutine, typeAt_map h.type, hkind, h.builtin, hb, h.name, hbound, bind, Except.bind, pure, Except.pure]
  | false =>
    obtain ⟨c, hc⟩ := code hb
    have hframe : ¬ x.locals.length < (f r.type).inputs.length := by
      rw [h.locals, List.length_map, copies.length_inputs]
      exact Nat.not_lt.2 (frame hb)
    have hlocals : x.locals.map Kind.mk = r.locals := by
      rw [h.locals, List.map_map]
      exact r.locals.map_id
    have hwords : Code.ofList x.code = c := by
      rw [h.code, hc]
      rfl
    refine ⟨⟨x.name, f r.type, x.index, .compiled (some (.ofList x.code)) (x.locals.map Kind.mk)⟩, ?_, h.name, rfl,
      h.index, hb.symm, fun h => absurd h (by simp [hb]), ?_, hlocals⟩
    · simp [readRoutine, typeAt_map h.type, hkind, h.builtin, hb, hframe, bind, Except.bind, pure, Except.pure]
    · rw [hc, ← hwords]
      rfl

/-- Lists are read one by one. -/
theorem exists_mapM {α β γ ε : Type} {g : α → Except ε β} {D : α → γ → Prop} {C : β → γ → Prop} {xs : List α}
    {zs : List γ} (h : List.Forall₂ D xs zs) (step : ∀ x, ∀ z ∈ zs, D x z → ∃ y, g x = .ok y ∧ C y z) :
    ∃ ys, xs.mapM g = .ok ys ∧ List.Forall₂ C ys zs := by
  induction h with
  | nil => exact ⟨[], rfl, .nil⟩
  | @cons x z xs zs hx _ ih =>
    obtain ⟨y, hy, hC⟩ := step x z mem_cons_self hx
    obtain ⟨ys, hys, hCs⟩ := ih fun x z hz => step x z (List.mem_cons_of_mem _ hz)
    exact ⟨y :: ys, by rw [List.mapM_cons, hy, hys]; rfl, .cons hC hCs⟩

/-- A record is completed to a copy of the module that it describes. -/
theorem exists_complete (describes : x.Describes g ts m) (htypes : x.types = l.records) (lists : l.Lists ts)
    (complete : m.Complete) (bound : ∀ r ∈ m.routines, r.isBuiltin → ∃ b, builtins r.name = some (some b))
    (made : R.Made) (hT : T.index < R.tables.size) (imports : List ModuleId) :
    ∃ m' R' f, x.complete T builtins m.id imports R = (.ok m', R') ∧ m'.CopyOf f builtins m ∧
      m'.imports = imports ∧ Rebuilt R T ts f R' := by
  obtain ⟨f, R', hadd, rebuilt⟩ := exists_rebuilt lists made hT
  obtain ⟨gs, hgs, globals⟩ := exists_mapM (g := readGlobal (ts.map f)) describes.globals
    fun y v hv h => exists_readGlobal h (complete.globals v hv)
  obtain ⟨rs, hrs, routines⟩ := exists_mapM (g := readRoutine (ts.map f) builtins) describes.routines
    fun y r hr h => exists_readRoutine h (rebuilt.copies _ (mem_of_atPosition? h.type))
      (complete.functions r hr) (complete.code r hr) (complete.frames r hr) (bound r hr)
  refine ⟨_, R', f, by simp only [ModuleRecord.complete, htypes, hadd, hgs, hrs]; rfl, ?_, rfl, rebuilt⟩
  refine ⟨describes.name, rfl, describes.bases, describes.strings, globals, routines, ?_⟩
  simp only [describes.init]
  cases hinit : m.init with
  | none => rfl
  | some c =>
    rcases Nat.eq_zero_or_pos c.size with hsize | hsize
    · have hempty : c.toList = [] := List.eq_nil_of_length_eq_zero hsize
      simp [hempty, hsize, Option.filter_some]
    · have hfull : c.toList ≠ [] := List.ne_nil_of_length_pos hsize
      simp only [Option.map_some, Option.getD_some, List.isEmpty_iff, if_neg hfull, Option.filter_some, hsize,
        decide_true, if_true]
      rfl

/-- The bytes of a record give the record back. -/
def ModuleRecord.Readable (x : ModuleRecord) : Prop :=
  (Cbor.Item.decode? x.item.encode).bind ModuleRecord.ofItem? = some x

theorem readRecord_eq (h : x.Readable) :
    readRecord (magic ++ Cbor.bigEndian 2 version ++ x.item.encode) = .ok x := by
  rw [← ModuleRecord.image, readRecord_image, show (Cbor.Item.decode? x.item.encode).bind _ = some x from h]
  rfl

theorem resolveImports_eq {resolve : Option (String → Except String ModuleId)} {names : List String}
    {found : List ModuleId}
    (h : List.Forall₂ (fun name i => ∃ find ∈ resolve, find name = .ok i) names found) :
    resolveImports resolve names = .ok found := by
  refine mapM_eq_ok (h.imp fun name i => ?_)
  rintro ⟨find, hfind, hi⟩
  rw [Option.mem_def.1 hfind]
  simp only [hi]
  rfl

/-- With a type everything that occurs in it is listed. -/
theorem mem_of_occurs (closed : ∀ t ∈ ts, ∀ p ∈ t.parts, p ∈ ts) {u : Ty} (ht : t ∈ ts) (hu : u.Occurs t) :
    u ∈ ts := by
  induction hu with
  | self => exact ht
  | part hp _ ih => exact ih (closed _ ht _ hp)

/-- Everything that a module mentions is listed. -/
theorem ModuleRecord.Describes.mem_of_mentions (describes : x.Describes g ts m) (lists : l.Lists ts)
    (ht : m.Mentions t) : t ∈ ts := by
  rcases ht with ⟨v, hv, ht⟩ | ⟨r, hr, ht⟩
  · exact mem_of_occurs lists.mem_of_mem_parts
      (forall_of_forall₂ describes.globals (fun _ _ h => mem_of_atPosition? h.type) v hv) ht
  · exact mem_of_occurs lists.mem_of_mem_parts
      (forall_of_forall₂ describes.routines (fun _ _ h => mem_of_atPosition? h.type) r hr) ht

/-- The table that takes the types is the one that is given, or a new one. -/
theorem exists_openTable {table : Option TableId} (made : R.Made) (h : ∀ T ∈ table, T.index < R.tables.size) :
    ∃ T R₁, openTable table R = (T, R₁) ∧ T.index < R₁.tables.size ∧ R₁.Made ∧ R.next ≤ R₁.next ∧
      ∀ T' ∈ table, T' = T ∧ R₁ = R := by
  cases table with
  | none => exact ⟨_, _, rfl, by simp, made.newTable, Nat.le_add_right _ _, nofun⟩
  | some T =>
    refine ⟨T, R, rfl, h T rfl, made, Nat.le_refl _, fun T' hT' => ?_⟩
    cases hT'
    exact ⟨rfl, rfl⟩

/-- A complete module is read back from its image: everything is as it was but for the numbers of
its types. The new types are copies, one for each type; enums are new, and a table that has all the
types gives them back themselves where no enum occurs. -/
theorem decode_encode {g : Graph} {m : Module} {R : Registry} {options : Options} {found : List ModuleId}
    (made : R.Made) (known : ∀ t, m.Mentions t → R.Knows t) (complete : m.Complete)
    (table : ∀ T ∈ options.table, T.index < R.tables.size)
    (bound : ∀ r ∈ m.routines, r.isBuiltin → ∃ b, options.builtins r.name = some (some b))
    (resolved : List.Forall₂ (fun i j => ∃ find ∈ options.resolve, find (g.get i).name = .ok j) m.imports found)
    (readable : ∀ x, record g m = .ok x → x.Readable) :
    ∃ bytes m' R' f, encode g m = .ok bytes ∧ decode bytes options R = (.ok m', R') ∧
      m'.CopyOf f options.builtins m ∧ m'.imports = found ∧
      (∀ t, m.Mentions t → (f t).Copies f t) ∧
      (∀ t u, m.Mentions t → m.Mentions u → t.same u → f t = f u) ∧
      (∀ t, m.Mentions t → t.kind = .enum → ¬ R.Knows (f t)) ∧
      (∀ t u, m.Mentions t → m.Mentions u → t.kind = .enum → u.kind = .enum → (f t).same (f u) → t = u) ∧
      ∀ T ∈ options.table, (∀ t, m.Mentions t → t ∈ (R.table T).types) →
        ∀ t, m.Mentions t → t.EnumFree → f t = t := by
  obtain ⟨x, l, ts, hx, htypes, lists, mentions, describes⟩ := exists_record made.sound g known complete.code
  have hts (t) (ht : m.Mentions t) : t ∈ ts := describes.mem_of_mentions lists ht
  obtain ⟨T, R₁, hopen, hT, made₁, hnext, hgiven⟩ := exists_openTable made table
  obtain ⟨m', R', f, hcomplete, copy, himports, rebuilt⟩ :=
    exists_complete describes htypes lists complete bound made₁ hT found
  refine ⟨_, m', R', f, by rw [encode, hx]; rfl, ?_, copy, himports, ?_, ?_, ?_, ?_, ?_⟩
  · rw [decode, readRecord_eq (readable x hx)]
    have hfound : resolveImports options.resolve x.imports = .ok found :=
      resolveImports_eq (by rw [describes.imports]; exact List.forall₂_map_left_iff.2 resolved)
    simp only [hopen, uuid_eq describes.id, hfound]
    exact hcomplete
  · exact fun t ht => rebuilt.copies t (hts t ht)
  · intro t u ht hu hsame
    rw [made.sound.distinct (known t ht) (known u hu) (eq_of_beq hsame)]
  · intro t ht henum hknown
    have hfresh := rebuilt.fresh t (hts t ht) henum
    exact absurd (made.sound.lt_next hknown) (by omega)
  · exact fun t u ht hu hte hue hsame => rebuilt.apart t (hts t ht) u (hts u hu) hte hue (eq_of_beq hsame)
  · intro T' hT' hall t ht hfree
    obtain ⟨rfl, rfl⟩ := hgiven T' hT'
    exact rebuilt.same (fun t ht => hall t (mentions t ht)) t (hts t ht) hfree

namespace Mixing

def int : Ty := .prim 2 .int

def shade : Ty := .enum 5 "Shade" [⟨"dark", 0⟩, ⟨"light", 7⟩]

def mix : Ty := .function 6 int [shade, int]

def types : Registry :=
  ((Registry.empty.newTable.2.enumOf ⟨0⟩ "Shade" [⟨"dark", 0⟩, ⟨"light", 7⟩]).2.functionOf ⟨0⟩ int [shade, int]).2

def present : Builtin := fun _ => .done .zero

/-- A module with a function of either sort and top-level code without a word. -/
def module : Module where
  name := "main"
  imports := [⟨0⟩]
  routines := [⟨"mix", mix, 0, .compiled (some (.ofList [785, 770])) [.int, .int]⟩, ⟨"show", mix, 1, .host present⟩]
  globals := [{ name := "background", type := shade, binding := .global, index := 0 }]
  strings := ["hello"]
  init := some .empty

def graph : Graph := ⟨#[{ name := "colours" }, module]⟩

def options : Options where
  table := some ⟨0⟩
  builtins name := if name = "show" then some (some present) else none
  resolve := some fun name => if name = "colours" then .ok ⟨0⟩ else .error "missing"

/-- The table of the types, as it is in the end. -/
def table : TyTable :=
  { TyTable.startingAt 0 with types := (TyTable.startingAt 0).types ++ [shade] ++ [mix] }

theorem tables_types : types.tables = #[table] := rfl

theorem made_types : types.Made := by
  refine .intern (.enumOf (.newTable .empty) _ _ _) _ _ fun u hu => ?_
  refine ⟨{ TyTable.startingAt 0 with types := (TyTable.startingAt 0).types ++ [shade] }, ?_, ?_⟩
  · exact Array.mem_of_getElem? (i := 0) rfl
  · rcases (by simpa [Shape.parts] using hu : u = int ∨ u = shade ∨ u = int) with rfl | rfl | rfl <;>
      simp [TyTable.startingAt, int]

variable {t : Ty}

theorem knows_iff : types.Knows t ↔ t ∈ table.types := by
  simp [Registry.Knows, tables_types]

theorem knows_mentioned (h : module.Mentions t) : types.Knows t := by
  have hshade : types.Knows shade := knows_iff.2 (by simp [table])
  have hmix : types.Knows mix := knows_iff.2 (by simp [table])
  rcases h with ⟨v, hv, ht⟩ | ⟨r, hr, ht⟩
  · rw [List.mem_singleton.1 hv] at ht
    exact hshade.of_occurs made_types.sound ht
  · rcases (by simpa [module] using hr : r = _ ∨ r = _) with rfl | rfl <;>
      exact hmix.of_occurs made_types.sound ht

theorem complete_module : module.Complete := by
  refine ⟨by simp [module], by simp [module, mix, Ty.kind], ?_, ?_⟩
  · simp [module, Routine.isBuiltin, Routine.code?]
  · simp [module, Routine.isBuiltin, Routine.arity, Routine.locals, mix, Ty.inputs]

/-- What is written of the module, with the given literals and members of the enum. -/
def written (strings : List String) (members : List (String × Int)) : ModuleRecord where
  name := "main"
  id := Uuid.zero.bytes
  imports := ["colours"]
  strings := strings
  types := [{ kind := 8, name := "Shade", members := members }, { kind := 2 },
    { kind := 9, output := 2, inputs := [1, 2] }]
  globals := [⟨"background", 1, 0⟩]
  routines := [⟨"mix", 3, 0, false, [785, 770], [1, 1]⟩, ⟨"show", 3, 1, true, [], []⟩]

theorem readable_record : ∀ x, record graph module = .ok x → x.Readable := by
  intro x hx
  have hrecord : record graph module = .ok (written ["hello"] [("dark", 0), ("light", 7)]) := rfl
  cases hrecord.symm.trans hx
  unfold ModuleRecord.Readable
  decide +kernel

end Mixing

theorem decode_encode_mixing :
    Mixing.types.Made ∧ Mixing.module.Complete ∧
      ∃ bytes m' R' f, encode Mixing.graph Mixing.module = .ok bytes ∧
        decode bytes Mixing.options Mixing.types = (.ok m', R') ∧
        m'.CopyOf f Mixing.options.builtins Mixing.module ∧ m'.imports = [⟨0⟩] ∧
        (f Mixing.mix).Copies f Mixing.mix ∧ f Mixing.int = Mixing.int ∧
        ¬ Mixing.types.Knows (f Mixing.shade) := by
  open Mixing in
  have hmix : module.Mentions mix := .inr ⟨_, List.mem_cons_self, .self⟩
  have hint : module.Mentions int := .inr ⟨_, List.mem_cons_self, .part List.mem_cons_self .self⟩
  have hshade : module.Mentions shade := .inl ⟨_, List.mem_cons_self, .self⟩
  have hfree : int.EnumFree := by
    rintro u (_ | ⟨hp, -⟩)
    · exact Prim.kind_ne_enum .int
    · cases hp
  have table : ∀ T ∈ options.table, T.index < types.tables.size := by
    rintro T ⟨⟩
    exact Nat.zero_lt_one
  have bound : ∀ r ∈ module.routines, r.isBuiltin → ∃ b, options.builtins r.name = some (some b) := by
    simp [module, Routine.isBuiltin, options]
  have resolved : List.Forall₂ (fun i j => ∃ find ∈ options.resolve, find (graph.get i).name = .ok j)
      module.imports [⟨0⟩] := .cons ⟨_, rfl, rfl⟩ .nil
  obtain ⟨bytes, m', R', f, hencode, hdecode, copy, himports, copies, -, fresh, -, same⟩ :=
    decode_encode made_types (fun t => knows_mentioned) complete_module table bound resolved readable_record
  exact ⟨made_types, complete_module, bytes, m', R', f, hencode, hdecode, copy, himports, copies mix hmix,
    same ⟨0⟩ rfl (fun t ht => knows_iff.1 (knows_mentioned ht)) int hint hfree, fresh shade hshade rfl⟩

end Image
end Stackwork
