import Stackwork.Archive.Basic
import Stackwork.Proofs.Image.Renumbering

/-!
# Stability of images

A module that was read from an image, whatever its list of types looks like, has its types in one
table. There each shape is once, so the copies that the next reading makes of them are as different
as they are, and the image of the module is read to a module with the same image.
-/
namespace Stackwork

open List

namespace Registry

variable {R : Registry} {T : TableId}

/-- A copy is in the table that it was made for. -/
theorem Made.mem_copy_self (made : R.Made) (hT : T.index < R.tables.size) (f : Ty → Ty) (t : Ty) :
    (R.copy T f t).1 ∈ ((R.copy T f t).2.table T).types := by
  rcases t.shape_cases with ⟨n, p, rfl⟩ | ⟨n, name, members, rfl⟩ | ⟨s, n, rfl⟩
  · exact made.sound.prims _ (table_mem hT) p
  · exact mem_register_self hT _
  · rw [copy_withId]
    exact mem_intern_self hT _

end Registry

namespace Image

variable {R R' : Registry} {T : TableId} {ts us : List Ty}

theorem forall₂_of_mapM_eq_ok {ε α β : Type} {g : α → Except ε β} {xs : List α} {ys : List β}
    (h : xs.mapM g = .ok ys) : List.Forall₂ (fun x y => g x = .ok y) xs ys := by
  induction xs generalizing ys with
  | nil =>
    cases h
    exact .nil
  | cons x xs ih =>
    rw [mapM_cons, Except.bind_eq_ok] at h
    obtain ⟨y, hy, h⟩ := h
    obtain ⟨rest, hrest, h⟩ := Except.bind_eq_ok.1 h
    cases h
    exact .cons hy (ih hrest)

variable {r : TypeRecord}

/-- A type that is entered is a copy of one whose parts are there. -/
theorem exists_copy_of_addType {x : Ty × Registry} (h : addType T us r R = .ok x) :
    ∃ t : Ty, (∀ p ∈ t.parts, p ∈ us) ∧ x = R.copy T id t := by
  unfold addType at h
  extract_lets component at h
  have mem {ref : Int} {c : Ty} (h : component ref = .ok c) : c ∈ us := by
    simp only [component] at h
    split at h
    · next hc =>
      cases h
      exact mem_of_atPosition? hc
    · cases h
  split at h
  · cases h
    exact ⟨.prim 0 .void, forall_mem_nil _, rfl⟩
  · cases h
    exact ⟨.prim 0 .boolean, forall_mem_nil _, rfl⟩
  · cases h
    exact ⟨.prim 0 .int, forall_mem_nil _, rfl⟩
  · cases h
    exact ⟨.prim 0 .float, forall_mem_nil _, rfl⟩
  · cases h
    exact ⟨.prim 0 .string, forall_mem_nil _, rfl⟩
  · obtain ⟨e, he, h⟩ := Except.bind_eq_ok.1 h
    cases h
    exact ⟨.array 0 e, forall_mem_singleton.2 (mem he), rfl⟩
  · obtain ⟨e, he, h⟩ := Except.bind_eq_ok.1 h
    cases h
    exact ⟨.set 0 e, forall_mem_singleton.2 (mem he), rfl⟩
  · obtain ⟨k, hk, h⟩ := Except.bind_eq_ok.1 h
    obtain ⟨e, he, h⟩ := Except.bind_eq_ok.1 h
    cases h
    exact ⟨.map 0 k e, forall_mem_cons.2 ⟨mem hk, forall_mem_singleton.2 (mem he)⟩, rfl⟩
  · cases h
    exact ⟨.enum 0 r.name _, forall_mem_nil _, rfl⟩
  · obtain ⟨o, ho, h⟩ := Except.bind_eq_ok.1 h
    obtain ⟨is, his, h⟩ := Except.bind_eq_ok.1 h
    cases h
    refine ⟨.function 0 o is, forall_mem_cons.2 ⟨mem ho, ?_⟩, ?_⟩
    · exact forall_of_forall₂ (forall₂_of_mapM_eq_ok his) fun _ _ h => mem h
    · simp [Registry.copy]
  · cases h

/-- Types that were entered into a table, each behind its parts. -/
structure Entered (R : Registry) (T : TableId) (ts : List Ty) : Prop where
  made : R.Made
  size : T.index < R.tables.size
  types : ∀ t ∈ ts, t ∈ (R.table T).types
  parts : ∀ t ∈ ts, ∀ p ∈ t.parts, p ∈ ts

theorem Entered.addType (h : Entered R T us) {t : Ty} (ht : addType T us r R = .ok (t, R')) :
    Entered R' T (us ++ [t]) := by
  obtain ⟨t₀, parts, hcopy⟩ := exists_copy_of_addType ht
  have copied := h.made.copied h.size (f := id) fun p hp => ⟨_, Registry.table_mem h.size, h.types p (parts p hp)⟩
  have hmem := h.made.mem_copy_self h.size id t₀
  rw [← hcopy] at copied hmem
  refine ⟨copied.made, copied.grows.size ▸ h.size, fun u hu => ?_, fun u hu p hp => ?_⟩
  · rcases mem_append.1 hu with hu | hu
    · exact copied.grows.types u (h.types u hu)
    · rw [mem_singleton.1 hu]
      exact hmem
  · rcases mem_append.1 hu with hu | hu
    · exact mem_append_left _ (h.parts u hu p hp)
    · rw [mem_singleton.1 hu, copied.copies.parts_eq, map_id] at hp
      exact mem_append_left _ (parts p hp)

theorem Entered.addTypes (h : Entered R T us) {rs : List TypeRecord} (hts : addTypes T us rs R = (.ok ts, R')) :
    Entered R' T ts := by
  induction rs generalizing us R with
  | nil =>
    cases hts
    exact h
  | cons r rs ih =>
    rw [Image.addTypes] at hts
    cases hr : Image.addType T us r R with
    | error e =>
      rw [hr] at hts
      cases hts
    | ok x =>
      rw [hr] at hts
      exact ih (h.addType hr) hts

end Image

/-- A routine as the reader of an image makes it, with the host functions that it knows. -/
structure Routine.Read (builtins : Image.Builtins) (r : Routine) : Prop where
  function : r.type.kind = .function
  host : r.isBuiltin → ∃ b, builtins r.name = some (some b) ∧ r.body = .host b
  code : r.isBuiltin = false → ∃ c, r.code? = some c
  frame : r.isBuiltin = false → r.arity ≤ r.locals.length

namespace Image

variable {R R' : Registry} {T : TableId} {ts us : List Ty}

theorem mem_of_typeAt {i : Int} {t : Ty} (h : typeAt ts i = .ok t) : t ∈ ts := by
  unfold typeAt at h
  split at h
  · next ht =>
    cases h
    exact mem_of_atPosition? ht
  · cases h

theorem of_readGlobal {x : VariableRecord} {v : Variable} (h : readGlobal ts x = .ok v) :
    v.binding = .global ∧ v.owner = none ∧ v.type ∈ ts := by
  obtain ⟨t, ht, h⟩ := Except.bind_eq_ok.1 h
  cases h
  exact ⟨rfl, rfl, mem_of_typeAt ht⟩

theorem of_readRoutine {x : RoutineRecord} {r : Routine} {builtins : Builtins}
    (hosts : ∀ name, builtins name ≠ some none) (h : readRoutine ts builtins x = .ok r) :
    r.Read builtins ∧ r.type ∈ ts := by
  obtain ⟨t, ht, h⟩ := Except.bind_eq_ok.1 h
  have hmem := mem_of_typeAt ht
  by_cases hkind : t.kind = .function
  · simp only [hkind, ne_eq, not_true_eq_false, if_false] at h
    split at h
    · split at h
      · cases h
      · next b hb =>
        cases h
        exact ⟨⟨hkind, fun _ => ⟨b, hb, rfl⟩, fun h => (by cases h), fun h => (by cases h)⟩, hmem⟩
      · next hb => exact absurd hb (hosts _)
    · split at h
      · cases h
      · next hframe =>
        cases h
        refine ⟨⟨hkind, fun h => (by cases h), fun _ => ⟨_, rfl⟩, fun _ => ?_⟩, hmem⟩
        simpa [Routine.arity, Routine.locals] using hframe
  · simp only [ne_eq, hkind, not_false_eq_true, if_true] at h
    cases h

/-- What the reader of an image gives, and what is left of the registry. -/
structure Decoded (R : Registry) (options : Options) (T : TableId) (names : List String) (m : Module)
    (ts : List Ty) : Prop where
  entered : Entered R T ts
  mentions : ∀ t, m.Mentions t → t ∈ ts
  globals : ∀ v ∈ m.globals, v.binding = .global
  owners : ∀ v ∈ m.globals, v.owner = none
  routines : ∀ r ∈ m.routines, r.Read options.builtins
  imports : List.Forall₂ (fun name i => ∃ find ∈ options.resolve, find name = .ok i) names m.imports
  init : ∀ c ∈ m.init, 0 < c.size

variable {names : List String} {options : Options} {m : Module}

theorem forall₂_of_resolveImports {resolve : Option (String → Except String ModuleId)} {found : List ModuleId}
    (h : resolveImports resolve names = .ok found) :
    List.Forall₂ (fun name i => ∃ find ∈ resolve, find name = .ok i) names found := by
  refine (forall₂_of_mapM_eq_ok h).imp fun name i hi => ?_
  cases resolve with
  | none => cases hi
  | some find => exact ⟨find, rfl, Except.mapError_eq_ok.1 hi⟩

theorem decoded_of_complete {x : ModuleRecord} {id : Uuid} {imports : List ModuleId} (made : R.Made)
    (hT : T.index < R.tables.size) (hosts : ∀ name, options.builtins name ≠ some none)
    (resolved : List.Forall₂ (fun name i => ∃ find ∈ options.resolve, find name = .ok i) x.imports imports)
    (h : x.complete T options.builtins id imports R = (.ok m, R')) : ∃ ts, Decoded R' options T x.imports m ts := by
  unfold ModuleRecord.complete at h
  rcases hadd : addTypes T [] x.types R with ⟨result, R₁⟩
  rw [hadd] at h
  cases result with
  | error e => cases h
  | ok ts =>
    obtain ⟨hm, rfl⟩ := Prod.mk.inj h
    obtain ⟨gs, hgs, hm⟩ := Except.bind_eq_ok.1 hm
    obtain ⟨rs, hrs, hm⟩ := Except.bind_eq_ok.1 hm
    have entered : Entered R₁ T ts :=
      Entered.addTypes ⟨made, hT, forall_mem_nil _, forall_mem_nil _⟩ hadd
    have globals := forall_of_forall₂ (forall₂_of_mapM_eq_ok hgs) fun _ _ => of_readGlobal
    have routines := forall_of_forall₂ (forall₂_of_mapM_eq_ok hrs) fun _ _ => of_readRoutine hosts
    cases hm
    refine ⟨ts, entered, ?_, fun v hv => (globals v hv).1, fun v hv => (globals v hv).2.1,
      fun r hr => (routines r hr).1, resolved, fun c hc => ?_⟩
    · rintro t (⟨v, hv, ht⟩ | ⟨r, hr, ht⟩)
      · exact mem_of_occurs entered.parts (globals v hv).2.2 ht
      · exact mem_of_occurs entered.parts (routines r hr).2 ht
    · simp only [Option.mem_def] at hc
      split at hc
      · cases hc
      · next hwords =>
        cases hc
        simpa [Code.size, Code.ofList, Nat.pos_iff_ne_zero] using hwords

/-- What is accepted as an image is a module with its types in one table. -/
theorem exists_decoded (options : Options) {bytes : List UInt8} (made : R.Made)
    (table : ∀ T ∈ options.table, T.index < R.tables.size) (hosts : ∀ name, options.builtins name ≠ some none)
    (h : decode bytes options R = (.ok m, R')) :
    ∃ names ts, Decoded R' options (openTable options.table R).1 names m ts := by
  unfold decode at h
  obtain ⟨T, R₁, hopen, hT, made₁, -, -⟩ := exists_openTable made table
  cases hx : readRecord bytes with
  | error e =>
    rw [hx] at h
    cases h
  | ok x =>
    simp only [hx, hopen] at h
    split at h
    · cases h
    · next id imports hfound =>
      obtain ⟨u, -, hfound⟩ := Except.bind_eq_ok.1 hfound
      obtain ⟨found, himports, hfound⟩ := Except.bind_eq_ok.1 hfound
      cases hfound
      rw [hopen]
      exact ⟨x.imports, decoded_of_complete made₁ hT hosts (forall₂_of_resolveImports himports) h⟩

theorem Decoded.complete (h : Decoded R options T names m ts) : m.Complete :=
  ⟨h.globals, fun r hr => (h.routines r hr).function, fun r hr => (h.routines r hr).code,
    fun r hr => (h.routines r hr).frame⟩

end Image

variable {p t : Ty} {f : Ty → Ty}

theorem Ty.Occurs.of_mem_parts {u : Ty} (h : t.Occurs u) (hp : p ∈ t.parts) : p.Occurs u := by
  induction h with
  | self => exact .part hp .self
  | part hq _ ih => exact .part hq ih

theorem Module.Mentions.of_mem_parts {m : Module} (h : m.Mentions t) (hp : p ∈ t.parts) : m.Mentions p := by
  rcases h with ⟨v, hv, ht⟩ | ⟨r, hr, ht⟩
  · exact .inl ⟨v, hv, ht.of_mem_parts hp⟩
  · exact .inr ⟨r, hr, ht.of_mem_parts hp⟩

def Variable.retype (f : Ty → Ty) (v : Variable) : Variable := { v with type := f v.type }

def Routine.retype (f : Ty → Ty) (r : Routine) : Routine := { r with type := f r.type }

/-- A module with other types in their places. -/
def Module.retype (f : Ty → Ty) (m : Module) : Module :=
  { m with globals := m.globals.map (Variable.retype f), routines := m.routines.map (Routine.retype f) }

theorem Variable.CopyOf.eq_retype {v v' : Variable} (h : v'.CopyOf f v) (owner : v'.owner = v.owner) :
    v' = v.retype f := by
  obtain ⟨name, type, binding, index, owner'⟩ := v'
  obtain ⟨rfl, rfl, rfl, rfl⟩ := h
  cases owner
  rfl

theorem Routine.CopyOf.eq_retype {builtins : Image.Builtins} {r r' : Routine} (h : r'.CopyOf f builtins r)
    (read : r.Read builtins) : r' = r.retype f := by
  have hbody : r'.body = r.body := by
    cases hb : r.body with
    | host b =>
      obtain ⟨b', hb', hbody'⟩ := h.host (by simp [Routine.isBuiltin, hb])
      obtain ⟨b'', hb'', hbody⟩ := read.host (by simp [Routine.isBuiltin, hb])
      rw [hbody', ← hb, hbody, Option.some.inj (Option.some.inj (hb'.symm.trans hb''))]
    | compiled c ks =>
      have hsort := h.builtin
      have hcode := h.code
      have hlocals := h.locals
      simp only [Routine.isBuiltin, Routine.code?, Routine.locals, hb] at hsort hcode hlocals
      cases hb' : r'.body with
      | host b => simp [hb'] at hsort
      | compiled c' ks' =>
        simp only [hb'] at hcode hlocals
        rw [hcode, hlocals]
  obtain ⟨name, type, index, body⟩ := r'
  obtain ⟨rfl, rfl, rfl, -, -, -, -⟩ := h
  cases hbody
  rfl

namespace Image

theorem eq_map_of_forall₂ {α β : Type} {C : α → β → Prop} {g : β → α} {xs : List α} {ys : List β}
    (h : List.Forall₂ C xs ys) (step : ∀ x ∈ xs, ∀ y ∈ ys, C x y → x = g y) : xs = ys.map g := by
  induction h with
  | nil => rfl
  | @cons x y xs ys hx _ ih =>
    rw [map_cons, ← step x mem_cons_self y mem_cons_self hx,
      ← ih fun x hx y hy => step x (mem_cons_of_mem _ hx) y (mem_cons_of_mem _ hy)]

variable {g : Graph} {R R' : Registry} {T : TableId} {ts : List Ty} {options : Options} {m m' : Module} {f : Ty → Ty}

/-- A copy of a module that was read is this module with other types. -/
theorem Decoded.eq_retype {names : List String} (h : Decoded R options T names m ts)
    (owners : ∀ v ∈ m'.globals, v.owner = none) (copy : m'.CopyOf f options.builtins m)
    (imports : m'.imports = m.imports) : m' = m.retype f := by
  have hglobals : m'.globals = m.globals.map (Variable.retype f) := eq_map_of_forall₂ copy.globals
    fun v' hv' v hv hcopy => hcopy.eq_retype ((owners v' hv').trans (h.owners v hv).symm)
  have hroutines : m'.routines = m.routines.map (Routine.retype f) := eq_map_of_forall₂ copy.routines
    fun _ _ r hr hcopy => hcopy.eq_retype (h.routines r hr)
  have hinit : m'.init = m.init := by
    rw [copy.init]
    cases hinit : m.init with
    | none => rfl
    | some c => simp [Option.filter_some, h.init c hinit]
  obtain ⟨name, id, imports', routines, globals, strings, bases, init⟩ := m'
  obtain ⟨rfl, rfl, rfl, rfl, -, -, -⟩ := copy
  cases imports
  cases hglobals
  cases hroutines
  cases hinit
  rfl

theorem encode_of_record {x : ModuleRecord} (h : record g m = .ok x) : encode g m = .ok x.image := by
  rw [encode, h]
  rfl

/-- Modules that bear the requested names have the names that were written. -/
theorem names_of_resolved {resolve : Option (String → Except String ModuleId)} {is js : List ModuleId}
    (bearing : ∀ find ∈ resolve, ∀ name i, find name = .ok i → (g.get i).name = name)
    (resolved : List.Forall₂ (fun i j => ∃ find ∈ resolve, find (g.get i).name = .ok j) is js) :
    js.map (fun i => (g.get i).name) = is.map fun i => (g.get i).name := by
  induction resolved with
  | nil => rfl
  | cons hfind _ ih =>
    obtain ⟨find, hfind, hi⟩ := hfind
    rw [map_cons, map_cons, ih, bearing find hfind _ _ hi]

/-- The image of a complete module with all types in one table is read to a copy with the same
record. -/
theorem exists_reread (options : Options) {found : List ModuleId} (made : R.Made) (complete : m.Complete)
    (hT : T.index < R.tables.size) (all : ∀ t, m.Mentions t → t ∈ (R.table T).types)
    (table : ∀ T ∈ options.table, T.index < R.tables.size)
    (bound : ∀ r ∈ m.routines, r.isBuiltin → ∃ b, options.builtins r.name = some (some b))
    (resolved : List.Forall₂ (fun i j => ∃ find ∈ options.resolve, find (g.get i).name = .ok j) m.imports found)
    (bearing : ∀ find ∈ options.resolve, ∀ name i, find name = .ok i → (g.get i).name = name)
    (readable : ∀ x, record g m = .ok x → x.Readable) :
    ∃ x m' R' f, record g m = .ok x ∧ decode x.image options R = (.ok m', R') ∧ record g m' = .ok x ∧
      m'.CopyOf f options.builtins m ∧ m'.imports = found ∧ Renumbers m.Mentions f ∧
      (∀ t, m.Mentions t → t.kind = .enum → ¬ R.Knows (f t)) ∧
      (options.table = some T → ∀ t, m.Mentions t → t.EnumFree → f t = t) := by
  have known (t) (ht : m.Mentions t) : R.Knows t := ⟨_, Registry.table_mem hT, all t ht⟩
  obtain ⟨x, l, ts, hx, htypes, lists, mentions, describes⟩ := exists_record made.sound g known complete.code
  have hts (t) (ht : m.Mentions t) : t ∈ ts := describes.mem_of_mentions lists ht
  obtain ⟨T', R₁, hopen, hT', made₁, hnext, hgiven⟩ := exists_openTable made table
  obtain ⟨m', R', f, hcomplete, copy, himports, rebuilt⟩ :=
    exists_complete describes htypes lists complete bound made₁ hT' found
  have renumbers : Renumbers m.Mentions f := by
    refine ⟨fun t ht p hp => ht.of_mem_parts hp, fun t ht => rebuilt.copies t (hts t ht), fun t u ht hu => ?_⟩
    constructor
    · intro hid
      exact congrArg Ty.id (rebuilt.eq_of_id_eq lists.mem_of_mem_parts made hT (fun t ht => all t (mentions t ht))
        (hts t ht) u (hts u hu) hid)
    · intro hid
      rw [made.sound.distinct (known t ht) (known u hu) hid]
  have hnames : m'.imports.map (fun i => (g.get i).name) = m.imports.map fun i => (g.get i).name :=
    himports ▸ names_of_resolved bearing resolved
  refine ⟨x, m', R', f, hx, ?_, record_copy copy renumbers hnames complete.code hx, copy, himports, renumbers, ?_, ?_⟩
  · have hfound : resolveImports options.resolve x.imports = .ok found :=
      resolveImports_eq (by rw [describes.imports]; exact forall₂_map_left_iff.2 resolved)
    rw [decode, ModuleRecord.image, readRecord_eq (readable x hx)]
    simp only [hopen, uuid_eq describes.id, hfound]
    exact hcomplete
  · intro t ht henum hknown
    have hfresh := rebuilt.fresh t (hts t ht) henum
    exact absurd (made.sound.lt_next hknown) (by omega)
  · intro htable t ht hfree
    obtain ⟨rfl, rfl⟩ := hgiven T htable
    exact rebuilt.same (fun t ht => all t (mentions t ht)) t (hts t ht) hfree

end Image

/-- A routine that was made as one: a host function, or code behind the check of its frame. -/
def Routine.Made (r : Routine) : Prop :=
  r.isBuiltin ∨ ∃ code locals, Routine.ofCode r.name r.type r.index code locals = .ok r

theorem Routine.Made.arity_le {r : Routine} (h : r.Made) (hb : r.isBuiltin = false) : r.arity ≤ r.locals.length := by
  rcases h with h | ⟨code, locals, h⟩
  · rw [hb] at h
    cases h
  · unfold Routine.ofCode at h
    split at h
    · cases h
    · next hframe =>
      rw [← Except.ok.inj h]
      exact Nat.not_lt.1 hframe

/-- A module that can be written. -/
structure Module.Encodable (m : Module) : Prop where
  globals : ∀ v ∈ m.globals, v.binding = .global
  functions : ∀ r ∈ m.routines, r.type.kind = .function
  code : ∀ r ∈ m.routines, r.isBuiltin = false → ∃ c, r.code? = some c
  made : ∀ r ∈ m.routines, r.Made

theorem Module.Encodable.complete {m : Module} (h : m.Encodable) : m.Complete :=
  ⟨h.globals, h.functions, h.code, fun r hr => (h.made r hr).arity_le⟩

namespace Image

/-- Every module that is accepted from an image has an image of its own, which is read to the same
module with other types: one for each, enums always new, and no other than before where the first
table is used again and no enum occurs. The module has the same image then. So an encodable module
with all types in one table has the same row in an archive after it was written and read. -/
theorem reencoding_is_stable {g : Graph} {R : Registry} {options : Options} (made : R.Made)
    (table : ∀ T ∈ options.table, T.index < R.tables.size) (hosts : ∀ name, options.builtins name ≠ some none)
    (bearing : ∀ find ∈ options.resolve, ∀ name i, find name = .ok i → (g.get i).name = name) :
    (∀ bytes m R₁, decode bytes options R = (.ok m, R₁) → (∀ x, record g m = .ok x → x.Readable) →
      ∀ again : Option TableId, (∀ T ∈ again, T.index < R₁.tables.size) →
        ∃ d f R₂, encode g m = .ok d ∧ decode d { options with table := again } R₁ = (.ok (m.retype f), R₂) ∧
          Renumbers m.Mentions f ∧ (∀ t, m.Mentions t → t.kind = .enum → ¬ R₁.Knows (f t)) ∧
          (again = some (openTable options.table R).1 → ∀ t, m.Mentions t → t.EnumFree → f t = t) ∧
          encode g (m.retype f) = .ok d) ∧
    ∀ m T found, m.Encodable → T.index < R.tables.size → (∀ t, m.Mentions t → t ∈ (R.table T).types) →
      (∀ r ∈ m.routines, r.isBuiltin → ∃ b, options.builtins r.name = some (some b)) →
      List.Forall₂ (fun i j => ∃ find ∈ options.resolve, find (g.get i).name = .ok j) m.imports found →
      (∀ x, record g m = .ok x → x.Readable) →
        ∃ d m' R', encode g m = .ok d ∧ decode d options R = (.ok m', R') ∧ encode g m' = .ok d ∧
          Archive.rowOf g m' = Archive.rowOf g m := by
  refine ⟨fun bytes m R₁ hdecode readable again hagain => ?_,
    fun m T found encodable hT all bound resolved readable => ?_⟩
  · obtain ⟨names, ts, decoded⟩ := exists_decoded options made table hosts hdecode
    have resolved : List.Forall₂ (fun i j => ∃ find ∈ options.resolve, find (g.get i).name = .ok j)
        m.imports m.imports := by
      refine List.forall₂_same.2 (forall_of_forall₂ decoded.imports ?_)
      rintro name i ⟨find, hfind, hi⟩
      exact ⟨find, hfind, bearing find hfind name i hi ▸ hi⟩
    obtain ⟨x, m', R₂, f, hx, hagain', hx', copy, himports, renumbers, fresh, same⟩ :=
      exists_reread { options with table := again } decoded.entered.made decoded.complete
        decoded.entered.size (fun t ht => decoded.entered.types t (decoded.mentions t ht)) hagain
        (fun r hr hb => ((decoded.routines r hr).host hb).imp fun _ h => h.1) resolved bearing readable
    obtain ⟨_, _, decoded'⟩ := exists_decoded { options with table := again } decoded.entered.made hagain
      hosts hagain'
    obtain rfl := decoded.eq_retype decoded'.owners copy himports
    exact ⟨_, f, R₂, encode_of_record hx, hagain', renumbers, fresh, same, encode_of_record hx'⟩
  · obtain ⟨x, m', R', f, hx, hdecode, hx', copy, -, -, -, -⟩ :=
      exists_reread options made encodable.complete hT all table bound resolved bearing readable
    refine ⟨_, m', R', encode_of_record hx, hdecode, encode_of_record hx', ?_⟩
    rw [Archive.rowOf, Archive.rowOf, encode_of_record hx, encode_of_record hx', copy.name, copy.id]

namespace Mixing

/-- The record of a module, with types that are listed twice or not used. -/
def redundant : ModuleRecord where
  name := "main"
  imports := ["colours"]
  types := [{ kind := 2 }, { kind := 2 }, { kind := 8, name := "Shade", members := [("dark", 0)] },
    { kind := 9, output := 1, inputs := [3, 2] }, { kind := 5, elem := 2 },
    { kind := 9, output := 2, inputs := [3, 1] }]
  globals := [⟨"background", 3, 0⟩]
  routines := [⟨"mix", 6, 0, false, [785, 770], [1, 1]⟩, ⟨"show", 4, 1, true, [], []⟩]

def dark : Ty := .enum 7 "Shade" [⟨"dark", 0⟩]

def darken : Ty := .function 8 int [dark, int]

/-- The types with those that the record adds. -/
def grown : Registry :=
  (((types.enumOf ⟨0⟩ "Shade" [⟨"dark", 0⟩]).2.functionOf ⟨0⟩ int [dark, int]).2.arrayOf ⟨0⟩ int).2

/-- The module that is read from the record. -/
def tidied : Module where
  name := "main"
  imports := [⟨0⟩]
  routines := [⟨"mix", darken, 0, .compiled (some (.ofList [785, 770])) [.int, .int]⟩,
    ⟨"show", darken, 1, .host present⟩]
  globals := [{ name := "background", type := dark, binding := .global, index := 0 }]

theorem decode_redundant : decode redundant.image options types = (.ok tidied, grown) := by
  have readable : redundant.Readable := by
    unfold ModuleRecord.Readable
    decide +kernel
  rw [decode, ModuleRecord.image, readRecord_eq readable]
  rfl

theorem readable_tidied : ∀ x, record graph tidied = .ok x → x.Readable := by
  intro x hx
  have hrecord : record graph tidied = .ok (written [] [("dark", 0)]) := rfl
  cases hrecord.symm.trans hx
  unfold ModuleRecord.Readable
  decide +kernel

theorem encodable_module : module.Encodable := by
  refine ⟨complete_module.globals, complete_module.functions, complete_module.code, fun r hr => ?_⟩
  rcases (by simpa [module] using hr : r = _ ∨ r = _) with rfl | rfl
  · exact .inr ⟨some (.ofList [785, 770]), [.int, .int], rfl⟩
  · exact .inl rfl

end Mixing

theorem reencoding_is_stable_mixing :
    Mixing.types.Made ∧ decode Mixing.redundant.image Mixing.options Mixing.types = (.ok Mixing.tidied, Mixing.grown) ∧
      (∃ d f R, encode Mixing.graph Mixing.tidied = .ok d ∧
        decode d Mixing.options Mixing.grown = (.ok (Mixing.tidied.retype f), R) ∧
        encode Mixing.graph (Mixing.tidied.retype f) = .ok d ∧
        ¬ Mixing.grown.Knows (f Mixing.dark) ∧ f Mixing.int = Mixing.int) ∧
      ∃ d m' R', encode Mixing.graph Mixing.module = .ok d ∧
        decode d Mixing.options Mixing.types = (.ok m', R') ∧ encode Mixing.graph m' = .ok d := by
  open Mixing in
  have hfree : int.EnumFree := by
    rintro u (_ | ⟨hp, -⟩)
    · exact Prim.kind_ne_enum .int
    · cases hp
  have inrange (R : Registry) (h : R.tables.size = 1) : ∀ T ∈ options.table, T.index < R.tables.size := by
    rintro T ⟨⟩
    exact h ▸ Nat.zero_lt_one
  have hosts : ∀ name, options.builtins name ≠ some none := by
    intro name
    by_cases h : name = "show" <;> simp [options, h]
  have bearing : ∀ find ∈ options.resolve, ∀ name i, find name = .ok i → (graph.get i).name = name := by
    rintro find ⟨⟩ name i h
    beta_reduce at h
    by_cases hname : name = "colours"
    · rw [if_pos hname] at h
      cases h
      exact hname.symm
    · rw [if_neg hname] at h
      cases h
  have bound : ∀ r ∈ module.routines, r.isBuiltin → ∃ b, options.builtins r.name = some (some b) := by
    simp [module, Routine.isBuiltin, options]
  obtain ⟨reread, stable⟩ := reencoding_is_stable made_types (inrange types rfl) hosts bearing
  obtain ⟨d, f, R, hd, hdecode, -, fresh, same, hd'⟩ :=
    reread _ _ _ decode_redundant readable_tidied options.table (inrange grown rfl)
  obtain ⟨d', m', R', hwritten, hread, hagain, -⟩ := stable module ⟨0⟩ [⟨0⟩] encodable_module Nat.zero_lt_one
    (fun t ht => knows_iff.1 (knows_mentioned ht)) bound (.cons ⟨_, rfl, rfl⟩ .nil) readable_record
  exact ⟨made_types, decode_redundant,
    ⟨d, f, R, hd, hdecode, hd', fresh dark (.inl ⟨_, List.mem_cons_self, .self⟩) rfl,
      same rfl int (.inr ⟨_, List.mem_cons_self, .part List.mem_cons_self .self⟩) hfree⟩,
    d', m', R', hwritten, hread, hagain⟩

end Image
end Stackwork
