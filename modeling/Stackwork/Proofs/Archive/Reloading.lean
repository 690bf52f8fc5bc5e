import Mathlib.Data.List.Nodup
import Mathlib.Data.List.Perm.Subperm
import Stackwork.Proofs.Archive.Contents
import Stackwork.Proofs.Module.Copies
import Stackwork.Proofs.Module.Order

/-!
# Reloading whole programs

A module is stored with everything it needs and loaded again by names. Loading goes through the imports
just as the dependency order does: a module is added to the collection when all its imports have been,
so the modules appear one by one in dependency order, each once, and what was shared is shared again.
Hence the place of a copy is known in advance, and the loaded modules link like the stored ones.
-/
namespace Stackwork.Archive

open List
open Stackwork.Graph (get?)

/-- A module that can be stored and loaded again, with all that it needs. Its types belong to `R`. -/
structure Storable (R : Registry) (g : Graph) (root : ModuleId) : Prop where
  closed : g.Closed
  inside : root.index < g.size
  acyclic : g.AcyclicFrom root
  names : (Request.put g root).names.Nodup
  complete : ∀ i ∈ g.flatten [root], (g.get i).Complete
  known : ∀ i ∈ g.flatten [root], ∀ t, (g.get i).Mentions t → R.Knows t
  readable : ∀ i ∈ g.flatten [root], ∀ x, Image.record g (g.get i) = .ok x → x.Readable

variable {R : Registry} {g : Graph} {root i : ModuleId} {find : Finder} {before : List ModuleId}

theorem exists_rowOf (made : R.Made) {m : Module} (complete : m.Complete) (known : ∀ t, m.Mentions t → R.Knows t) :
    ∃ row, rowOf g m = .ok row := by
  obtain ⟨x, -, -, hx, -⟩ := Image.exists_record made.sound g known complete.code
  exact ⟨_, rowOf_eq_ok.2 ⟨x, hx, rfl⟩⟩

/-- Such a module is stored. -/
theorem Storable.exists_put (made : R.Made) (h : Storable R g root) (a : Archive) :
    ∃ rows own, RowsOf g (g.flatten [root]) rows ∧ rowOf g (g.get root) = .ok own ∧
      a.put g root = .ok (own.hash, rows.foldl insert a) := by
  obtain ⟨before, order⟩ := Graph.exists_inOrder h.closed h.inside h.acyclic
  have hroot : root ∈ g.flatten [root] := by
    rw [order.flatten]
    simp
  obtain ⟨rows, hrows⟩ := RowsOf.exists_of_forall fun i hi => exists_rowOf made (h.complete i hi) (h.known i hi)
  obtain ⟨own, hown⟩ := exists_rowOf (g := g) made (h.complete root hroot) (h.known root hroot)
  exact ⟨rows, own, hrows, hown, put_eq_ok.2 ⟨rows, own, hrows, hown, rfl, rfl⟩⟩

/-! ### Following imports -/

/-- Everything that a loader needs to load the listed modules. -/
structure Loadable (R : Registry) (l : Loader) (g : Graph) (order : List ModuleId) : Prop where
  made : R.Made
  resolve : l.resolve = none
  names : (order.map fun i => (g.get i).name).Nodup
  complete : ∀ i ∈ order, (g.get i).Complete
  known : ∀ i ∈ order, ∀ t, (g.get i).Mentions t → R.Knows t
  readable : ∀ i ∈ order, ∀ x, Image.record g (g.get i) = .ok x → x.Readable
  bound : ∀ i ∈ order, ∀ r ∈ (g.get i).routines, r.isBuiltin → ∃ b, l.builtins r.name = some (some b)
  stored : ∀ i ∈ order, ∃ row, rowOf g (g.get i) = .ok row ∧ l.archive.find? (g.get i).name = some row

/-- Where the copy of a module comes to stand, in a collection of `base` modules. -/
def place (order : List ModuleId) (base : Nat) (i : ModuleId) : ModuleId := ⟨base + order.idxOf i⟩

/-- The copies of the modules in `done` have been added to the collection. -/
structure Holds (l : Loader) (g : Graph) (f : ModuleId → ModuleId) (base : Nat) (done : List ModuleId) (s : Loading) :
    Prop where
  made : s.types.Made
  table : l.table.index < s.types.tables.size
  closed : s.modules.Closed
  size : s.modules.size = base + done.length
  copies : ∀ i ∈ done, ∃ types, (s.modules.get (f i)).CopyOf types l.builtins (g.get i) ∧
    ∀ t, (g.get i).Mentions t → (types t).Copies types t
  imports : ∀ i ∈ done, (s.modules.get (f i)).imports = (g.importsOf i).map f

/-- Just the copies of the modules in `done` are known by name. -/
def Listed (g : Graph) (order : List ModuleId) (f : ModuleId → ModuleId) (done : List ModuleId) (s : Loading) : Prop :=
  ∀ i ∈ order, s.loaded.lookup (g.get i).name = if i ∈ done then some (f i) else none

variable {R : Registry} {l : Loader} {g : Graph} {order done ms out rest : List ModuleId} {base depth : Nat}
  {m : ModuleId} {s s₁ : Loading}

theorem place_of_split (nodup : order.Nodup) (hsplit : order = done ++ m :: rest) :
    place order base m = ⟨base + done.length⟩ := by
  have hnew : m ∉ done := fun h => (nodup_append.1 (hsplit ▸ nodup)).2.2 m h m mem_cons_self rfl
  rw [place, hsplit, idxOf_append_of_notMem hnew, idxOf_cons_self, Nat.add_zero]

theorem place_lt (hsplit : order = done ++ rest) (hi : i ∈ done) :
    (place order base i).index < base + done.length := by
  rw [place, hsplit, idxOf_append_of_mem hi]
  exact Nat.add_lt_add_left (idxOf_lt_length_iff.2 hi) base

/-- An image whose imports have been loaded gives the next module. -/
theorem Loadable.loadImage_eq (h : Loadable R l g order) (hsplit : order = done ++ m :: rest)
    (himports : g.importsOf m ⊆ done) {row : Row} (hrow : rowOf g (g.get m) = .ok row)
    (hload : loadImports find ((g.importsOf m).map fun i => (g.get i).name) s =
      (.ok ((g.importsOf m).map (place order base)), s₁))
    (holds : Holds l g (place order base) base done s₁) :
    ∃ s₂, loadImage l find row.image s = (.ok (place order base m), s₂) ∧
      Holds l g (place order base) base (done ++ [m]) s₂ ∧ s₂.loaded = s₁.loaded := by
  have nodup : order.Nodup := List.Nodup.of_map _ h.names
  have hm : m ∈ order := by simp [hsplit]
  obtain ⟨x, hx, rfl⟩ := rowOf_eq_ok.1 hrow
  obtain ⟨x', lists, ts, hx', htypes, hlists, -, describes⟩ :=
    Image.exists_record h.made.sound g (h.known m hm) (h.complete m hm).code
  obtain rfl : x' = x := Except.ok.inj (hx'.symm.trans hx)
  have hnames : x'.imports = (g.importsOf m).map fun i => (g.get i).name := by
    rw [describes.imports, Graph.importsOf_eq]
    rfl
  obtain ⟨m', R', types, hcomplete, copy, hm', rebuilt⟩ := Image.exists_complete describes htypes hlists
    (h.complete m hm) (h.bound m hm) holds.made holds.table ((g.importsOf m).map (place order base))
  have hplace : place order base m = ⟨s₁.modules.size⟩ := by
    rw [place_of_split nodup hsplit, holds.size]
  have hmention (t) (ht : (g.get m).Mentions t) : (types t).Copies types t :=
    rebuilt.copies t (describes.mem_of_mentions hlists ht)
  have hread : Image.readRecord x'.image = .ok x' := Image.readRecord_eq (h.readable m hm x' hx)
  refine ⟨{ s₁ with types := R', modules := (s₁.modules.add m').2 }, ?_, ?_, rfl⟩
  · simp only [loadImage, hread, bind, Except.bind, Image.uuid_eq describes.id, pure, Except.pure, hnames, hload,
      hcomplete, hplace]
    rfl
  · have hold {i : ModuleId} (hi : i ∈ done) :
        (s₁.modules.add m').2.get (place order base i) = s₁.modules.get (place order base i) :=
      Graph.get_of_lt_add (holds.size ▸ place_lt hsplit hi)
    refine ⟨rebuilt.made, rebuilt.grows.size ▸ holds.table, ?_, ?_, ?_, ?_⟩
    · refine Graph.closed_add holds.closed fun i hi => ?_
      rw [hm'] at hi
      obtain ⟨j, hj, rfl⟩ := mem_map.1 hi
      have hlt : (place order base j).index < base + done.length := place_lt hsplit (himports hj)
      rw [holds.size]
      omega
    · rw [Graph.size_add, holds.size, length_append, length_singleton, Nat.add_assoc]
    · refine forall_mem_append.2 ⟨fun i hi => ?_, forall_mem_singleton.2 ?_⟩
      · rw [hold hi]
        exact holds.copies i hi
      · rw [hplace, Graph.get_add]
        exact ⟨types, copy, hmention⟩
    · refine forall_mem_append.2 ⟨fun i hi => ?_, forall_mem_singleton.2 ?_⟩
      · rw [hold hi]
        exact holds.imports i hi
      · rw [hplace, Graph.get_add, hm']

/-- A module that has not been loaded is loaded behind its imports. -/
theorem Loadable.load_eq (h : Loadable R l g order) (hsplit : order = done ++ m :: rest)
    (himports : g.importsOf m ⊆ done) (hnew : s.loaded.lookup (g.get m).name = none)
    (hload : loadImports (load l depth) ((g.importsOf m).map fun i => (g.get i).name) s =
      (.ok ((g.importsOf m).map (place order base)), s₁))
    (holds : Holds l g (place order base) base done s₁) (listed : Listed g order (place order base) done s₁) :
    ∃ s₂, load l (depth + 1) (g.get m).name s = (.ok (place order base m), s₂) ∧
      Holds l g (place order base) base (done ++ [m]) s₂ ∧ Listed g order (place order base) (done ++ [m]) s₂ := by
  have hm : m ∈ order := by simp [hsplit]
  obtain ⟨row, hrow, hfind⟩ := h.stored m hm
  have hfinder : finder l (load l depth) = load l depth := by simp only [finder, h.resolve]
  obtain ⟨s₂, himage, holds₂, hloaded⟩ := h.loadImage_eq hsplit himports hrow hload holds
  refine ⟨{ s₂ with loaded := ((g.get m).name, place order base m) :: s₂.loaded }, ?_, ?_, ?_⟩
  · simp only [load, hnew, hfind, hfinder, himage]
  · exact ⟨holds₂.made, holds₂.table, holds₂.closed, holds₂.size, holds₂.copies, holds₂.imports⟩
  · intro i hi
    rw [lookup_cons, hloaded, listed i hi]
    by_cases heq : i = m
    · simp [heq]
    · have hname : (g.get i).name ≠ (g.get m).name := fun hsame =>
        heq (inj_on_of_nodup_map h.names hi hm hsame)
      simp [beq_false_of_ne hname, heq]

theorem loadImports_cons {name : String} {names : List String} {is : List ModuleId} {s₂ : Loading}
    (hfirst : find name s = (.ok i, s₁)) (hrest : loadImports find names s₁ = (.ok is, s₂)) :
    loadImports find (name :: names) s = (.ok (i :: is), s₂) := by
  rw [loadImports, hfirst]
  simp only [hrest]

/-- Imports are loaded in the order in which a walk through them finishes the modules. -/
theorem Loadable.loadImports_eq (h : Loadable R l g order) (walk : g.Finishes done ms out)
    (hsplit : order = done ++ out ++ rest) (hdepth : out.length + 1 ≤ depth)
    (holds : Holds l g (place order base) base done s) (listed : Listed g order (place order base) done s) :
    ∃ s', loadImports (load l depth) (ms.map fun i => (g.get i).name) s = (.ok (ms.map (place order base)), s') ∧
      Holds l g (place order base) base (done ++ out) s' ∧ Listed g order (place order base) (done ++ out) s' := by
  induction walk generalizing depth rest s with
  | nil => exact ⟨s, rfl, by rwa [append_nil], by rwa [append_nil]⟩
  | @seen done ms out m old walk ih =>
    obtain ⟨s', hload, holds', listed'⟩ := ih hsplit hdepth holds listed
    obtain ⟨depth, rfl⟩ : ∃ d, depth = d + 1 := ⟨depth - 1, by omega⟩
    have hm : m ∈ order := by simp [hsplit, old]
    have hfirst : load l (depth + 1) (g.get m).name s = (.ok (place order base m), s) := by
      have hlookup := listed m hm
      rw [if_pos old] at hlookup
      simp only [load, hlookup]
    exact ⟨s', loadImports_cons hfirst hload, holds', listed'⟩
  | @fresh done ms before after m new imports walk ih₁ ih₂ =>
    rw [length_append, length_cons] at hdepth
    obtain ⟨depth, rfl⟩ : ∃ d, depth = d + 1 := ⟨depth - 1, by omega⟩
    have hsplit₁ : order = done ++ before ++ m :: (after ++ rest) := by simp [hsplit]
    have hsplit₂ : order = done ++ before ++ [m] ++ after ++ rest := by simp [hsplit]
    have hdepth₁ : before.length + 1 ≤ depth := by omega
    have hdepth₂ : after.length + 1 ≤ depth + 1 := by omega
    obtain ⟨s₁, hload₁, holds₁, listed₁⟩ := ih₁ hsplit₁ hdepth₁ holds listed
    have hm : m ∈ order := by simp [hsplit]
    have hnew := listed m hm
    rw [if_neg new] at hnew
    obtain ⟨s₂, hload₂, holds₂, listed₂⟩ :=
      h.load_eq hsplit₁ imports.roots_subset hnew hload₁ holds₁ listed₁
    obtain ⟨s₃, hload₃, holds₃, listed₃⟩ := ih₂ hsplit₂ hdepth₂ holds₂ listed₂
    have happend : done ++ (before ++ m :: after) = done ++ before ++ [m] ++ after := by simp
    rw [happend]
    exact ⟨s₃, loadImports_cons hload₂ hload₃, holds₃, listed₃⟩

/-! ### Loaded programs -/

/-- What has been loaded for a module: a copy of each module that it needs, each of them once, with
imports that are shared as they were, which come out of flattening and linking in the same way. -/
structure Reloaded (g : Graph) (root : ModuleId) (builtins : Image.Builtins) (s : Loading)
    (f : ModuleId → ModuleId) (s' : Loading) : Prop where
  size : s'.modules.size = s.modules.size + (g.flatten [root]).length
  apart : ∀ i ∈ g.flatten [root], ∀ j ∈ g.flatten [root], f i = f j → i = j
  copies : ∀ i ∈ g.flatten [root], ∃ types, (s'.modules.get (f i)).CopyOf types builtins (g.get i) ∧
    ∀ t, (g.get i).Mentions t → (types t).Copies types t
  imports : ∀ i ∈ g.flatten [root], s'.modules.importsOf (f i) = (g.importsOf i).map f
  flatten : s'.modules.flatten [f root] = (g.flatten [root]).map f
  sizes : ∀ i ∈ g.flatten [root], (s'.modules.get (f i)).name = (g.get i).name ∧
    (s'.modules.get (f i)).extent = (g.get i).extent
  links : (∃ e', s'.modules.link (f root) = .ok e') ↔ ∃ e, g.link root = .ok e
  linked : ∀ e' e, s'.modules.link (f root) = .ok e' → g.link root = .ok e → e'.Alike e

theorem place_inj {j : ModuleId} (hi : i ∈ order) (h : place order base i = place order base j) : i = j := by
  have hindex := ModuleId.mk.inj h
  exact (idxOf_inj hi).1 (by omega)

/-- The copies of all modules that a module needs are what has been loaded for it. -/
theorem Holds.reloaded {f : ModuleId → ModuleId} {s' : Loading} (inOrder : g.InOrder root before)
    (apart : ∀ i ∈ before ++ [root], ∀ j ∈ before ++ [root], f i = f j → i = j)
    (holds : Holds l g f s.modules.size (before ++ [root]) s') : Reloaded g root l.builtins s f s' := by
  have hroot : root ∈ before ++ [root] := mem_append_right _ mem_cons_self
  have himports (i) (hi : i ∈ before ++ [root]) : s'.modules.importsOf (f i) = (g.importsOf i).map f := by
    rw [Graph.importsOf_eq]
    exact holds.imports i hi
  have halike (i) (hi : i ∈ before ++ [root]) : (s'.modules.get (f i)).Alike (g.get i) := by
    obtain ⟨types, copy, copies⟩ := holds.copies i hi
    exact copy.alike copies
  -- The walk through the stored modules is carried over to their copies.
  have hflatten : s'.modules.flatten [f root] = (before ++ [root]).map f := by
    obtain ⟨b, hwalk⟩ := g.walks_flatten [root]
    obtain ⟨b', hwalk'⟩ := s'.modules.walks_flatten [f root]
    have hmapped := (hwalk.map inOrder.closed apart himports (forall_mem_singleton.2 hroot)
      (fun i hi => by cases hi)).1
    rw [inOrder.flatten] at hmapped
    exact (hwalk'.det hmapped).2
  have hall : List.Forall₂ Module.Alike ((s'.modules.flatten [f root]).map s'.modules.get)
      ((g.flatten [root]).map g.get) := by
    rw [hflatten, inOrder.flatten, map_map]
    exact forall₂_map_left_iff.2 (forall₂_map_right_iff.2 (forall₂_same.2 halike))
  obtain ⟨links, linked⟩ := Graph.link_of_alike (halike root hroot).name hall
  constructor
  · rw [holds.size, inOrder.flatten]
  · rwa [inOrder.flatten]
  · rw [inOrder.flatten]
    exact holds.copies
  · rwa [inOrder.flatten]
  · rw [hflatten, inOrder.flatten]
  · rw [inOrder.flatten]
    exact fun i hi => ⟨(halike i hi).name, (halike i hi).extent_eq⟩
  · exact links
  · exact linked

/-- An archive has a row for each of the names that are found in it. -/
theorem length_le_of_find? {a : Archive} (names : (order.map fun i => (g.get i).name).Nodup)
    (stored : ∀ i ∈ order, ∃ row, a.find? (g.get i).name = some row) : order.length ≤ a.rows.length := by
  have hsub : (order.map fun i => (g.get i).name) ⊆ a.rows.map (·.name) := by
    intro n hn
    obtain ⟨i, hi, rfl⟩ := mem_map.1 hn
    obtain ⟨row, hrow⟩ := stored i hi
    have hname : row.name = (g.get i).name := by simpa using find?_some hrow
    exact hname ▸ mem_map_of_mem (mem_of_find?_eq_some hrow)
  simpa using (names.subperm hsub).length_le

/-- The modules that a loadable module needs are loaded, the module itself by its name or from its
image. -/
theorem Loadable.reloaded (h : Loadable R l g (before ++ [root])) (inOrder : g.InOrder root before)
    (made : s.types.Made) (table : l.table.index < s.types.tables.size) (modules : s.modules.Closed)
    (loaded : s.loaded = []) :
    (∃ f s', get l (g.get root).name s = (.ok (f root), s') ∧ Reloaded g root l.builtins s f s') ∧
      ∀ row, rowOf g (g.get root) = .ok row → ∃ f s',
        loadImage l (finder l (load l l.archive.maxDepth)) row.image s = (.ok (f root), s') ∧
          Reloaded g root l.builtins s f s' := by
  have hfinder : finder l (load l l.archive.maxDepth) = load l l.archive.maxDepth := by
    simp only [finder, h.resolve]
  have hrows : (before ++ [root]).length ≤ l.archive.rows.length :=
    length_le_of_find? h.names fun i hi => (h.stored i hi).imp fun _ => And.right
  rw [length_append, length_singleton] at hrows
  have holds : Holds l g (place (before ++ [root]) s.modules.size) s.modules.size [] s :=
    ⟨made, table, modules, rfl, by simp, by simp⟩
  have listed : Listed g (before ++ [root]) (place (before ++ [root]) s.modules.size) [] s := by
    intro i _
    simp [loaded]
  have hsplit : before ++ [root] = [] ++ before ++ [root] := rfl
  have himports : g.importsOf root ⊆ before := inOrder.finishes.roots_subset
  have hloaded {s' : Loading}
      (holds : Holds l g (place (before ++ [root]) s.modules.size) s.modules.size (before ++ [root]) s') :
      Reloaded g root l.builtins s (place (before ++ [root]) s.modules.size) s' :=
    holds.reloaded inOrder fun i hi j _ => place_inj hi
  constructor
  · obtain ⟨s₁, hload, holds₁, listed₁⟩ := h.loadImports_eq inOrder.finishes hsplit hrows holds listed
    have hnew : s.loaded.lookup (g.get root).name = none := by
      rw [loaded]
      rfl
    obtain ⟨s₂, hload₂, holds₂, -⟩ := h.load_eq rfl himports hnew hload holds₁ listed₁
    exact ⟨_, s₂, hload₂, hloaded holds₂⟩
  · intro row hrow
    obtain ⟨s₁, hload, holds₁, listed₁⟩ :=
      h.loadImports_eq inOrder.finishes hsplit (Nat.le_succ_of_le hrows) holds listed
    obtain ⟨s₂, hload₂, holds₂, -⟩ := h.loadImage_eq rfl himports hrow hload holds₁
    rw [hfinder]
    exact ⟨_, s₂, hload₂, hloaded holds₂⟩

/-- Whole programs survive storing and loading. A module is stored together with all that it needs. While
later requests leave these names alone, it is loaded by its name and by the digest of its image, and
what is loaded is a copy of the whole program: every module once, sharing kept, the same order and the
same linked code. -/
theorem reloads_what_was_put {R : Registry} (made : R.Made) {g : Graph} {root : ModuleId} (storable : Storable R g root)
    (earlier : List Request) :
    ∃ own a, rowOf g (g.get root) = .ok own ∧ (replay {} earlier).put g root = .ok (own.hash, a) ∧
      ∀ (later : List Request) (l : Loader) (s : Loading),
        (∀ q ∈ later, ∀ n ∈ (Request.put g root).names, n ∉ q.names) →
        l.archive = a.replay later → l.resolve = none →
        (∀ i ∈ g.flatten [root], ∀ r ∈ (g.get i).routines, r.isBuiltin → ∃ b, l.builtins r.name = some (some b)) →
        s.types.Made → l.table.index < s.types.tables.size → s.modules.Closed → s.loaded = [] →
        (∀ row ∈ l.archive.rows, Hash.of row.image = own.hash → row.image = own.image) →
        (∃ f s', get l (g.get root).name s = (.ok (f root), s') ∧ Reloaded g root l.builtins s f s') ∧
          ∃ f s', getByHash? l own.hash s = some (.ok (f root), s') ∧ Reloaded g root l.builtins s f s' := by
  obtain ⟨rows, own, hrows, hown, hput⟩ := storable.exists_put made (replay {} earlier)
  refine ⟨own, _, hown, hput, ?_⟩
  intro later l s untouched harchive hresolve bound made' table modules loaded collisionFree
  obtain ⟨before, inOrder⟩ := Graph.exists_inOrder storable.closed storable.inside storable.acyclic
  have hroot : root ∈ g.flatten [root] := by simp [inOrder.flatten]
  have hfind (i) (hi : i ∈ g.flatten [root]) :
      ∃ row, rowOf g (g.get i) = .ok row ∧ l.archive.find? (g.get i).name = some row := by
    obtain ⟨row, hmem, hrow⟩ := hrows.mem_of_mem hi
    have hname : row.name = (g.get i).name := by
      obtain ⟨x, -, rfl⟩ := rowOf_eq_ok.1 hrow
      rfl
    refine ⟨row, hrow, ?_⟩
    rw [harchive, find?_replay fun q hq => untouched q hq _ (List.mem_map_of_mem hi), ← hname]
    exact find?_foldl_insert_of_mem (hrows.names_eq ▸ storable.names) hmem
  have loadable : Loadable R l g (before ++ [root]) := by
    rw [← inOrder.flatten]
    exact ⟨made, hresolve, storable.names, storable.complete, storable.known, storable.readable, bound, hfind⟩
  obtain ⟨hname, himage⟩ := loadable.reloaded inOrder made' table modules loaded
  refine ⟨hname, ?_⟩
  -- The row with the digest has the image of the module, whatever its name is.
  have hdigested : l.archive.Digested := by
    have hempty : Digested {} := fun r hr => by cases hr
    rw [harchive]
    exact ((hempty.replay earlier).foldl_insert hrows).replay later
  obtain ⟨row, hrow, hstored⟩ := hfind root hroot
  obtain rfl : row = own := Except.ok.inj (hrow.symm.trans hown)
  obtain ⟨row', hrow'⟩ : ∃ row', l.archive.findHash? row.hash = some row' := by
    apply Option.isSome_iff_exists.1
    rw [findHash?, List.find?_isSome]
    exact ⟨row, List.mem_of_find?_eq_some hstored, by simp⟩
  have hmem : row' ∈ l.archive.rows := List.mem_of_find?_eq_some hrow'
  have hhash : row'.hash = row.hash := by simpa using List.find?_some hrow'
  obtain ⟨f, s', hload, reloaded⟩ := himage row hrow
  refine ⟨f, s', ?_, reloaded⟩
  rw [getByHash?, hrow', Option.map_some, collisionFree row' hmem (hdigested row' hmem ▸ hhash), hload]

namespace Shared

open Image.Mixing (types shade mix present)

/-- A module that is imported directly and through another one. -/
def graph : Graph := ⟨#[
  { name := "colours", strings := ["hello"], init := some (.ofList [785])
    globals := [{ name := "background", type := shade, binding := .global, index := 0 }] },
  { name := "tools", imports := [⟨0⟩], bases := ⟨0, 1, 1⟩
    routines := [⟨"mix", mix, 0, .compiled (some (.ofList [785, 770])) [.int, .int]⟩] },
  { name := "main", imports := [⟨1⟩, ⟨0⟩], bases := ⟨1, 1, 1⟩, init := some .empty
    routines := [⟨"show", mix, 1, .host present⟩] }]⟩

theorem flatten_graph : graph.flatten [⟨2⟩] = [⟨0⟩, ⟨1⟩, ⟨2⟩] := by decide

theorem storable : Storable types graph ⟨2⟩ := by
  have hdown : ∀ i, ∀ j ∈ graph.importsOf i, j.index < i.index := by
    rintro ⟨_ | _ | _ | k⟩ j hj <;> revert j <;> simp [graph, Graph.importsOf, get?]
  have hshade : types.Knows shade := Image.Mixing.knows_iff.2 (by simp [Image.Mixing.table])
  have hmix : types.Knows mix := Image.Mixing.knows_iff.2 (by simp [Image.Mixing.table])
  have hread : ∀ i ∈ graph.flatten [⟨2⟩], ∀ x ∈ (Image.record graph (graph.get i)).toOption,
      (Cbor.Item.decode? x.item.encode).bind Image.ModuleRecord.ofItem? = some x := by decide +kernel
  refine ⟨fun i hi j hj => Nat.lt_trans (hdown i j hj) hi, by decide, Graph.acyclicFrom_of_lt hdown,
    by decide +kernel, ?_, ?_, fun i hi x hx => hread i hi x (by rw [hx]; rfl)⟩
  · rw [flatten_graph]
    intro i hi
    rcases (by simpa using hi : i = _ ∨ i = _ ∨ i = _) with rfl | rfl | rfl <;> constructor <;>
      simp [graph, Graph.get, get?, mix, Ty.kind, Routine.isBuiltin, Routine.code?, Routine.arity,
        Routine.locals, Ty.inputs]
  · rw [flatten_graph]
    intro i hi t ht
    have sound := Image.Mixing.made_types.sound
    rcases (by simpa using hi : i = _ ∨ i = _ ∨ i = _) with rfl | rfl | rfl <;>
      simp [graph, Graph.get, get?, Module.Mentions] at ht
    · exact hshade.of_occurs sound ht
    · exact hmix.of_occurs sound ht
    · exact hmix.of_occurs sound ht

theorem link_graph : ∃ e, graph.link ⟨2⟩ = .ok e := by
  have hsome : (graph.link ⟨2⟩).toOption.isSome := by decide +kernel
  cases h : graph.link ⟨2⟩ with
  | error e =>
    rw [h] at hsome
    cases hsome
  | ok e => exact ⟨e, rfl⟩

/-- The archive behind storing the program. -/
def archive : Archive := Request.apply {} (.put graph ⟨2⟩)

def loader : Loader where
  archive := archive.replay [.delete "extra"]
  table := ⟨0⟩
  builtins name := if name = "show" then some (some present) else none

def start : Loading := { types, modules := graph }

end Shared

theorem reloads_what_was_put_shared :
    Storable Image.Mixing.types Shared.graph ⟨2⟩ ∧
      ∃ (f : ModuleId → ModuleId) (s' : Loading),
        get Shared.loader "main" Shared.start = (.ok (f ⟨2⟩), s') ∧ s'.modules.size = 6 ∧
        s'.modules.flatten [f ⟨2⟩] = [f ⟨0⟩, f ⟨1⟩, f ⟨2⟩] ∧ ∃ e, s'.modules.link (f ⟨2⟩) = .ok e := by
  refine ⟨Shared.storable, ?_⟩
  obtain ⟨own, a, hown, hput, hload⟩ := reloads_what_was_put Image.Mixing.made_types Shared.storable []
  have ha : Shared.archive = a := by
    rw [Shared.archive, Request.apply, show put {} Shared.graph ⟨2⟩ = _ from hput]
  have bound : ∀ i ∈ Shared.graph.flatten [⟨2⟩], ∀ r ∈ (Shared.graph.get i).routines, r.isBuiltin →
      ∃ b, Shared.loader.builtins r.name = some (some b) := by
    rw [Shared.flatten_graph]
    simp [Shared.graph, Graph.get, Graph.get?, Routine.isBuiltin, Shared.loader]
  have collisionFree : ∀ row ∈ Shared.loader.archive.rows, Hash.of row.image = own.hash → row.image = own.image := by
    have hall : ∀ row ∈ Shared.loader.archive.rows, ∀ own ∈ (rowOf Shared.graph (Shared.graph.get ⟨2⟩)).toOption,
        row.image = own.image ∨ Hash.of row.image ≠ own.hash := by decide +kernel
    intro row hrow hhash
    exact (hall row hrow own (by rw [hown]; rfl)).resolve_right fun h => h hhash
  have closed : Shared.graph.Closed := Shared.storable.closed
  obtain ⟨⟨f, s', hget, reloaded⟩, -⟩ := hload [.delete "extra"] Shared.loader Shared.start (by decide +kernel)
    (by rw [← ha]; rfl) rfl bound Image.Mixing.made_types Nat.zero_lt_one closed rfl collisionFree
  refine ⟨f, s', hget, ?_, ?_, ?_⟩
  · rw [reloaded.size, Shared.flatten_graph]
    rfl
  · rw [reloaded.flatten, Shared.flatten_graph]
    rfl
  · exact reloaded.links.2 Shared.link_graph

end Stackwork.Archive
