import Stackwork.Proofs.Archive.Contents
import Stackwork.Proofs.Module.Order

/-!
# Loading ends

The names that the stored images import decide whether loading ends. Where every module stored at once
has a name of its own, there is a rank on names that falls from each row to its imports: storing puts
the new names in their dependency order and everything older above them. Then a chain of imports is
no longer than the archive. Two modules of one name in the same request can make an image that
imports itself, and loading it has no end.
-/
namespace Stackwork.Archive

open List

variable {l : Loader} {name : String} {s : Loading}

/-! ### Answers that do not depend on the depth -/

/-- Loading gave up, because imports were followed as deep as the bound allows. -/
def GaveUp (answer : Except LoadFailure ModuleId × Loading) : Prop := answer.1 = .error .endless

variable {find : Finder} {names : List String} {depth : Nat} {a : Archive} {rank : String → Nat} {r : Row}
  {n : String}

theorem loadImports_of_endless (h : GaveUp (find name s)) :
    (loadImports find (name :: names) s).1 = .error .endless := by
  rcases hfind : find name s with ⟨answer, s'⟩
  obtain rfl : answer = .error .endless := by
    rw [GaveUp, hfind] at h
    exact h
  rw [loadImports, hfind]

/-- Imports that are found one after the other, without giving up. -/
theorem loadImports_ne_endless (h : ∀ n ∈ names, ∀ s, ¬ GaveUp (find n s)) (s : Loading) :
    (loadImports find names s).1 ≠ .error .endless := by
  induction names generalizing s with
  | nil => simp [loadImports]
  | cons n names ih =>
    obtain ⟨hn, hnames⟩ := forall_mem_cons.1 h
    rw [loadImports]
    split
    · next hfind => exact absurd (congrArg Prod.fst hfind) (hn s)
    · simp
    · next m s' _ =>
      have hrest := ih hnames s'
      split
      · simp
      · next hload => simpa [hload] using hrest

variable {find' : Finder} {g : Graph} {m : ModuleId}

/-- Finders that agree where the first one does not give up find the same imports. -/
theorem loadImports_congr (h : ∀ n s, ¬ GaveUp (find n s) → find' n s = find n s)
    (hne : (loadImports find names s).1 ≠ .error .endless) :
    loadImports find' names s = loadImports find names s := by
  induction names generalizing s with
  | nil => rfl
  | cons n names ih =>
    have hn : find' n s = find n s := h n s fun hup => hne (loadImports_of_endless hup)
    rw [loadImports, loadImports, hn]
    rcases hfind : find n s with ⟨e | m, s'⟩
    · cases e <;> rfl
    · have hrest : (loadImports find names s').1 ≠ .error .endless := by
        intro hend
        apply hne
        rw [loadImports, hfind]
        rcases hload : loadImports find names s' with ⟨answer, s''⟩
        obtain rfl : answer = .error .endless := by rw [← hend, hload]
        simp only [hload]
      simp only [ih hrest]

theorem loadImage_congr (h : ∀ n s, ¬ GaveUp (find n s) → find' n s = find n s) {bytes : List UInt8}
    (hne : ¬ GaveUp (loadImage l find bytes s)) : loadImage l find' bytes s = loadImage l find bytes s := by
  unfold loadImage at hne ⊢
  split
  · rfl
  · next x id hx =>
    have hrest : (loadImports find x.imports s).1 ≠ .error .endless := by
      intro hend
      rcases hload : loadImports find x.imports s with ⟨answer, s'⟩
      obtain rfl : answer = .error .endless := by rw [← hend, hload]
      apply hne
      simp only [hx, hload]
      rfl
    rw [loadImports_congr h hrest]

/-- An answer stays the same when imports may be followed deeper. -/
theorem load_succ (hresolve : l.resolve = none) (hne : ¬ GaveUp (load l depth name s)) :
    load l (depth + 1) name s = load l depth name s := by
  induction depth generalizing name s with
  | zero => exact absurd rfl hne
  | succ depth ih =>
    have hfinder (depth : Nat) : finder l (load l depth) = load l depth := by simp only [finder, hresolve]
    rw [load, load, hfinder, hfinder]
    rw [load, hfinder] at hne
    split
    · rfl
    · next hlookup =>
      split
      · rfl
      · next row hrow =>
        rw [loadImage_congr (fun n s hup => ih hup)]
        intro hend
        apply hne
        rcases himage : loadImage l (load l depth) row.image s with ⟨answer, s'⟩
        obtain rfl : answer = .error .endless := by
          rw [GaveUp, himage] at hend
          exact hend
        simp only [hlookup, hrow, himage]
        rfl

theorem load_of_le {deeper : Nat} (hresolve : l.resolve = none) (hne : ¬ GaveUp (load l depth name s))
    (hle : depth ≤ deeper) : load l deeper name s = load l depth name s := by
  induction hle with
  | refl => rfl
  | @step deeper _ ih => rw [load_succ hresolve (ih ▸ hne), ih]

/-! ### Ranks -/

/-- The imports that the image of a row names; none if it cannot be read. -/
def rowImports (r : Row) : List String :=
  match Image.readRecord r.image with
  | .ok x => x.imports
  | .error _ => []

/-- The rank falls from each row to its imports. -/
def Ranked (a : Archive) (rank : String → Nat) : Prop :=
  ∀ r ∈ a.rows, ∀ n ∈ rowImports r, rank n < rank r.name

/-- How many rows are below a name. -/
def below (a : Archive) (rank : String → Nat) (name : String) : Nat :=
  a.rows.countP fun r => rank r.name < rank name

theorem below_lt (hr : r ∈ a.rows) (h : rank r.name < rank name) : a.below rank r.name < a.below rank name := by
  obtain ⟨u, v, hrows⟩ := append_of_mem hr
  have hmono (rows : List Row) : rows.countP (fun x => rank x.name < rank r.name) ≤
      rows.countP fun x => rank x.name < rank name :=
    countP_mono_left fun x _ hx => by
      simp only [decide_eq_true_eq] at hx ⊢
      omega
  have hu := hmono u
  have hv := hmono v
  rw [below, below, hrows, countP_append, countP_append, countP_cons_of_neg (by simp),
    countP_cons_of_pos (by simpa using h)]
  omega

/-- A row is not below itself. -/
theorem below_lt_length (rank : String → Nat) (hr : r ∈ a.rows) : a.below rank r.name < a.rows.length := by
  obtain ⟨u, v, hrows⟩ := append_of_mem hr
  have hu : u.countP (fun x => rank x.name < rank r.name) ≤ u.length := countP_le_length
  have hv : v.countP (fun x => rank x.name < rank r.name) ≤ v.length := countP_le_length
  rw [below, hrows, countP_append, countP_cons_of_neg (by simp), length_append, length_cons]
  omega

theorem mem_of_find? (h : a.find? name = some r) : r ∈ a.rows ∧ r.name = name :=
  ⟨mem_of_find?_eq_some h, by simpa using find?_some h⟩

/-- With a rank, loading does not give up where the bound is above the number of rows below. -/
theorem load_not_gaveUp (ranked : l.archive.Ranked rank) (hresolve : l.resolve = none) (hpos : 0 < depth)
    (hdepth : ∀ r, l.archive.find? name = some r → l.archive.below rank name + 2 ≤ depth) (s : Loading) :
    ¬ GaveUp (load l depth name s) := by
  induction depth generalizing name s with
  | zero => omega
  | succ depth ih =>
    have hfinder : finder l (load l depth) = load l depth := by simp only [finder, hresolve]
    rw [load, hfinder]
    split
    · nofun
    · split
      · nofun
      · next row hrow =>
        obtain ⟨hmem, rfl⟩ := mem_of_find? hrow
        have hbound := hdepth row hrow
        have himports : ∀ n ∈ rowImports row, ∀ s, ¬ GaveUp (load l depth n s) := by
          intro n hn s
          refine ih (by omega) (fun r hr => ?_) s
          obtain ⟨hstored, rfl⟩ := mem_of_find? hr
          have := below_lt hstored (ranked row hmem r.name hn)
          omega
        have himage : ¬ GaveUp (loadImage l (load l depth) row.image s) := by
          unfold loadImage
          split
          · nofun
          · next x id hx =>
            obtain ⟨y, hy, hx⟩ := Except.bind_eq_ok.1 hx
            obtain ⟨id', -, hx⟩ := Except.bind_eq_ok.1 hx
            cases hx
            rw [rowImports, hy] at himports
            have hrest := loadImports_ne_endless himports s
            split
            · next hload =>
              rw [hload] at hrest
              intro hup
              exact hrest (congrArg Except.error (Except.error.inj hup))
            · split <;> nofun
        split
        · nofun
        · nofun
        · next hload =>
          rw [hload] at himage
          exact himage

/-! ### Requests keep a rank -/

/-- What may be stored: a module without a cycle of imports, no name twice among all that it needs,
and no image longer than a length can say. -/
def Request.Proper : Request → Prop
  | .put g m =>
    g.Closed ∧ m.index < g.size ∧ g.AcyclicFrom m ∧ (Request.put g m).names.Nodup ∧
      ∀ i ∈ g.flatten [m], ∀ bytes, Image.encode g (g.get i) = .ok bytes → bytes.length < Cbor.wordLimit
  | .delete _ => True

/-- The rank behind a put: new names in dependency order, all others above. -/
def rankBehind (names : List String) (rank : String → Nat) (n : String) : Nat :=
  if n ∈ names then names.idxOf n else names.length + rank n

theorem rankBehind_of_mem (h : n ∈ names) : rankBehind names rank n = names.idxOf n := if_pos h

theorem rankBehind_lt {n' : String} (h : rank n < rank n') (h' : n' ∉ names) :
    rankBehind names rank n < rankBehind names rank n' := by
  unfold rankBehind
  rw [if_neg h']
  split
  · next hn =>
    have := idxOf_lt_length_iff.2 hn
    omega
  · omega

/-- The row of a module imports names from further ahead. -/
theorem idxOf_lt_of_mem_rowImports {before : List ModuleId} (order : g.InOrder m before)
    (nodup : ((before ++ [m]).map fun i => (g.get i).name).Nodup) {i : ModuleId} (hi : i ∈ before ++ [m])
    (hr : rowOf g (g.get i) = .ok r) (short : r.image.length < Cbor.wordLimit) (hn : n ∈ rowImports r) :
    n ∈ (before ++ [m]).map (fun i => (g.get i).name) ∧
      ((before ++ [m]).map fun i => (g.get i).name).idxOf n <
        ((before ++ [m]).map fun i => (g.get i).name).idxOf r.name := by
  obtain ⟨x, hx, rfl⟩ := rowOf_eq_ok.1 hr
  have hordered : g.Ordered [] (before ++ [m]) :=
    Graph.Ordered.append_iff.2 ⟨order.finishes.ordered, order.finishes.roots_subset, trivial⟩
  obtain ⟨j, hj, rfl⟩ : ∃ j ∈ g.importsOf i, (g.get j).name = n := by
    unfold rowImports at hn
    split at hn
    · next y hy =>
      rw [(Image.heading_of_readRecord short hy).imports, Image.imports_of_record hx] at hn
      rw [Graph.importsOf_eq]
      exact mem_map.1 hn
    · cases hn
  obtain ⟨pre, post, hsplit⟩ := append_of_mem hi
  rw [hsplit] at hordered nodup ⊢
  have hpre : (g.get j).name ∈ pre.map fun i => (g.get i).name :=
    mem_map_of_mem (hordered.imports_subset hj)
  rw [map_append, map_cons] at nodup ⊢
  have hnew : (g.get i).name ∉ pre.map fun i => (g.get i).name :=
    fun h => (nodup_append.1 nodup).2.2 _ h _ mem_cons_self rfl
  refine ⟨mem_append_left _ hpre, ?_⟩
  rw [idxOf_append_of_mem hpre, idxOf_append_of_notMem hnew, idxOf_cons_self]
  exact Nat.lt_add_right 0 (idxOf_lt_length_iff.2 hpre)

theorem Ranked.apply (ranked : a.Ranked rank) {q : Request} (proper : q.Proper) :
    ∃ rank', (q.apply a).Ranked rank' := by
  cases q with
  | put g m =>
    obtain ⟨closed, inside, acyclic, nodup, short⟩ := proper
    obtain ⟨before, order⟩ := Graph.exists_inOrder closed inside acyclic
    simp only [Request.apply]
    split
    · next h a' hput =>
      obtain ⟨rows, own, hrows, -, -, rfl⟩ := put_eq_ok.1 hput
      refine ⟨rankBehind (Request.put g m).names rank, fun r hr n hn => ?_⟩
      rw [Request.names, order.flatten] at nodup ⊢
      rw [order.flatten] at hrows short
      rcases mem_foldl_insert hr with hr | ⟨hr, hname⟩
      · obtain ⟨i, hi, hrow⟩ := hrows.exists_of_mem hr
        have hname : r.name ∈ (before ++ [m]).map fun i => (g.get i).name :=
          hrows.names_eq ▸ mem_map_of_mem hr
        have hshort : r.image.length < Cbor.wordLimit := by
          obtain ⟨x, hx, rfl⟩ := rowOf_eq_ok.1 hrow
          exact short i hi _ (Image.encode_eq_ok.2 ⟨x, hx, rfl⟩)
        obtain ⟨hmem, hlt⟩ := idxOf_lt_of_mem_rowImports order nodup hi hrow hshort hn
        rwa [rankBehind_of_mem hmem, rankBehind_of_mem hname]
      · exact rankBehind_lt (ranked r hr n hn) (hrows.names_eq ▸ hname)
    · exact ⟨rank, ranked⟩
  | delete name =>
    refine ⟨rank, fun r hr => ranked r ?_⟩
    rw [Request.apply, delete?] at hr
    split at hr
    · exact (mem_filter.1 hr).1
    · exact hr

theorem Ranked.replay (ranked : a.Ranked rank) {requests : List Request} (proper : ∀ q ∈ requests, q.Proper) :
    ∃ rank', (a.replay requests).Ranked rank' := by
  induction requests generalizing a rank with
  | nil => exact ⟨rank, ranked⟩
  | cons q requests ih =>
    obtain ⟨hq, hrest⟩ := forall_mem_cons.1 proper
    obtain ⟨rank', ranked'⟩ := ranked.apply hq
    exact ih ranked' hrest

/-- Loading by name ends for every archive that comes from storing and deleting, if the modules stored
at once have different names: the answer is a module or an error, and it is the same for every depth
from the one that is tried. -/
theorem get_ends {requests : List Request} (proper : ∀ q ∈ requests, q.Proper)
    (harchive : l.archive = replay {} requests) (hresolve : l.resolve = none) (name : String) (s : Loading) :
    (get l name s).1 ≠ .error .endless ∧
      ∀ depth, l.archive.maxDepth ≤ depth → load l depth name s = get l name s := by
  have hempty : Ranked {} fun _ => 0 := fun r hr => by cases hr
  obtain ⟨rank, ranked⟩ := hempty.replay proper
  rw [← harchive] at ranked
  have hends : ¬ GaveUp (load l l.archive.maxDepth name s) := by
    refine load_not_gaveUp ranked hresolve (Nat.succ_pos _) (fun r hr => ?_) s
    obtain ⟨hmem, rfl⟩ := mem_of_find? hr
    have := below_lt_length rank hmem
    omega
  exact ⟨hends, fun depth hle => load_of_le hresolve hends hle⟩

theorem Request.Proper.put (down : ∀ i, ∀ j ∈ g.importsOf i, j.index < i.index) (inside : m.index < g.size)
    (nodup : (Request.put g m).names.Nodup)
    (short : ∀ i ∈ g.flatten [m], ((Image.encode g (g.get i)).toOption.getD []).length < Cbor.wordLimit) :
    (Request.put g m).Proper := by
  refine ⟨fun i hi j hj => Nat.lt_trans (down i j hj) hi, inside, Graph.acyclicFrom_of_lt down, nodup,
    fun i hi bytes h => ?_⟩
  have := short i hi
  rwa [h] at this

namespace Turned

/-- Three modules, the last one on top. -/
def first : Graph :=
  ⟨#[{ name := "base" }, { name := "lib", imports := [⟨0⟩] }, { name := "main", imports := [⟨1⟩, ⟨0⟩] }]⟩

/-- The names of the lowest and of the highest module the other way round. -/
def second : Graph := ⟨#[{ name := "main" }, { name := "base", imports := [⟨0⟩] }]⟩

def requests : List Request := [.put first ⟨2⟩, .put second ⟨1⟩, .delete "extra"]

theorem proper_requests : ∀ q ∈ requests, q.Proper := by
  have hfirst : ∀ i, ∀ j ∈ first.importsOf i, j.index < i.index := by
    rintro ⟨_ | _ | _ | k⟩ j hj <;> revert j <;> simp [first, Graph.importsOf, Graph.get?]
  have hsecond : ∀ i, ∀ j ∈ second.importsOf i, j.index < i.index := by
    rintro ⟨_ | _ | k⟩ j hj <;> revert j <;> simp [second, Graph.importsOf, Graph.get?]
  intro q hq
  rcases (by simpa [requests] using hq : q = _ ∨ q = _ ∨ q = _) with rfl | rfl | rfl
  · exact .put hfirst (by decide) (by decide +kernel) (by decide +kernel)
  · exact .put hsecond (by decide) (by decide +kernel) (by decide +kernel)
  · trivial

end Turned

theorem get_ends_turned : (∀ q ∈ Turned.requests, q.Proper) ∧
    (get { archive := replay {} Turned.requests, table := ⟨0⟩ } "lib"
      { types := Registry.empty.newTable.2, modules := {} }).1 ≠ .error .endless :=
  ⟨Turned.proper_requests, (get_ends Turned.proper_requests rfl rfl "lib" _).1⟩

/-- An image that imports itself first is never loaded. -/
theorem load_of_self_import {row : Row} {x : Image.ModuleRecord} {id : Uuid} {rest : List String}
    (hresolve : l.resolve = none) (hrow : l.archive.find? name = some row) (hx : Image.readRecord row.image = .ok x)
    (hid : x.uuid = .ok id) (hself : x.imports = name :: rest) (hs : s.loaded.lookup name = none) (depth : Nat) :
    load l depth name s = (.error .endless, s) := by
  induction depth with
  | zero => rfl
  | succ depth ih =>
    have hfinder : finder l (load l depth) = load l depth := by simp only [finder, hresolve]
    have himports : loadImports (load l depth) (name :: rest) s = (.error .endless, s) := by rw [loadImports, ih]
    have himage : loadImage l (load l depth) row.image s = (.error .endless, s) := by
      simp only [loadImage, hx, bind, Except.bind, hid, pure, Except.pure, hself, himports]
    simp only [load, hs, hrow, hfinder, himage]

namespace Looped

/-- Two modules of one name, one of them imported by the other. -/
def graph : Graph := ⟨#[{ name := "a" }, { name := "a", imports := [⟨0⟩] }]⟩

def archive : Archive := replay {} [.put graph ⟨1⟩]

def start : Loading := { types := Registry.empty, modules := graph }

/-- What the only row of the archive says. -/
def record : Image.ModuleRecord := { name := "a", id := Uuid.zero.bytes, imports := ["a"] }

end Looped

/-- Modules without a cycle of imports can still be stored so that loading has no end, however deep
imports are followed: the module that is imported has been replaced by the one that imports it. -/
theorem endless_looped :
    Looped.graph.Closed ∧ Looped.graph.AcyclicFrom ⟨1⟩ ∧
      ∀ depth, load { archive := Looped.archive, table := ⟨0⟩ } depth "a" Looped.start =
        (.error .endless, Looped.start) := by
  have hdown : ∀ i, ∀ j ∈ Looped.graph.importsOf i, j.index < i.index := by
    rintro ⟨_ | _ | k⟩ j hj <;> revert j <;> simp [Looped.graph, Graph.importsOf, Graph.get?]
  refine ⟨fun i hi j hj => Nat.lt_trans (hdown i j hj) hi, Graph.acyclicFrom_of_lt hdown, fun depth => ?_⟩
  cases hrow : Looped.archive.find? "a" with
  | none =>
    have hsome : (Looped.archive.find? "a").isSome := by decide +kernel
    rw [hrow] at hsome
    cases hsome
  | some row =>
    have hread : (Looped.archive.find? "a").bind (fun row => (Image.readRecord row.image).toOption) =
        some Looped.record := by decide +kernel
    rw [hrow, Option.bind_some] at hread
    cases hx : Image.readRecord row.image with
    | error e =>
      rw [hx] at hread
      cases hread
    | ok x =>
      rw [hx] at hread
      cases hread
      have hid : Looped.record.uuid = .ok .zero := Image.uuid_eq rfl
      exact load_of_self_import rfl hrow hx hid rfl rfl depth

end Stackwork.Archive
