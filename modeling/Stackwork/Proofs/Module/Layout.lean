import Mathlib
import Stackwork.Proofs.Machine.Loading
import Stackwork.Proofs.Module.Order

/-!
# The layout of a module graph

What the dependency order of any roots is and what linking makes of it, for every graph: imports may be
shared, a module may import itself through others, and there may be any number of roots. The listed modules
are those that a root needs, each once. A root closes the group of modules that were listed for its sake.
Linking accepts the modules whose bases are the sums over what comes before them, and in the linked tables
everything has the place that its number and the bases of its module say.
-/
namespace Stackwork

open Executable

namespace Graph

/-- `root` is `m`, or imports it directly or through others. -/
def Needs (g : Graph) (root m : ModuleId) : Prop := Relation.ReflTransGen g.Imports root m

/-- The sums of the table lengths of the listed modules. -/
def sums (g : Graph) (order : List ModuleId) : Layout where
  functions := (order.map fun m => (g.get m).routines.length).sum
  globals := (order.map fun m => (g.get m).globals.length).sum
  strings := (order.map fun m => (g.get m).strings.length).sum

/-- A list of what some roots need, in the order in which it is to be set up. What a root adds to the
list of the roots before it is what it needs and they did not, with the root behind the rest of that. -/
structure SetsUp (g : Graph) (roots order : List ModuleId) : Prop where
  nodup : order.Nodup
  mem_iff : ∀ m, m ∈ order ↔ ∃ root ∈ roots, g.Needs root m
  root : ∀ before root after, roots = before ++ root :: after → ∃ new, g.flatten before ++ new <+: order ∧
    (∀ m, m ∈ new ↔ g.Needs root m ∧ ∀ r ∈ before, ¬ g.Needs r m) ∧ (root ∈ new → new.getLast? = some root)
  imports : (∀ root ∈ roots, g.AcyclicFrom root) →
    ∀ before m after, order = before ++ m :: after → g.importsOf m ⊆ before

variable {g : Graph} {b b' ms ms' out : List ModuleId}

namespace Walks

theorem append_iff {b'' out' : List ModuleId} : g.Walks b (ms ++ ms') b'' out' ↔
    ∃ b' out₁ out₂, g.Walks b ms b' out₁ ∧ g.Walks b' ms' b'' out₂ ∧ out' = out₁ ++ out₂ := by
  constructor
  · intro h
    induction ms generalizing b out' with
    | nil => exact ⟨b, [], out', .nil, h, rfl⟩
    | cons m ms ih =>
      cases h with
      | seen begun rest =>
        obtain ⟨b', out₁, out₂, h₁, h₂, rfl⟩ := ih rest
        exact ⟨b', out₁, out₂, .seen begun h₁, h₂, rfl⟩
      | fresh new imports rest =>
        obtain ⟨b', out₁, out₂, h₁, h₂, rfl⟩ := ih rest
        exact ⟨b', _, out₂, .fresh new imports h₁, h₂, by simp⟩
  · rintro ⟨b', out₁, out₂, h₁, h₂, rfl⟩
    induction h₁ with
    | nil => exact h₂
    | seen begun _ ih => exact .seen begun (ih h₂)
    | fresh new imports _ _ ih =>
      rw [List.append_assoc, List.cons_append]
      exact .fresh new imports (ih h₂)

/-- A walk finishes only what it comes to. -/
theorem needs (h : g.Walks b ms b' out) : ∀ m ∈ out, ∃ root ∈ ms, g.Needs root m := by
  induction h with
  | nil => exact List.forall_mem_nil _
  | seen _ _ ih => exact fun m hm => (ih m hm).imp fun _ h => ⟨List.mem_cons_of_mem _ h.1, h.2⟩
  | @fresh b b₁ b₂ ms out₁ out₂ m new _ _ ih₁ ih₂ =>
    refine List.forall_mem_append.2 ⟨fun i hi => ?_,
      List.forall_mem_cons.2 ⟨⟨m, List.mem_cons_self, .refl⟩, fun i hi => ?_⟩⟩
    · obtain ⟨root, hroot, hneeds⟩ := ih₁ i hi
      exact ⟨m, List.mem_cons_self, .head hroot hneeds⟩
    · exact (ih₂ i hi).imp fun _ h => ⟨List.mem_cons_of_mem _ h.1, h.2⟩

end Walks

theorem mem_flatten (g : Graph) (roots : List ModuleId) (m : ModuleId) :
    m ∈ g.flatten roots ↔ ∃ root ∈ roots, g.Needs root m := by
  obtain ⟨b, hw⟩ := g.walks_flatten roots
  have hlisted {i : ModuleId} (hi : i ∈ b) : i ∈ g.flatten roots := by simpa using hw.mem_begun.1 hi
  refine ⟨hw.needs m, ?_⟩
  rintro ⟨root, hroot, hneeds⟩
  induction hneeds with
  | refl => exact hlisted (hw.roots_subset hroot)
  | tail _ himports ih => exact hlisted (hw.imports_subset _ ih himports)

/-- The list for some roots begins with the lists for fewer of them. What the next root adds ends with the
root itself. -/
theorem flatten_append_cons (g : Graph) (before : List ModuleId) (root : ModuleId) (after : List ModuleId) :
    ∃ new, g.flatten (before ++ [root]) = g.flatten before ++ new ∧
      g.flatten before ++ new <+: g.flatten (before ++ root :: after) ∧ (root ∈ new → new.getLast? = some root) := by
  obtain ⟨b, hw⟩ := g.walks_flatten (before ++ root :: after)
  obtain ⟨b₁, out₁, rest, hbefore, hrest, hall⟩ := Walks.append_iff.1 hw
  rw [← List.singleton_append] at hrest
  obtain ⟨b₂, new, out₂, hroot, -, rfl⟩ := Walks.append_iff.1 hrest
  have hfirst {roots b out : List ModuleId} (h : g.Walks [] roots b out) : g.flatten roots = out :=
    ((g.walks_flatten roots).choose_spec.det h).2
  rw [hall, ← hfirst hbefore]
  refine ⟨new, ?_, ⟨out₂, List.append_assoc ..⟩, fun hmem => ?_⟩
  · rw [hfirst (Walks.append_iff.2 ⟨b₁, out₁, new, hbefore, hroot, rfl⟩), hfirst hbefore]
  · cases hroot with
    | seen _ stop =>
      cases stop
      cases hmem
    | fresh _ _ stop =>
      cases stop
      exact List.getLast?_concat

theorem setsUp_flatten (g : Graph) (roots : List ModuleId) : g.SetsUp roots (g.flatten roots) where
  nodup := (g.walks_flatten roots).choose_spec.nodup.1
  mem_iff := g.mem_flatten roots
  root before root after := by
    rintro rfl
    obtain ⟨new, hnew, hprefix, hlast⟩ := g.flatten_append_cons before root after
    have hnodup := (g.walks_flatten (before ++ [root])).choose_spec.nodup.1
    rw [hnew] at hnodup
    refine ⟨new, hprefix, fun m => ?_, hlast⟩
    have hbefore : m ∈ g.flatten before ↔ ∃ r ∈ before, g.Needs r m := g.mem_flatten before m
    have hboth : m ∈ g.flatten before ++ new ↔ ∃ r ∈ before ++ [root], g.Needs r m :=
      hnew ▸ g.mem_flatten (before ++ [root]) m
    obtain ⟨-, -, hapart⟩ := List.nodup_append.1 hnodup
    constructor
    · intro hm
      have hold : m ∉ g.flatten before := fun h => hapart m h m hm rfl
      obtain ⟨r, hr, hneeds⟩ := hboth.1 (List.mem_append_right _ hm)
      rcases List.mem_append.1 hr with hr | hr
      · exact absurd (hbefore.2 ⟨r, hr, hneeds⟩) hold
      · rw [List.mem_singleton.1 hr] at hneeds
        exact ⟨hneeds, fun r hr h => hold (hbefore.2 ⟨r, hr, h⟩)⟩
    · rintro ⟨hneeds, hold⟩
      have hm := hboth.2 ⟨root, List.mem_append_right _ List.mem_cons_self, hneeds⟩
      refine (List.mem_append.1 hm).resolve_left fun h => ?_
      obtain ⟨r, hr, h⟩ := hbefore.1 h
      exact hold r hr h
  imports acyclic before m after horder := by
    obtain ⟨b, hw⟩ := g.walks_flatten roots
    have hfinishes : g.Finishes [] roots (g.flatten roots) :=
      hw.finishes (S := fun m => ∃ root ∈ roots, g.Needs root m)
        (fun m ⟨root, hroot, hneeds⟩ i hi => ⟨root, hroot, hneeds.tail hi⟩)
        (fun m ⟨root, hroot, hneeds⟩ => acyclic root hroot m hneeds)
        (fun m hm => ⟨m, hm, .refl⟩) (List.nil_subset _) fun x hx => by cases hx
    exact Ordered.imports_subset (horder ▸ hfinishes.ordered)

theorem layoutOf_eq_sums (g : Graph) (order : List ModuleId) : g.layoutOf order = g.sums order := by
  rw [layoutOf_eq, Layout.addAll_eq, sums]
  simp [List.length_flatMap, List.map_map, Function.comp_def]

end Graph

/-- An executable has the tables of the listed modules, one behind the other, and everything in them has the
place that its number says. -/
structure Executable.Joins (e : Executable) (g : Graph) (order : List ModuleId) : Prop where
  modules : e.modules = order.map g.get
  layout : e.layout = g.sums order
  routine : ∀ m ∈ order, ∀ r ∈ (g.get m).routines, Machine.at? e.routines r.index = some r
  global : ∀ m ∈ order, ∀ v ∈ (g.get m).globals, Machine.at? e.globals.toArray v.index = some v.kind
  string : ∀ m ∈ order, ∀ (i : Nat) (s : String), (g.get m).strings[i]? = some s →
    Machine.at? e.strings.toArray ((g.get m).bases.strings + i) = some s
  inits : e.inits = order.filterMap fun m => (g.get m).init

theorem Numbered.at?_eq {α : Type} {index : α → Int} {xs : List α} {a : α} (h : Numbered index 0 xs) (ha : a ∈ xs) :
    Machine.at? xs.toArray (index a) = some a := by
  obtain ⟨nonneg, hget⟩ := h.getElem?_of_mem ha
  rwa [Machine.at?, if_pos nonneg, List.getElem?_toArray]

/-- Modules are laid out when each starts behind the ones before it. -/
theorem laidOut_iff {l : Layout} {ms : List Module} :
    LaidOut l ms ↔ ∀ before m after, ms = before ++ m :: after → m.InPlace (l.addAll before) := by
  refine ⟨fun h before m after hms => LaidOut.inPlace (hms ▸ h), fun h => ?_⟩
  induction ms generalizing l with
  | nil => exact trivial
  | cons m ms ih =>
    refine ⟨h [] m ms rfl, ih fun before m' after hms => ?_⟩
    exact h (m :: before) m' after (by rw [hms, List.cons_append])

namespace Graph

variable {g : Graph} {order : List ModuleId}

theorem laidOut_map_get_iff : LaidOut {} (order.map g.get) ↔
    ∀ before m after, order = before ++ m :: after → (g.get m).InPlace (g.sums before) := by
  rw [laidOut_iff]
  constructor
  · rintro h before m after rfl
    rw [← layoutOf_eq_sums, layoutOf_eq]
    exact h _ _ (after.map g.get) (by rw [List.map_append, List.map_cons])
  · intro h before m after horder
    obtain ⟨before, rest, rfl, rfl, hrest⟩ := List.map_eq_append_iff.1 horder
    obtain ⟨m, after, rfl, rfl, rfl⟩ := List.map_eq_cons_iff.1 hrest
    rw [← layoutOf_eq, layoutOf_eq_sums]
    exact h before m after rfl

theorem joins_ofModules (name : String) (laidOut : LaidOut {} (order.map g.get)) :
    (ofModules name (order.map g.get)).Joins g order where
  modules := rfl
  layout := by
    rw [← layoutOf_eq_sums, layoutOf_eq, Layout.addAll_eq]
    simp [layout, ofModules, List.length_flatMap]
  routine m hm r hr := laidOut.routines.at?_eq (List.mem_flatMap.2 ⟨g.get m, List.mem_map_of_mem hm, hr⟩)
  global m hm v hv := by
    have hat := laidOut.globals.at?_eq (List.mem_flatMap.2 ⟨g.get m, List.mem_map_of_mem hm, hv⟩)
    simp only [Machine.at?, ofModules, ← List.map_flatMap, List.getElem?_toArray] at hat ⊢
    split at hat
    · next nonneg => rw [if_pos nonneg, List.getElem?_map, hat, Option.map_some]
    · cases hat
  string m hm i s hs := by
    obtain ⟨before, after, rfl⟩ := List.append_of_mem hm
    have hbase : (g.get m).bases.strings = ((before.map g.get).flatMap (·.strings)).length := by
      rw [(laidOut_map_get_iff.1 laidOut before m after rfl).bases, ← layoutOf_eq_sums, layoutOf_eq, Layout.addAll_eq]
      exact Int.zero_add _
    have hlt : i < (g.get m).strings.length := (List.getElem?_eq_some_iff.1 hs).1
    have htable : (ofModules name ((before ++ m :: after).map g.get)).strings =
        (before.map g.get).flatMap (·.strings) ++ ((g.get m).strings ++ (after.map g.get).flatMap (·.strings)) := by
      simp [ofModules]
    rw [hbase, ← Int.natCast_add, Machine.at?, if_pos (Int.natCast_nonneg _), Int.toNat_natCast,
      List.getElem?_toArray, htable, List.getElem?_append_right (Nat.le_add_right _ _), Nat.add_sub_cancel_left,
      List.getElem?_append_left hlt, hs]
  inits := by
    rw [List.filterMap_eq_flatMap_toList]
    exact List.flatMap_map ..

/-- The modules that any roots need are listed once each, what is new about a root up to the root, and
behind their imports unless there is a cycle; no depth of imports is too much for the walk. A module links
exactly if all that it needs is in place, and then the tables are as long as the modules make them and
everything is found under its number. -/
theorem flatten_and_link (g : Graph) (roots : List ModuleId) (root : ModuleId) :
    (∀ fuel, g.size < fuel → (roots.foldl (g.visit fuel) {}).order = g.flatten roots) ∧
    g.SetsUp roots (g.flatten roots) ∧ g.layoutOf (g.flatten roots) = g.sums (g.flatten roots) ∧
    ((∃ e, g.link root = .ok e) ↔ ∀ before m after, g.flatten [root] = before ++ m :: after →
      (g.get m).InPlace (g.sums before)) ∧
    ∀ e, g.link root = .ok e → e.name = (g.get root).name ∧ e.Joins g (g.flatten [root]) := by
  have hlink (e : Executable) : g.link root = .ok e ↔ LaidOut {} ((g.flatten [root]).map g.get) ∧
      e = .ofModules (g.get root).name ((g.flatten [root]).map g.get) := Executable.foldlM_addModule_new
  refine ⟨fun fuel enough => ?_, g.setsUp_flatten roots, g.layoutOf_eq_sums _, ?_, fun e h => ?_⟩
  · obtain ⟨b, hw⟩ := walks_of_size_lt enough roots
    obtain ⟨b', hw'⟩ := g.walks_flatten roots
    exact (hw.det hw').2
  · rw [← laidOut_map_get_iff]
    exact ⟨fun ⟨e, h⟩ => ((hlink e).1 h).1, fun h => ⟨_, (hlink _).2 ⟨h, rfl⟩⟩⟩
  · obtain ⟨laidOut, rfl⟩ := (hlink e).1 h
    exact ⟨rfl, joins_ofModules _ laidOut⟩

namespace Circular

def work : Ty := .function 1 (.prim 0 .void) []

def serve : Routine := ⟨"serve", work, 0, .compiled none []⟩

def answer : Routine := ⟨"answer", work, 1, .compiled none []⟩

/-- Two modules that import each other, and one that both import. -/
def graph : Graph := ⟨#[
  { name := "log", strings := ["ready"],
    globals := [{ name := "lines", type := work, binding := .global, index := 0 }] },
  { name := "server", imports := [⟨2⟩, ⟨0⟩], bases := ⟨1, 1, 2⟩, routines := [answer], init := some .empty },
  { name := "client", imports := [⟨1⟩, ⟨0⟩], bases := ⟨0, 1, 1⟩, routines := [serve], strings := ["hello"] }]⟩

end Circular

theorem flatten_and_link_circular : Circular.graph.SetsUp [⟨0⟩, ⟨1⟩] [⟨0⟩, ⟨2⟩, ⟨1⟩] ∧
    ∃ e, Circular.graph.link ⟨1⟩ = .ok e ∧ Machine.at? e.routines 1 = some Circular.answer ∧
      e.layout = ⟨2, 1, 2⟩ ∧ e.inits = [.empty] := by
  obtain ⟨-, setsUp, -, -, joined⟩ := flatten_and_link Circular.graph [⟨0⟩, ⟨1⟩] ⟨1⟩
  have hflatten : Circular.graph.flatten [⟨1⟩] = [⟨0⟩, ⟨2⟩, ⟨1⟩] := by decide
  obtain ⟨e, hlink⟩ : ∃ e, Circular.graph.link ⟨1⟩ = .ok e := ⟨_, rfl⟩
  obtain ⟨-, joins⟩ := joined e hlink
  rw [hflatten] at joins
  refine ⟨setsUp, e, hlink, ?_, joins.layout, joins.inits⟩
  exact joins.routine ⟨1⟩ (by decide) Circular.answer (List.mem_singleton.2 rfl)

end Graph
end Stackwork
