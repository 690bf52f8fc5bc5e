import Mathlib.Logic.Relation
import Stackwork.Proofs.Module.Flatten

/-!
# Modules behind their imports

Without a cycle of imports the dependency order is what its name says: a module comes behind
everything it imports. The walk then never comes to a module that has been begun but not finished, so
it can be described by the finished modules alone. A walk is carried over to any other graph by a map
that respects imports and keeps modules apart.
-/
namespace Stackwork

open List

namespace Graph

/-- `m` imports `i`. -/
def Imports (g : Graph) (m i : ModuleId) : Prop := i ∈ g.importsOf m

/-- Nothing that `root` needs imports itself, not even through others. -/
def AcyclicFrom (g : Graph) (root : ModuleId) : Prop :=
  ∀ m, Relation.ReflTransGen g.Imports root m → ¬ Relation.TransGen g.Imports m m

/-- How a walk from the listed modules goes on, given those finished before: the modules it finishes,
in order. Nothing is ever met while it is still in work. -/
inductive Finishes (g : Graph) : List ModuleId → List ModuleId → List ModuleId → Prop where
  | nil {done : List ModuleId} : Finishes g done [] []
  | seen {done ms out : List ModuleId} {m : ModuleId} (old : m ∈ done) (rest : Finishes g done ms out) :
      Finishes g done (m :: ms) out
  | fresh {done ms before after : List ModuleId} {m : ModuleId} (new : m ∉ done)
      (imports : Finishes g done (g.importsOf m) before)
      (rest : Finishes g (done ++ before ++ [m]) ms after) :
      Finishes g done (m :: ms) (before ++ m :: after)

/-- Every listed module comes behind its imports, counting those that are done before. -/
def Ordered (g : Graph) : List ModuleId → List ModuleId → Prop
  | _, [] => True
  | done, m :: ms => (∀ i ∈ g.importsOf m, i ∈ done) ∧ Ordered g (done ++ [m]) ms

variable {g g' : Graph} {root : ModuleId} {b b' done ms out : List ModuleId}

theorem Ordered.append_iff {ms' : List ModuleId} :
    g.Ordered done (ms ++ ms') ↔ g.Ordered done ms ∧ g.Ordered (done ++ ms) ms' := by
  induction ms generalizing done with
  | nil => simp [Ordered]
  | cons m ms ih => simp [Ordered, ih, and_assoc]

/-- What a module imports is listed before it. -/
theorem Ordered.imports_subset {before after : List ModuleId} {m : ModuleId}
    (h : g.Ordered [] (before ++ m :: after)) : g.importsOf m ⊆ before := by
  obtain ⟨-, himports, -⟩ := append_iff.1 h
  exact himports

namespace Finishes

/-- What a walk starts from is finished in the end. -/
theorem roots_subset (h : g.Finishes done ms out) : ms ⊆ done ++ out := by
  induction h with
  | nil => exact nil_subset _
  | seen old _ ih => exact cons_subset.2 ⟨mem_append_left _ old, ih⟩
  | fresh _ _ _ _ ih =>
    refine cons_subset.2 ⟨by simp, ?_⟩
    simpa using ih

theorem ordered (h : g.Finishes done ms out) : g.Ordered done out := by
  induction h with
  | nil => exact trivial
  | seen _ _ ih => exact ih
  | fresh _ imports _ ih₁ ih₂ => exact Ordered.append_iff.2 ⟨ih₁, imports.roots_subset, ih₂⟩

end Finishes

namespace Walks

/-- A walk finishes no module twice, and none that was begun before. -/
theorem nodup (h : g.Walks b ms b' out) : out.Nodup ∧ ∀ m ∈ out, m ∉ b := by
  induction h with
  | nil => simp
  | seen _ _ ih => exact ih
  | @fresh b b₁ b₂ ms out₁ out₂ m new imports rest ih₁ ih₂ =>
    obtain ⟨hnodup₁, hout₁⟩ := ih₁
    obtain ⟨hnodup₂, hout₂⟩ := ih₂
    have hb₁ {x : ModuleId} : x ∈ b₁ ↔ x ∈ m :: b ∨ x ∈ out₁ := imports.mem_begun
    refine ⟨nodup_append.2 ⟨hnodup₁, nodup_cons.2 ⟨fun hm => ?_, hnodup₂⟩, fun x hx y hy heq => ?_⟩,
      fun x hx hxb => ?_⟩
    · exact hout₂ m hm (hb₁.2 (.inl mem_cons_self))
    · subst heq
      rcases mem_cons.1 hy with rfl | hy
      · exact hout₁ x hx mem_cons_self
      · exact hout₂ x hy (hb₁.2 (.inr hx))
    · rcases mem_append.1 hx with hx | hx
      · exact hout₁ x hx (mem_cons_of_mem _ hxb)
      · rcases mem_cons.1 hx with rfl | hx
        · exact new hxb
        · exact hout₂ x hx (hb₁.2 (.inl (mem_cons_of_mem _ hxb)))

variable {S : ModuleId → Prop}

/-- What has been begun and is not finished lies on the way to the modules that the walk starts from.
So without a cycle the walk does not meet it. -/
theorem finishes (h : g.Walks b ms b' out) (closed : ∀ m, S m → ∀ i ∈ g.importsOf m, S i)
    (acyclic : ∀ m, S m → ¬ Relation.TransGen g.Imports m m) (inside : ∀ m ∈ ms, S m) (sub : done ⊆ b)
    (way : ∀ x ∈ b, x ∈ done ∨ ∀ m ∈ ms, Relation.TransGen g.Imports x m) : g.Finishes done ms out := by
  induction h generalizing done with
  | nil => exact .nil
  | @seen b b' ms out m begun _ ih =>
    obtain ⟨hm, hms⟩ := forall_mem_cons.1 inside
    refine .seen ?_ (ih hms sub fun x hx => (way x hx).imp_right fun h i hi => h i (mem_cons_of_mem _ hi))
    exact (way m begun).resolve_right fun h => acyclic m hm (h m mem_cons_self)
  | @fresh b b₁ b₂ ms out₁ out₂ m new imports rest ih₁ ih₂ =>
    obtain ⟨hm, hms⟩ := forall_mem_cons.1 inside
    have way₁ : ∀ x ∈ m :: b, x ∈ done ∨ ∀ i ∈ g.importsOf m, Relation.TransGen g.Imports x i := by
      intro x hx
      rcases mem_cons.1 hx with rfl | hx
      · exact .inr fun i hi => .single hi
      · exact (way x hx).imp_right fun h i hi => (h m mem_cons_self).tail hi
    have sub₂ : done ++ out₁ ++ [m] ⊆ b₁ := by
      intro x hx
      rw [imports.mem_begun]
      grind
    have way₂ : ∀ x ∈ b₁, x ∈ done ++ out₁ ++ [m] ∨ ∀ i ∈ ms, Relation.TransGen g.Imports x i := by
      intro x hx
      rcases imports.mem_begun.1 hx with hx | hx
      · rcases mem_cons.1 hx with rfl | hx
        · exact .inl (by simp)
        · exact (way x hx).imp (fun h => by simp [h]) fun h i hi => h i (mem_cons_of_mem _ hi)
      · exact .inl (by simp [hx])
    exact .fresh (fun h => new (sub h)) (ih₁ (closed m hm) (subset_cons_of_subset _ sub) way₁)
      (ih₂ hms sub₂ way₂)

/-- A map that keeps modules apart and respects imports takes a walk to a walk. -/
theorem map (h : g.Walks b ms b' out) (closed : ∀ m, S m → ∀ i ∈ g.importsOf m, S i) {f : ModuleId → ModuleId}
    (inj : ∀ m, S m → ∀ i, S i → f m = f i → m = i)
    (imports : ∀ m, S m → g'.importsOf (f m) = (g.importsOf m).map f) (inside : ∀ m ∈ ms, S m)
    (begun : ∀ m ∈ b, S m) : g'.Walks (b.map f) (ms.map f) (b'.map f) (out.map f) ∧ ∀ m ∈ b', S m := by
  induction h with
  | nil => exact ⟨.nil, begun⟩
  | @seen b b' ms out m hm _ ih =>
    obtain ⟨hw, hb⟩ := ih (fun m hm => inside m (mem_cons_of_mem _ hm)) begun
    exact ⟨.seen (mem_map_of_mem hm) hw, hb⟩
  | @fresh b b₁ b₂ ms out₁ out₂ m new _ _ ih₁ ih₂ =>
    obtain ⟨hm, hms⟩ := forall_mem_cons.1 inside
    obtain ⟨hw₁, hb₁⟩ := ih₁ (closed m hm) (forall_mem_cons.2 ⟨hm, begun⟩)
    obtain ⟨hw₂, hb₂⟩ := ih₂ hms hb₁
    refine ⟨?_, hb₂⟩
    rw [map_cons, map_append, map_cons]
    refine .fresh (fun h => ?_) (by rwa [imports m hm, ← map_cons]) hw₂
    obtain ⟨x, hx, heq⟩ := mem_map.1 h
    exact new (inj x (begun x hx) m hm heq ▸ hx)

end Walks

/-- Modules that import only what has a smaller number have no cycle. -/
theorem acyclicFrom_of_lt (down : ∀ m, ∀ i ∈ g.importsOf m, i.index < m.index) : g.AcyclicFrom root := by
  intro m _ hcycle
  have hlt {m i : ModuleId} (h : Relation.TransGen g.Imports m i) : i.index < m.index := by
    induction h with
    | single h => exact down _ _ h
    | tail _ h ih => exact Nat.lt_trans (down _ _ h) ih
  exact Nat.lt_irrefl _ (hlt hcycle)

/-- The dependency order of one module: nothing comes twice, every module comes behind its imports, and
the module itself is the last. -/
structure InOrder (g : Graph) (root : ModuleId) (before : List ModuleId) : Prop where
  flatten : g.flatten [root] = before ++ [root]
  nodup : (before ++ [root]).Nodup
  finishes : g.Finishes [] (g.importsOf root) before
  inside : ∀ m ∈ before ++ [root], m.index < g.size
  closed : ∀ m ∈ before ++ [root], ∀ i ∈ g.importsOf m, i ∈ before ++ [root]

theorem exists_inOrder (closed : g.Closed) (inside : root.index < g.size) (acyclic : g.AcyclicFrom root) :
    ∃ before, g.InOrder root before := by
  have hroot : ∀ m ∈ [root], m.index < g.size := forall_mem_singleton.2 inside
  obtain ⟨b, hw⟩ := g.walks_flatten [root]
  have hfinishes : g.Finishes [] [root] (g.flatten [root]) :=
    hw.finishes (S := fun m => Relation.ReflTransGen g.Imports root m) (fun m hm i hi => hm.tail hi) acyclic
      (forall_mem_singleton.2 .refl) (nil_subset _) fun x hx => by cases hx
  have hsize : ∀ m ∈ g.flatten [root], m.index < g.size :=
    (hw.congr closed (fun _ _ => rfl) hroot fun _ _ => Iff.rfl).1
  have himports (m) (hm : m ∈ g.flatten [root]) (i) (hi : i ∈ g.importsOf m) : i ∈ g.flatten [root] := by
    simpa using hw.mem_begun.1 (hw.imports_subset m hm hi)
  have hnodup := hw.nodup.1
  generalize hflatten : g.flatten [root] = order at hfinishes hsize himports hnodup
  cases hfinishes with
  | seen old => cases old
  | @fresh _ _ before _ _ new imports rest =>
    cases rest
    exact ⟨before, hflatten, hnodup, imports, hsize, himports⟩

end Graph
end Stackwork
