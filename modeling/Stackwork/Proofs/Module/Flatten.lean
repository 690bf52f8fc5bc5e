import Stackwork.Module.Graph

/-!
# Dependency order

The walk behind `Graph.flatten` as a relation without fuel. In a graph whose imports all
exist the walk is determined by the roots and by the imports of what it comes to, so adding
modules changes nothing for roots that were there before, and a new module comes right
behind everything its imports need. Graphs only grow: modules are added, alone or in groups,
and identifiers exchanged.
-/
namespace Stackwork

open List

namespace Graph

/-- How a depth-first walk from the listed modules goes on, given those begun before: the
modules begun afterwards, and those it finishes, in order. -/
inductive Walks (g : Graph) :
    List ModuleId → List ModuleId → List ModuleId → List ModuleId → Prop where
  | nil {b : List ModuleId} : Walks g b [] b []
  | seen {b b' ms out : List ModuleId} {m : ModuleId} (begun : m ∈ b)
      (rest : Walks g b ms b' out) : Walks g b (m :: ms) b' out
  | fresh {b b₁ b₂ ms out₁ out₂ : List ModuleId} {m : ModuleId} (new : m ∉ b)
      (imports : Walks g (m :: b) (g.importsOf m) b₁ out₁) (rest : Walks g b₁ ms b₂ out₂) :
      Walks g b (m :: ms) b₂ (out₁ ++ m :: out₂)

/-- Every import exists. -/
def Closed (g : Graph) : Prop :=
  ∀ m : ModuleId, m.index < g.size → ∀ i ∈ g.importsOf m, i.index < g.size

variable {g g' : Graph} {b b' ms out : List ModuleId}

namespace Walks

section

variable (h : g.Walks b ms b' out)
include h

theorem det {b'' out' : List ModuleId} (h' : g.Walks b ms b'' out') : b' = b'' ∧ out = out' := by
  induction h generalizing b'' out' with
  | nil =>
    cases h'
    exact ⟨rfl, rfl⟩
  | seen begun _ ih =>
    cases h' with
    | seen _ rest => exact ih rest
    | fresh new => exact absurd begun new
  | fresh new _ _ ih₁ ih₂ =>
    cases h' with
    | seen begun => exact absurd begun new
    | fresh _ imports rest =>
      obtain ⟨rfl, rfl⟩ := ih₁ imports
      obtain ⟨rfl, rfl⟩ := ih₂ rest
      exact ⟨rfl, rfl⟩

theorem subset : b ⊆ b' := by
  induction h with
  | nil => exact List.Subset.refl _
  | seen _ _ ih => exact ih
  | fresh _ _ _ ih₁ ih₂ =>
    exact List.Subset.trans (subset_cons_self _ _) (List.Subset.trans ih₁ ih₂)

/-- A walk inside a set of modules that is closed under imports goes the same way in every
graph with the same imports there, whatever was begun outside. -/
theorem congr {S : ModuleId → Prop} (closed : ∀ m, S m → ∀ i ∈ g.importsOf m, S i)
    (same : ∀ m, S m → g'.importsOf m = g.importsOf m)
    (inside : ∀ m ∈ ms, S m) {c : List ModuleId} (agree : ∀ m, S m → (m ∈ b ↔ m ∈ c)) :
    (∀ m ∈ out, S m) ∧ ∃ c', g'.Walks c ms c' out ∧ ∀ m, S m → (m ∈ b' ↔ m ∈ c') := by
  induction h generalizing c with
  | nil => exact ⟨by simp, c, .nil, agree⟩
  | @seen b b' ms out m begun _ ih =>
    obtain ⟨hm, hms⟩ := forall_mem_cons.1 inside
    obtain ⟨hout, c', hw, hagree⟩ := ih hms agree
    exact ⟨hout, c', .seen ((agree m hm).1 begun) hw, hagree⟩
  | @fresh b b₁ b₂ ms out₁ out₂ m new _ _ ih₁ ih₂ =>
    obtain ⟨hm, hms⟩ := forall_mem_cons.1 inside
    have agree₁ : ∀ x, S x → (x ∈ m :: b ↔ x ∈ m :: c) := by
      intro x hx
      rw [mem_cons, mem_cons, agree x hx]
    obtain ⟨hout₁, c₁, hw₁, hagree₁⟩ := ih₁ (closed m hm) agree₁
    obtain ⟨hout₂, c₂, hw₂, hagree₂⟩ := ih₂ hms hagree₁
    refine ⟨?_, c₂, .fresh (fun hc => new ((agree m hm).2 hc)) ?_ hw₂, hagree₂⟩
    · intro x hx
      rcases mem_append.1 hx with hx | hx
      · exact hout₁ x hx
      · rcases mem_cons.1 hx with rfl | hx
        · exact hm
        · exact hout₂ x hx
    · rw [same m hm]
      exact hw₁

/-- What has been begun is what was begun before and what has been finished since. -/
theorem mem_begun {m : ModuleId} : m ∈ b' ↔ m ∈ b ∨ m ∈ out := by
  induction h with
  | nil => simp
  | seen _ _ ih => exact ih
  | fresh _ _ _ ih₁ ih₂ =>
    rw [ih₂, ih₁]
    grind

theorem roots_subset : ms ⊆ b' := by
  induction h with
  | nil => exact nil_subset _
  | seen begun rest ih => exact cons_subset.2 ⟨rest.subset begun, ih⟩
  | fresh _ imports rest _ ih₂ =>
    exact cons_subset.2 ⟨rest.subset (imports.subset mem_cons_self), ih₂⟩

/-- The imports of what has been finished have been begun. -/
theorem imports_subset : ∀ m ∈ out, g.importsOf m ⊆ b' := by
  induction h with
  | nil => simp
  | seen _ _ ih => exact ih
  | fresh _ imports rest ih₁ ih₂ =>
    intro x hx
    rcases mem_append.1 hx with hx | hx
    · exact List.Subset.trans (ih₁ x hx) rest.subset
    · rcases mem_cons.1 hx with rfl | hx
      · exact List.Subset.trans imports.roots_subset rest.subset
      · exact ih₂ x hx

end

end Walks

/-- How many of the first `n` modules have not been begun. -/
def unbegun (n : Nat) (b : List ModuleId) : Nat := ((List.range n).map ModuleId.mk).countP (· ∉ b)

theorem countP_not_mem_le (l : List ModuleId) (h : b ⊆ b') : l.countP (· ∉ b') ≤ l.countP (· ∉ b) := by
  apply countP_mono_left
  simp only [decide_eq_true_eq]
  exact fun m _ hm hb => hm (h hb)

variable {n fuel : Nat} {m : ModuleId}

theorem unbegun_le_of_subset (h : b ⊆ b') : unbegun n b' ≤ unbegun n b :=
  countP_not_mem_le _ h

theorem unbegun_le (n : Nat) (b : List ModuleId) : unbegun n b ≤ n := by
  have := countP_le_length (p := (· ∉ b)) (l := (range n).map ModuleId.mk)
  simpa [unbegun] using this

theorem unbegun_cons_lt (hm : m.index < n) (new : m ∉ b) : unbegun n (m :: b) < unbegun n b := by
  have hmem : m ∈ (range n).map ModuleId.mk :=
    mem_map.2 ⟨m.index, mem_range.2 hm, rfl⟩
  obtain ⟨l₁, l₂, hl⟩ := append_of_mem hmem
  have h₁ := countP_not_mem_le l₁ (subset_cons_self m b)
  have h₂ := countP_not_mem_le l₂ (subset_cons_self m b)
  rw [unbegun, unbegun, hl, countP_append, countP_append,
    countP_cons_of_neg (by simp), countP_cons_of_pos (by simpa using new)]
  omega

theorem importsOf_eq_nil (h : g.size ≤ m.index) : g.importsOf m = [] := by
  rw [importsOf, get?, Array.getElem?_eq_none h]
  rfl

/-- Walking with more fuel than there are modules to begin follows the relation. A number outside the graph
imports nothing, so it takes no fuel from those behind it. -/
theorem walks_foldl_visit (enough : unbegun g.size b < fuel) (ms order : List ModuleId) :
    ∃ b' out, g.Walks b ms b' out ∧ ms.foldl (g.visit fuel) ⟨b, order⟩ = ⟨b', order ++ out⟩ := by
  induction fuel generalizing b ms order with
  | zero => omega
  | succ fuel ihFuel =>
    induction ms generalizing b order with
    | nil => exact ⟨b, [], .nil, by simp⟩
    | cons m ms ih =>
      rw [foldl_cons, visit]
      by_cases hb : m ∈ b
      · obtain ⟨b', out, hw, heq⟩ := ih enough order
        exact ⟨b', out, .seen hb hw, by simpa [hb] using heq⟩
      · obtain ⟨b₁, out₁, hw₁, heq₁⟩ : ∃ b₁ out₁, g.Walks (m :: b) (g.importsOf m) b₁ out₁ ∧
            (g.importsOf m).foldl (g.visit fuel) ⟨m :: b, order⟩ = ⟨b₁, order ++ out₁⟩ := by
          by_cases hm : m.index < g.size
          · have hlt := unbegun_cons_lt hm hb
            exact ihFuel (b := m :: b) (by omega) _ order
          · rw [importsOf_eq_nil (Nat.le_of_not_lt hm)]
            exact ⟨m :: b, [], .nil, by simp⟩
        have hle : unbegun g.size b₁ ≤ unbegun g.size b :=
          unbegun_le_of_subset (List.Subset.trans (subset_cons_self m b) hw₁.subset)
        obtain ⟨b₂, out₂, hw₂, heq₂⟩ := ih (b := b₁) (by omega) (order ++ out₁ ++ [m])
        refine ⟨b₂, out₁ ++ m :: out₂, .fresh hb hw₁ hw₂, ?_⟩
        simpa [hb, heq₁] using heq₂

/-- The modules that a walk with fuel to spare lists are those of the walk from the roots. -/
theorem walks_of_size_lt (enough : g.size < fuel) (roots : List ModuleId) :
    ∃ b, g.Walks [] roots b (roots.foldl (g.visit fuel) {}).order := by
  obtain ⟨b, out, hw, heq⟩ := walks_foldl_visit (Nat.lt_of_le_of_lt (unbegun_le g.size []) enough) roots []
  refine ⟨b, ?_⟩
  simpa [heq] using hw

theorem walks_flatten (g : Graph) (roots : List ModuleId) : ∃ b, g.Walks [] roots b (g.flatten roots) :=
  walks_of_size_lt (Nat.lt_succ_self _) roots

/-- The root of a walk is finished last, even where imports lead back to it. -/
theorem flatten_root (g : Graph) (m : ModuleId) : ∃ before, g.flatten [m] = before ++ [m] := by
  obtain ⟨b, hw⟩ := g.walks_flatten [m]
  generalize g.flatten [m] = out at hw
  cases hw with
  | seen begun => cases begun
  | fresh _ _ rest =>
    cases rest
    exact ⟨_, rfl⟩

/-- What a listed module needs is listed. -/
theorem flatten_imports_subset (closed : g.Closed) {roots : List ModuleId} (inside : ∀ m ∈ roots, m.index < g.size)
    (hm : m ∈ g.flatten roots) : g.flatten (g.importsOf m) ⊆ g.flatten roots := by
  obtain ⟨b, hw⟩ := g.walks_flatten _
  have hlisted : ∀ {i}, i ∈ b → i ∈ g.flatten roots := fun hi => by simpa using hw.mem_begun.1 hi
  have hclosed : ∀ i ∈ g.flatten roots, ∀ j ∈ g.importsOf i, j ∈ g.flatten roots :=
    fun i hi j hj => hlisted (hw.imports_subset i hi hj)
  have hsize : ∀ i ∈ g.flatten roots, i.index < g.size :=
    (hw.congr closed (fun _ _ => rfl) inside fun _ _ => Iff.rfl).1
  obtain ⟨b', hw'⟩ := g.walks_flatten (g.importsOf m)
  exact (hw'.congr hclosed (fun _ _ => rfl) (hclosed m hm) fun _ _ => Iff.rfl).1

/-- The module under a number, without its identifier. -/
def bare (g : Graph) (m : ModuleId) : Module := { g.get m with id := .zero }

theorem importsOf_eq (g : Graph) (m : ModuleId) : g.importsOf m = (g.bare m).imports := by
  unfold importsOf bare get
  cases g.get? m <;> rfl

/-- A graph that has the modules of another one under the same numbers, but for their
identifiers. -/
structure Extends (g' g : Graph) : Prop where
  size_le : g.size ≤ g'.size
  same : ∀ m : ModuleId, m.index < g.size → g'.bare m = g.bare m

namespace Extends

theorem refl (g : Graph) : g.Extends g := ⟨Nat.le_refl _, fun _ _ => rfl⟩

theorem trans {g'' : Graph} (h' : g''.Extends g') (h : g'.Extends g) : g''.Extends g where
  size_le := Nat.le_trans h.size_le h'.size_le
  same m hm := (h'.same m (Nat.lt_of_lt_of_le hm h.size_le)).trans (h.same m hm)

theorem imports (ext : g'.Extends g) (m : ModuleId) (hm : m.index < g.size) :
    g'.importsOf m = g.importsOf m := by
  rw [importsOf_eq, importsOf_eq, ext.same m hm]

theorem layoutOf_eq (ext : g'.Extends g) {order : List ModuleId}
    (inside : ∀ m ∈ order, m.index < g.size) : g'.layoutOf order = g.layoutOf order := by
  have hfold (acc : Layout) : order.foldl (fun acc m => acc.add (g'.get m).extent) acc =
      order.foldl (fun acc m => acc.add (g.get m).extent) acc := by
    induction order generalizing acc with
    | nil => rfl
    | cons m order ih =>
      obtain ⟨hm, hrest⟩ := forall_mem_cons.1 inside
      have hextent : (g'.bare m).extent = (g.bare m).extent := by rw [ext.same m hm]
      change (g'.get m).extent = (g.get m).extent at hextent
      rw [foldl_cons, foldl_cons, hextent, ih hrest]
  exact hfold {}

end Extends

/-- New modules do not change what roots that were there before need. -/
theorem flatten_of_extends (ext : g'.Extends g) (closed : g.Closed)
    {roots : List ModuleId} (inside : ∀ m ∈ roots, m.index < g.size) :
    g'.flatten roots = g.flatten roots ∧ ∀ m ∈ g.flatten roots, m.index < g.size := by
  obtain ⟨b, hw⟩ := g.walks_flatten _
  obtain ⟨hout, c, hw', -⟩ := hw.congr closed ext.imports inside (c := []) fun _ _ => Iff.rfl
  obtain ⟨b', hw''⟩ := g'.walks_flatten roots
  exact ⟨(hw''.det hw').2, hout⟩

/-- A module with a new number comes behind everything its imports need. -/
theorem flatten_new (ext : g'.Extends g) (closed : g.Closed) {m : ModuleId} (new : m.index = g.size)
    (inside : ∀ i ∈ g'.importsOf m, i.index < g.size) :
    g'.flatten [m] = g.flatten (g'.importsOf m) ++ [m] := by
  obtain ⟨b, hw⟩ := g.walks_flatten _
  have agree : ∀ i : ModuleId, i.index < g.size → (i ∈ [] ↔ i ∈ [m]) := by
    intro i hi
    have : i ≠ m := by
      rintro rfl
      omega
    simp [this]
  obtain ⟨-, c, hw', -⟩ := hw.congr closed ext.imports inside agree
  have hroot : g'.Walks [] [m] c (g.flatten (g'.importsOf m) ++ m :: []) :=
    .fresh (not_mem_nil) hw' .nil
  obtain ⟨b', hw''⟩ := g'.walks_flatten [m]
  exact (hw''.det hroot).2

theorem get?_add (g : Graph) (m : Module) (i : ModuleId) :
    (g.add m).2.get? i = if i.index = g.size then some m else g.get? i := by
  simp only [add, get?, Array.getElem?_push]
  rfl

theorem size_add (g : Graph) (m : Module) : (g.add m).2.size = g.size + 1 := by
  simp [add, size]

variable {m : Module}

theorem get_of_lt_add {i : ModuleId} (h : i.index < g.size) : (g.add m).2.get i = g.get i := by
  rw [get, get, get?_add, if_neg (by omega)]

theorem get_add (g : Graph) (m : Module) : (g.add m).2.get ⟨g.size⟩ = m := by
  rw [get, get?_add, if_pos rfl]
  rfl

theorem extends_add (g : Graph) (m : Module) : (g.add m).2.Extends g where
  size_le := by
    rw [size_add]
    omega
  same i hi := by rw [bare, bare, get_of_lt_add hi]

theorem bare_setId (g : Graph) (m : ModuleId) (id : Uuid) (i : ModuleId) :
    (g.setId m id).bare i = g.bare i := by
  unfold bare get get? setId
  rw [Array.getElem?_modify]
  split
  · cases g.modules[i.index]? <;> rfl
  · rfl

theorem extends_setId (g : Graph) (m : ModuleId) (id : Uuid) : (g.setId m id).Extends g where
  size_le := by simp [setId, size]
  same i _ := g.bare_setId m id i

/-- A graph with one more group of modules. -/
def addAll (g : Graph) (ms : List Module) : Graph := ms.foldl (fun g m => (g.add m).2) g

theorem size_addAll (g : Graph) (ms : List Module) : (g.addAll ms).size = g.size + ms.length := by
  induction ms generalizing g with
  | nil => rfl
  | cons m ms ih =>
    change ((g.add m).2.addAll ms).size = _
    rw [ih, size_add, length_cons]
    omega

theorem extends_addAll (g : Graph) (ms : List Module) : (g.addAll ms).Extends g := by
  induction ms generalizing g with
  | nil => exact .refl g
  | cons m ms ih => exact (ih (g.add m).2).trans (g.extends_add m)

theorem imports_addAll (g : Graph) (ms : List Module) (i : ModuleId) (h : g.size ≤ i.index)
    (lt : i.index < (g.addAll ms).size) : ∃ m ∈ ms, (g.addAll ms).importsOf i = m.imports := by
  induction ms generalizing g with
  | nil => exact absurd lt (Nat.not_lt.2 h)
  | cons m ms ih =>
    by_cases heq : i.index = g.size
    · have hlt : i.index < (g.add m).2.size := by
        rw [size_add]
        omega
      refine ⟨m, mem_cons_self, ?_⟩
      change ((g.add m).2.addAll ms).importsOf i = _
      rw [((g.add m).2.extends_addAll ms).imports i hlt, importsOf, get?_add, if_pos heq]
      rfl
    · obtain ⟨m', hm', himports⟩ := ih (g.add m).2 (by rw [size_add]; omega) lt
      exact ⟨m', mem_cons_of_mem _ hm', himports⟩

/-- A group of modules keeps a graph closed if it brings the imports it needs. -/
theorem closed_addAll (closed : g.Closed) {ms : List Module}
    (h : ∀ m ∈ ms, ∀ i ∈ m.imports, i.index < g.size + ms.length) : (g.addAll ms).Closed := by
  intro m hm i hi
  rw [size_addAll]
  by_cases hlt : m.index < g.size
  · rw [(g.extends_addAll ms).imports m hlt] at hi
    have := closed m hlt i hi
    omega
  · obtain ⟨m', hm', himports⟩ := g.imports_addAll ms m (by omega) hm
    exact h m' hm' i (himports ▸ hi)

theorem closed_add (closed : g.Closed) (h : ∀ i ∈ m.imports, i.index < g.size + 1) : (g.add m).2.Closed :=
  closed_addAll closed (forall_mem_singleton.2 h)

end Graph
end Stackwork
