import Stackwork.Proofs.Lang.Resolution
import Stackwork.Proofs.Lang.Simulation

/-!
# Where the code of a program comes from

The modules that a program links with sit in one executable. A module that was compiled has
its source: the program as it was then. Routine by routine and top level by top level, the
code in the executable is the code of a unit of some source, and the unit is laid out within
the limits of the whole executable, not only of the module that it was compiled for.
-/
namespace Stackwork

open Machine Stackwork.Module Workspace

variable {β γ : Type} {R : β → γ → Prop}

/-- A list built piece by piece matches another one if the pieces match. -/
theorem forall₂_flatMap {α : Type} {f : α → List β} {g : α → List γ} {l : List α}
    (h : ∀ a ∈ l, List.Forall₂ R (f a) (g a)) : List.Forall₂ R (l.flatMap f) (l.flatMap g) := by
  induction l with
  | nil => exact .nil
  | cons a l ih =>
    obtain ⟨ha, hl⟩ := List.forall_mem_cons.1 h
    exact List.rel_append ha (ih hl)

/-- What is in one of two matching tables is matched in the other one. -/
theorem Machine.at?_of_forall₂ {xs : List β} {ys : List γ} (h : List.Forall₂ R xs ys) {i : Int} :
    (at? xs.toArray i = none ∧ at? ys.toArray i = none) ∨
      ∃ x y, at? xs.toArray i = some x ∧ at? ys.toArray i = some y ∧ R x y := by
  obtain ⟨hlen, hget⟩ := List.forall₂_iff_get.1 h
  unfold at?
  split
  · by_cases hi : i.toNat < xs.length
    · refine .inr ⟨xs[i.toNat], ys[i.toNat], ?_, ?_, hget _ hi (hlen ▸ hi)⟩
      · simp [hi]
      · simp [hlen ▸ hi]
    · refine .inl ⟨?_, ?_⟩
      · simpa using hi
      · simpa [← hlen] using hi
  · exact .inl ⟨rfl, rfl⟩

/-- A module of an executable that was compiled from a program, all of whose references are to
what the executable has. -/
structure Module.CompiledFrom (T : Ty → Prop) (ms : List Module) (s : Workspace.Source) (m : Module) :
    Prop where
  becomes : s.program.Becomes s.key s.table m
  bodies : ∀ (i : Nat) (d : FunctionDecl), s.program.functions[i]? = some d → d.Wf T ⟨s.key.index, i⟩
  globalType : ∀ v ∈ m.globals, T v.type
  table : s.table.Proper
  compact : m.Compact
  imports : ∃ imports, Offers ms (s.program.surroundings imports) ∧ s.program.Known imports

/-- A unit is laid out within the limits of modules that have what the unit refers to. -/
theorem UnitCode.laid {ms : List Module} {env : Surroundings} {pool : Pool} {ctx : Context}
    {locals : List Variable} {stmts : List Stmt} {code : Code} (unit : UnitCode pool ctx stmts code)
    (proper : ctx.table.Proper) (offers : Offers ms env) (small : Module.SmallTables ms)
    (numbered : Numbered Variable.index 0 locals) (frame : locals.length < operandLimit)
    (size : code.size < operandLimit) (known : ∀ s ∈ stmts, ∀ r ∈ s.refs, r.Known env locals) :
    ∃ commands, code = Line.code (labelAddress pool.handle commands)
        (unitLines pool.handle ctx.output commands) ∧
      Body.Laid ⟨ctx.table, pool.handle, ctx.output, stmts⟩ ctx (limits ms locals.length)
        commands := by
  obtain ⟨commands, -, gen, -, rfl⟩ := unit
  rw [ofList_assemble] at size ⊢
  rw [Line.size_code] at size
  have fits := gen.fits (offers.resolves_stmts numbered "" known)
  have limits : (limits ms locals.length).Small :=
    ⟨Nat.le_of_lt small.functions, Nat.le_of_lt small.globals, Nat.le_of_lt frame⟩
  exact ⟨commands, rfl, gen, rfl, rfl, proper, limits, fits, size⟩

/-- The code of a body. -/
def Body.Realized (lim : Limits) (b : Body) (code : Code) : Prop :=
  ∃ ctx commands, b.Laid ctx lim commands ∧
    code = Line.code (labelAddress b.literal commands) (unitLines b.literal b.output commands)

/-- The routine of a function. -/
structure Definition.Realized (lim : Nat → Limits) (f : Definition) (r : Routine) : Prop where
  signature : r.signature = f.decl.signature
  host : ∀ {builtin}, f.decl.body = .host builtin → r.body = .host builtin
  source : ∀ {scope params locals stmts}, f.decl.body = .source scope params locals stmts →
    f.arity ≤ locals.size ∧ ∃ code,
      r.body = .compiled (some code) (Workspace.frameKinds locals) ∧
        (f.body stmts).Realized (lim locals.size) code

namespace Module.CompiledFrom

variable {T : Ty → Prop} {ms : List Module} {s : Workspace.Source} {m : Module}

/-- Each function of a compiled program is realized by the routine in its place. -/
theorem realized_function (h : m.CompiledFrom T ms s) (small : Module.SmallTables ms) {i : Nat}
    {d : FunctionDecl} {r : Routine} (hd : s.program.functions[i]? = some d)
    (hr : m.routines[i]? = some r) (hb : d.Becomes m.pool s.table ⟨s.key.index, i⟩ r) :
    Definition.Realized (limits ms) ⟨d, s.table, m.pool.handle⟩ r := by
  refine ⟨hb.signature_eq, fun hhost => ?_, fun {scope params locals stmts} hsource => ?_⟩
  · cases hb with
    | host body => cases hhost.symm.trans body; rfl
    | source body => cases hhost.symm.trans body
  · cases hb with
    | host body => cases hsource.symm.trans body
    | source body unit =>
      cases hsource.symm.trans body
      obtain ⟨imports, offers, known⟩ := h.imports
      obtain ⟨hlocals, hparams, hinputs⟩ := (h.bodies i d hd).locals body
      have harity : d.type.inputs.length = params := by
        have := congrArg List.length hinputs
        simpa [hparams] using this.symm
      have hframe : locals.toList.length < operandLimit := by
        simpa [frameKinds, Routine.locals] using h.compact.locals _ (List.mem_of_getElem? hr)
      have hsize := h.compact.code _ (List.mem_of_getElem? hr) _ rfl
      obtain ⟨commands, hcode, laid⟩ := unit.laid h.table offers small hlocals.numbered hframe hsize
        fun s hs => known.functions d (Array.mem_of_getElem? hd) body s (Array.mem_toList_iff.1 hs)
      exact ⟨harity.trans_le hparams, _, rfl, _, commands, laid, hcode⟩

/-- The top level of a compiled program is realized by its init code. -/
theorem realized_top (h : m.CompiledFrom T ms s) (small : Module.SmallTables ms) {code : Code}
    (hinit : m.init = some code)
    (unit : UnitCode m.pool ⟨s.table, none, none⟩ s.program.init.toList code) :
    Body.Realized (limits ms 0) ⟨s.table, m.pool.handle, none, s.program.init.toList⟩ code := by
  obtain ⟨imports, offers, known⟩ := h.imports
  obtain ⟨commands, hcode, laid⟩ := unit.laid h.table offers small
    (.nil : Numbered Variable.index 0 []) (by decide) (h.compact.init code hinit)
    fun s hs => known.init s (Array.mem_toList_iff.1 hs)
  exact ⟨_, commands, laid, hcode⟩

/-- Functions and routines of a compiled program match. -/
theorem definitions_match (h : m.CompiledFrom T ms s) (small : Module.SmallTables ms) :
    List.Forall₂ (fun d r => ∀ f ∈ d, Definition.Realized (limits ms) f r)
      (definitions m (some s)) m.routines := by
  refine List.forall₂_iff_get.2 ⟨?_, fun i hi hi' f hf => ?_⟩
  · simp [definitions, h.becomes.size]
  · obtain ⟨d, hd, hb⟩ := h.becomes.exists_decl (List.getElem?_eq_getElem hi')
    have hdef : (definitions m (some s))[i]? = some (some ⟨d, s.table, m.pool.handle⟩) := by
      simp [definitions, hd]
    rw [List.getElem?_eq_getElem hi] at hdef
    simp only [List.get_eq_getElem, Option.some.inj hdef, Option.mem_some_iff] at hf
    subst hf
    exact h.realized_function small hd (List.getElem?_eq_getElem hi') hb

/-- The top level and the init code of a compiled program match. -/
theorem top_matches (h : m.CompiledFrom T ms s) (small : Module.SmallTables ms) :
    List.Forall₂ (fun b code => ∀ b' ∈ b, Body.Realized (limits ms 0) b' code)
      (top? m (some s)).toList m.init.toList := by
  unfold top?
  rcases h.becomes.init with ⟨hempty, hnone⟩ | ⟨hne, code, hcode, unit⟩
  · rw [hnone]
    simp [hempty]
  · rw [hcode]
    simp only [Array.isEmpty_iff, hne, if_false, Option.toList_some]
    refine .cons (fun b hb => ?_) .nil
    cases hb
    exact h.realized_top small hcode unit

end Module.CompiledFrom

namespace Workspace

/-- The modules under a root are linked, and each one that has a source was compiled from it. -/
structure Traced (T : Ty → Prop) (w : Workspace) (sources : List (Option Source)) (root : ModuleId)
    (ms : List Module) : Prop where
  modules : (w.modules.flatten [root]).map w.modules.get = ms
  small : Module.SmallTables ms
  laidOut : LaidOut {} ms
  compiled : ∀ i ∈ w.modules.flatten [root], ∀ s, sources[i.index]? = some (some s) →
    (w.modules.get i).CompiledFrom T ms s

variable {T : Ty → Prop} {w : Workspace} {sources : List (Option Source)} {root : ModuleId}
  {ms : List Module}

/-- What is only known as code matches anything. -/
theorem forall₂_open {α β : Type} {P : α → β → Prop} (xs : List β) :
    List.Forall₂ (fun a b => ∀ x ∈ a, P x b) (xs.map fun _ => none) xs :=
  List.forall₂_map_left_iff.2 (List.forall₂_same.2 fun _ _ _ h => by cases h)

namespace Traced

variable (h : w.Traced T sources root ms)
include h

/-- Function by function, a program is realized by the routines that it links to. -/
theorem functions_match : List.Forall₂ (fun d r => ∀ f ∈ d, Definition.Realized (limits ms) f r)
      (w.whole sources root).functions.toList (ms.flatMap (·.routines)) := by
  have hpieces : ms.flatMap (·.routines) =
      (w.modules.flatten [root]).flatMap fun i => (w.modules.get i).routines := by
    rw [← h.modules, List.flatMap_map]
  rw [hpieces]
  refine forall₂_flatMap fun i hi => ?_
  rw [List.getD_eq_getElem?_getD]
  rcases hs : sources[i.index]? with _ | _ | s
  · exact forall₂_open _
  · exact forall₂_open _
  · exact (h.compiled i hi s hs).definitions_match h.small

/-- Top level by top level, a program is realized by the init codes that it links to. -/
theorem tops_match : List.Forall₂ (fun b code => ∀ b' ∈ b, Body.Realized (limits ms 0) b' code)
      (w.whole sources root).tops (ms.flatMap (·.init.toList)) := by
  have hpieces : ms.flatMap (·.init.toList) =
      (w.modules.flatten [root]).flatMap fun i => (w.modules.get i).init.toList := by
    rw [← h.modules, List.flatMap_map]
  rw [hpieces, whole, List.filterMap_eq_flatMap_toList]
  refine forall₂_flatMap fun i hi => ?_
  rw [List.getD_eq_getElem?_getD]
  have hopen : List.Forall₂ (fun b code => ∀ b' ∈ b, Body.Realized (limits ms 0) b' code)
      (top? (w.modules.get i) none).toList (w.modules.get i).init.toList := by
    rw [top?, Option.toList_map]
    exact forall₂_open _
  rcases hs : sources[i.index]? with _ | _ | s
  · exact hopen
  · exact hopen
  · exact (h.compiled i hi s hs).top_matches h.small

variable {index : Int}

/-- A function that the program calls is realized by the routine with its number. -/
theorem routine_of_function (name : String) {f : Definition}
    (hf : at? (w.whole sources root).functions index = some (some f)) :
    ∃ r, at? (Executable.ofModules name ms).routines index = some r ∧ f.Realized (limits ms) r := by
  rcases at?_of_forall₂ h.functions_match (i := index) with ⟨hnone, -⟩ | ⟨d, r, hd, hr, hrel⟩
  · rw [hf] at hnone
    cases hnone
  · cases hf.symm.trans hd
    exact ⟨r, hr, hrel f rfl⟩

theorem routine_eq_none (name : String) (hf : at? (w.whole sources root).functions index = none) :
    at? (Executable.ofModules name ms).routines index = none := by
  rcases at?_of_forall₂ h.functions_match (i := index) with ⟨-, hnone⟩ | ⟨d, r, hd, -, -⟩
  · exact hnone
  · cases hf.symm.trans hd

end Traced

/-- A program becomes a module whatever identifier that has. -/
theorem Source.Wf.becomes_get {g : Graph} {i : ModuleId} {s : Source} (h : s.Wf T g i.index) :
    s.program.Becomes s.key s.table (g.get i) :=
  { h.becomes with }

/-- What a root links to can be traced back to the sources of the modules under it. -/
theorem Wf.traced (wf : w.Wf T sources) (inside : root.index < w.modules.size) {exe : Executable}
    (link : w.modules.link root = .ok exe)
    (small : Module.SmallTables ((w.modules.flatten [root]).map w.modules.get))
    (known : ∀ i ∈ w.modules.flatten [root], ∀ s, sources[i.index]? = some (some s) →
      s.program.Known ((w.modules.flatten s.program.imports).map w.modules.get))
    (compact : ∀ i ∈ w.modules.flatten [root], ∀ s, sources[i.index]? = some (some s) →
      (w.modules.get i).Compact) :
    ∃ name ms, exe = .ofModules name ms ∧ w.Traced T sources root ms := by
  obtain ⟨laidOut, rfl⟩ := Executable.foldlM_addModule_new.1 link
  refine ⟨_, _, rfl, rfl, small, laidOut, fun i hi s hs => ?_⟩
  have swf := wf.sources i.index s hs
  have hbecomes := swf.becomes_get
  have himports : s.program.imports = w.modules.importsOf i := by
    rw [Graph.importsOf_eq, Graph.bare, hbecomes.imports]
  have hsubset : w.modules.flatten s.program.imports ⊆ w.modules.flatten [root] := by
    rw [himports]
    exact Graph.flatten_imports_subset wf.closed (by simpa using inside) hi
  refine ⟨hbecomes, swf.program.bodies, ?_, swf.table, compact i hi s hs, _, ⟨laidOut, ?_, ?_⟩,
    known i hi s hs⟩
  · intro v hv
    rw [hbecomes.globals] at hv
    exact swf.program.globalType v (Array.mem_toList_iff.1 hv)
  · intro v hv
    rw [Program.surroundings, ← hbecomes.globals, List.mem_append] at hv
    rcases hv with hv | hv
    · obtain ⟨m, hm, hv⟩ := List.mem_flatMap.1 hv
      exact List.mem_flatMap.2 ⟨m, List.map_subset _ hsubset hm, hv⟩
    · exact List.mem_flatMap.2 ⟨_, List.mem_map_of_mem hi, hv⟩
  · intro f hf
    rw [Program.surroundings, ← hbecomes.map_signature, List.mem_append] at hf
    rcases hf with hf | hf
    · obtain ⟨r, hr, rfl⟩ := List.mem_map.1 hf
      obtain ⟨m, hm, hr⟩ := List.mem_flatMap.1 hr
      exact List.mem_map_of_mem (List.mem_flatMap.2 ⟨m, List.map_subset _ hsubset hm, hr⟩)
    · obtain ⟨r, hr, rfl⟩ := List.mem_map.1 hf
      exact List.mem_map_of_mem (List.mem_flatMap.2 ⟨_, List.mem_map_of_mem hi, hr⟩)

end Workspace
end Stackwork
