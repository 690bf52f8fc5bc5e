import Stackwork.Proofs.Lang.History
import Stackwork.Proofs.Lang.Units
import Stackwork.Proofs.Module.Flatten
import Stackwork.Proofs.Module.Linking
import Stackwork.Proofs.Ty.Registration

/-!
# Numbering of declarations

What holds of every workspace that requests lead to: imports exist, and every program numbers
its globals, its functions and the locals of each function without gaps, behind what its
imports bring. A compiled module keeps agreeing with the program it came from, whatever
happens to the program afterwards. The types of declarations come from the requests, so
whatever holds of those holds of these.
-/
namespace Stackwork

open Array

/-- The locals of a function: numbered from zero, and its own. -/
structure LocalsOf (T : Ty → Prop) (key : UnitKey) (locals : Array Variable) : Prop where
  numbered : Numbered Variable.index 0 locals.toList
  isLocal : ∀ v ∈ locals, v.isGlobal = false
  owner : ∀ v ∈ locals, v.owner = some key
  type : ∀ v ∈ locals, T v.type

/-- A declared function: it has a function type, and its first locals are its parameters. -/
structure FunctionDecl.Wf (T : Ty → Prop) (key : UnitKey) (d : FunctionDecl) : Prop where
  type : T d.type
  signature : ∃ id output inputs, d.type = .function id output inputs
  locals : ∀ {scope params locals stmts}, d.body = .source scope params locals stmts →
    LocalsOf T key locals ∧ params ≤ locals.size ∧
      (locals.toList.take params).map (·.type.id) = d.type.inputs.map Ty.id

/-- A program numbers everything it declares behind what its imports bring. -/
structure Program.Wf (T : Ty → Prop) (g : Graph) (key : Nat) (prog : Program) : Prop where
  imports : ∀ i ∈ prog.imports, i.index < g.size
  layout : prog.layout = g.layoutOf (g.flatten prog.imports)
  global : ∀ v ∈ prog.globals, v.isGlobal
  globalType : ∀ v ∈ prog.globals, T v.type
  globals : Numbered Variable.index prog.layout.globals prog.globals.toList
  functions : Numbered FunctionDecl.index prog.layout.functions prog.functions.toList
  bodies : ∀ (i : Nat) (d : FunctionDecl), prog.functions[i]? = some d → d.Wf T ⟨key, i⟩

namespace Workspace

/-- The source of the module with number `i`. -/
structure Source.Wf (T : Ty → Prop) (g : Graph) (i : Nat) (s : Source) : Prop where
  program : s.program.Wf T g s.key.index
  table : s.table.Proper
  becomes : s.program.Becomes s.key s.table (g.bare ⟨i⟩)
  /-- Imports were there before. -/
  earlier : ∀ m ∈ s.program.imports, m.index < i

/-- What holds of every workspace that requests lead to, with the sources of its modules, for
programs with types in `T`. -/
structure Wf (T : Ty → Prop) (sources : List (Option Source)) (w : Workspace) : Prop where
  closed : w.modules.Closed
  tables : ∀ t, (w.types.table t).Proper
  programs : ∀ (i : Nat) (prog : Program), w.programs[i]? = some prog →
    prog.Wf T w.modules i ∧ ∀ q, T ((w.types.table prog.table).prim q)
  length : sources.length = w.modules.size
  sources : ∀ (i : Nat) (s : Source), sources[i]? = some (some s) → s.Wf T w.modules i

end Workspace

variable {T : Ty → Prop} {g g' : Graph} {key : UnitKey} {locals : Array Variable}

theorem Program.Wf.of_extends {key : Nat} {prog : Program} (h : prog.Wf T g key) (ext : g'.Extends g)
    (closed : g.Closed) : prog.Wf T g' key where
  imports i hi := Nat.lt_of_lt_of_le (h.imports i hi) ext.size_le
  layout := by
    obtain ⟨hflat, hinside⟩ := Graph.flatten_of_extends ext closed h.imports
    rw [hflat, ext.layoutOf_eq hinside]
    exact h.layout
  global := h.global
  globalType := h.globalType
  globals := h.globals
  functions := h.functions
  bodies := h.bodies

theorem Workspace.Source.Wf.of_extends {i : Nat} {s : Source} (h : s.Wf T g i) (ext : g'.Extends g)
    (closed : g.Closed) (hi : i < g.size) : s.Wf T g' i where
  program := h.program.of_extends ext closed
  table := h.table
  becomes := by
    rw [ext.same ⟨i⟩ hi]
    exact h.becomes
  earlier := h.earlier

theorem LocalsOf.mono {T' : Ty → Prop} (h : LocalsOf T key locals) (hT : ∀ t, T t → T' t) :
    LocalsOf T' key locals :=
  { h with type := fun v hv => hT _ (h.type v hv) }

theorem LocalsOf.push {v : Variable} (h : LocalsOf T key locals) (hlocal : v.isGlobal = false)
    (howner : v.owner = some key) (hindex : v.index = locals.size) (htype : T v.type) :
    LocalsOf T key (locals.push v) where
  numbered := by
    rw [toList_push, Numbered.append_iff]
    exact ⟨h.numbered, Numbered.cons_iff.2 ⟨by simpa using hindex, .nil⟩⟩
  isLocal u hu := by
    rcases mem_push.1 hu with hu | rfl
    · exact h.isLocal u hu
    · exact hlocal
  owner u hu := by
    rcases mem_push.1 hu with hu | rfl
    · exact h.owner u hu
    · exact howner
  type u hu := by
    rcases mem_push.1 hu with hu | rfl
    · exact h.type u hu
    · exact htype

namespace Program.Wf

variable {T : Ty → Prop} {g : Graph} {key : Nat} {prog : Program}

/-- Errors, literals, enums and top-level statements do not matter. -/
theorem of_eq {prog' : Program} (h : prog.Wf T g key) (himports : prog'.imports = prog.imports)
    (hlayout : prog'.layout = prog.layout) (hglobals : prog'.globals = prog.globals)
    (hfunctions : prog'.functions = prog.functions) : prog'.Wf T g key where
  imports := by rw [himports]; exact h.imports
  layout := by rw [himports, hlayout]; exact h.layout
  global := by rw [hglobals]; exact h.global
  globalType := by rw [hglobals]; exact h.globalType
  globals := by rw [hglobals, hlayout]; exact h.globals
  functions := by rw [hfunctions, hlayout]; exact h.functions
  bodies := by rw [hfunctions]; exact h.bodies

theorem pushGlobal (h : prog.Wf T g key) {v : Variable} (hglobal : v.isGlobal)
    (hindex : v.index = prog.nextGlobal) (htype : T v.type) :
    { prog with globals := prog.globals.push v }.Wf T g key :=
  { h with
    global := fun u hu => by
      rcases mem_push.1 hu with hu | rfl
      · exact h.global u hu
      · exact hglobal
    globalType := fun u hu => by
      rcases mem_push.1 hu with hu | rfl
      · exact h.globalType u hu
      · exact htype
    globals := by
      rw [toList_push, Numbered.append_iff]
      exact ⟨h.globals, Numbered.cons_iff.2 ⟨by simpa [nextGlobal] using hindex, .nil⟩⟩ }

theorem pushFunction (h : prog.Wf T g key) {d : FunctionDecl} (hindex : d.index = prog.nextFunction)
    (hd : d.Wf T ⟨key, prog.functions.size⟩) :
    { prog with functions := prog.functions.push d }.Wf T g key :=
  { h with
    functions := by
      rw [toList_push, Numbered.append_iff]
      exact ⟨h.functions, Numbered.cons_iff.2 ⟨by simpa [nextFunction] using hindex, .nil⟩⟩
    bodies := fun i e he => by
      rw [getElem?_push] at he
      split at he
      · next hi =>
        cases he
        rw [hi]
        exact hd
      · exact h.bodies i e he }

theorem modifyFunction (h : prog.Wf T g key) {i : Nat} {f : FunctionDecl → FunctionDecl}
    (hf : ∀ d, prog.functions[i]? = some d →
      (f d).index = d.index ∧ (d.Wf T ⟨key, i⟩ → (f d).Wf T ⟨key, i⟩)) :
    { prog with functions := prog.functions.modify i f }.Wf T g key :=
  { h with
    functions := by
      intro j e he
      rw [getElem?_toList, getElem?_modify] at he
      split at he
      · next hij =>
        obtain ⟨d, hd, rfl⟩ := Option.map_eq_some_iff.1 he
        subst hij
        rw [(hf d hd).1]
        exact h.functions i d (by rw [getElem?_toList]; exact hd)
      · exact h.functions j e (by rw [getElem?_toList]; exact he)
    bodies := by
      intro j e he
      rw [getElem?_modify] at he
      split at he
      · next hij =>
        obtain ⟨d, hd, rfl⟩ := Option.map_eq_some_iff.1 he
        subst hij
        exact (hf d hd).2 (h.bodies i d hd)
      · exact h.bodies j e he }

end Program.Wf

/-- A body that locals and statements may have been added to. -/
inductive FunctionBody.Grows : FunctionBody → FunctionBody → Prop where
  | host (builtin : Builtin) : Grows (.host builtin) (.host builtin)
  | source {scope : ScopeId} {params : Nat} {locals locals' : Array Variable} {stmts stmts' : Array Stmt}
      (vars : locals.toList <+: locals'.toList) (code : stmts.toList <+: stmts'.toList) :
      Grows (.source scope params locals stmts) (.source scope params locals' stmts')

/-- A function whose body may have grown. -/
structure FunctionDecl.Grows (d d' : FunctionDecl) : Prop where
  name : d'.name = d.name
  type : d'.type = d.type
  index : d'.index = d.index
  body : d.body.Grows d'.body

/-- A program that declarations, statements and literals may have been added to. -/
structure Program.Grows (prog prog' : Program) : Prop where
  name : prog'.name = prog.name
  table : prog'.table = prog.table
  imports : prog'.imports = prog.imports
  layout : prog'.layout = prog.layout
  globals : prog.globals.toList <+: prog'.globals.toList
  functions : ∀ (i : Nat) (d : FunctionDecl), prog.functions[i]? = some d →
    ∃ d', prog'.functions[i]? = some d' ∧ d.Grows d'
  init : prog.init.toList <+: prog'.init.toList
  texts : prog.texts <+: prog'.texts

theorem getElem?_push_of_some {α : Type} {xs : Array α} {x a : α} {i : Nat} (h : xs[i]? = some a) :
    (xs.push x)[i]? = some a := by
  rw [getElem?_push, if_neg (Nat.ne_of_lt (Array.getElem?_eq_some_iff.1 h).1), h]

theorem FunctionDecl.Grows.refl (d : FunctionDecl) : d.Grows d := by
  refine ⟨rfl, rfl, rfl, ?_⟩
  cases d.body with
  | host builtin => exact .host builtin
  | source => exact .source List.prefix_rfl List.prefix_rfl

theorem FunctionDecl.Grows.trans {d d' d'' : FunctionDecl} (h : d.Grows d') (h' : d'.Grows d'') :
    d.Grows d'' := by
  refine ⟨h'.name.trans h.name, h'.type.trans h.type, h'.index.trans h.index, ?_⟩
  have hbody := h.body
  have hbody' := h'.body
  generalize d.body = b, d'.body = b', d''.body = b'' at hbody hbody'
  cases hbody with
  | host => exact hbody'
  | source locals stmts =>
    cases hbody' with
    | source locals' stmts' => exact .source (locals.trans locals') (stmts.trans stmts')

theorem Program.Grows.refl (prog : Program) : prog.Grows prog :=
  ⟨rfl, rfl, rfl, rfl, List.prefix_rfl, fun _ d h => ⟨d, h, .refl d⟩, List.prefix_rfl, List.prefix_rfl⟩

theorem Program.Grows.trans {prog prog' prog'' : Program} (h : prog.Grows prog') (h' : prog'.Grows prog'') :
    prog.Grows prog'' where
  name := h'.name.trans h.name
  table := h'.table.trans h.table
  imports := h'.imports.trans h.imports
  layout := h'.layout.trans h.layout
  globals := h.globals.trans h'.globals
  functions i d hd := by
    obtain ⟨d', hd', grows⟩ := h.functions i d hd
    obtain ⟨d'', hd'', grows'⟩ := h'.functions i d' hd'
    exact ⟨d'', hd'', grows.trans grows'⟩
  init := h.init.trans h'.init
  texts := h.texts.trans h'.texts

namespace Workspace

variable {T : Ty → Prop} {ss : List (Option Source)} {w w' : Workspace} {p : ProgramId}

theorem program_eq {prog : Program} (h : w.programs[p.index]? = some prog) : w.program p = prog := by
  simp [program, getD_eq_getD_getElem?, h]

/-- Changes to the scopes and the programs of a workspace, whose programs grow and stay well-formed. -/
inductive Changes (T : Ty → Prop) : Workspace → Workspace → Prop where
  | refl {w : Workspace} : Changes T w w
  | trans {w w' w'' : Workspace} : Changes T w w' → Changes T w' w'' → Changes T w w''
  | scopes {w : Workspace} (scopes : Forest) (nextLabel : Nat) : Changes T w { w with scopes, nextLabel }
  | program {w : Workspace} {p : ProgramId} {f : Program → Program}
      (keeps : ∀ prog, w.programs[p.index]? = some prog → prog.Grows (f prog) ∧
        (prog.Wf T w.modules p.index → (f prog).Wf T w.modules p.index)) : Changes T w (w.modifyProgram p f)
  | newProgram {w : Workspace} {prog : Program} (wf : prog.Wf T w.modules w.programs.size)
      (prims : ∀ q, T ((w.types.table prog.table).prim q)) :
      Changes T w { w with programs := w.programs.push prog }

namespace Changes

theorem types_eq (h : Changes T w w') : w'.types = w.types := by
  induction h with
  | trans _ _ ih ih' => exact ih'.trans ih
  | _ => rfl

theorem wf (h : Changes T w w') (hw : w.Wf T ss) : w'.Wf T ss := by
  induction h with
  | refl => exact hw
  | trans _ _ ih ih' => exact ih' (ih hw)
  | scopes => exact ⟨hw.closed, hw.tables, hw.programs, hw.length, hw.sources⟩
  | newProgram wf prims =>
    refine ⟨hw.closed, hw.tables, fun i prog hprog => ?_, hw.length, hw.sources⟩
    simp only [getElem?_push] at hprog
    split at hprog
    · next hi =>
      cases hprog
      exact ⟨hi ▸ wf, prims⟩
    · exact hw.programs i prog hprog
  | program keeps =>
    refine ⟨hw.closed, hw.tables, fun i prog hprog => ?_, hw.length, hw.sources⟩
    rw [Workspace.modifyProgram, getElem?_modify] at hprog
    split at hprog
    · next hi =>
      obtain ⟨old, hold, rfl⟩ := Option.map_eq_some_iff.1 hprog
      subst hi
      obtain ⟨hwf, htypes⟩ := hw.programs _ old hold
      obtain ⟨grows, hkeeps⟩ := keeps old hold
      exact ⟨hkeeps hwf, fun q => by rw [grows.table]; exact htypes q⟩
    · exact hw.programs i prog hprog

/-- A program is still there, with all it had. -/
theorem grows (h : Changes T w w') {prog : Program} (hprog : w.programs[p.index]? = some prog) :
    ∃ prog', w'.programs[p.index]? = some prog' ∧ prog.Grows prog' := by
  induction h generalizing prog with
  | refl | scopes => exact ⟨prog, hprog, .refl prog⟩
  | trans _ _ ih ih' =>
    obtain ⟨prog₁, hprog₁, grows⟩ := ih hprog
    obtain ⟨prog₂, hprog₂, grows'⟩ := ih' hprog₁
    exact ⟨prog₂, hprog₂, grows.trans grows'⟩
  | newProgram => exact ⟨prog, getElem?_push_of_some hprog, .refl prog⟩
  | @program w q f keeps =>
    rw [Workspace.modifyProgram, Array.getElem?_modify]
    split
    · next hi =>
      rw [← hi] at hprog ⊢
      rw [hprog]
      exact ⟨_, rfl, (keeps prog hprog).1⟩
    · exact ⟨prog, hprog, .refl prog⟩

/-- Errors and enums of a program may be changed at will. -/
theorem aside {errors : Program → Array CompileError} {enums : Program → List (Nat × ScopeId)} :
    Changes T w (w.modifyProgram p fun prog => { prog with errors := errors prog, enums := enums prog }) :=
  .program fun prog _ => ⟨{ Program.Grows.refl prog with }, fun hwf => hwf.of_eq rfl rfl rfl rfl⟩

theorem record (e : CompileError) : Changes T w (w.record p e) :=
  .aside

variable {α : Type}

theorem commit {x : Except CompileError (α × Workspace)} (hx : ∀ a w', x = .ok (a, w') → Changes T w w') :
    Changes T w (w.commit p x).2 := by
  match x, hx with
  | .ok (a, w'), hx => exact hx a w' rfl
  | .error e, _ => exact .record e

theorem foldl {f : Workspace → α → Workspace} (hf : ∀ w a, Changes T w (f w a)) (xs : List α) (w : Workspace) :
    Changes T w (xs.foldl f w) := by
  induction xs generalizing w with
  | nil => exact .refl
  | cons x xs ih => exact (hf w x).trans (ih _)

end Changes

variable {s scope : ScopeId} {name : String} {e : Entry}

theorem exists_of_declare (h : w.declare s name e = .ok w') : ∃ scopes, w' = { w with scopes } := by
  unfold Workspace.declare at h
  cases hd : w.scopes.declare s name e with
  | error e' =>
    rw [hd] at h
    cases h
  | ok scopes =>
    rw [hd] at h
    cases h
    exact ⟨scopes, rfl⟩

theorem changes_declare (h : w.declare s name e = .ok w') : Changes T w w' := by
  obtain ⟨scopes, rfl⟩ := exists_of_declare h
  exact .scopes scopes _

theorem changes_declareGlobal (scope : ScopeId) (name : String) {t : Ty} (ht : T t) :
    Changes T w (w.declareGlobal p scope name t).2 := by
  refine .commit fun a w' hok => ?_
  obtain ⟨-, -, hok⟩ := Except.bind_eq_ok.1 hok
  obtain ⟨w₁, hdeclare, hok⟩ := Except.bind_eq_ok.1 hok
  obtain ⟨scopes, rfl⟩ := exists_of_declare hdeclare
  cases hok
  refine .trans (.scopes scopes _) (.program fun prog hprog => ⟨?_, fun hwf => ?_⟩)
  · exact { Program.Grows.refl prog with globals := by simp }
  refine hwf.pushGlobal rfl ?_ ht
  simp only [program_eq (w := w) hprog]

theorem changes_addFunction {origin : Origin} {type : Ty} {body : FunctionBody} {f : Callable}
    (hd : ∀ index, FunctionDecl.Wf T ⟨p.index, (w.program p).functions.size⟩ ⟨name, type, index, body⟩)
    (hok : w.addFunction p scope origin name type body = .ok (f, w')) : Changes T w w' := by
  obtain ⟨w₁, hdeclare, hok⟩ := Except.bind_eq_ok.1 hok
  obtain ⟨scopes, rfl⟩ := exists_of_declare hdeclare
  cases hok
  refine .trans (.scopes scopes _) (.program fun prog hprog => ⟨?_, fun hwf => ?_⟩)
  · exact { Program.Grows.refl prog with functions := fun i d hd => ⟨d, getElem?_push_of_some hd, .refl d⟩ }
  have heq := program_eq (w := w) hprog
  refine hwf.pushFunction ?_ ?_
  · simp only [heq]
  · rw [← heq]
    exact hd _

/-- Parameters become locals of their types, in order. -/
theorem locals_of_declareParams {unit : String} {key : UnitKey} {params : List (String × Ty)}
    {locals locals' : Array Variable} (h : declareParams unit key scope params (w, locals) = .ok (w', locals'))
    (hlocals : LocalsOf T key locals) (hT : ∀ t ∈ params.map (·.2), T t) :
    (∃ scopes, w' = { w with scopes }) ∧ LocalsOf T key locals' ∧
      locals'.toList.map (·.type) = locals.toList.map (·.type) ++ params.map (·.2) := by
  induction params generalizing w locals with
  | nil =>
    cases h
    exact ⟨⟨w'.scopes, rfl⟩, hlocals, by simp⟩
  | cons param params ih =>
    obtain ⟨-, -, h⟩ := Except.bind_eq_ok.1 h
    obtain ⟨w₁, hdeclare, h⟩ := Except.bind_eq_ok.1 h
    obtain ⟨scopes, rfl⟩ := exists_of_declare hdeclare
    obtain ⟨ht, hrest⟩ := List.forall_mem_cons.1 hT
    obtain ⟨⟨scopes', rfl⟩, hlocals', htypes⟩ := ih h (hlocals.push rfl rfl rfl ht) hrest
    exact ⟨⟨scopes', rfl⟩, hlocals', by simp [htypes]⟩

end Workspace

namespace Registry

/-- Registering types changes no primitive of a table. -/
structure Keeps (r r' : Registry) : Prop where
  size : r'.tables.size = r.tables.size
  table : ∀ u, ∃ types, r'.table u = { r.table u with types }

theorem keeps_register (r : Registry) (t : TableId) (make : Nat → Ty) : r.Keeps (r.register t make).2 :=
  ⟨r.size_tables_register t make, fun u => (r.table_register t make u).imp' _ fun _ heq => heq⟩

theorem keeps_intern (r : Registry) (t : TableId) (s : Shape) : r.Keeps (r.intern t s).2 := by
  unfold intern
  split
  · exact ⟨rfl, fun u => ⟨_, rfl⟩⟩
  · exact r.keeps_register t _

/-- Tables stay where they are, with their primitives. -/
def Widens (r r' : Registry) : Prop := ∀ t : TableId, t.index < r.tables.size →
  t.index < r'.tables.size ∧ ∃ types, r'.table t = { r.table t with types }

theorem Widens.refl (r : Registry) : r.Widens r := fun _ ht => ⟨ht, _, rfl⟩

theorem Widens.trans {r r' r'' : Registry} (h : r.Widens r') (h' : r'.Widens r'') : r.Widens r'' := by
  intro t ht
  obtain ⟨ht', types, htable⟩ := h t ht
  obtain ⟨ht'', types', htable'⟩ := h' t ht'
  exact ⟨ht'', types', by rw [htable', htable]⟩

theorem Keeps.widens {r r' : Registry} (h : r.Keeps r') : r.Widens r' :=
  fun t ht => ⟨by rwa [h.size], h.table t⟩

theorem widens_newTable (r : Registry) : r.Widens r.newTable.2 := by
  refine fun t ht => ⟨by simp [newTable]; omega, (r.table t).types, ?_⟩
  simp [table, newTable, getD_eq_getD_getElem?, getElem?_push, Nat.ne_of_lt ht]

/-- One request more to a registry, or none. -/
inductive Advances (r : Registry) : Registry → Prop where
  | same : Advances r r
  | newTable : Advances r r.newTable.2
  | intern (t : TableId) (s : Shape) (known : ∀ u ∈ s.parts, r.Knows u) : Advances r (r.intern t s).2
  | enumOf (t : TableId) (name : String) (members : List EnumMember) :
      Advances r (r.enumOf t name members).2

/-- The type of a signature has the result and the parameters asked for. -/
theorem intern_function (r : Registry) (t : TableId) (output : Ty) (inputs : List Ty) :
    ∃ id output' inputs', (r.intern t (.function output inputs)).1 = .function id output' inputs' ∧
      inputs'.map Ty.id = inputs.map Ty.id := by
  unfold intern
  split
  · next known hknown =>
    have hfits := List.find?_some hknown
    cases known with
    | function id output' inputs' =>
      rw [Shape.fits, beq_iff_eq, Shape.signatureKey_eq_iff] at hfits
      exact ⟨id, output', inputs', rfl, hfits.2.symm⟩
    | _ => cases hfits
  · exact ⟨_, output, inputs, rfl, rfl⟩

end Registry

namespace Workspace

variable {T : Ty → Prop} {ss : List (Option Source)} {w w' : Workspace} {p : ProgramId}

theorem Wf.types (h : w.Wf T ss) {types : Registry} (keeps : w.types.Keeps types) : { w with types }.Wf T ss where
  closed := h.closed
  length := h.length
  sources := h.sources
  tables t := by
    obtain ⟨ts, heq⟩ := keeps.table t
    obtain ⟨h₁, h₂, h₃, h₄, h₅⟩ := h.tables t
    simp only [heq]
    exact ⟨h₁, h₂, h₃, h₄, h₅⟩
  programs i prog hprog := by
    obtain ⟨hwf, htypes⟩ := h.programs i prog hprog
    refine ⟨hwf, fun q => ?_⟩
    obtain ⟨ts, heq⟩ := keeps.table prog.table
    simp only [heq]
    have := htypes q
    cases q <;> exact this

theorem Wf.intern (h : w.Wf T ss) (t : TableId) (s : Shape) : (w.intern t s).2.Wf T ss :=
  h.types (w.types.keeps_intern t s)

theorem Wf.newTable (h : w.Wf T ss) (hT : ∀ t ∈ (TyTable.startingAt w.types.next).types, T t) :
    w.newTable.2.Wf T ss := by
  have htable (u : TableId) : (w.types.newTable.2).table u = w.types.table u ∨
      (w.types.newTable.2).table u = TyTable.startingAt w.types.next := by
    simp only [Registry.newTable, Registry.table, getD_eq_getD_getElem?, getElem?_push]
    split
    · exact .inr rfl
    · exact .inl rfl
  refine ⟨h.closed, fun u => ?_, fun i prog hprog => ?_, h.length, h.sources⟩
  · rcases htable u with heq | heq
    · exact heq ▸ h.tables u
    · exact heq ▸ ⟨rfl, rfl, rfl, rfl, rfl⟩
  · obtain ⟨hwf, htypes⟩ := h.programs i prog hprog
    refine ⟨hwf, fun q => ?_⟩
    rcases htable prog.table with heq | heq
    · exact heq ▸ htypes q
    · refine heq ▸ hT _ ?_
      cases q <;> simp [TyTable.startingAt, TyTable.prim]

/-- Declaring a function registers its type, and then declares its parameters and the function
itself or fails. -/
theorem declareFunction_eq (w : Workspace) (p : ProgramId) (scope : ScopeId) (name : String)
    (output : Ty) (params : List (String × Ty)) :
    ∃ x, w.declareFunction p scope name output params =
        (w.intern (w.program p).table (.function output (params.map (·.2)))).2.commit p x ∧
      ∀ f w', x = .ok (f, w') → ∃ scopes own w₁ locals,
        declareParams (w.program p).name ⟨p.index, (w.program p).functions.size⟩ own params
          ({ (w.intern (w.program p).table (.function output (params.map (·.2)))).2 with scopes },
            #[]) = .ok (w₁, locals) ∧
        w₁.addFunction p scope (.declared ⟨p.index, (w.program p).functions.size⟩) name
          (w.intern (w.program p).table (.function output (params.map (·.2)))).1
          (.source own params.length locals #[]) = .ok (f, w') := by
  refine ⟨_, rfl, fun f w' h => ?_⟩
  by_cases hvoid : output.kind = .void
  · simp only [ne_eq, hvoid, not_true_eq_false, if_false] at h
    obtain ⟨⟨w₁, locals⟩, hparams, h⟩ := Except.bind_eq_ok.1 h
    exact ⟨_, _, w₁, locals, hparams, h⟩
  · simp only [ne_eq, hvoid, not_false_eq_true, if_true] at h
    obtain ⟨-, -, h⟩ := Except.bind_eq_ok.1 h
    obtain ⟨⟨w₁, locals⟩, hparams, h⟩ := Except.bind_eq_ok.1 h
    exact ⟨_, _, w₁, locals, hparams, h⟩

theorem changes_declareFunction (scope : ScopeId) (name : String) (output : Ty) (params : List (String × Ty))
    (hT : ∀ t ∈ (Request.declareFunction p scope name output params).types w, T t) :
    Changes T (w.intern (w.program p).table (.function output (params.map (·.2)))).2
      (w.declareFunction p scope name output params).2 := by
  obtain ⟨htype, hparamTypes⟩ := List.forall_mem_cons.1 hT
  obtain ⟨id, output', inputs', hsig, hids⟩ :=
    w.types.intern_function (w.program p).table output (params.map (·.2))
  obtain ⟨x, hx, hinv⟩ := declareFunction_eq w p scope name output params
  rw [hx]
  refine .commit fun f w' hok => ?_
  obtain ⟨scopes, own, w₁, locals, hparams, hadd⟩ := hinv f w' hok
  obtain ⟨⟨scopes₁, rfl⟩, hlocals, htypes⟩ := locals_of_declareParams hparams
    (T := T) ⟨by simp, by simp, by simp, by simp⟩ hparamTypes
  refine .trans (.scopes scopes₁ _) (changes_addFunction (fun index => ⟨htype, ⟨_, _, _, hsig⟩, ?_⟩) hadd)
  intro _ _ _ _ hbody
  cases hbody
  have hlen : locals.size = params.length := by simpa using congrArg List.length htypes
  refine ⟨hlocals, by omega, ?_⟩
  have hall : locals.toList.map (·.type.id) = params.map (·.2.id) := by
    simpa [Function.comp_def] using congrArg (List.map Ty.id) htypes
  rw [List.take_of_length_le (by simp [hlen]), hall]
  change _ = List.map Ty.id (Registry.intern _ _ _).1.inputs
  rw [hsig, Ty.inputs, hids]
  simp

theorem changes_declareBuiltin (scope : ScopeId) (name : String) (output : Ty) (inputs : List Ty)
    (builtin : Builtin) (hT : ∀ t ∈ (Request.declareBuiltin p scope name output inputs builtin).types w, T t) :
    Changes T (w.intern (w.program p).table (.function output inputs)).2
      (w.declareBuiltin p scope name output inputs builtin).2 := by
  obtain ⟨id, output', inputs', hsig, -⟩ :=
    w.types.intern_function (w.program p).table output inputs
  refine .commit fun f w' hok => changes_addFunction (fun index => ?_) hok
  refine ⟨hT _ (List.mem_singleton.2 rfl), ⟨_, _, _, hsig⟩, fun hbody => ?_⟩
  cases hbody

variable {α : Type} {t : Ty}

theorem exists_of_foldlM_declare {s : ScopeId} {name : α → String} {entry : α → Entry} {xs : List α}
    (h : xs.foldlM (fun w x => w.declare s (name x) (entry x)) w = .ok w') : ∃ scopes, w' = { w with scopes } := by
  induction xs generalizing w with
  | nil =>
    cases h
    exact ⟨w'.scopes, rfl⟩
  | cons x xs ih =>
    obtain ⟨w₁, hdeclare, h⟩ := Except.bind_eq_ok.1 h
    obtain ⟨scopes, rfl⟩ := exists_of_declare hdeclare
    obtain ⟨scopes', rfl⟩ := ih h
    exact ⟨scopes', rfl⟩

theorem changes_declareEnum (scope : ScopeId) (name : String) (items : List (String × Option Expr)) :
    Changes T w (w.declareEnum p scope name items).2 ∨
      ∃ members, Changes T (w.newEnum (w.program p).table name members).2 (w.declareEnum p scope name items).2 := by
  unfold Workspace.declareEnum
  split
  · exact .inl (.record _)
  · next members _ =>
    refine .inr ⟨members, .commit fun t w' hok => ?_⟩
    obtain ⟨w₁, hmembers, hok⟩ := Except.bind_eq_ok.1 hok
    obtain ⟨scopes₁, rfl⟩ := exists_of_foldlM_declare hmembers
    obtain ⟨w₂, hdeclare, hok⟩ := Except.bind_eq_ok.1 hok
    obtain ⟨scopes₂, rfl⟩ := exists_of_declare hdeclare
    cases hok
    exact .trans (.scopes scopes₂ _) .aside

theorem changes_declareConst (scope : ScopeId) (name : String) (t : Ty) (e : Expr) :
    Changes T w (w.declareConst p scope name t e).2 := by
  refine .commit fun c w' hok => ?_
  have finish {v : Folded} (hok : (do
      if !assignable t v.type then throw ⟨(w.program p).name, .constantValue name v.type t⟩
      let c : Constant := { name, type := t, value := convert v.value v.type t }
      let w ← w.declare scope name (.constant c)
      return (c, w)) = Except.ok (c, w')) : Changes T w w' := by
    split at hok
    · cases hok
    · obtain ⟨w₁, hdeclare, hok⟩ := Except.bind_eq_ok.1 hok
      cases hok
      exact changes_declare hdeclare
  split at hok
  case h_5 => cases hok
  all_goals
    obtain ⟨v, -, hok⟩ := Except.bind_eq_ok.1 hok
    exact finish hok

theorem changes_declareType (scope : ScopeId) (name : String) (t : Ty) :
    Changes T w (w.declareType p scope name t).2 := by
  refine .commit fun _ w' hok => ?_
  obtain ⟨w₁, hdeclare, hok⟩ := Except.bind_eq_ok.1 hok
  cases hok
  exact changes_declare hdeclare

/-- A body may be changed if locals are only added, and in the right way. -/
theorem changes_modifyBody {key : UnitKey}
    {f : Array Variable → Array Stmt → Array Variable × Array Stmt}
    (hf : ∀ d scope params locals stmts, w.declared? key = some d → d.body = .source scope params locals stmts →
      (LocalsOf T key locals → LocalsOf T key (f locals stmts).1) ∧
        locals.toList <+: (f locals stmts).1.toList ∧ stmts.toList <+: (f locals stmts).2.toList) :
    Changes T w (w.modifyBody key f) := by
  refine .program fun prog hprog => ?_
  have hdeclared {d : FunctionDecl} (hd : prog.functions[key.position]? = some d) : w.declared? key = some d := by
    rw [declared?, program_eq hprog]
    exact hd
  refine ⟨{ Program.Grows.refl prog with functions := fun i d hd => ?_ }, fun hwf => hwf.modifyFunction fun d hd => ?_⟩
  · rw [getElem?_modify]
    split
    · next hi =>
      subst hi
      rw [hd]
      refine ⟨_, rfl, ?_⟩
      dsimp only
      cases hbody : d.body with
      | host builtin => exact .refl d
      | source scope params locals stmts =>
        obtain ⟨-, hlocals, hstmts⟩ := hf d scope params locals stmts (hdeclared hd) hbody
        exact ⟨rfl, rfl, rfl, by rw [hbody]; exact .source hlocals hstmts⟩
    · exact ⟨d, hd, .refl d⟩
  cases hbody : d.body with
  | host builtin => exact ⟨rfl, id⟩
  | source scope params locals stmts =>
    refine ⟨rfl, fun hdwf => ⟨hdwf.type, hdwf.signature, ?_⟩⟩
    intro _ _ _ _ heq
    cases heq
    obtain ⟨hlocals, hle, htake⟩ := hdwf.locals hbody
    obtain ⟨hlocals', hprefix, -⟩ := hf d scope params locals stmts (hdeclared hd) hbody
    refine ⟨hlocals' hlocals, ?_, ?_⟩
    · have := hprefix.length_le
      simp only [length_toList] at this
      omega
    · obtain ⟨more, hmore⟩ := hprefix
      rw [← hmore, List.take_append_of_le_length (by simpa using hle)]
      exact htake

theorem changes_append (b : Block) (stmts : List Stmt) : Changes T w (b.append w stmts) := by
  unfold Block.append
  split
  · exact .program fun prog _ => ⟨{ Program.Grows.refl prog with init := by simp },
      fun hwf => hwf.of_eq rfl rfl rfl rfl⟩
  · exact changes_modifyBody fun _ _ _ _ _ _ _ => ⟨id, List.prefix_rfl, by simp⟩
  · exact .refl

theorem changes_refuse (b : Block) (e : CompileError) :
    Changes T w (b.refuse w e : Except BlockError α × Workspace).2 := by
  unfold Block.refuse
  split
  · exact .record e
  · exact .refl

theorem changes_declareLocal (b : Block) (key : UnitKey) (scope : ScopeId) (name : String) (ht : T t) :
    Changes T w (b.declareLocal w key scope name t).2 := by
  unfold Block.declareLocal
  split
  · exact changes_refuse b _
  · split
    · exact changes_refuse b _
    · next hdeclared =>
      simp only
      split
      · exact changes_refuse b _
      · next w₁ hdeclare =>
        obtain ⟨scopes, rfl⟩ := exists_of_declare hdeclare
        dsimp only
        refine .trans (.scopes scopes _) (changes_modifyBody fun d _ _ locals stmts hd hbody => ?_)
        have heq := Option.some.inj (hdeclared.symm.trans hd)
        subst heq
        cases hbody
        exact ⟨fun hlocals => hlocals.push rfl rfl rfl ht, by simp, List.prefix_rfl⟩
    · exact .refl

theorem changes_declareVar (b : Block) (name : String) (ht : T t) : Changes T w (b.declareVar w name t).2 := by
  unfold Block.declareVar
  split
  · exact changes_declareGlobal _ name ht
  · exact changes_declareLocal b _ _ name ht
  · exact .refl

theorem changes_declareLabel (b : Block) (name : String) : Changes T w (b.declareLabel w name).2 := by
  unfold Block.declareLabel
  split
  · exact .refl
  · simp only
    split
    · next w₁ hdeclare =>
      obtain ⟨scopes, rfl⟩ := exists_of_declare hdeclare
      exact .scopes scopes _
    · exact .trans (.scopes _ _) (changes_refuse b _)

theorem changes_breakLoop (b : Block) : Changes T w (b.breakLoop w).2 := by
  unfold Block.breakLoop
  split
  · exact changes_append b _
  · exact changes_refuse b _

theorem changes_continueLoop (b : Block) : Changes T w (b.continueLoop w).2 := by
  unfold Block.continueLoop
  split
  · exact changes_append b _
  · exact changes_refuse b _

theorem changes_importModule (top : ScopeId) (w : Workspace) (m : Module) :
    Changes T w (importModule p top w m) := by
  unfold Workspace.importModule
  dsimp only
  split
  case' h_1 => refine .trans (.trans (.scopes _ _) (.trans (.foldl ?_ _ _) (.foldl ?_ _ _))) (.scopes _ _)
  case' h_2 => refine .trans (.trans (.scopes _ _) (.trans (.foldl ?_ _ _) (.foldl ?_ _ _))) (.record _)
  all_goals
    intro w a
    split
    · exact .scopes _ _
    · exact .record _

theorem changes_newProgram (name : String) (table : TableId) (imports : List ModuleId)
    (exist : ∀ i ∈ imports, i.index < w.modules.size)
    (hT : ∀ q, T ((w.types.table table).prim q)) : Changes T w (w.newProgram name table imports).2 := by
  refine .trans (.trans (.scopes _ _) (.newProgram ?_ hT)) (.foldl (changes_importModule _) _ _)
  exact ⟨exist, rfl, by simp, by simp, by simp, by simp, by simp⟩

/-- More modules, which come with their sources. -/
theorem Wf.modules (h : w.Wf T ss) {modules : Graph} {more : List (Option Source)}
    (ext : modules.Extends w.modules) (closed : modules.Closed)
    (size : modules.size = w.modules.size + more.length)
    (new : ∀ (i : Nat) (s : Source), more[i]? = some (some s) →
      s.Wf T modules (w.modules.size + i)) :
    { w with modules }.Wf T (ss ++ more) where
  closed := closed
  tables := h.tables
  programs i prog hprog :=
    ⟨(h.programs i prog hprog).1.of_extends ext h.closed, (h.programs i prog hprog).2⟩
  length := by rw [List.length_append, h.length, size]
  sources i s hs := by
    by_cases hi : i < ss.length
    · rw [List.getElem?_append_left hi] at hs
      exact (h.sources i s hs).of_extends ext h.closed (h.length ▸ hi)
    · rw [List.getElem?_append_right (Nat.not_lt.1 hi)] at hs
      have := new _ s hs
      rwa [← h.length, Nat.add_sub_cancel' (Nat.not_lt.1 hi)] at this

theorem addModules_eq (w : Workspace) (ms : List Module) :
    ms.foldl (fun w m => (w.addModule m).2) w = { w with modules := w.modules.addAll ms } := by
  induction ms generalizing w with
  | nil => rfl
  | cons m ms ih =>
    rw [List.foldl_cons, ih]
    rfl

/-- A program that is not there has nothing in it. -/
theorem Wf.program (h : w.Wf T ss) (p : ProgramId) : (w.program p).Wf T w.modules p.index := by
  cases hprog : w.programs[p.index]? with
  | some prog => exact program_eq hprog ▸ (h.programs p.index prog hprog).1
  | none =>
    have heq : w.program p = default := by
      simp [Workspace.program, getD_eq_getD_getElem?, hprog]
    rw [heq]
    refine ⟨?_, ?_, ?_, ?_, ?_, ?_, ?_⟩ <;> simp [default]
    rfl

/-- A failed compilation only leaves errors with the program. -/
theorem of_compile_error {id : Uuid} {e : CompileFailure} (h : w.compile p id = (.error e, w')) :
    w' = w ∨ ∃ errors, w' = w.modifyProgram p fun prog => { prog with errors } := by
  unfold Workspace.compile at h
  simp only at h
  split at h
  · cases h
    exact .inl rfl
  · split at h
    · cases h
      exact .inl rfl
    · split at h
      · cases h
        exact .inr ⟨_, rfl⟩
      · cases h

/-- A compiled module comes with its source. -/
theorem Wf.addCompiled (h : w.Wf T ss) {m : Module} (hm : (w.program p).Becomes p (w.tableOf p) m) :
    Wf T (ss ++ [some ⟨p, w.program p, w.tableOf p⟩]) { w with modules := (w.modules.add m).2 } := by
  have hprog := h.program p
  have ext := w.modules.extends_add m
  have closed : (w.modules.add m).2.Closed := by
    have himports : ∀ m' ∈ [m], ∀ i ∈ m'.imports, i.index < w.modules.size + [m].length := by
      refine List.forall_mem_singleton.2 fun i hi => Nat.lt_succ_of_lt (hprog.imports i ?_)
      rwa [← hm.imports]
    exact Graph.closed_addAll h.closed himports
  refine h.modules ext closed (w.modules.size_add m) fun i s hs => ?_
  obtain ⟨rfl, rfl⟩ : i = 0 ∧ s = ⟨p, w.program p, w.tableOf p⟩ := by
    cases i with
    | zero => exact ⟨rfl, (Option.some.inj (Option.some.inj hs)).symm⟩
    | succ i => simp at hs
  refine ⟨hprog.of_extends ext h.closed, h.tables _, ?_, hprog.imports⟩
  rw [Nat.add_zero, Graph.bare, Graph.get_add]
  exact { hm with }

/-- The types that a request is given are known, and what it adds to exists. -/
def Request.Registered (w : Workspace) : Request → Prop
  | intern _ s => ∀ t ∈ s.parts, w.types.Knows t
  | newProgram _ table _ => table.index < w.types.tables.size
  | declareGlobal _ _ _ t | declareVar _ _ t => w.types.Knows t
  | declareFunction p _ _ output params =>
    (w.program p).table.index < w.types.tables.size ∧ w.types.Knows output ∧
      ∀ t ∈ params.map (·.2), w.types.Knows t
  | declareBuiltin p _ _ output inputs _ =>
    (w.program p).table.index < w.types.tables.size ∧ w.types.Knows output ∧
      ∀ t ∈ inputs, w.types.Knows t
  | compile p _ => p.index < w.programs.size
  | _ => True

variable {r : Request}

/-- A request registers types, adds modules, and changes scopes and programs. -/
structure Request.Effect (T : Ty → Prop) (w : Workspace) (r : Request) (types : Registry) (modules : Graph) :
    Prop where
  advances : r.Registered w → w.types.Advances types
  widens : w.types.Widens types
  wf : ∀ ss, w.Wf T ss → { w with types, modules }.Wf T (ss ++ r.sources w)
  changes : Changes T { w with types, modules } (r.apply w)

theorem Request.exists_effect (ok : r.Admissible w) (hT : ∀ t ∈ r.types w, T t) :
    ∃ types modules, r.Effect T w types modules := by
  have added {types : Registry} (hr : r.sources w = []) (advances : r.Registered w → w.types.Advances types)
      (widens : w.types.Widens types) (wf : ∀ ss, w.Wf T ss → { w with types }.Wf T ss)
      (changes : Changes T { w with types } (r.apply w)) : ∃ types modules, r.Effect T w types modules :=
    ⟨types, w.modules, advances, widens, fun ss h => by rw [hr, List.append_nil]; exact wf ss h, changes⟩
  have changed (hr : r.sources w = []) (changes : Changes T w (r.apply w)) :=
    added hr (fun _ => .same) (.refl _) (fun _ => id) changes
  cases r with
  | newTable => exact added rfl (fun _ => .newTable) w.types.widens_newTable (fun _ h => h.newTable hT) .refl
  | intern t s => exact added rfl (.intern t s) (w.types.keeps_intern t s).widens (fun _ h => h.intern t s) .refl
  | newEnum t name members =>
    exact added rfl (fun _ => .enumOf t name members) (w.types.keeps_register t _).widens
      (fun _ h => h.types (w.types.keeps_register t _)) .refl
  | addModules ms =>
    refine ⟨w.types, w.modules.addAll ms, fun _ => .same, .refl _, fun ss h => ?_, ?_⟩
    · refine h.modules (w.modules.extends_addAll ms) (Graph.closed_addAll h.closed ok) ?_ ?_
      · simp [Graph.size_addAll, Request.sources]
      · intro i s hs
        have := List.mem_of_getElem? hs
        simp [Request.sources] at this
    · rw [Request.apply, addModules_eq]
      exact .refl
  | setId m id =>
    refine ⟨w.types, _, fun _ => .same, .refl _, fun ss h => ?_, .refl⟩
    have hsize : (w.modules.setId m id).size = w.modules.size := by simp [Graph.setId, Graph.size]
    refine h.modules (w.modules.extends_setId m id) (fun i hi j hj => ?_) hsize
      fun i s hs => by cases hs
    rw [Graph.importsOf_eq, Graph.bare_setId, ← Graph.importsOf_eq] at hj
    rw [hsize] at hi ⊢
    exact h.closed i hi j hj
  | newLabel name | newScope parent name => exact changed rfl (.scopes _ _)
  | declare s name e =>
    refine changed rfl ?_
    rw [Request.apply]
    split
    · next w' hdeclare => exact changes_declare hdeclare
    · exact .refl
  | newProgram name table imports =>
    refine changed rfl (changes_newProgram name table imports ok fun q => hT _ (List.mem_map.2 ⟨q, ?_, rfl⟩))
    cases q <;> simp [Prim.all]
  | declareGlobal p scope name t =>
    exact changed rfl (changes_declareGlobal scope name (hT t (List.mem_singleton.2 rfl)))
  | declareFunction p scope name output params =>
    refine added rfl (fun h => .intern _ _ ?_) (w.types.keeps_intern _ _).widens (fun _ h => h.intern _ _)
      (changes_declareFunction scope name output params hT)
    exact List.forall_mem_cons.2 h.2
  | declareBuiltin p scope name output inputs builtin =>
    refine added rfl (fun h => .intern _ _ ?_) (w.types.keeps_intern _ _).widens (fun _ h => h.intern _ _)
      (changes_declareBuiltin scope name output inputs builtin hT)
    exact List.forall_mem_cons.2 h.2
  | declareEnum p scope name items =>
    obtain changes | ⟨members, changes⟩ := changes_declareEnum (T := T) (w := w) (p := p) scope name items
    · exact changed rfl changes
    · exact added rfl (fun _ => .enumOf _ name members) (w.types.keeps_register _ _).widens
        (fun _ h => h.types (w.types.keeps_register _ _)) changes
  | declareConst p scope name t e => exact changed rfl (changes_declareConst scope name t e)
  | declareType p scope name t => exact changed rfl (changes_declareType scope name t)
  | append b stmts => exact changed rfl (changes_append b stmts)
  | declareVar b name t => exact changed rfl (changes_declareVar b name (hT t (List.mem_singleton.2 rfl)))
  | declareLabel b name => exact changed rfl (changes_declareLabel b name)
  | breakLoop b => exact changed rfl (changes_breakLoop b)
  | continueLoop b => exact changed rfl (changes_continueLoop b)
  | compile p id =>
    cases hcompile : w.compile p id with
    | mk result w' =>
      cases result with
      | ok mid =>
        obtain ⟨-, m, hm, -, rfl⟩ := becomes_of_compile hcompile
        refine ⟨w.types, (w.modules.add m).2, fun _ => .same, .refl _, fun ss h => ?_, ?_⟩
        · rw [Request.sources, hcompile]
          exact h.addCompiled hm
        · rw [Request.apply, hcompile]
          refine .program fun prog hprog => ⟨{ Program.Grows.refl prog with texts := ?_ },
            fun hwf => hwf.of_eq rfl rfl rfl rfl⟩
          rw [← program_eq (w := w) hprog]
          exact hm.texts
      | error e =>
        refine changed (by rw [Request.sources, hcompile]) ?_
        rw [Request.apply, hcompile]
        obtain rfl | ⟨errors, rfl⟩ := of_compile_error hcompile
        · exact .refl
        · exact .aside

/-- An admissible request keeps the invariant. -/
theorem Wf.apply (h : w.Wf T ss) (ok : r.Admissible w) (hT : ∀ t ∈ r.types w, T t) :
    (r.apply w).Wf T (ss ++ r.sources w) := by
  obtain ⟨types, modules, effect⟩ := Request.exists_effect ok hT
  exact effect.changes.wf (effect.wf ss h)

theorem wf_empty : ({} : Workspace).Wf T [] where
  closed m hm := by simp [Graph.size] at hm
  tables t := ⟨rfl, rfl, rfl, rfl, rfl⟩
  programs i prog hprog := by simp at hprog
  length := rfl
  sources i s hs := by simp at hs

/-- The invariant holds of every workspace that admissible requests lead to. -/
theorem Built.wf {allowed : Workspace → Request → Prop}
    (admissible : ∀ w r, allowed w r → r.Admissible w) (h : Built allowed w ss) :
    w.Wf (fun _ => True) ss := by
  induction h with
  | start => exact wf_empty
  | next _ r ok ih => exact ih.apply (admissible _ r ok) fun _ _ => trivial

end Workspace
end Stackwork
