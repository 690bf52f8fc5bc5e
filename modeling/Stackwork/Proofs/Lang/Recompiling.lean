import Stackwork.Proofs.Lang.Registering

/-!
# Compiling again

A program may be compiled, extended and compiled again. Requests only ever add to a program, a
literal keeps its handle, and checking a statement looks at nothing that a request can change.
So what was not extended keeps its code, and what was numbered keeps its number. A program that
is as it was compiles to the same module: all its literals are in the pool by then.
-/
namespace Stackwork

open List

/-- The locals of a function, the parameters first. -/
def FunctionDecl.locals (d : FunctionDecl) : List Variable :=
  match d.body with
  | .host _ => []
  | .source _ _ locals _ => locals.toList

/-- What a routine keeps when the function it came from is compiled again: without new statements
its code, and without new locals its frame. -/
structure Routine.Keeps (d d' : FunctionDecl) (r r' : Routine) : Prop where
  name : r'.name = r.name
  type : r'.type = r.type
  index : r'.index = r.index
  code : d'.stmts = d.stmts → r'.code? = r.code?
  frame : d'.locals = d.locals → r'.locals = r.locals
  prefixed : r.locals <+: r'.locals
  same : d'.body = d.body → r' = r

/-- What a module keeps when the program it came from is compiled again. -/
structure Module.Keeps (prog prog' : Program) (m m' : Module) : Prop where
  name : m'.name = m.name
  imports : m'.imports = m.imports
  bases : m'.bases = m.bases
  globals : m.globals <+: m'.globals
  strings : m.strings <+: m'.strings
  handle : ∀ s ∈ m.strings, m'.pool.handle s = m.pool.handle s
  size : m.routines.length = prog.functions.size
  routine : ∀ (i : Nat) (d : FunctionDecl), prog.functions[i]? = some d → ∃ d' r r',
    prog'.functions[i]? = some d' ∧ m.routines[i]? = some r ∧ m'.routines[i]? = some r' ∧
      Routine.Keeps d d' r r'
  init : prog'.init = prog.init → m'.init = m.init

variable {prog prog' : Program} {p : ProgramId} {tt : TyTable} {types : List Ty} {m m' : Module}
  {d d' : FunctionDecl} {r r' : Routine}

/-- The routines of a function that may have grown. -/
theorem FunctionDecl.Grows.keeps {pool pool' : Pool} {key : UnitKey} (grows : d.Grows d')
    (within : pool.Within pool') (h : d.Becomes pool tt key r)
    (h' : d'.Becomes pool' { tt with types } key r') : Routine.Keeps d d' r r' := by
  obtain ⟨name, type, index, body⟩ := d
  obtain ⟨name', type', index', body'⟩ := d'
  obtain ⟨rfl, rfl, rfl, hbody⟩ := grows
  cases hbody with
  | host builtin =>
    cases h with
    | source body => cases body
    | host body =>
      cases body
      cases h' with
      | source body' => cases body'
      | host body' =>
        cases body'
        exact ⟨rfl, rfl, rfl, fun _ => rfl, fun _ => rfl, prefix_rfl, fun _ => rfl⟩
  | @source scope params locals locals' stmts stmts' vars =>
    cases h with
    | host body => cases body
    | source body unit =>
      cases body
      cases h' with
      | host body' => cases body'
      | source body' unit' =>
        cases body'
        have hcode (same : stmts'.toList = stmts.toList) := (unit.mono within).unique (same ▸ unit')
        refine ⟨rfl, rfl, rfl, fun same => ?_, congrArg (List.map _), vars.map _, fun same => ?_⟩
        · obtain rfl := hcode same
          rfl
        · cases same
          obtain rfl := hcode rfl
          rfl

/-- The modules of a program that may have grown. -/
theorem Program.Becomes.keeps (h : prog.Becomes p tt m)
    (grows : Program.Grows { prog with texts := m.strings } prog')
    (h' : prog'.Becomes p { tt with types } m') :
    Module.Keeps { prog with texts := m.strings } prog' m m' := by
  have base : m'.bases = m.bases := by rw [h'.bases, h.bases, grows.layout]
  have within : m.pool.Within m'.pool := ⟨by rw [Module.pool, base]; rfl, grows.texts.trans h'.texts⟩
  refine ⟨?_, ?_, base, ?_, within.texts, fun s => within.handle_eq, h.size, fun i d hd => ?_,
    fun same => ?_⟩
  · rw [h'.name, h.name, grows.name]
  · rw [h'.imports, h.imports, grows.imports]
  · rw [h'.globals, h.globals]
    exact grows.globals
  · obtain ⟨d', hd', grown⟩ := grows.functions i d hd
    obtain ⟨r, hr, becomes⟩ := h.routine i d hd
    obtain ⟨r', hr', becomes'⟩ := h'.routine i d' hd'
    exact ⟨d', r, r', hd', hr, hr', grown.keeps within becomes becomes'⟩
  · have hinit := h'.init
    rw [same] at hinit
    obtain ⟨empty, none⟩ | ⟨ne, code, some, unit⟩ := h.init
    · obtain ⟨-, none'⟩ | ⟨ne, -⟩ := hinit
      · rw [none, none']
      · contradiction
    · obtain ⟨empty, -⟩ | ⟨-, code', some', unit'⟩ := hinit
      · contradiction
      · rw [some, some', (unit.mono within).unique unit']

namespace Workspace

variable {w w₁ w₂ : Workspace} {acc : Compiled}

/-- Compiling a unit whose literals are all in the pool. -/
theorem compileUnit_again {ctx : Context} {stmts : List Stmt} {code : Code}
    (h : UnitCode acc.pool ctx stmts code) (unit : String) :
    compileUnit (ctx.retyped types) unit stmts acc = .ok (some code, acc) := by
  rw [compileUnit, h.generate]

section

variable (table : w.tableOf p = { tt with types })
include table

theorem compileFunction_again {i : Nat} (h : d.Becomes acc.pool tt ⟨p.index, i⟩ r) :
    w.compileFunction p acc (d, i) = .ok { acc with routines := acc.routines ++ [r] } := by
  unfold compileFunction
  cases h with
  | host body =>
    simp only [body]
    rfl
  | source body unit =>
    simp only [body, table]
    exact Except.bind_eq_ok.2 ⟨_, compileUnit_again unit d.name, rfl⟩

theorem compileFunctions_again {ds : List FunctionDecl} {rs : List Routine} {n : Nat}
    (len : rs.length = ds.length) (h : ∀ (i : Nat) (d : FunctionDecl), ds[i]? = some d →
      ∃ r, rs[i]? = some r ∧ d.Becomes acc.pool tt ⟨p.index, n + i⟩ r) :
    (ds.zipIdx n).foldlM (w.compileFunction p) acc =
      .ok { acc with routines := acc.routines ++ rs } := by
  induction ds generalizing n acc rs with
  | nil =>
    obtain rfl := length_eq_zero_iff.1 len
    simp [pure, Except.pure]
  | cons d ds ih =>
    cases rs with
    | nil => cases len
    | cons r rs =>
      obtain ⟨r', hr', becomes⟩ := h 0 d rfl
      cases hr'
      rw [zipIdx_cons, foldlM_cons]
      refine Except.bind_eq_ok.2 ⟨_, compileFunction_again table becomes, ?_⟩
      refine (ih (Nat.succ.inj len) fun i d' hd' => ?_).trans (by simp)
      obtain ⟨r', hr', becomes'⟩ := h (i + 1) d' hd'
      exact ⟨r', hr', by rwa [← Nat.add_assoc, Nat.add_right_comm] at becomes'⟩

theorem compileTop_again {init : Option Code} (fresh : acc.init = none)
    (h : (w.program p).init = #[] ∧ init = none ∨ (w.program p).init ≠ #[] ∧
      ∃ code, init = some code ∧ UnitCode acc.pool ⟨tt, none, none⟩ (w.program p).init.toList code) :
    w.compileTop p acc = .ok { acc with init } := by
  unfold compileTop
  obtain ⟨empty, rfl⟩ | ⟨ne, code, rfl, unit⟩ := h
  · simp only [empty, ← fresh]
    rfl
  · simp only [Array.isEmpty_iff, ne, table]
    exact Except.bind_eq_ok.2 ⟨_, compileUnit_again unit _, rfl⟩

/-- A program that is as its last compilation left it becomes the same module again. -/
theorem compile_unchanged (h : prog.Becomes p tt m)
    (same : w.program p = { prog with texts := m.strings }) (errors : prog.errors = #[]) (id : Uuid) :
    ∃ mid w', w.compile p id = (.ok mid, w') ∧ w'.modules.get mid = { m with id } := by
  have pool : (⟨prog.layout.strings, m.strings⟩ : Pool) = m.pool := by rw [Module.pool, h.bases]
  have functions : prog.functions.toList.zipIdx.foldlM (w.compileFunction p) { pool := m.pool } =
      .ok { pool := m.pool, routines := m.routines } :=
    compileFunctions_again table (by simpa using h.size) fun i d hd => by
      rw [Nat.zero_add]
      exact h.routine i d (by simpa using hd)
  have done : w.compileAll p = .ok { pool := m.pool, routines := m.routines, init := m.init } := by
    refine Except.bind_eq_ok.2 ⟨_, by rw [same, pool]; exact functions, ?_⟩
    exact compileTop_again table rfl (by rw [same]; exact h.init)
  have hmodule : { m with id } = { name := prog.name, id, imports := prog.imports, routines := m.routines
                                   globals := prog.globals.toList, strings := m.strings
                                   bases := prog.layout, init := m.init } := by
    rw [← h.name, ← h.imports, ← h.globals, ← h.bases]
  refine ⟨⟨w.modules.size⟩, { w with modules := (w.modules.add { m with id }).2 }.modifyProgram p
    fun prog => { prog with texts := m.strings }, ?_, w.modules.get_add _⟩
  simp only [compile, same, errors, done, hmodule]
  rfl

end

variable {rs : List Request}

/-- Requests add to the types and the programs, and take nothing away. -/
theorem grows_of_requests (ok : AllAllowed (fun w r => r.Admissible w) w rs) :
    w.types.Widens (rs.foldl Request.apply w).types ∧ ∀ prog, w.programs[p.index]? = some prog →
      ∃ prog', (rs.foldl Request.apply w).programs[p.index]? = some prog' ∧ prog.Grows prog' := by
  induction rs generalizing w with
  | nil => exact ⟨.refl _, fun prog hprog => ⟨prog, hprog, .refl prog⟩⟩
  | cons r rs ih =>
    obtain ⟨types, modules, -, widens, -, changes⟩ :=
      Request.exists_effect (T := fun _ => True) ok.1 fun _ _ => trivial
    obtain ⟨widens', grows'⟩ := ih ok.2
    rw [changes.types_eq] at widens'
    refine ⟨widens.trans widens', fun prog hprog => ?_⟩
    obtain ⟨prog₁, hprog₁, grows⟩ := changes.grows hprog
    obtain ⟨prog₂, hprog₂, grows₂⟩ := grows' prog₁ hprog₁
    exact ⟨prog₂, hprog₂, grows.trans grows₂⟩

/-- The module of a program, and what compiling leaves with the program. -/
theorem exists_of_compile {id : Uuid} {mid : ModuleId} (h : w.compile p id = (.ok mid, w₁)) :
    (w.program p).Becomes p (w.tableOf p) (w₁.modules.get mid) ∧ (w.program p).errors = #[] ∧
      w₁.types = w.types ∧ ∀ prog, w.programs[p.index]? = some prog →
        w₁.programs[p.index]? = some { prog with texts := (w₁.modules.get mid).strings } := by
  obtain ⟨errors, m, hm, rfl, rfl⟩ := becomes_of_compile h
  rw [modifyProgram, w.modules.get_add m]
  refine ⟨hm, errors, rfl, fun prog hprog => ?_⟩
  rw [Array.getElem?_modify, if_pos rfl, hprog]
  rfl

/-- A program is compiled, extended by any requests, and compiled again. Then what was not extended
keeps its code, and the functions, globals and literals of the first module come first in the
second. If nothing was added, it compiles again and the modules differ in their ids only. -/
theorem compile_again {id : Uuid} {mid : ModuleId} (hp : p.index < w.programs.size)
    (ht : (w.program p).table.index < w.types.tables.size) (first : w.compile p id = (.ok mid, w₁))
    (ok : AllAllowed (fun w r => r.Admissible w) w₁ rs) :
    (∀ id' mid' w₂, (rs.foldl Request.apply w₁).compile p id' = (.ok mid', w₂) →
      Module.Keeps (w₁.program p) ((rs.foldl Request.apply w₁).program p) (w₁.modules.get mid)
        (w₂.modules.get mid')) ∧
    ((rs.foldl Request.apply w₁).program p = w₁.program p → ∀ id', ∃ mid' w₂,
      (rs.foldl Request.apply w₁).compile p id' = (.ok mid', w₂) ∧
        w₂.modules.get mid' = { w₁.modules.get mid with id := id' }) := by
  obtain ⟨hm, errors, htypes, hprograms⟩ := exists_of_compile first
  obtain ⟨widens, grows⟩ := grows_of_requests (p := p) ok
  have hprog := Array.getElem?_eq_getElem hp
  have hprog₁ := hprograms _ hprog
  obtain ⟨prog', hprog', grows⟩ := grows _ hprog₁
  rw [htypes] at widens
  obtain ⟨-, types, htable⟩ := widens _ ht
  have table : (rs.foldl Request.apply w₁).tableOf p = { w.tableOf p with types } := by
    rw [tableOf, program_eq hprog', grows.table, ← program_eq hprog, htable]
    rfl
  rw [program_eq hprog] at errors hm
  rw [program_eq hprog₁, program_eq hprog']
  refine ⟨fun id' mid' w₂ second => ?_, fun same => ?_⟩
  · obtain ⟨hm', -⟩ := exists_of_compile second
    rw [program_eq hprog', table] at hm'
    exact hm.keeps grows hm'
  · exact compile_unchanged table hm ((program_eq hprog').trans same) errors

namespace Greeting

/-- Two functions with a literal each. -/
def workspace : Workspace :=
  [.newTable, .newProgram "main" ⟨0⟩ [], .declareFunction ⟨0⟩ ⟨0⟩ "start" (.prim 0 .void) [],
    .declareFunction ⟨0⟩ ⟨0⟩ "greet" (.prim 0 .void) [],
    .append ⟨.body ⟨0, 0⟩, some ⟨1⟩, none⟩ [.eval (.text "now")],
    .append ⟨.body ⟨0, 1⟩, some ⟨2⟩, none⟩ [.eval (.text "hello")]].foldl Request.apply {}

def compiled : Workspace := (workspace.compile ⟨0⟩ .zero).2

/-- A global, and new literals in the first function and at the top level. -/
def more : List Request :=
  [.declareGlobal ⟨0⟩ ⟨0⟩ "name" (.prim 4 .string),
    .append ⟨.body ⟨0, 0⟩, some ⟨1⟩, none⟩ [.eval (.text "soon")],
    .append ⟨.top ⟨0⟩, some ⟨0⟩, none⟩ [.eval (.text "bye"), .eval (.text "hello")]]

def extended : Workspace := more.foldl Request.apply compiled

end Greeting

theorem compile_again_greeting :
    Module.Keeps (Greeting.compiled.program ⟨0⟩) (Greeting.extended.program ⟨0⟩)
        (Greeting.compiled.modules.get ⟨0⟩)
        ((Greeting.extended.compile ⟨0⟩ .zero).2.modules.get ⟨1⟩) ∧
      ∃ mid' w₂, Greeting.compiled.compile ⟨0⟩ .zero = (.ok mid', w₂) ∧
        w₂.modules.get mid' = Greeting.compiled.modules.get ⟨0⟩ := by
  have hp : 0 < Greeting.workspace.programs.size := by decide
  have ht : (Greeting.workspace.program ⟨0⟩).table.index < Greeting.workspace.types.tables.size := by decide
  have first : Greeting.workspace.compile ⟨0⟩ .zero = (.ok ⟨0⟩, Greeting.compiled) := rfl
  have ok : AllAllowed (fun w r => r.Admissible w) Greeting.compiled Greeting.more :=
    ⟨trivial, trivial, trivial, trivial⟩
  have nothing : AllAllowed (fun w r => r.Admissible w) Greeting.compiled [] := trivial
  constructor
  · exact (compile_again hp ht first ok).1 _ _ _ rfl
  · exact (compile_again hp ht first nothing).2 rfl .zero

end Workspace
end Stackwork
