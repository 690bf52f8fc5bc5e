import Stackwork.Proofs.Lang.Declaring
import Stackwork.Proofs.Lang.Folding
import Stackwork.Proofs.Lang.Transcript

/-!
# What is compiled

A program becomes a module exactly if no error was recorded with it and all its units are in order. A variable that a
declaration gave out can be stored, so it has a machine kind; that leaves nothing for the builder to refuse, and what
a unit that is not in order has instead of code is a problem to report.
-/
namespace Stackwork

open Stackwork.Except Workspace List

open Workspace (fst_commit_eq_ok declareFunction_eq exists_of_declare)

/-- The variables that declarations give out: globals, locals, parameters of functions, and what a compiled module
exports of them. -/
inductive Variable.Declared : Variable → Prop where
  | global {w : Workspace} {p : ProgramId} {scope : ScopeId} {name : String} {t : Ty} {v : Variable}
      (declared : (w.declareGlobal p scope name t).1 = .ok v) : Declared v
  | block {b : Block} {w : Workspace} {name : String} {t : Ty} {v : Variable}
      (declared : (b.declareVar w name t).1 = .ok v) : Declared v
  | param {w w' : Workspace} {p : ProgramId} {scope : ScopeId} {name : String} {output : Ty}
      {params : List (String × Ty)} {f : Callable} {v : Variable}
      (declared : w.declareFunction p scope name output params = (.ok f, w')) (mem : v ∈ w'.paramsOf f) : Declared v
  | exported {w w' : Workspace} {p : ProgramId} {id : Uuid} {m : ModuleId} {v : Variable}
      (own : ∀ u ∈ (w.program p).globals, Declared u) (compiled : w.compile p id = (.ok m, w'))
      (mem : v ∈ (w'.modules.get m).globals) : Declared v

theorem kind_of_checkStorable {name : String} {t : Ty} (h : checkStorable name t = .ok ()) : t.kind ≠ .void := by
  unfold checkStorable at h
  split at h
  · cases h
  · assumption

namespace Workspace

variable {w w' : Workspace} {p : ProgramId} {scope : ScopeId} {name : String} {t : Ty} {v : Variable}

theorem kind_of_declareGlobal (h : (w.declareGlobal p scope name t).1 = .ok v) : v.type.kind ≠ .void := by
  obtain ⟨w', h⟩ := fst_commit_eq_ok h
  obtain ⟨⟨⟩, hstorable, h⟩ := bind_eq_ok.1 h
  obtain ⟨w₁, -, h⟩ := bind_eq_ok.1 h
  cases h
  exact kind_of_checkStorable (mapError_eq_ok.1 hstorable)

variable {b : Block} {key : UnitKey} {params : List (String × Ty)} {locals : Array Variable} {f : Callable}

theorem kind_of_declareLocal (h : (b.declareLocal w key scope name t).1 = .ok v) : v.type.kind ≠ .void := by
  have refused {e : CompileError} : (b.refuse w e : Except BlockError Variable × Workspace).1 ≠ .ok v := by
    unfold Block.refuse
    split <;> exact fun heq => by cases heq
  unfold Block.declareLocal at h
  split at h
  · exact absurd h refused
  · next hstorable =>
    split at h
    · exact absurd h refused
    · simp only at h
      split at h
      · exact absurd h refused
      · cases h
        exact kind_of_checkStorable hstorable
    · cases h

theorem kind_of_declareVar (h : (b.declareVar w name t).1 = .ok v) : v.type.kind ≠ .void := by
  unfold Block.declareVar at h
  split at h
  · exact kind_of_declareGlobal (mapError_eq_ok.1 h)
  · exact kind_of_declareLocal h
  · cases h

theorem kind_of_declareParams {unit : String} {locals' : Array Variable}
    (h : declareParams unit key scope params (w, locals) = .ok (w', locals'))
    (old : ∀ v ∈ locals, v.type.kind ≠ .void) : ∀ v ∈ locals', v.type.kind ≠ .void := by
  induction params generalizing w locals with
  | nil =>
    cases h
    exact old
  | cons param params ih =>
    obtain ⟨⟨⟩, hstorable, h⟩ := bind_eq_ok.1 h
    obtain ⟨w₁, -, h⟩ := bind_eq_ok.1 h
    refine ih h fun v hv => ?_
    rcases Array.mem_push.1 hv with hv | rfl
    · exact old v hv
    · exact kind_of_checkStorable (mapError_eq_ok.1 hstorable)

/-- The parameters of a new function are the locals it begins with. -/
theorem paramsOf_addFunction {own : ScopeId} {n : Nat}
    (h : w.addFunction p scope (.declared ⟨p.index, (w.program p).functions.size⟩) name t
      (.source own n locals #[]) = .ok (f, w')) :
    ∀ v ∈ w'.paramsOf f, v ∈ locals := by
  obtain ⟨w₁, hdeclare, h⟩ := bind_eq_ok.1 h
  obtain ⟨scopes, rfl⟩ := exists_of_declare hdeclare
  cases h
  intro v hv
  by_cases hp : p.index < w.programs.size
  · refine Array.mem_toList_iff.1 (mem_of_mem_take (i := n) ?_)
    simpa [paramsOf, source?, declared?, program, modifyProgram, Array.getD_eq_getD_getElem?,
      Array.getElem?_modify, Array.getElem?_eq_getElem hp] using hv
  · simp [paramsOf, source?, declared?, program, modifyProgram, Array.getD_eq_getD_getElem?,
      Array.getElem?_modify, Array.getElem?_eq_none (Nat.not_lt.1 hp)] at hv

theorem kind_of_param {output : Ty} (h : w.declareFunction p scope name output params = (.ok f, w'))
    (mem : v ∈ w'.paramsOf f) : v.type.kind ≠ .void := by
  obtain ⟨x, hx, hinv⟩ := declareFunction_eq w p scope name output params
  rw [hx] at h
  cases x with
  | error e => cases h
  | ok x =>
    obtain ⟨f, w'⟩ := x
    cases h
    obtain ⟨scopes, own, w₁, locals, hparams, hadd⟩ := hinv f w' rfl
    have hlocals := kind_of_declareParams hparams fun v hv => absurd hv (Array.not_mem_empty v)
    have hprogram : w₁.program p = w.program p := by
      have hprograms : w₁.programs = w.programs := (names_of_declareParams hparams).2
      rw [program, hprograms, program]
    rw [← hprogram] at hadd
    exact hlocals v (paramsOf_addFunction hadd v mem)

end Workspace

/-- What can be declared has a machine kind. -/
theorem Variable.Declared.kind_ne_none {v : Variable} (h : v.Declared) : v.kind ≠ .none := by
  induction h with
  | global declared => exact fun hk => kind_of_declareGlobal declared (Kind.ofTy_eq_none.1 hk)
  | block declared => exact fun hk => kind_of_declareVar declared (Kind.ofTy_eq_none.1 hk)
  | param declared mem => exact fun hk => kind_of_param declared mem (Kind.ofTy_eq_none.1 hk)
  | @exported w w' p id m v _ compiled mem ih =>
    obtain ⟨-, module, becomes, rfl, rfl⟩ := becomes_of_compile compiled
    refine ih v ?_
    have hget : (w.modules.add module).2.get ⟨w.modules.size⟩ = module := Graph.get_add w.modules module
    change v ∈ ((w.modules.add module).2.get ⟨w.modules.size⟩).globals at mem
    rw [hget, becomes.globals] at mem
    exact Array.mem_toList_iff.1 mem

namespace Workspace

/-- A program in order: so are all its units. -/
structure Accepts (w : Workspace) (p : ProgramId) : Prop where
  body : ∀ (i : Nat) (d : FunctionDecl), (w.program p).functions[i]? = some d →
    (d.context (w.tableOf p) ⟨p.index, i⟩).Accepts d.stmts
  top : (⟨w.tableOf p, none, none⟩ : Context).Accepts (w.program p).init.toList

variable {w : Workspace} {p : ProgramId}

/-- A unit in order adds no error. -/
theorem exists_compileUnit (ctx : Context) (proper : ctx.table.Proper) (unit : String) {stmts : List Stmt}
    (kinds : ∀ s ∈ stmts, ∀ v ∈ s.vars, v.kind ≠ .none) (acc : Compiled) :
    ∃ code acc', compileUnit ctx unit stmts acc = .ok (code, acc') ∧
      (ctx.Accepts stmts → acc'.errors = acc.errors) := by
  obtain ⟨r, hgenerate, -⟩ := generate_eq_emission proper acc.pool kinds
  unfold compileUnit
  rw [hgenerate]
  cases r with
  | ok r => exact ⟨_, _, rfl, fun _ => rfl⟩
  | error p =>
    refine ⟨_, _, rfl, fun accepts => ?_⟩
    obtain ⟨r, hr⟩ := (exists_generate_iff acc.pool kinds).2 accepts
    rw [hgenerate] at hr
    cases hr

section

variable (proper : (w.tableOf p).Proper)
include proper

theorem exists_compileFunction {d : FunctionDecl} (i : Nat) (kinds : ∀ s ∈ d.stmts, ∀ v ∈ s.vars, v.kind ≠ .none)
    (acc : Compiled) : ∃ acc', w.compileFunction p acc (d, i) = .ok acc' ∧
      ((d.context (w.tableOf p) ⟨p.index, i⟩).Accepts d.stmts → acc'.errors = acc.errors) := by
  cases hbody : d.body with
  | host builtin =>
    refine ⟨{ acc with routines := acc.routines ++ [⟨d.name, d.type, d.index, .host builtin⟩] }, ?_, fun _ => rfl⟩
    simp only [compileFunction, hbody]
    rfl
  | source scope params locals stmts =>
    have hstmts : d.stmts = stmts.toList := by rw [FunctionDecl.stmts, hbody]
    rw [hstmts] at kinds ⊢
    obtain ⟨code, acc', hunit, herrors⟩ := exists_compileUnit (d.context (w.tableOf p) ⟨p.index, i⟩) proper
      d.name kinds acc
    simp only [compileFunction, hbody]
    cases code with
    | none => exact ⟨acc', bind_eq_ok.2 ⟨_, hunit, rfl⟩, herrors⟩
    | some code =>
      let body := RoutineBody.compiled (some code) (frameKinds locals)
      exact ⟨{ acc' with routines := acc'.routines ++ [⟨d.name, d.type, d.index, body⟩] },
        bind_eq_ok.2 ⟨_, hunit, rfl⟩, herrors⟩

theorem exists_compileFunctions {ds : List FunctionDecl} {n : Nat}
    (kinds : ∀ d ∈ ds, ∀ s ∈ d.stmts, ∀ v ∈ s.vars, v.kind ≠ .none) (acc : Compiled) :
    ∃ acc', (ds.zipIdx n).foldlM (w.compileFunction p) acc = .ok acc' ∧
      ((∀ (i : Nat) (d : FunctionDecl), ds[i]? = some d →
        (d.context (w.tableOf p) ⟨p.index, n + i⟩).Accepts d.stmts) → acc'.errors = acc.errors) := by
  induction ds generalizing n acc with
  | nil => exact ⟨acc, rfl, fun _ => rfl⟩
  | cons d ds ih =>
    obtain ⟨hd, hds⟩ := forall_mem_cons.1 kinds
    obtain ⟨acc₁, h₁, herrors₁⟩ := exists_compileFunction proper n hd acc
    obtain ⟨acc₂, h₂, herrors₂⟩ := ih (n := n + 1) hds acc₁
    refine ⟨acc₂, ?_, fun accepts => ?_⟩
    · rw [zipIdx_cons, foldlM_cons]
      exact bind_eq_ok.2 ⟨acc₁, h₁, h₂⟩
    · rw [herrors₂ fun i d' hd' => ?_, herrors₁ (accepts 0 d rfl)]
      rw [Nat.add_assoc, Nat.add_comm 1]
      exact accepts (i + 1) d' hd'

theorem exists_compileTop (kinds : ∀ s ∈ (w.program p).init.toList, ∀ v ∈ s.vars, v.kind ≠ .none) (acc : Compiled) :
    ∃ acc', w.compileTop p acc = .ok acc' ∧
      ((⟨w.tableOf p, none, none⟩ : Context).Accepts (w.program p).init.toList → acc'.errors = acc.errors) := by
  obtain ⟨code, acc', hunit, herrors⟩ := exists_compileUnit ⟨w.tableOf p, none, none⟩ proper
    (w.program p).name kinds acc
  simp only [compileTop]
  split
  · exact ⟨acc, rfl, fun _ => rfl⟩
  · exact ⟨{ acc' with init := code }, bind_eq_ok.2 ⟨_, hunit, rfl⟩, herrors⟩

/-- All units of a program are compiled, and if they are in order there is no error. -/
theorem exists_compileAll (kinds : ∀ s ∈ (w.program p).stmts, ∀ v ∈ s.vars, v.kind ≠ .none) :
    ∃ done, w.compileAll p = .ok done ∧ (w.Accepts p → done.errors = []) := by
  obtain ⟨hbodies, htop⟩ := forall_mem_append.1 kinds
  obtain ⟨acc, hacc, herrors⟩ := exists_compileFunctions proper (n := 0)
    (fun d hd s hs => hbodies s (mem_flatMap.2 ⟨d, hd, hs⟩))
    { pool := ⟨(w.program p).layout.strings, (w.program p).texts⟩ }
  obtain ⟨done, hdone, herrors'⟩ := exists_compileTop proper htop acc
  refine ⟨done, bind_eq_ok.2 ⟨acc, hacc, hdone⟩, fun accepts => ?_⟩
  rw [herrors' accepts.top, herrors fun i d hd => ?_]
  rw [Nat.zero_add]
  exact accepts.body i d (by simpa using hd)

end

/-- The units of a module are in order. -/
theorem accepts_of_becomes {m : Module} (becomes : (w.program p).Becomes p (w.tableOf p) m) : w.Accepts p where
  body i d hd := by
    obtain ⟨r, -, hr⟩ := becomes.routine i d hd
    cases hr with
    | host body =>
      rw [FunctionDecl.stmts, body]
      exact ⟨forall_mem_nil _, forall_mem_nil _⟩
    | source body unit =>
      obtain ⟨commands, -, generated, -⟩ := unit
      rw [FunctionDecl.stmts, body]
      exact generated.accepts
  top := by
    rcases becomes.init with ⟨hempty, -⟩ | ⟨-, code, -, commands, -, generated, -⟩
    · rw [hempty]
      exact ⟨forall_mem_nil _, forall_mem_nil _⟩
    · exact generated.accepts

/-- Compilation gives a module or a list of errors. -/
theorem compile_cases (id : Uuid) {done : Compiled} (h : w.compileAll p = .ok done) :
    (w.program p).errors ≠ #[] ∧ (w.compile p id).1 = .error (.errors (w.program p).errors.toList) ∨
      done.errors ≠ [] ∧ (w.compile p id).1 = .error (.errors done.errors) ∨
        ((w.program p).errors = #[] ∧ done.errors = []) ∧ ∃ m, (w.compile p id).1 = .ok m := by
  unfold compile
  simp only [h]
  split
  · next hne => exact .inl ⟨by simpa using hne, rfl⟩
  · next hnone =>
    split
    · next hne => exact .inr (.inl ⟨by simpa using hne, rfl⟩)
    · next hdone => exact .inr (.inr ⟨⟨by simpa using hnone, by simpa using hdone⟩, _, rfl⟩)

/-- In every workspace that requests have led to, a unit over declared variables has code exactly if it is in order,
and a problem otherwise; emitted through a builder it has the same code or the same problem, so that the builder
refuses nothing. A program is compiled exactly if it has no error and its units are in order, and otherwise there are
errors to report. -/
theorem Built.compiled_iff_in_order {sources : List (Option Source)}
    (built : Built (fun w r => r.Admissible w) w sources) :
    (∀ (ctx : Context) (t : TableId) (pool : Pool) (stmts : List Stmt), ctx.table = w.types.table t →
      (∀ s ∈ stmts, ∀ v ∈ s.vars, v.Declared) → ∃ r : Except Problem (Code × Pool),
        generate ctx pool stmts = r.mapError .problem ∧ Emission.unit ctx pool stmts = r.mapError .problem ∧
          ((∃ x, r = .ok x) ↔ ctx.Accepts stmts)) ∧
      ∀ (p : ProgramId) (id : Uuid), (∀ s ∈ (w.program p).stmts, ∀ v ∈ s.vars, v.Declared) →
        ((∃ m, (w.compile p id).1 = .ok m) ↔ (w.program p).errors = #[] ∧ w.Accepts p) ∧
          ∀ failure, (w.compile p id).1 = .error failure → ∃ es, es ≠ [] ∧ failure = .errors es := by
  have tables := (built.wf fun _ _ ok => ok).tables
  refine ⟨fun ctx t pool stmts htable declared => ?_, fun p id declared => ?_⟩
  · have kinds : ∀ s ∈ stmts, ∀ v ∈ s.vars, v.kind ≠ .none := fun s hs v hv => (declared s hs v hv).kind_ne_none
    obtain ⟨r, hgenerate, hemission⟩ := generate_eq_emission (htable ▸ tables t) pool kinds
    refine ⟨r, hgenerate, hemission, ?_⟩
    rw [← exists_generate_iff pool kinds, hgenerate]
    cases r with
    | ok x => exact iff_of_true ⟨x, rfl⟩ ⟨x, rfl⟩
    | error e =>
      constructor
      · rintro ⟨x, h⟩
        cases h
      · rintro ⟨x, h⟩
        cases h
  · obtain ⟨done, hdone, herrors⟩ := exists_compileAll (tables _) fun s hs v hv => (declared s hs v hv).kind_ne_none
    refine ⟨⟨?_, ?_⟩, ?_⟩
    · rintro ⟨m, hm⟩
      have hpair : w.compile p id = (.ok m, (w.compile p id).2) := Prod.ext hm rfl
      obtain ⟨hnone, m, becomes, -⟩ := becomes_of_compile hpair
      exact ⟨hnone, accepts_of_becomes becomes⟩
    · rintro ⟨hnone, accepts⟩
      rcases compile_cases id hdone with ⟨hne, -⟩ | ⟨hne, -⟩ | ⟨-, hm⟩
      · exact absurd hnone hne
      · exact absurd (herrors accepts) hne
      · exact hm
    · intro failure hfailure
      rcases compile_cases id hdone with ⟨hne, h⟩ | ⟨hne, h⟩ | ⟨-, m, hm⟩
      · exact ⟨_, fun hnil => hne (by simpa using hnil), Except.error.inj (hfailure.symm.trans h)⟩
      · exact ⟨_, hne, Except.error.inj (hfailure.symm.trans h)⟩
      · rw [hm] at hfailure
        cases hfailure

namespace Climbing

def int : Ty := .prim 2 .int

/-- A function with one parameter, in a program with a global. -/
def declarations : List Request :=
  [.newTable, .newProgram "main" ⟨0⟩ [], .declareGlobal ⟨0⟩ ⟨0⟩ "count" int,
    .declareFunction ⟨0⟩ ⟨0⟩ "climb" int [("limit", int)]]

def count : Variable := ⟨"count", int, .global, 0, none⟩

def limit : Variable := ⟨"limit", int, .local, 0, some ⟨0, 0⟩⟩

def top : Label := ⟨0, "top"⟩

def stop : Label := ⟨1, "stop"⟩

/-- Count up to the parameter. -/
def body : List Stmt :=
  [.place top, .branchFalse (.binary (.plain .lt) (.var count) (.var limit)) stop, .increment count, .jump top,
    .place stop, .ret (some (.var count))]

def requests : List Request := declarations ++ [.append ⟨.body ⟨0, 0⟩, some ⟨1⟩, none⟩ body]

def workspace : Workspace := requests.foldl Request.apply {}

theorem built : Built (fun w r => r.Admissible w) workspace (sourcesOf {} requests) :=
  Built.start.foldl ⟨trivial, forall_mem_nil _, trivial, trivial, trivial, trivial⟩

theorem declared_count : count.Declared := by
  have h : (((declarations.take 2).foldl Request.apply {}).declareGlobal ⟨0⟩ ⟨0⟩ "count" int).1 = .ok count := rfl
  exact .global h

theorem declared_limit : limit.Declared := by
  have h : ∃ f w', ((declarations.take 3).foldl Request.apply {}).declareFunction ⟨0⟩ ⟨0⟩ "climb" int [("limit", int)] =
    (.ok f, w') ∧ w'.paramsOf f = [limit] := ⟨_, _, rfl, rfl⟩
  obtain ⟨f, w', hdeclared, hparams⟩ := h
  exact .param hdeclared (hparams ▸ mem_cons_self)

theorem declared : ∀ s ∈ body, ∀ v ∈ s.vars, v.Declared := by
  have hvars : ∀ v ∈ body.flatMap Stmt.vars, v.Declared := by
    change ∀ v ∈ [count, limit, count, count, count], v.Declared
    simp only [forall_mem_cons, declared_count, declared_limit, true_and]
    exact forall_mem_nil _
  exact fun s hs v hv => hvars v (mem_flatMap.2 ⟨s, hs, hv⟩)

end Climbing

/-- The body of the function is in order there, and at top level, where the parameter is unknown, it has a problem. -/
theorem Built.compiled_iff_in_order_climbing :
    ((∃ m, (Climbing.workspace.compile ⟨0⟩ .zero).1 = .ok m) ∧ Climbing.workspace.Accepts ⟨0⟩) ∧
      ∃ p, Emission.unit ⟨Climbing.workspace.tableOf ⟨0⟩, none, none⟩ ⟨0, []⟩ Climbing.body = .error (.problem p) := by
  open Climbing in
  obtain ⟨units, programs⟩ := Built.compiled_iff_in_order built
  have hcompiled : ∃ m, (workspace.compile ⟨0⟩ .zero).1 = .ok m := ⟨_, rfl⟩
  obtain ⟨r, hgenerate, hemission, -⟩ := units ⟨workspace.tableOf ⟨0⟩, none, none⟩ ⟨0⟩ ⟨0, []⟩ body rfl declared
  have hproblem : ∃ p, generate ⟨workspace.tableOf ⟨0⟩, none, none⟩ ⟨0, []⟩ body = .error (.problem p) := ⟨_, rfl⟩
  refine ⟨⟨hcompiled, (((programs ⟨0⟩ .zero declared).1).1 hcompiled).2⟩, ?_⟩
  obtain ⟨p, hp⟩ := hproblem
  rw [hgenerate] at hp
  cases r with
  | ok x => cases hp
  | error p' => exact ⟨p', hemission⟩

end Workspace
end Stackwork
