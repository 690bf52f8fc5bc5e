import Stackwork.Proofs.Lang.Numbering

/-!
# Declarations

Whatever has been asked of a workspace, and whether it went well or not, the globals, functions and
locals of a program are numbered without gaps. A declaration that fails leaves one error with its
program; the scopes, the modules, the other programs and all else that the program has declared are
as before. Only types and labels may have been handed out for nothing.
-/
namespace Stackwork

open Array

/-- The error of a computation that failed. -/
def errorOf? {ε α : Type} : Except ε α → Option ε
  | .ok _ => none
  | .error e => some e

variable {α : Type}

theorem errorOf?_eq_some {ε : Type} {x : Except ε α} {e : ε} : errorOf? x = some e ↔ x = .error e := by
  cases x <;> simp [errorOf?]

/-- What carries a number can be told by it. -/
theorem Numbered.inj {index : α → Int} {start : Int} {xs : List α} (h : Numbered index start xs) {i j : Nat}
    {a b : α} (hi : xs[i]? = some a) (hj : xs[j]? = some b) (heq : index a = index b) : i = j := by
  have ha := h i a hi
  have hb := h j b hj
  omega

/-- A block of a program: at its top level or in the body of one of its functions, however deep. -/
structure Block.Of (w : Workspace) (p : ProgramId) (b : Block) : Prop where
  program : b.program? = some p
  scope : b.scope.isSome
  body : ∀ key, b.unit = .body key →
    ∃ d scope params locals stmts, w.declared? key = some d ∧ d.body = .source scope params locals stmts

namespace Workspace

/-- The program that a declaration is made in, and the error if it fails. -/
def Request.failure? (w : Workspace) : Request → Option (ProgramId × BlockError)
  | declareGlobal p scope name t => (errorOf? (w.declareGlobal p scope name t).1).map (p, .error ·)
  | declareFunction p scope name output params =>
    (errorOf? (w.declareFunction p scope name output params).1).map (p, .error ·)
  | declareBuiltin p scope name output inputs builtin =>
    (errorOf? (w.declareBuiltin p scope name output inputs builtin).1).map (p, .error ·)
  | declareEnum p scope name items => (errorOf? (w.declareEnum p scope name items).1).map (p, .error ·)
  | declareConst p scope name t e => (errorOf? (w.declareConst p scope name t e).1).map (p, .error ·)
  | declareType p scope name t => (errorOf? (w.declareType p scope name t).1).map (p, .error ·)
  | declareVar b name t => do return (← b.program?, ← errorOf? (b.declareVar w name t).1)
  | declareLabel b name => do return (← b.program?, ← errorOf? (b.declareLabel w name).1)
  | _ => none

/-- The block that a declaration is made in belongs to the program. -/
def Request.Within (w : Workspace) (p : ProgramId) : Request → Prop
  | declareVar b _ _ | declareLabel b _ => b.Of w p
  | _ => True

/-- What a failed declaration leaves behind: one error. -/
structure Refused (p : ProgramId) (e : CompileError) (w w' : Workspace) : Prop where
  scopes : w'.scopes = w.scopes
  modules : w'.modules = w.modules
  size : w'.programs.size = w.programs.size
  program : w'.program p = { w.program p with errors := (w.program p).errors.push e }
  others : ∀ q, q ≠ p → w'.program q = w.program q

variable {w w' : Workspace} {p : ProgramId} {e : CompileError}

theorem refused_record (hp : p.index < w.programs.size) (types : Registry) (nextLabel : Nat) :
    Refused p e w ({ w with types, nextLabel }.record p e) where
  scopes := rfl
  modules := rfl
  size := by simp [record, modifyProgram]
  program := by
    simp [record, modifyProgram, program, getD_eq_getD_getElem?, getElem?_modify,
      getElem?_eq_getElem hp]
  others q hq := by
    have hne : p.index ≠ q.index := fun h => hq (congrArg ProgramId.mk h.symm)
    simp [record, modifyProgram, program, getD_eq_getD_getElem?, getElem?_modify, hne]

variable {α : Type} {scope : ScopeId} {t : Ty}

/-- A declaration that is committed and fails is recorded. -/
theorem refused_commit {types : Registry} {x : Except CompileError (α × Workspace)}
    (hp : p.index < w.programs.size) (h : ({ w with types }.commit p x).1 = .error e) :
    Refused p e w ({ w with types }.commit p x).2 := by
  match x, h with
  | .error _, h =>
    cases h
    exact refused_record hp types w.nextLabel

variable {name : String}

theorem refused_declareEnum {items : List (String × Option Expr)} (hp : p.index < w.programs.size)
    (h : (w.declareEnum p scope name items).1 = .error e) :
    Refused p e w (w.declareEnum p scope name items).2 := by
  unfold declareEnum at h ⊢
  split at h
  · cases h
    exact refused_record hp w.types w.nextLabel
  · exact refused_commit hp h

variable {b : Block} {f : BlockError}

/-- A block refuses a declaration with an error that its program keeps. -/
theorem refused_refuse (hprogram : b.program? = some p) (kept : Refused p e w (w'.record p e))
    (h : (b.refuse w' e : Except BlockError α × Workspace).1 = .error f) :
    ∃ e', f = .error e' ∧ Refused p e' w (b.refuse w' e : Except BlockError α × Workspace).2 := by
  simp only [Block.refuse, hprogram] at h ⊢
  cases h
  exact ⟨e, rfl, kept⟩

theorem refused_declareLocal {key : UnitKey} (of : b.Of w p) (unit : b.unit = .body key)
    (hp : p.index < w.programs.size) (h : (b.declareLocal w key scope name t).1 = .error f) :
    ∃ e, f = .error e ∧ Refused p e w (b.declareLocal w key scope name t).2 := by
  have refuse {e : CompileError} (h : (b.refuse w e : Except BlockError Variable × Workspace).1 = .error f) :=
    refused_refuse of.program (refused_record hp w.types w.nextLabel) h
  obtain ⟨d, s, params, locals, stmts, hdeclared, hbody⟩ := of.body key unit
  unfold Block.declareLocal at h ⊢
  split at h
  · exact refuse h
  · split at h
    · exact refuse h
    · simp only at h ⊢
      split at h
      · exact refuse h
      · cases h
    · next hnone hother =>
      -- the function is there and has a body
      exact absurd hdeclared fun hd => hother _ _ _ _ _ _ _ (by rw [hd, ← hbody])

theorem refused_declareVar (of : b.Of w p) (hp : p.index < w.programs.size)
    (h : (b.declareVar w name t).1 = .error f) : ∃ e, f = .error e ∧ Refused p e w (b.declareVar w name t).2 := by
  obtain ⟨scope, hscope⟩ := Option.isSome_iff_exists.1 of.scope
  have hprogram := of.program
  cases hunit : b.unit with
  | top q =>
    obtain rfl : q = p := by simpa [Block.program?, hunit] using hprogram
    simp only [Block.declareVar, hunit, hscope] at h ⊢
    cases hdeclare : (w.declareGlobal q scope name t).1 with
    | ok v =>
      rw [hdeclare] at h
      cases h
    | error e =>
      rw [hdeclare] at h
      cases h
      exact ⟨e, rfl, refused_commit hp hdeclare⟩
  | body key =>
    simp only [Block.declareVar, hunit, hscope] at h ⊢
    exact refused_declareLocal of hunit hp h
  | detached => simp [Block.program?, hunit] at hprogram

theorem refused_declareLabel (of : b.Of w p) (hp : p.index < w.programs.size)
    (h : (b.declareLabel w name).1 = .error f) : ∃ e, f = .error e ∧ Refused p e w (b.declareLabel w name).2 := by
  obtain ⟨scope, hscope⟩ := Option.isSome_iff_exists.1 of.scope
  simp only [Block.declareLabel, hscope] at h ⊢
  split at h
  · cases h
  · exact refused_refuse of.program (refused_record hp _ _) h

/-- A declaration that fails leaves one error and nothing else. -/
theorem refused_of_failure {r : Request} (failure : r.failure? w = some (p, f)) (hp : p.index < w.programs.size)
    (within : r.Within w p) : ∃ e, f = .error e ∧ Refused p e w (r.apply w) := by
  have split {x : Option CompileError} {q : ProgramId}
      (h : x.map (fun e => (q, BlockError.error e)) = some (p, f)) : q = p ∧ ∃ e, x = some e ∧ f = .error e := by
    obtain ⟨e, he, heq⟩ := Option.map_eq_some_iff.1 h
    cases heq
    exact ⟨rfl, e, he, rfl⟩
  have block {b : Block} {x : Option BlockError}
      (h : (do return (← b.program?, ← x) : Option (ProgramId × BlockError)) = some (p, f)) : x = some f := by
    obtain ⟨q, -, h⟩ := Option.bind_eq_some_iff.1 h
    obtain ⟨g, hx, h⟩ := Option.bind_eq_some_iff.1 h
    cases h
    exact hx
  cases r with
  | declareGlobal q scope name t
  | declareFunction q scope name output params
  | declareBuiltin q scope name output inputs builtin
  | declareConst q scope name t x
  | declareType q scope name t =>
    obtain ⟨rfl, e, he, rfl⟩ := split failure
    exact ⟨e, rfl, refused_commit hp (errorOf?_eq_some.1 he)⟩
  | declareEnum q scope name items =>
    obtain ⟨rfl, e, he, rfl⟩ := split failure
    exact ⟨e, rfl, refused_declareEnum hp (errorOf?_eq_some.1 he)⟩
  | declareVar b name t => exact refused_declareVar within hp (errorOf?_eq_some.1 (block failure))
  | declareLabel b name => exact refused_declareLabel within hp (errorOf?_eq_some.1 (block failure))
  | _ => cases failure

end Workspace

/-- Everything that a program has declared is numbered without gaps. -/
structure Program.Dense (prog : Program) : Prop where
  globals : Numbered Variable.index prog.layout.globals prog.globals.toList
  functions : Numbered FunctionDecl.index prog.layout.functions prog.functions.toList
  locals : ∀ d ∈ prog.functions, ∀ scope params locals stmts, d.body = .source scope params locals stmts →
    Numbered Variable.index 0 locals.toList
  /-- The parameters come first. -/
  params : ∀ d ∈ prog.functions, ∀ scope params locals stmts, d.body = .source scope params locals stmts →
    params = d.type.inputs.length ∧ (locals.toList.take params).map (·.type.id) = d.type.inputs.map Ty.id
  /-- No frame slot is given to two locals. -/
  apart : ∀ d ∈ prog.functions, ∀ scope params locals stmts, d.body = .source scope params locals stmts →
    ∀ (i j : Nat) (u v : Variable), locals[i]? = some u → locals[j]? = some v → u.index = v.index → i = j

theorem Program.Wf.dense {T : Ty → Prop} {g : Graph} {key : Nat} {prog : Program} (h : prog.Wf T g key) :
    prog.Dense := by
  have body {d : FunctionDecl} (hd : d ∈ prog.functions) : ∃ key, d.Wf T key := by
    obtain ⟨i, hi⟩ := mem_iff_getElem?.1 hd
    exact ⟨_, h.bodies i d hi⟩
  refine ⟨h.globals, h.functions, fun d hd _ _ _ _ hbody => ?_, fun d hd _ params locals _ hbody => ?_,
    fun d hd _ _ locals _ hbody i j u v hu hv heq => ?_⟩
  · obtain ⟨_, wf⟩ := body hd
    exact (wf.locals hbody).1.numbered
  · obtain ⟨_, wf⟩ := body hd
    obtain ⟨-, hle, htypes⟩ := wf.locals hbody
    refine ⟨?_, htypes⟩
    have hlength := congrArg List.length htypes
    rw [List.length_map, List.length_map, List.length_take_of_le (by simpa using hle)] at hlength
    exact hlength
  · obtain ⟨_, wf⟩ := body hd
    exact (wf.locals hbody).1.numbered.inj (getElem?_toList ▸ hu) (getElem?_toList ▸ hv) heq

namespace Workspace

variable {w w' : Workspace} {p : ProgramId}

variable {params : List (String × Ty)}

variable {scope : ScopeId}

/-- Parameters become locals under their names, in order. -/
theorem names_of_declareParams {unit : String} {key : UnitKey} {locals locals' : Array Variable}
    (h : declareParams unit key scope params (w, locals) = .ok (w', locals')) :
    locals'.toList.map (fun v => (v.name, v.type)) = locals.toList.map (fun v => (v.name, v.type)) ++ params ∧
      w'.programs = w.programs := by
  induction params generalizing w locals with
  | nil =>
    cases h
    exact ⟨(List.append_nil _).symm, rfl⟩
  | cons param params ih =>
    obtain ⟨name, t⟩ := param
    obtain ⟨-, -, h⟩ := Except.bind_eq_ok.1 h
    obtain ⟨w₁, hdeclare, h⟩ := Except.bind_eq_ok.1 h
    obtain ⟨scopes, rfl⟩ := exists_of_declare hdeclare
    obtain ⟨hnames, hprograms⟩ := ih h
    exact ⟨by simp [hnames], hprograms⟩

/-- A new function has its parameters as locals, and nothing else. -/
theorem function_of_declareFunction {name : String} {output : Ty} {f : Callable} (hp : p.index < w.programs.size)
    (h : w.declareFunction p scope name output params = (.ok f, w')) :
    ∃ own locals, locals.toList.map (fun v : Variable => (v.name, v.type)) = params ∧
      (w'.program p).functions = (w.program p).functions.push
        ⟨name, f.type, f.index, .source own params.length locals #[]⟩ := by
  obtain ⟨x, hx, hinv⟩ := declareFunction_eq w p scope name output params
  rw [hx] at h
  match x, h, hinv with
  | .ok (_, _), h, hinv =>
    cases h
    obtain ⟨scopes, own, w₁, locals, hparams, hadd⟩ := hinv f w' rfl
    obtain ⟨hnames, hprograms⟩ := names_of_declareParams hparams
    obtain ⟨w₂, hdeclare, hadd⟩ := Except.bind_eq_ok.1 hadd
    obtain ⟨scopes₂, rfl⟩ := exists_of_declare hdeclare
    cases hadd
    refine ⟨own, locals, by simpa using hnames, ?_⟩
    have hprograms : w₁.programs = w.programs := hprograms
    simp [Workspace.program, modifyProgram, getD_eq_getD_getElem?, getElem?_modify, hprograms,
      getElem?_eq_getElem hp]

namespace Clashing

def int : Ty := .prim 2 .int

/-- A function with one parameter, in a program with a global. -/
def requests : List Request :=
  [.newTable, .newProgram "main" ⟨0⟩ [], .declareGlobal ⟨0⟩ ⟨0⟩ "count" int,
    .declareFunction ⟨0⟩ ⟨0⟩ "advance" int [("step", int)]]

def workspace : Workspace := requests.foldl Request.apply {}

/-- A function under the name of the global. -/
def clash : Request := .declareFunction ⟨0⟩ ⟨0⟩ "count" int [("step", int), ("times", int)]

/-- A local under the name of the parameter. -/
def shadow : Request := .declareVar { unit := .body ⟨0, 0⟩, scope := some ⟨1⟩ } "step" int

theorem built : Built (fun w r => r.Admissible w) workspace (sourcesOf {} requests) :=
  Built.start.foldl ⟨trivial, fun _ h => (by cases h), trivial, trivial, trivial⟩

end Clashing

end Workspace
end Stackwork
