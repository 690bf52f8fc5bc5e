import Mathlib.Data.List.Forall2
import Stackwork.Lang.Compile
import Stackwork.Proofs.Lang.Checking
import Stackwork.Proofs.Lang.Trees

/-!
# Units and the modules they make up

What compiling a program amounts to. Every unit of an accepted program consists of checked
statements whose labels are placed once, and its code is the assembly of their commands.
Literals that are added for later units do not change the handles of earlier ones, so all
units of a module agree with the pool that the module ends up with.
-/
namespace Stackwork

open List

namespace Pool

/-- A pool that another one adds literals to. -/
structure Within (p p' : Pool) : Prop where
  base : p'.base = p.base
  texts : p.texts <+: p'.texts

variable {p p' p'' : Pool}

theorem Within.refl (p : Pool) : p.Within p := ⟨rfl, prefix_rfl⟩

theorem Within.trans (h : p.Within p') (h' : p'.Within p'') : p.Within p'' :=
  ⟨h'.base.trans h.base, h.texts.trans h'.texts⟩

theorem within_intern (p : Pool) (s : String) : p.Within (p.intern s) := by
  unfold intern
  split
  · exact .refl p
  · exact ⟨rfl, prefix_append _ _⟩

theorem mem_intern (p : Pool) (s : String) : s ∈ (p.intern s).texts := by
  unfold intern
  split
  · next h => simpa using h
  · simp

theorem within_internAll (p : Pool) (ss : List String) : p.Within (p.internAll ss) := by
  induction ss generalizing p with
  | nil => exact .refl p
  | cons s ss ih => exact (p.within_intern s).trans (ih (p.intern s))

variable {s : String}

theorem mem_internAll (p : Pool) {ss : List String} (h : s ∈ ss) : s ∈ (p.internAll ss).texts := by
  induction ss generalizing p with
  | nil => cases h
  | cons s' ss ih =>
    rcases mem_cons.1 h with rfl | h
    · exact ((p.intern s).within_internAll ss).texts.subset (p.mem_intern s)
    · exact ih (p.intern s') h

/-- Literals that are there are not added again. -/
theorem internAll_eq {ss : List String} (h : ∀ s ∈ ss, s ∈ p.texts) : p.internAll ss = p := by
  induction ss with
  | nil => rfl
  | cons s ss ih =>
    obtain ⟨hs, hss⟩ := forall_mem_cons.1 h
    have hp : p.intern s = p := by rw [intern, if_pos (by simpa using hs)]
    exact (congrArg (internAll · ss) hp).trans (ih hss)

/-- A literal keeps its handle. -/
theorem Within.handle_eq (h : p.Within p') (hs : s ∈ p.texts) : p'.handle s = p.handle s := by
  obtain ⟨more, hmore⟩ := h.texts
  rw [handle, handle, h.base, ← hmore, idxOf_append_of_mem hs]

end Pool

section

variable {f g : String → UInt64}

theorem itemsOf_congr {ts : List Term} (ih : ∀ t ∈ ts, (∀ s ∈ t.texts, f s = g s) → t.items f = t.items g)
    (h : ∀ s ∈ textsOf ts, f s = g s) : itemsOf f ts = itemsOf g ts := by
  induction ts with
  | nil => rfl
  | cons t ts ihts =>
    obtain ⟨ht, hts⟩ := forall_mem_cons.1 ih
    obtain ⟨h₁, h₂⟩ := forall_mem_append.1 h
    rw [itemsOf, itemsOf, ht h₁, ihts hts h₂]

/-- The assembly of a term depends on the handles of its own literals only. -/
theorem Term.items_congr (t : Term) : (∀ s ∈ t.texts, f s = g s) → t.items f = t.items g := by
  induction t using Term.induct with
  | int | float | load => intro _; rfl
  | text s =>
    intro h
    rw [items, items, h s (mem_singleton.2 rfl)]
  | unary op k x ihx =>
    intro h
    rw [items, items, ihx h]
  | binary op k x y ihx ihy | both x y ihx ihy | either x y ihx ihy =>
    intro h
    obtain ⟨hx, hy⟩ := forall_mem_append.1 h
    rw [items, items, ihx hx, ihy hy]
  | select k c a b ihc iha ihb =>
    intro h
    obtain ⟨hca, hb⟩ := forall_mem_append.1 h
    obtain ⟨hc, ha⟩ := forall_mem_append.1 hca
    rw [items, items, ihc hc, iha ha, ihb hb]
  | call index args ih =>
    intro h
    rw [items, items, itemsOf_congr ih h]
  | callValue t args iht ih =>
    intro h
    obtain ⟨hargs, ht⟩ := forall_mem_append.1 h
    rw [items, items, itemsOf_congr ih hargs, iht ht]

theorem Command.items_congr (c : Command) (h : ∀ s ∈ c.texts, f s = g s) : c.items f = c.items g := by
  cases c with
  | store v x | drop x | branchTrue x l | branchFalse x l => rw [items, items, x.items_congr h]
  | ret k value =>
    cases value with
    | none => rfl
    | some x => rw [items, items, x.items_congr h]
  | jump l | place l | halt => rfl

variable {commands : List Command}

theorem placements_congr (h : ∀ c ∈ commands, c.items f = c.items g) (pos : Nat) :
    placements f pos commands = placements g pos commands := by
  induction commands generalizing pos with
  | nil => rfl
  | cons c commands ih =>
    obtain ⟨hc, hcs⟩ := forall_mem_cons.1 h
    unfold placements
    rw [hc, ih hcs]

/-- The words of a unit depend on the handles of its own literals only. -/
theorem assemble_congr (output : Option Ty) (h : ∀ c ∈ commands, ∀ s ∈ c.texts, f s = g s) :
    assemble f output commands = assemble g output commands := by
  have hitems : ∀ c ∈ commands, c.items f = c.items g := fun c hc => c.items_congr (h c hc)
  have hflat : commands.flatMap (·.items f) = commands.flatMap (·.items g) :=
    flatMap_congr hitems
  simp only [assemble, hflat, placements_congr hitems]

end

/-- The label that a command places. -/
def Command.placed? : Command → Option Label
  | place l => some l
  | _ => none

/-- Statements that make up a unit, with their commands. -/
structure Generated (ctx : Context) (stmts : List Stmt) (commands : List Command) : Prop where
  checks : List.Forall₂ (Stmt.Checks ctx) stmts commands
  defined : ∀ c ∈ commands, c.undefined? = none
  once : (commands.filterMap Command.placed?).Nodup
  placed : unplaced? commands = none

variable {ctx : Context} {pool' : Pool}

variable {placed : List Label} {commands : List Command} {code : Code}

/-- Checking one statement more: the label it places is new, and goes to those placed. -/
theorem exists_of_checkAll_cons {s : Stmt} {stmts : List Stmt}
    (h : checkAll ctx placed (s :: stmts) = .ok commands) :
    ∃ c rest, s.check ctx = .ok c ∧ c.undefined? = none ∧ (∀ l ∈ c.placed?, l ∉ placed) ∧
      checkAll ctx (c.placed?.toList ++ placed) stmts = .ok rest ∧ commands = c :: rest := by
  simp only [checkAll, Except.bind_eq_ok, Except.mapError_eq_ok] at h
  obtain ⟨c, hc, h⟩ := h
  have finish {placed' : List Label} (h : (do
      let rest ← checkAll ctx placed' stmts
      pure (c :: rest)) = Except.ok commands) :
      ∃ rest, checkAll ctx placed' stmts = .ok rest ∧ commands = c :: rest := by
    obtain ⟨rest, hrest, h⟩ := Except.bind_eq_ok.1 h
    cases h
    exact ⟨rest, hrest, rfl⟩
  cases hdef : c.undefined? with
  | some i =>
    exfalso
    simp only [hdef] at h
    repeat' split at h
    all_goals cases h
  | none =>
    simp only [hdef] at h
    cases c with
    | place l =>
      simp only at h
      split at h
      · cases h
      · next hnew =>
        obtain ⟨rest, hrest, rfl⟩ := finish h
        refine ⟨_, rest, hc, hdef, ?_, hrest, rfl⟩
        intro l' hl'
        cases hl'
        simpa using hnew
    | _ =>
      obtain ⟨rest, hrest, rfl⟩ := finish h
      exact ⟨_, rest, hc, hdef, by simp [Command.placed?], hrest, rfl⟩

theorem checks_of_checkAll {stmts : List Stmt} (h : checkAll ctx placed stmts = .ok commands) :
    List.Forall₂ (Stmt.Checks ctx) stmts commands ∧ (∀ c ∈ commands, c.undefined? = none) ∧
      (commands.filterMap Command.placed?).Nodup ∧
        ∀ l ∈ commands.filterMap Command.placed?, l ∉ placed := by
  induction stmts generalizing placed commands with
  | nil =>
    cases h
    exact ⟨.nil, by simp, by simp, by simp⟩
  | cons s stmts ih =>
    obtain ⟨c, rest, hc, hdef, hnew, hrest, rfl⟩ := exists_of_checkAll_cons h
    obtain ⟨checks, defined, once, fresh⟩ := ih hrest
    refine ⟨.cons (Stmt.checks_of_check hc) checks, forall_mem_cons.2 ⟨hdef, defined⟩, ?_⟩
    cases hplaced : c.placed? with
    | none =>
      rw [filterMap_cons_none hplaced]
      rw [hplaced] at fresh
      exact ⟨once, fresh⟩
    | some l =>
      rw [filterMap_cons_some hplaced, nodup_cons, forall_mem_cons]
      rw [hplaced] at fresh
      refine ⟨⟨fun hl => fresh l hl (by simp), once⟩, hnew l (by simp [hplaced]), fun l' hl' => ?_⟩
      exact fun hmem => fresh l' hl' (by simp [hmem])

/-- The context after other types have been registered. -/
def Context.retyped (ctx : Context) (types : List Ty) : Context :=
  { ctx with table := { ctx.table with types } }

variable {types : List Ty}

theorem checkArgs_retyped {args : List Expr} (ih : ∀ a ∈ args, a.check (ctx.retyped types) = a.check ctx)
    (n : Nat) (ts : List Ty) : checkArgs (ctx.retyped types) n args ts = checkArgs ctx n args ts := by
  induction args generalizing n ts with
  | nil => rfl
  | cons a args ihargs =>
    obtain ⟨ha, hargs⟩ := forall_mem_cons.1 ih
    cases ts with
    | nil => rfl
    | cons t ts => simp only [checkArgs, ha, ihargs hargs]

/-- Checking looks at the primitives of a table only. -/
theorem Expr.check_retyped (e : Expr) : e.check (ctx.retyped types) = e.check ctx := by
  induction e using Expr.induct with
  | missing | int | float | bool | text | var | const | func => rfl
  | unary op x ih =>
    rw [check, check, ih]
    rfl
  | binary op x y ihx ihy =>
    rw [check, check, ihx, ihy]
    rfl
  | ternary c a b ihc iha ihb =>
    rw [check, check, ihc, iha, ihb]
    rfl
  | call callee args ih ihargs =>
    rw [check, check, ih]
    simp only [checkArgs_retyped ihargs]

theorem Stmt.check_retyped (s : Stmt) : s.check (ctx.retyped types) = s.check ctx := by
  have condition (e : Expr) : e.checkCondition (ctx.retyped types) = e.checkCondition ctx := by
    rw [Expr.checkCondition, Expr.check_retyped]
    rfl
  cases s with
  | store v e | combine v op e =>
    rw [check, check, checkStore, Expr.check_retyped]
    rfl
  | eval e => rw [check, check, Expr.check_retyped]
  | ret value =>
    simp only [check, checkReturn, Expr.check_retyped]
    rfl
  | branchTrue c l | branchFalse c l => rw [check, check, condition]
  | _ => rfl

theorem checkAll_retyped (placed : List Label) (stmts : List Stmt) :
    checkAll (ctx.retyped types) placed stmts = checkAll ctx placed stmts := by
  induction stmts generalizing placed with
  | nil => rfl
  | cons s stmts ih => simp only [checkAll, Stmt.check_retyped, ih]

/-- A code that a pool and some statements determine. -/
def UnitCode (pool : Pool) (ctx : Context) (stmts : List Stmt) (code : Code) : Prop :=
  ∃ commands, checkAll ctx [] stmts = .ok commands ∧ Generated ctx stmts commands ∧
    (∀ c ∈ commands, ∀ s ∈ c.texts, s ∈ pool.texts) ∧
      code = .ofList (assemble pool.handle ctx.output commands)

/-- A unit keeps its code when literals are added. -/
theorem UnitCode.mono {pool : Pool} {stmts : List Stmt} (h : UnitCode pool ctx stmts code)
    (hpool : pool.Within pool') : UnitCode pool' ctx stmts code := by
  obtain ⟨commands, hcheck, hgen, htexts, rfl⟩ := h
  refine ⟨commands, hcheck, hgen, fun c hc s hs => hpool.texts.subset (htexts c hc s hs), ?_⟩
  rw [assemble_congr ctx.output fun c hc s hs => (hpool.handle_eq (htexts c hc s hs)).symm]

theorem generate_of_placed {pool : Pool} {stmts : List Stmt}
    (h : checkAll ctx [] stmts = .ok commands) (hnone : unplaced? commands = none) :
    generate ctx pool stmts =
      .ok (.ofList (assemble (pool.internAll (commands.flatMap Command.texts)).handle ctx.output commands),
        pool.internAll (commands.flatMap Command.texts)) := by
  simp only [generate, h, bind, Except.bind, hnone]
  rfl

/-- Generated again, a unit has the same code and adds no literal, whatever else is registered. -/
theorem UnitCode.generate {pool : Pool} {stmts : List Stmt} (h : UnitCode pool ctx stmts code)
    (types : List Ty) : generate (ctx.retyped types) pool stmts = .ok (code, pool) := by
  obtain ⟨commands, hcheck, hgen, htexts, rfl⟩ := h
  have hpool : pool.internAll (commands.flatMap Command.texts) = pool := by
    refine Pool.internAll_eq fun s hs => ?_
    obtain ⟨c, hc, hs⟩ := mem_flatMap.1 hs
    exact htexts c hc s hs
  rw [generate_of_placed ((checkAll_retyped [] stmts).trans hcheck) hgen.placed, hpool]
  rfl

theorem UnitCode.unique {pool : Pool} {stmts : List Stmt} {code' : Code}
    (h : UnitCode pool ctx stmts code) (h' : UnitCode pool (ctx.retyped types) stmts code') :
    code' = code := by
  cases (h.generate types).symm.trans (h'.generate types)
  rfl

theorem unitCode_of_generate {pool : Pool} {stmts : List Stmt}
    (h : generate ctx pool stmts = .ok (code, pool')) :
    UnitCode pool' ctx stmts code ∧ pool.Within pool' := by
  obtain ⟨commands, hcheck, h⟩ := Except.bind_eq_ok.1 h
  split at h
  · cases h
  · next hplaced =>
    cases h
    obtain ⟨checks, defined, once, -⟩ := checks_of_checkAll hcheck
    refine ⟨⟨commands, hcheck, ⟨checks, defined, once, hplaced⟩, fun c hc s hs => ?_, rfl⟩,
      pool.within_internAll _⟩
    exact pool.mem_internAll (mem_flatMap.2 ⟨c, hc, hs⟩)

/-- The statements of a function. -/
def FunctionDecl.stmts (d : FunctionDecl) : List Stmt :=
  match d.body with
  | .host _ => []
  | .source _ _ _ stmts => stmts.toList

/-- All statements of a program. -/
def Program.stmts (prog : Program) : List Stmt :=
  prog.functions.toList.flatMap (·.stmts) ++ prog.init.toList

/-- Where the body of a function is checked. -/
def FunctionDecl.context (d : FunctionDecl) (tt : TyTable) (key : UnitKey) : Context :=
  ⟨tt, some key, d.type.output?⟩

/-- The routine that a declared function becomes. -/
inductive FunctionDecl.Becomes (pool : Pool) (tt : TyTable) (key : UnitKey) (d : FunctionDecl) :
    Routine → Prop where
  | host {builtin : Builtin} (body : d.body = .host builtin) :
      Becomes pool tt key d ⟨d.name, d.type, d.index, .host builtin⟩
  | source {scope : ScopeId} {params : Nat} {locals : Array Variable} {stmts : Array Stmt}
      {code : Code} (body : d.body = .source scope params locals stmts)
      (unit : UnitCode pool (d.context tt key) stmts.toList code) :
      Becomes pool tt key d
        ⟨d.name, d.type, d.index, .compiled (some code) (Workspace.frameKinds locals)⟩

theorem FunctionDecl.Becomes.mono {pool : Pool} {tt : TyTable} {key : UnitKey} {d : FunctionDecl}
    {r : Routine} (h : d.Becomes pool tt key r) (hpool : pool.Within pool') :
    d.Becomes pool' tt key r := by
  cases h with
  | host body => exact .host body
  | source body unit => exact .source body (unit.mono hpool)

/-- The literals of a module, numbered behind those of its imports. -/
def Module.pool (m : Module) : Pool := ⟨m.bases.strings, m.strings⟩

/-- The module that a program becomes. -/
structure Program.Becomes (prog : Program) (p : ProgramId) (tt : TyTable) (m : Module) : Prop where
  name : m.name = prog.name
  imports : m.imports = prog.imports
  globals : m.globals = prog.globals.toList
  bases : m.bases = prog.layout
  size : m.routines.length = prog.functions.size
  routine : ∀ (i : Nat) (d : FunctionDecl), prog.functions[i]? = some d →
    ∃ r, m.routines[i]? = some r ∧ d.Becomes m.pool tt ⟨p.index, i⟩ r
  init : prog.init = #[] ∧ m.init = none ∨ prog.init ≠ #[] ∧
    ∃ code, m.init = some code ∧ UnitCode m.pool ⟨tt, none, none⟩ prog.init.toList code
  texts : prog.texts <+: m.strings

namespace Workspace

variable {w : Workspace} {p : ProgramId}

variable {acc acc' : Compiled}

theorem unitCode_of_compileUnit {unit : String} {stmts : List Stmt} {code? : Option Code}
    (h : compileUnit ctx unit stmts acc = .ok (code?, acc')) (ok : acc'.errors = []) :
    ∃ code pool, code? = some code ∧ acc' = { acc with pool } ∧ acc.pool.Within pool ∧
      UnitCode pool ctx stmts code := by
  unfold compileUnit at h
  split at h
  · next code pool hgen =>
    cases h
    obtain ⟨hunit, hwithin⟩ := unitCode_of_generate hgen
    exact ⟨code, pool, rfl, rfl, hwithin, hunit⟩
  · cases h
    simp at ok
  · cases h

/-- What compiling one function adds, when no problem remains. -/
theorem becomes_of_compileFunction {d : FunctionDecl} {i : Nat}
    (h : w.compileFunction p acc (d, i) = .ok acc') (ok : acc'.errors = []) :
    acc.errors = [] ∧ acc.pool.Within acc'.pool ∧ acc'.init = acc.init ∧
      ∃ r, acc'.routines = acc.routines ++ [r] ∧
        d.Becomes acc'.pool (w.tableOf p) ⟨p.index, i⟩ r := by
  unfold compileFunction at h
  cases body : d.body with
  | host builtin =>
    simp only [body] at h
    cases h
    exact ⟨ok, .refl _, rfl, _, rfl, .host body⟩
  | source scope params locals stmts =>
    simp only [body] at h
    obtain ⟨⟨code?, acc₁⟩, hunit, h⟩ := Except.bind_eq_ok.1 h
    have ok₁ : acc₁.errors = [] := by
      cases code? with
      | none | some code =>
        cases h
        exact ok
    obtain ⟨code, pool, rfl, rfl, hwithin, hcode⟩ := unitCode_of_compileUnit hunit ok₁
    cases h
    exact ⟨ok, hwithin, rfl, _, rfl, .source body hcode⟩

/-- What compiling several functions adds, when no problem remains. -/
theorem becomes_of_compileFunctions {ds : List FunctionDecl} {n : Nat}
    (h : (ds.zipIdx n).foldlM (w.compileFunction p) acc = .ok acc') (ok : acc'.errors = []) :
    acc.errors = [] ∧ acc.pool.Within acc'.pool ∧ acc'.init = acc.init ∧
      ∃ rs, acc'.routines = acc.routines ++ rs ∧ rs.length = ds.length ∧
        ∀ (i : Nat) (d : FunctionDecl), ds[i]? = some d →
          ∃ r, rs[i]? = some r ∧ d.Becomes acc'.pool (w.tableOf p) ⟨p.index, n + i⟩ r := by
  induction ds generalizing n acc with
  | nil =>
    cases h
    exact ⟨ok, .refl _, rfl, [], by simp, rfl, by simp⟩
  | cons d ds ih =>
    rw [zipIdx_cons, foldlM_cons] at h
    obtain ⟨acc₁, h₁, h₂⟩ := Except.bind_eq_ok.1 h
    obtain ⟨ok₁, hwithin₂, hinit₂, rs, hrs, hlen, hbecomes⟩ := ih h₂
    obtain ⟨ok₀, hwithin₁, hinit₁, r, hr, hbecomes₁⟩ := becomes_of_compileFunction h₁ ok₁
    refine ⟨ok₀, hwithin₁.trans hwithin₂, hinit₂.trans hinit₁, r :: rs, by simp [hrs, hr],
      by simp [hlen], ?_⟩
    intro i d' hd'
    cases i with
    | zero =>
      obtain rfl : d = d' := by simpa using hd'
      exact ⟨r, rfl, hbecomes₁.mono hwithin₂⟩
    | succ i =>
      obtain ⟨r', hr', hb⟩ := hbecomes i d' (by simpa using hd')
      exact ⟨r', by simpa using hr', by rwa [Nat.add_assoc, Nat.add_comm 1] at hb⟩

/-- What compiling the top level adds, when no problem remains. -/
theorem unitCode_of_compileTop (h : w.compileTop p acc = .ok acc') (ok : acc'.errors = []) :
    acc.errors = [] ∧ acc.pool.Within acc'.pool ∧ acc'.routines = acc.routines ∧
      ((w.program p).init = #[] ∧ acc'.init = acc.init ∨ (w.program p).init ≠ #[] ∧
        ∃ code, acc'.init = some code ∧
          UnitCode acc'.pool ⟨w.tableOf p, none, none⟩ (w.program p).init.toList code) := by
  simp only [compileTop] at h
  split at h
  · next hempty =>
    cases h
    exact ⟨ok, .refl _, rfl, .inl ⟨by simpa using hempty, rfl⟩⟩
  · next hempty =>
    obtain ⟨⟨code?, acc₁⟩, hunit, h⟩ := Except.bind_eq_ok.1 h
    cases h
    obtain ⟨code, pool, rfl, rfl, hwithin, hcode⟩ := unitCode_of_compileUnit hunit ok
    exact ⟨ok, hwithin, rfl, .inr ⟨by simpa using hempty, code, rfl, hcode⟩⟩

/-- Compiling a program adds the module it becomes and keeps its literals with the program. -/
theorem becomes_of_compile {id : Uuid} {mid : ModuleId} {w' : Workspace}
    (h : w.compile p id = (.ok mid, w')) :
    (w.program p).errors = #[] ∧ ∃ m : Module, (w.program p).Becomes p (w.tableOf p) m ∧
      mid = ⟨w.modules.size⟩ ∧ w' = { w with modules := (w.modules.add m).2 }.modifyProgram p
        fun prog => { prog with texts := m.strings } := by
  unfold compile at h
  simp only at h
  split at h
  · cases h
  · next hnone =>
    have hnone : (w.program p).errors = #[] := by simpa using hnone
    split at h
    · cases h
    · next done hdone =>
      split at h
      · cases h
      · next ok =>
        have ok : done.errors = [] := by simpa using ok
        obtain ⟨acc, hacc, htop⟩ := Except.bind_eq_ok.1 hdone
        obtain ⟨ok₁, hwithin₂, hroutines, hinit⟩ := unitCode_of_compileTop htop ok
        obtain ⟨-, hwithin₁, hinit₁, rs, hrs, hlen, hbecomes⟩ := becomes_of_compileFunctions hacc ok₁
        have hwithin := hwithin₁.trans hwithin₂
        have hbase : done.pool.base = (w.program p).layout.strings := hwithin.base
        have hpool : done.pool = ⟨(w.program p).layout.strings, done.pool.texts⟩ := by rw [← hbase]
        cases h
        refine ⟨hnone, _, ⟨rfl, rfl, rfl, rfl, ?size, ?routine, ?init, hwithin.texts⟩, rfl, rfl⟩
        case size => simp [hroutines, hrs, hlen]
        case routine =>
          intro i d hd
          obtain ⟨r, hr, hb⟩ := hbecomes i d (by simpa using hd)
          refine ⟨r, by simpa [hroutines, hrs] using hr, ?_⟩
          rw [Nat.zero_add] at hb
          rw [Module.pool, ← hpool]
          exact hb.mono hwithin₂
        case init =>
          rcases hinit with ⟨hempty, hinit⟩ | ⟨hne, code, hcode, hunit⟩
          · exact .inl ⟨hempty, hinit.trans hinit₁⟩
          · refine .inr ⟨hne, code, hcode, ?_⟩
            rw [Module.pool, ← hpool]
            exact hunit

end Workspace
end Stackwork
