import Mathlib.Data.List.Nodup
import Stackwork.Proofs.Lang.Accesses
import Stackwork.Proofs.Lang.Typing
import Stackwork.Proofs.Lang.Units

/-!
# Well-typed programs

Which expressions have a type and which statements are in order, as rules that say nothing of terms,
commands or the order in which things are looked at. The checker accepts exactly what follows from the
rules. A unit has code if its statements are in order and every label it uses is placed once in it, and
otherwise a problem: variables that can be declared at all have a machine kind, so no other reason is left.
-/
namespace Stackwork

open List Command

/-- A global can be used anywhere, a local in its own function only. -/
def Context.Sees (ctx : Context) (v : Variable) : Prop :=
  v.isGlobal ∨ ∃ key, v.owner = some key ∧ ctx.owner = some key

namespace Expr

mutual
/-- The typing of expressions. -/
inductive HasType (ctx : Context) : Expr → Ty → Prop where
  | int (v : Int32) : HasType ctx (.int v) ctx.table.int
  | float (bits : UInt64) : HasType ctx (.float bits) ctx.table.float
  | bool (b : Bool) : HasType ctx (.bool b) ctx.table.boolean
  | text (s : String) : HasType ctx (.text s) ctx.table.string
  | var {v : Variable} (sees : ctx.Sees v) : HasType ctx (.var v) v.type
  | const (c : Constant) : HasType ctx (.const c) c.type
  | func (f : Callable) : HasType ctx (.func f) f.type
  | unary {op : UnaryOp} {x : Expr} {s t : Ty} (operand : HasType ctx x s)
      (rule : unaryType ctx.table op s = some t) : HasType ctx (.unary op x) t
  | binary {op : BinaryOp} {x y : Expr} {s t : Ty} {b : BinaryTyping} (left : HasType ctx x s)
      (right : HasType ctx y t) (rule : binaryType ctx.table op s t = some b) :
      HasType ctx (.binary op x y) b.result
  | ternary {c x y : Expr} {s t u r : Ty} (cond : HasType ctx c s) (boolean : s.kind = .boolean)
      (yes : HasType ctx x t) (no : HasType ctx y u) (rule : unify ctx.table t u = some r)
      (some : r.kind ≠ .void) : HasType ctx (.ternary c x y) r
  | call {callee : Expr} {args : List Expr} {id : Nat} {output : Ty} {inputs : List Ty}
      (function : HasType ctx callee (.function id output inputs)) (fits : ArgumentsFit ctx args inputs) :
      HasType ctx (.call callee args) output

/-- As many arguments as there are parameters, each of a type that its parameter takes. -/
inductive ArgumentsFit (ctx : Context) : List Expr → List Ty → Prop where
  | nil : ArgumentsFit ctx [] []
  | cons {e : Expr} {es : List Expr} {s t : Ty} {ts : List Ty} (typed : HasType ctx e s)
      (fits : assignable t s) (rest : ArgumentsFit ctx es ts) : ArgumentsFit ctx (e :: es) (t :: ts)
end

end Expr

/-- The statements that are in order. A function returns a value of its type, unless that is void; the top
level returns nothing. -/
inductive Stmt.WellTyped (ctx : Context) : Stmt → Prop where
  | store {v : Variable} {e : Expr} {t : Ty} (sees : ctx.Sees v) (typed : e.HasType ctx t)
      (fits : assignable v.type t) : WellTyped ctx (.store v e)
  | combine {v : Variable} {op : BinaryOp} {e : Expr} {t : Ty} {b : BinaryTyping} (sees : ctx.Sees v)
      (typed : e.HasType ctx t) (rule : binaryType ctx.table op v.type t = some b)
      (fits : assignable v.type b.result) : WellTyped ctx (.combine v op e)
  | increment {v : Variable} (sees : ctx.Sees v) (number : v.type.isNumeric) : WellTyped ctx (.increment v)
  | decrement {v : Variable} (sees : ctx.Sees v) (number : v.type.isNumeric) : WellTyped ctx (.decrement v)
  | eval {e : Expr} {t : Ty} (typed : e.HasType ctx t) : WellTyped ctx (.eval e)
  | retTop (top : ctx.output = none) : WellTyped ctx (.ret none)
  | retVoid {out : Ty} (output : ctx.output = some out) (void : out.kind = .void) : WellTyped ctx (.ret none)
  | retValue {out : Ty} {e : Expr} {t : Ty} (output : ctx.output = some out) (value : out.kind ≠ .void)
      (typed : e.HasType ctx t) (fits : assignable out t) : WellTyped ctx (.ret (some e))
  | jump (l : Label) : WellTyped ctx (.jump l)
  | branchTrue {c : Expr} {t : Ty} (l : Label) (typed : c.HasType ctx t) (boolean : t.kind = .boolean) :
      WellTyped ctx (.branchTrue c l)
  | branchFalse {c : Expr} {t : Ty} (l : Label) (typed : c.HasType ctx t) (boolean : t.kind = .boolean) :
      WellTyped ctx (.branchFalse c l)
  | place (l : Label) : WellTyped ctx (.place l)
  | halt : WellTyped ctx .halt

namespace Stmt

/-- The label that a statement jumps to or places. -/
def label? : Stmt → Option Label
  | jump l | branchTrue _ l | branchFalse _ l | place l => some l
  | _ => none

/-- The label that a statement places. -/
def placing? : Stmt → Option Label
  | place l => some l
  | _ => none

/-- The variables that a statement reads or writes. -/
def vars (s : Stmt) : List Variable :=
  s.refs.filterMap fun r =>
    match r with
    | .read v | .write v => some v
    | _ => none

end Stmt

/-- A unit in order: so are its statements, and every label that is jumped to or placed in it is placed in
it once. -/
structure Context.Accepts (ctx : Context) (stmts : List Stmt) : Prop where
  typed : ∀ s ∈ stmts, s.WellTyped ctx
  placed : ∀ l ∈ stmts.filterMap Stmt.label?, (stmts.filterMap Stmt.placing?).count l = 1

variable {ctx : Context}

theorem Context.sees_iff {v : Variable} : ctx.Sees v ↔ ctx.checkVariable v = .ok () := by
  rw [checkVariable_eq_ok, Sees]
  refine or_congr_right ?_
  constructor
  · rintro ⟨key, hv, hctx⟩
    exact ⟨by rw [hv]; rfl, hv.trans hctx.symm⟩
  · rintro ⟨hv, heq⟩
    obtain ⟨key, hkey⟩ := Option.isSome_iff_exists.1 hv
    exact ⟨key, hkey, heq ▸ hkey⟩

theorem Expr.argumentsFit_iff {args : List Expr} {inputs : List Ty}
    (ih : ∀ e ∈ args, ∀ t, e.HasType ctx t ↔ ∃ x, e.check ctx = .ok ⟨x, t⟩) :
    ArgumentsFit ctx args inputs ↔ ∃ terms, Arguments ctx args inputs terms := by
  induction args generalizing inputs with
  | nil =>
    constructor
    · intro h
      cases h
      exact ⟨[], .nil⟩
    · rintro ⟨terms, h⟩
      cases h
      exact .nil
  | cons e args ihargs =>
    obtain ⟨he, hrest⟩ := forall_mem_cons.1 ih
    constructor
    · intro h
      cases h with
      | cons typed fits rest =>
        obtain ⟨x, hx⟩ := (he _).1 typed
        obtain ⟨terms, hterms⟩ := (ihargs hrest).1 rest
        exact ⟨_, .cons hx fits hterms⟩
    · rintro ⟨terms, h⟩
      cases h with
      | cons checked fits rest => exact .cons ((he _).2 ⟨_, checked⟩) fits ((ihargs hrest).2 ⟨_, rest⟩)

/-- The checker finds the type of an expression that has one, and no other. -/
theorem Expr.hasType_iff (e : Expr) : ∀ t, e.HasType ctx t ↔ ∃ x, e.check ctx = .ok ⟨x, t⟩ := by
  induction e using Expr.induct with
  | missing =>
    intro t
    constructor
    · intro h
      cases h
    · rintro ⟨x, h⟩
      cases h
  | int | float | bool | text | const | func =>
    intro t
    constructor
    · intro h
      cases h
      exact ⟨_, rfl⟩
    · rintro ⟨x, h⟩
      cases h
      constructor
  | var v =>
    intro t
    constructor
    · intro h
      cases h with
      | var sees => exact ⟨_, check_var_eq_ok.2 ⟨Context.sees_iff.1 sees, rfl⟩⟩
    · rintro ⟨x, h⟩
      obtain ⟨here, heq⟩ := check_var_eq_ok.1 h
      cases heq
      exact .var (Context.sees_iff.2 here)
  | unary op x ih =>
    intro t
    constructor
    · intro h
      cases h with
      | unary operand rule =>
        obtain ⟨a, ha⟩ := (ih _).1 operand
        exact ⟨_, check_unary_eq_ok.2 ⟨_, t, ha, rule, rfl⟩⟩
    · rintro ⟨x, h⟩
      obtain ⟨a, t, ha, rule, heq⟩ := check_unary_eq_ok.1 h
      cases heq
      exact .unary ((ih _).2 ⟨_, ha⟩) rule
  | binary op x y ihx ihy =>
    intro t
    constructor
    · intro h
      cases h with
      | binary left right rule =>
        obtain ⟨a, ha⟩ := (ihx _).1 left
        obtain ⟨b, hb⟩ := (ihy _).1 right
        exact ⟨_, check_binary_eq_ok.2 ⟨_, _, _, ha, hb, rule, rfl⟩⟩
    · rintro ⟨x, h⟩
      obtain ⟨a, b, t, ha, hb, rule, heq⟩ := check_binary_eq_ok.1 h
      cases heq
      exact .binary ((ihx _).2 ⟨_, ha⟩) ((ihy _).2 ⟨_, hb⟩) rule
  | ternary c x y ihc ihx ihy =>
    intro t
    constructor
    · intro h
      cases h with
      | ternary cond boolean yes no rule some =>
        obtain ⟨d, hd⟩ := (ihc _).1 cond
        obtain ⟨a, ha⟩ := (ihx _).1 yes
        obtain ⟨b, hb⟩ := (ihy _).1 no
        exact ⟨_, check_ternary_eq_ok.2 ⟨_, _, _, t, hd, boolean, ha, hb, rule, some, rfl⟩⟩
    · rintro ⟨x, h⟩
      obtain ⟨d, a, b, t, hd, boolean, ha, hb, rule, some, heq⟩ := check_ternary_eq_ok.1 h
      cases heq
      exact .ternary ((ihc _).2 ⟨_, hd⟩) boolean ((ihx _).2 ⟨_, ha⟩) ((ihy _).2 ⟨_, hb⟩) rule some
  | call callee args ihcallee ihargs =>
    intro t
    constructor
    · intro h
      cases h with
      | call function fits =>
        obtain ⟨f, hf⟩ := (ihcallee _).1 function
        obtain ⟨terms, hterms⟩ := (argumentsFit_iff ihargs).1 fits
        exact ⟨_, check_call_eq_ok.2 ⟨_, _, t, _, terms, hf, rfl, hterms, rfl⟩⟩
    · rintro ⟨x, h⟩
      obtain ⟨⟨f, s⟩, id, output, inputs, terms, hf, hs, hargs, heq⟩ := check_call_eq_ok.1 h
      cases heq
      obtain rfl : s = .function id t inputs := hs
      exact .call ((ihcallee _).2 ⟨_, hf⟩) ((argumentsFit_iff ihargs).2 ⟨_, hargs⟩)

namespace Stmt

variable {s : Stmt} {c : Command}

theorem Checks.wellTyped (h : s.Checks ctx c) : s.WellTyped ctx := by
  have typed {e : Expr} {x : Typed} (checked : e.check ctx = .ok x) : e.HasType ctx x.type :=
    (e.hasType_iff _).2 ⟨_, checked⟩
  cases h with
  | @assign s v e x shape here checked fits =>
    have sees := Context.sees_iff.2 here
    cases s with
    | store =>
      cases shape
      exact .store sees (typed checked) fits
    | combine =>
      cases shape
      generalize htype : x.type = t at fits
      have hbinary := htype ▸ typed checked
      cases hbinary with
      | binary left right rule =>
        cases left with
        | var => exact .combine sees right rule fits
    | _ => cases shape
  | @stepInt s v onInt onFloat shape here kind | @stepFloat s v onInt onFloat shape here kind =>
    have sees := Context.sees_iff.2 here
    have number : v.type.isNumeric := by simp [Ty.isNumeric, kind]
    cases s with
    | increment =>
      cases shape
      exact .increment sees number
    | decrement =>
      cases shape
      exact .decrement sees number
    | _ => cases shape
  | eval checked => exact .eval (typed checked)
  | retTop top => exact .retTop top
  | retVoid output kind => exact .retVoid output kind
  | retValue output kind checked fits => exact .retValue output kind (typed checked) fits
  | jump => exact .jump _
  | branchTrue checked kind => exact .branchTrue _ (typed checked) kind
  | branchFalse checked kind => exact .branchFalse _ (typed checked) kind
  | place => exact .place _
  | halt => exact .halt

variable {v : Variable} {t : Ty}

theorem exists_checkStore {e : Expr} (sees : ctx.Sees v) (typed : e.HasType ctx t) (fits : assignable v.type t) :
    ∃ c, checkStore ctx v e = .ok c := by
  obtain ⟨x, hx⟩ := (e.hasType_iff t).1 typed
  refine ⟨.store v (Typed.as ⟨x, t⟩ v.type), ?_⟩
  refine Except.bind_eq_ok.2 ⟨(), Context.sees_iff.1 sees, Except.bind_eq_ok.2 ⟨_, hx, ?_⟩⟩
  rw [if_neg (by simp [fits])]
  rfl

theorem exists_checkStep (onInt : UnaryCode) (onFloat : BinaryCode) (sees : ctx.Sees v) (number : v.type.isNumeric) :
    ∃ c, checkStep ctx v onInt onFloat = .ok c := by
  have here := Context.sees_iff.1 sees
  rcases Ty.isNumeric_iff.1 number with kind | kind
  · refine ⟨.store v (.unary onInt v.kind (.load v)), Except.bind_eq_ok.2 ⟨(), here, ?_⟩⟩
    rw [kind]
    rfl
  · refine ⟨.store v (.binary onFloat v.kind (.load v) (.float 0x3ff0000000000000)), Except.bind_eq_ok.2 ⟨(), here, ?_⟩⟩
    rw [kind]
    rfl

theorem exists_checkCondition {c : Expr} (typed : c.HasType ctx t) (boolean : t.kind = .boolean) :
    ∃ x, c.checkCondition ctx = .ok x := by
  obtain ⟨x, hx⟩ := (c.hasType_iff t).1 typed
  exact ⟨_, Expr.checkCondition_eq_ok.2 ⟨_, hx, boolean, rfl⟩⟩

theorem WellTyped.exists_check (h : s.WellTyped ctx) : ∃ c, s.check ctx = .ok c := by
  cases h with
  | store sees typed fits => exact exists_checkStore sees typed fits
  | combine sees typed rule fits => exact exists_checkStore sees (.binary (.var sees) typed rule) fits
  | increment sees number | decrement sees number => exact exists_checkStep _ _ sees number
  | @eval e t typed =>
    obtain ⟨x, hx⟩ := (e.hasType_iff t).1 typed
    exact ⟨_, Except.bind_eq_ok.2 ⟨_, hx, rfl⟩⟩
  | retTop top =>
    refine ⟨.halt, ?_⟩
    simp only [check, checkReturn, top]
    rfl
  | retVoid output void =>
    refine ⟨.ret .none none, ?_⟩
    simp only [check, checkReturn, output, if_pos void]
    rfl
  | @retValue out e t output value typed fits =>
    obtain ⟨x, hx⟩ := (e.hasType_iff t).1 typed
    refine ⟨.ret (Kind.ofTy out) (some (Typed.as ⟨x, t⟩ out)), ?_⟩
    simp only [check, checkReturn, output, if_neg value]
    refine Except.bind_eq_ok.2 ⟨_, hx, ?_⟩
    rw [if_neg (by simp [fits])]
    rfl
  | branchTrue l typed boolean | branchFalse l typed boolean =>
    obtain ⟨x, hx⟩ := exists_checkCondition typed boolean
    exact ⟨_, Except.bind_eq_ok.2 ⟨x, hx, rfl⟩⟩
  | jump | place | halt => exact ⟨_, rfl⟩

theorem Checks.label?_eq (h : s.Checks ctx c) : c.label? = s.label? ∧ c.placed? = s.placing? := by
  cases h with
  | @assign s v e x shape | @stepInt s v onInt onFloat shape | @stepFloat s v onInt onFloat shape =>
    cases s <;> cases shape <;> exact ⟨rfl, rfl⟩
  | eval | retTop | retVoid | retValue | jump | branchTrue | branchFalse | place | halt => exact ⟨rfl, rfl⟩

/-- Where every variable has a machine kind, no access is left undefined. -/
theorem Checks.undefined?_eq (h : s.Checks ctx c) (kinds : ∀ v ∈ s.vars, v.kind ≠ .none) : c.undefined? = none := by
  have hvar {a : Access} {v : Variable} (ha : a ∈ c.accesses) (hv : a = .load v ∨ a = .store v) : v.kind ≠ .none := by
    rw [h.accesses_eq] at ha
    obtain ⟨r, hr, heq⟩ := mem_filterMap.1 ha
    refine kinds v (mem_filterMap.2 ⟨r, hr, ?_⟩)
    rcases hv with rfl | rfl <;> cases r <;> cases heq <;> rfl
  unfold undefined?
  have hloads : c.loads.find? (·.kind = .none) = none := by
    refine find?_eq_none.2 fun v hv => ?_
    rw [c.loads_eq] at hv
    obtain ⟨a, ha, heq⟩ := mem_filterMap.1 hv
    cases a with
    | load w =>
      cases heq
      simpa using hvar ha (.inl rfl)
    | _ => cases heq
  rw [hloads]
  cases c with
  | store v x => exact if_neg (hvar (mem_append_right _ mem_cons_self) (.inr rfl))
  | _ => rfl

end Stmt

section

variable {placed : List Label} {s : Stmt} {stmts : List Stmt}

/-! One statement more to check. -/

theorem checkAll_cons_error {p : Problem} (h : s.check ctx = .error p) :
    checkAll ctx placed (s :: stmts) = .error (.problem p) := by
  rw [checkAll, h]
  rfl

theorem checkAll_cons_twice {l : Label} (h : s.check ctx = .ok (.place l)) (old : l ∈ placed) :
    checkAll ctx placed (s :: stmts) = .error (.problem (.placedTwice l.name)) := by
  rw [checkAll, h]
  simp only [Except.mapError, bind, Except.bind, contains_iff_mem.2 old, if_true]
  rfl

theorem checkAll_cons_ok {c : Command} (h : s.check ctx = .ok c) (new : ∀ l ∈ c.placed?, l ∉ placed)
    (defined : c.undefined? = none) :
    checkAll ctx placed (s :: stmts) = (checkAll ctx (c.placed?.toList ++ placed) stmts).map (c :: ·) := by
  have hmap (x : Except Rejection (List Command)) : (do return c :: (← x)) = x.map (c :: ·) := by
    cases x <;> rfl
  simp only [checkAll, h, Except.mapError, bind, Except.bind, defined]
  cases c with
  | place l =>
    have hnew : placed.contains l = false := by simpa using new l rfl
    simp only [hnew]
    exact hmap _
  | _ => exact hmap _

/-- Statements that are in order and place new labels once are all checked. -/
theorem exists_checkAll (typed : ∀ s ∈ stmts, s.WellTyped ctx) (kinds : ∀ s ∈ stmts, ∀ v ∈ s.vars, v.kind ≠ .none)
    (once : (stmts.filterMap Stmt.placing?).Nodup) (new : ∀ l ∈ stmts.filterMap Stmt.placing?, l ∉ placed) :
    ∃ commands, checkAll ctx placed stmts = .ok commands := by
  induction stmts generalizing placed with
  | nil => exact ⟨[], rfl⟩
  | cons s stmts ih =>
    obtain ⟨htyped, typed⟩ := forall_mem_cons.1 typed
    obtain ⟨hkinds, kinds⟩ := forall_mem_cons.1 kinds
    obtain ⟨c, hc⟩ := htyped.exists_check
    have checks := Stmt.checks_of_check hc
    have hplaced := checks.label?_eq.2
    rw [filterMap_cons] at once new
    have hrest : ∃ rest, checkAll ctx (c.placed?.toList ++ placed) stmts = .ok rest := by
      cases hs : s.placing? with
      | none =>
        rw [hs] at once new
        rw [hplaced, hs]
        exact ih typed kinds once new
      | some l =>
        rw [hs] at once new
        rw [hplaced, hs]
        obtain ⟨hl, once⟩ := nodup_cons.1 once
        obtain ⟨-, new⟩ := forall_mem_cons.1 new
        refine ih typed kinds once fun l' hl' hmem => ?_
        rcases mem_cons.1 hmem with rfl | hmem
        · exact hl hl'
        · exact new l' hl' hmem
    obtain ⟨rest, hrest⟩ := hrest
    refine ⟨c :: rest, ?_⟩
    rw [checkAll_cons_ok hc (fun l hl => ?_) (checks.undefined?_eq hkinds), hrest]
    · rfl
    · rw [hplaced] at hl
      rw [hl] at new
      exact new l mem_cons_self

end

variable {commands : List Command} {stmts : List Stmt} {pool : Pool}

/-- A list of commands leaves no label unplaced if all it uses are placed. -/
theorem unplaced?_eq_none_iff : unplaced? commands = none ↔
    ∀ l ∈ commands.filterMap label?, l ∈ commands.filterMap placed? := by
  rw [unplaced?, find?_eq_none]
  refine forall₂_congr fun l _ => ?_
  rw [Bool.not_eq_true, Bool.not_eq_false', contains_iff_mem]
  rfl

theorem filterMap_of_checks (h : List.Forall₂ (Stmt.Checks ctx) stmts commands) :
    commands.filterMap label? = stmts.filterMap Stmt.label? ∧
      commands.filterMap placed? = stmts.filterMap Stmt.placing? := by
  induction h with
  | nil => exact ⟨rfl, rfl⟩
  | cons checks _ ih =>
    obtain ⟨hlabel, hplaced⟩ := checks.label?_eq
    simp only [filterMap_cons, hlabel, hplaced, ih, and_self]

theorem generate_of_error {r : Rejection} (h : checkAll ctx [] stmts = .error r) :
    generate ctx pool stmts = .error r := by
  rw [generate, h]
  rfl

theorem generate_of_unplaced {l : Label} (h : checkAll ctx [] stmts = .ok commands)
    (hl : unplaced? commands = some l) : generate ctx pool stmts = .error (.problem (.neverPlaced l.name)) := by
  simp only [generate, h, bind, Except.bind, hl]
  rfl

theorem forall_wellTyped (h : List.Forall₂ (Stmt.Checks ctx) stmts commands) : ∀ s ∈ stmts, s.WellTyped ctx := by
  induction h with
  | nil => exact forall_mem_nil _
  | cons checks _ ih => exact forall_mem_cons.2 ⟨checks.wellTyped, ih⟩

theorem Generated.accepts (h : Generated ctx stmts commands) : ctx.Accepts stmts := by
  obtain ⟨hlabel, hplaced⟩ := filterMap_of_checks h.checks
  refine ⟨forall_wellTyped h.checks, fun l hl => ?_⟩
  rw [← hplaced]
  rw [← hlabel] at hl
  exact count_eq_one_of_mem h.once (unplaced?_eq_none_iff.1 h.placed l hl)

/-- A unit has code exactly if it is in order. -/
theorem exists_generate_iff (pool : Pool) (kinds : ∀ s ∈ stmts, ∀ v ∈ s.vars, v.kind ≠ .none) :
    (∃ r, generate ctx pool stmts = .ok r) ↔ ctx.Accepts stmts := by
  constructor
  · rintro ⟨⟨code, pool'⟩, h⟩
    obtain ⟨⟨commands, -, generated, -⟩, -⟩ := unitCode_of_generate h
    exact generated.accepts
  · intro accepts
    have hmem {l : Label} (hl : l ∈ stmts.filterMap Stmt.placing?) : l ∈ stmts.filterMap Stmt.label? := by
      obtain ⟨s, hs, heq⟩ := mem_filterMap.1 hl
      refine mem_filterMap.2 ⟨s, hs, ?_⟩
      cases s with
      | place => exact heq
      | _ => cases heq
    have once : (stmts.filterMap Stmt.placing?).Nodup := by
      refine nodup_iff_count_le_one.2 fun l => ?_
      by_cases hl : l ∈ stmts.filterMap Stmt.placing?
      · exact Nat.le_of_eq (accepts.placed l (hmem hl))
      · rw [count_eq_zero.2 hl]
        exact Nat.zero_le 1
    obtain ⟨commands, hcheck⟩ := exists_checkAll accepts.typed kinds once fun l _ => not_mem_nil (a := l)
    obtain ⟨hlabel, hplaced⟩ := filterMap_of_checks (checks_of_checkAll hcheck).1
    have hnone : unplaced? commands = none := by
      refine unplaced?_eq_none_iff.2 fun l hl => ?_
      rw [hlabel] at hl
      rw [hplaced]
      exact count_pos_iff.1 (by rw [accepts.placed l hl]; exact Nat.one_pos)
    exact ⟨_, generate_of_placed hcheck hnone⟩

end Stackwork
