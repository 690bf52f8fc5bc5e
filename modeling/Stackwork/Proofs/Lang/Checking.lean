import Stackwork.Lang.Check
import Stackwork.Proofs.Failing

/-!
# What checking accepts

Checking taken apart: when an expression is accepted, what its parts were found to be and
which term it became; when a statement is accepted, which of a few shapes the command has.
Everything that is proved about checked programs starts from these equivalences.
-/
namespace Stackwork

open Stackwork.Except (bind_eq_ok)

variable {ctx : Context}

theorem Context.checkVariable_eq_ok {v : Variable} : ctx.checkVariable v = .ok () ↔
    v.isGlobal ∨ v.owner.isSome ∧ v.owner = ctx.owner := by
  unfold checkVariable
  split
  · next h => simp [h]
  · next h =>
    split
    · next h' => simpa [h] using h'
    · next h' => simpa [h] using h'

/-- The term of a call: direct if the function is named. -/
def callTerm (callee : Expr) (f : Term) (args : List Term) : Term :=
  match callee with
  | .func g => .call g.index args
  | _ => .callValue f args

/-- Arguments that are accepted for the given parameter types, with their terms. -/
inductive Arguments (ctx : Context) : List Expr → List Ty → List Term → Prop where
  | nil : Arguments ctx [] [] []
  | cons {a : Expr} {args : List Expr} {t : Ty} {inputs : List Ty} {x : Typed} {terms : List Term}
      (checked : a.check ctx = .ok x) (fits : assignable t x.type)
      (rest : Arguments ctx args inputs terms) :
      Arguments ctx (a :: args) (t :: inputs) (x.as t :: terms)

variable {args : List Expr} {inputs : List Ty} {terms : List Term}

theorem checkArgs_eq_ok {n : Nat} (len : args.length = inputs.length) :
    checkArgs ctx n args inputs = .ok terms ↔ Arguments ctx args inputs terms := by
  induction args generalizing n inputs terms with
  | nil =>
    obtain rfl := List.length_eq_zero_iff.1 len.symm
    rw [checkArgs]
    · constructor
      · intro h
        cases h
        exact .nil
      · intro h
        cases h
        rfl
    · simp
  | cons a args ih =>
    cases inputs with
    | nil => cases len
    | cons t inputs =>
      rw [checkArgs, bind_eq_ok]
      constructor
      · rintro ⟨x, hx, h⟩
        split at h
        · cases h
        · next hfits =>
          obtain ⟨rest, hrest, h⟩ := Except.bind_eq_ok.1 h
          cases h
          exact .cons hx (by simpa using hfits) ((ih (Nat.succ.inj len)).1 hrest)
      · intro h
        cases h with
        | cons checked fits rest =>
          refine ⟨_, checked, ?_⟩
          rw [if_neg (by simp [fits]), (ih (Nat.succ.inj len)).2 rest]
          rfl

theorem Arguments.length_eq (h : Arguments ctx args inputs terms) :
    args.length = inputs.length ∧ terms.length = inputs.length := by
  induction h with
  | nil => exact ⟨rfl, rfl⟩
  | cons _ _ _ ih => simp [ih]

namespace Expr

variable {r : Typed} {x : Expr}

theorem check_var_eq_ok {v : Variable} : (var v).check ctx = .ok r ↔
    ctx.checkVariable v = .ok () ∧ r = ⟨.load v, v.type⟩ := by
  rw [check, bind_eq_ok]
  constructor
  · rintro ⟨⟨⟩, hv, h⟩
    cases h
    exact ⟨hv, rfl⟩
  · rintro ⟨hv, rfl⟩
    exact ⟨(), hv, rfl⟩

theorem check_unary_eq_ok {op : UnaryOp} :
    (unary op x).check ctx = .ok r ↔ ∃ a t, x.check ctx = .ok a ∧
      unaryType ctx.table op a.type = some t ∧ r = ⟨unaryTerm op a, t⟩ := by
  rw [check, bind_eq_ok]
  refine exists_congr fun a => ?_
  cases ht : unaryType ctx.table op a.type with
  | none => simp [throw, throwThe, MonadExceptOf.throw]
  | some t => simp [pure, Except.pure, eq_comm]

variable {y : Expr}

theorem check_binary_eq_ok {op : BinaryOp} :
    (binary op x y).check ctx = .ok r ↔ ∃ a b t, x.check ctx = .ok a ∧ y.check ctx = .ok b ∧
      binaryType ctx.table op a.type b.type = some t ∧
        r = ⟨binaryTerm op t.operand a b, t.result⟩ := by
  rw [check, bind_eq_ok]
  refine exists_congr fun a => ?_
  rw [bind_eq_ok]
  constructor
  · rintro ⟨ha, b, hb, h⟩
    split at h
    · next t ht =>
      cases h
      exact ⟨b, t, ha, hb, ht, rfl⟩
    · cases h
  · rintro ⟨b, t, ha, hb, ht, rfl⟩
    refine ⟨ha, b, hb, ?_⟩
    rw [ht]
    rfl

theorem check_ternary_eq_ok {c : Expr} :
    (ternary c x y).check ctx = .ok r ↔ ∃ d a b t, c.check ctx = .ok d ∧ d.type.kind = .boolean ∧
      x.check ctx = .ok a ∧ y.check ctx = .ok b ∧ unify ctx.table a.type b.type = some t ∧
        t.kind ≠ .void ∧ r = ⟨.select (Kind.ofTy t) d.term (a.as t) (b.as t), t⟩ := by
  rw [check, bind_eq_ok]
  refine exists_congr fun d => ?_
  constructor
  · rintro ⟨hd, h⟩
    split at h
    · cases h
    · next hkind =>
      obtain ⟨a, ha, h⟩ := Except.bind_eq_ok.1 h
      obtain ⟨b, hb, h⟩ := Except.bind_eq_ok.1 h
      split at h
      · next t ht =>
        split at h
        · cases h
        · next hvoid =>
          cases h
          exact ⟨a, b, t, hd, Decidable.not_not.1 hkind, ha, hb, ht, hvoid, rfl⟩
      · cases h
  · rintro ⟨a, b, t, hd, hkind, ha, hb, ht, hvoid, rfl⟩
    refine ⟨hd, ?_⟩
    rw [if_neg (by simp [hkind]), bind_eq_ok]
    refine ⟨a, ha, ?_⟩
    rw [bind_eq_ok]
    refine ⟨b, hb, ?_⟩
    rw [ht]
    simp only [if_neg hvoid]
    rfl

theorem check_call_eq_ok {callee : Expr} {args : List Expr} :
    (call callee args).check ctx = .ok r ↔ ∃ f id output inputs terms,
      callee.check ctx = .ok f ∧ f.type = .function id output inputs ∧
        Arguments ctx args inputs terms ∧ r = ⟨callTerm callee f.term terms, output⟩ := by
  rw [check, bind_eq_ok]
  refine exists_congr fun f => ?_
  constructor
  · rintro ⟨hf, h⟩
    split at h
    · next id output inputs htype =>
      by_cases hlen : args.length = inputs.length
      · simp only [ne_eq, hlen, not_true_eq_false, if_false] at h
        have key : ∃ terms, checkArgs ctx 1 args inputs = .ok terms ∧
            r = ⟨callTerm callee f.term terms, output⟩ := by
          cases callee <;> obtain ⟨terms, hterms, h⟩ := Except.bind_eq_ok.1 h <;> cases h <;>
            exact ⟨terms, hterms, rfl⟩
        obtain ⟨terms, hterms, rfl⟩ := key
        exact ⟨id, output, inputs, terms, hf, htype, (checkArgs_eq_ok hlen).1 hterms, rfl⟩
      · simp only [ne_eq, hlen, not_false_eq_true, if_true] at h
        split at h <;> cases h
    · cases h
  · rintro ⟨id, output, inputs, terms, hf, htype, hargs, rfl⟩
    refine ⟨hf, ?_⟩
    rw [htype]
    have hlen := hargs.length_eq.1
    simp only [ne_eq, hlen, not_true_eq_false, if_false]
    rw [bind_eq_ok]
    refine ⟨terms, (checkArgs_eq_ok hlen).2 hargs, ?_⟩
    cases callee <;> rfl

theorem checkCondition_eq_ok {e : Expr} {t : Term} : e.checkCondition ctx = .ok t ↔
    ∃ x, e.check ctx = .ok x ∧ x.type.kind = .boolean ∧ t = x.term := by
  rw [checkCondition, bind_eq_ok]
  refine exists_congr fun x => and_congr_right fun _ => ?_
  split
  · next h => exact iff_of_false (fun h' => by cases h') fun h' => h h'.1
  · next h => simp [Decidable.not_not.1 h, pure, Except.pure, eq_comm]

end Expr

namespace Stmt

/-- The assignment a statement makes, if it is one. -/
def assigned? : Stmt → Option (Variable × Expr)
  | store v e => some (v, e)
  | combine v op e => some (v, .binary op (.var v) e)
  | _ => none

/-- The variable that a statement moves by one, and the operations that do so on integers and
on floats. -/
def stepped? : Stmt → Option (Variable × UnaryCode × BinaryCode)
  | increment v => some (v, .inc, .add)
  | decrement v => some (v, .dec, .sub)
  | _ => none

/-- Statements that are accepted, with their commands. -/
inductive Checks (ctx : Context) : Stmt → Command → Prop where
  | assign {s : Stmt} {v : Variable} {e : Expr} {x : Typed} (shape : s.assigned? = some (v, e))
      (here : ctx.checkVariable v = .ok ()) (checked : e.check ctx = .ok x)
      (fits : assignable v.type x.type) : Checks ctx s (.store v (x.as v.type))
  | stepInt {s : Stmt} {v : Variable} {onInt : UnaryCode} {onFloat : BinaryCode}
      (shape : s.stepped? = some (v, onInt, onFloat)) (here : ctx.checkVariable v = .ok ())
      (kind : v.type.kind = .int) : Checks ctx s (.store v (.unary onInt v.kind (.load v)))
  | stepFloat {s : Stmt} {v : Variable} {onInt : UnaryCode} {onFloat : BinaryCode}
      (shape : s.stepped? = some (v, onInt, onFloat)) (here : ctx.checkVariable v = .ok ())
      (kind : v.type.kind = .float) :
      Checks ctx s (.store v (.binary onFloat v.kind (.load v) (.float 0x3ff0000000000000)))
  | eval {e : Expr} {x : Typed} (checked : e.check ctx = .ok x) : Checks ctx (.eval e) (.drop x.term)
  | retTop (top : ctx.output = none) : Checks ctx (.ret none) .halt
  | retVoid {out : Ty} (output : ctx.output = some out) (kind : out.kind = .void) :
      Checks ctx (.ret none) (.ret .none none)
  | retValue {out : Ty} {e : Expr} {x : Typed} (output : ctx.output = some out)
      (kind : out.kind ≠ .void) (checked : e.check ctx = .ok x) (fits : assignable out x.type) :
      Checks ctx (.ret (some e)) (.ret (Kind.ofTy out) (some (x.as out)))
  | jump {l : Label} : Checks ctx (.jump l) (.jump l)
  | branchTrue {c : Expr} {l : Label} {x : Typed} (checked : c.check ctx = .ok x)
      (kind : x.type.kind = .boolean) : Checks ctx (.branchTrue c l) (.branchTrue x.term l)
  | branchFalse {c : Expr} {l : Label} {x : Typed} (checked : c.check ctx = .ok x)
      (kind : x.type.kind = .boolean) : Checks ctx (.branchFalse c l) (.branchFalse x.term l)
  | place {l : Label} : Checks ctx (.place l) (.place l)
  | halt : Checks ctx .halt .halt

variable {s : Stmt} {c : Command}

variable {v : Variable}

theorem checks_of_checkStore {e : Expr} (shape : s.assigned? = some (v, e))
    (h : checkStore ctx v e = .ok c) : s.Checks ctx c := by
  obtain ⟨⟨⟩, here, h₁⟩ := Except.bind_eq_ok.1 h
  obtain ⟨x, checked, h₂⟩ := Except.bind_eq_ok.1 h₁
  split at h₂
  · cases h₂
  · next fits =>
    cases h₂
    exact .assign shape here checked (by simpa using fits)

theorem checks_of_checkStep {onInt : UnaryCode} {onFloat : BinaryCode}
    (shape : s.stepped? = some (v, onInt, onFloat)) (h : checkStep ctx v onInt onFloat = .ok c) :
    s.Checks ctx c := by
  obtain ⟨⟨⟩, here, h⟩ := Except.bind_eq_ok.1 h
  split at h
  · next kind =>
    cases h
    exact .stepInt shape here kind
  · next kind =>
    cases h
    exact .stepFloat shape here kind
  · cases h

theorem checks_of_checkReturn {value : Option Expr} (h : checkReturn ctx value = .ok c) :
    (Stmt.ret value).Checks ctx c := by
  unfold checkReturn at h
  cases output : ctx.output with
  | none =>
    cases value with
    | none =>
      rw [output] at h
      cases h
      exact .retTop output
    | some e =>
      rw [output] at h
      cases h
  | some out =>
    simp only [output] at h
    split at h
    · next kind =>
      cases value with
      | none =>
        cases h
        exact .retVoid output kind
      | some e => cases h
    · next kind =>
      cases value with
      | none => cases h
      | some e =>
        obtain ⟨x, checked, h⟩ := Except.bind_eq_ok.1 h
        split at h
        · cases h
        · next fits =>
          cases h
          exact .retValue output kind checked (by simpa using fits)

theorem checks_of_check (h : s.check ctx = .ok c) : s.Checks ctx c := by
  cases s with
  | missing => cases h
  | store v e | combine v op e => exact checks_of_checkStore rfl h
  | increment v | decrement v => exact checks_of_checkStep rfl h
  | eval e =>
    obtain ⟨x, checked, h⟩ := Except.bind_eq_ok.1 h
    cases h
    exact .eval checked
  | ret value => exact checks_of_checkReturn h
  | jump l =>
    cases h
    exact .jump
  | branchTrue e l =>
    obtain ⟨t, ht, h⟩ := Except.bind_eq_ok.1 h
    obtain ⟨x, checked, kind, rfl⟩ := Expr.checkCondition_eq_ok.1 ht
    cases h
    exact .branchTrue checked kind
  | branchFalse e l =>
    obtain ⟨t, ht, h⟩ := Except.bind_eq_ok.1 h
    obtain ⟨x, checked, kind, rfl⟩ := Expr.checkCondition_eq_ok.1 ht
    cases h
    exact .branchFalse checked kind
  | place l =>
    cases h
    exact .place
  | halt =>
    cases h
    exact .halt

end Stmt
end Stackwork
