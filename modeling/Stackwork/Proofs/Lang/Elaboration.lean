import Stackwork.Machine.Arith
import Stackwork.Proofs.Code.Encoding
import Stackwork.Proofs.Lang.Accesses
import Stackwork.Proofs.Lang.Meaning
import Stackwork.Proofs.Lang.Operations

/-!
# Checking keeps the meaning

Terms have a meaning of their own, in which every operation is one of the machine and no type
is left. A checked expression means what its term means: the conversions that checking makes
explicit are those of the evaluation, and the arithmetic of the machine is that of the folder.
-/
namespace Stackwork

open Kind Eval

theorem Kind.ofTy_eq_float {t : Ty} : ofTy t = .float ↔ t.kind = .float := by
  unfold ofTy
  cases t.kind <;> simp [ofTyKind, none, int, float, obj]

/-- An operation of the machine on one value. -/
def UnaryCode.on? (op : UnaryCode) (k : Kind) (x : Slot) : Option Tagged :=
  if k = .int then op.onInt x.toInt else op.onFloat x.toFloat

/-- An operation of the machine on two values. -/
def BinaryCode.on? (op : BinaryCode) (k : Kind) (l r : Slot) : Option Tagged :=
  if k = .int then op.onInt l.toInt r.toInt
  else if k = .float then op.onFloat l.toFloat r.toFloat
  else some (op.onObject l.bits r.bits)

mutual
/-- Evaluate a checked expression. -/
def Term.eval (env : Env) : Term → Eval Slot
  | .int v => return .ofInt v
  | .float bits => return ⟨bits⟩
  | .text s => return ⟨env.literal s⟩
  | .load v => env.read v
  | .unary op k x => do
    let x ← x.eval env
    return (← Eval.require (op.on? k x)).slot
  | .binary op k x y => do
    let x ← x.eval env
    let y ← y.eval env
    return (← Eval.require (op.on? k x y)).slot
  | .both x y => do
    let x ← x.eval env
    if x.toBool then y.eval env else return .ofInt 0
  | .either x y => do
    let x ← x.eval env
    if x.toBool then return .ofInt 1 else y.eval env
  | .select _ c a b => do
    let c ← c.eval env
    let a ← a.eval env
    let b ← b.eval env
    return if c.toBool then a else b
  | .call index args => do
    let args ← evalTerms env args
    env.call index args
  | .callValue f args => do
    let args ← evalTerms env args
    let f ← f.eval env
    env.call f.toInt.toInt args

/-- Evaluate several checked expressions, first to last. -/
def evalTerms (env : Env) : List Term → Eval (List Slot)
  | [] => return []
  | t :: ts => return (← t.eval env) :: (← evalTerms env ts)
end

section

variable {env : Env} {ctx : Context}

/-- Bringing a term to a type brings its value there. -/
theorem Typed.eval_as (x : Typed) (t : Ty) :
    (x.as t).eval env = (fun v => convert v x.type t) <$> x.term.eval env := by
  unfold Typed.as convert
  split
  · simp only [Term.eval, UnaryCode.on?, UnaryCode.onInt, if_true, require, pure_bind,
      map_eq_pure_bind]
    rfl
  · simp

/-- A unary operator of the language is one operation of the machine, or none. -/
theorem eval_unaryTerm {op : UnaryOp} {x : Typed} {t : Ty}
    (ht : unaryType ctx.table op x.type = some t) :
    (unaryTerm op x).eval env = (fun v => op.value x.type v) <$> x.term.eval env := by
  unfold unaryType at ht
  cases op <;> cases hk : x.type.kind <;> rw [hk] at ht <;> cases ht <;>
    simp [unaryTerm, UnaryOp.value, ofTy, hk, ofTyKind, Term.eval, UnaryCode.on?,
      UnaryCode.onInt, UnaryCode.onFloat, require, int, float, Tagged.int, Tagged.float, Tagged.bool]

theorem toOption_foldInts (op : BinaryCode) (l r : Int32) :
    (foldInts (.plain op) l r).toOption = (op.onInt l r).map (·.slot) := by
  cases op with
  | div | mod =>
    simp only [foldInts, BinaryCode.onInt]
    split <;> rfl
  | _ => rfl

theorem toOption_foldFloats (op : BinaryCode) (l r : Float) :
    (foldFloats (.plain op) l r).toOption = (op.onFloat l r).map (·.slot) := by
  cases op <;> rfl

/-- An infix operator of the language is one operation of the machine. -/
theorem BinaryCode.map_on? {op : BinaryCode} {t : Ty} (hk : op.kinds.contains (ofTy t))
    (l r : Slot) : (op.on? (ofTy t) l r).map (·.slot) = op.value? t l r := by
  have hfloat := ofTy_eq_float (t := t)
  rcases ofTy_cases t with h | h | h | h
  · rw [h] at hk
    cases op <;> cases hk
  · have hne : t.kind ≠ .float := by simp [← hfloat, h, int, float]
    simp [on?, value?, h, foldBinary, hne, toOption_foldInts, int, obj]
  · simp [on?, value?, h, foldBinary, hfloat.1 h, toOption_foldFloats, float, int, obj]
  · rw [h] at hk
    cases op with
    | eq | ne => simp [on?, value?, h, float, int, obj, onObject, Tagged.bool]
    | _ => cases hk

theorem result_of_connective {tt : TyTable} {op : BinaryOp} {x y : Ty} {t : BinaryTyping}
    (hop : op = .logAnd ∨ op = .logOr) (h : binaryType tt op x y = some t) : t.result = x := by
  rcases hop with rfl | rfl <;> simp only [binaryType] at h <;> split at h <;> cases h <;> rfl

@[simp] theorem Eval.require_some {α : Type} (a : α) : require (some a) = pure a := rfl

theorem Eval.require_map {α β : Type} (f : α → β) (a : Option α) :
    f <$> require a = require (a.map f) := by
  cases a with
  | none => rfl
  | some a => simp [require]

end

/-- Functions are called under numbers that fit into an operand. -/
def CallsFit (as : List Access) : Prop :=
  ∀ index : Int, .call index ∈ as → 0 ≤ index ∧ index < operandLimit

section

variable {env : Env} {ctx : Context}

/-- Arguments are brought to the parameter types as they are evaluated. -/
theorem Arguments.evalTerms_eq {args : List Expr} {inputs : List Ty} {terms : List Term}
    (h : Arguments ctx args inputs terms)
    (ih : ∀ e ∈ args, ∀ x, e.check ctx = .ok x → CallsFit x.term.accesses →
      e.eval env = (fun v => ⟨v, x.type⟩) <$> x.term.eval env)
    (fit : CallsFit (accessesOf terms)) :
    evalTerms env terms = (convertAll · inputs) <$> evalAll env args := by
  induction h with
  | nil => simp [evalTerms, evalAll, convertAll]
  | @cons a args t inputs x terms checked fits rest ihrest =>
    obtain ⟨ha, hargs⟩ := List.forall_mem_cons.1 ih
    have hx := ha x checked fun i hi => fit i (by simp [accessesOf, hi])
    have hrest := ihrest hargs fun i hi => fit i (by simp [accessesOf, hi])
    simp [evalTerms, evalAll, Typed.eval_as, hx, hrest, convertAll]

/-- A function is called under the number it stands for. -/
theorem toInt_funcValue {index : Int} (nonneg : 0 ≤ index) (lt : index < operandLimit) :
    (Slot.ofInt (Int32.ofInt index)).toInt.toInt = index := by
  have := toInt_ofInt_operand nonneg lt
  simpa using this

/-- A checked expression means what its term means. -/
theorem Expr.eval_of_check (table : env.table = ctx.table) (proper : ctx.table.Proper) (e : Expr) :
    ∀ x, e.check ctx = .ok x → CallsFit x.term.accesses →
      e.eval env = (fun v => ⟨v, x.type⟩) <$> x.term.eval env := by
  induction e using Expr.induct with
  | missing => intro x h; cases h
  | int | float | text | func =>
    intro x h _
    cases h
    simp [eval, Term.eval, table]
  | bool b =>
    intro x h _
    cases h
    cases b <;> simp [eval, Term.eval, table] <;> rfl
  | var v =>
    intro x h _
    obtain ⟨-, rfl⟩ := check_var_eq_ok.1 h
    simp [eval, Term.eval]
  | const c =>
    intro x h _
    cases h
    have hfloat := ofTy_eq_float (t := c.type)
    simp only [eval, constantTerm, Constant.slot, hfloat]
    split <;> simp [Term.eval]
  | unary op e ih =>
    intro x h fit
    obtain ⟨a, t, ha, ht, rfl⟩ := check_unary_eq_ok.1 h
    rw [accesses_unaryTerm] at fit
    simp [eval, ih a ha fit, eval_unaryTerm ht, table, ht, require]
  | binary op e f ihe ihf =>
    intro x h fit
    obtain ⟨a, b, t, ha, hb, ht, rfl⟩ := check_binary_eq_ok.1 h
    rw [accesses_binaryTerm] at fit
    have hea := ihe a ha fun i hi => fit i (by simp [hi])
    have hfb := ihf b hb fun i hi => fit i (by simp [hi])
    cases op with
    | plain op =>
      have hon := BinaryCode.map_on? (kinds_of_binaryType proper ht)
      simp only [eval, hea, hfb, table, ht, binaryTerm, Term.eval, Typed.eval_as,
        require_some, map_eq_pure_bind, bind_assoc, pure_bind]
      refine bind_congr fun l => bind_congr fun r => ?_
      rw [← hon, ← require_map, map_eq_pure_bind, bind_assoc]
      simp only [pure_bind]
    | logAnd | logOr =>
      have hresult : t.result = a.type := result_of_connective (by simp) ht
      simp only [eval, hea, hfb, binaryTerm, Term.eval, hresult, map_eq_pure_bind, bind_assoc,
        pure_bind]
      refine bind_congr fun l => ?_
      split <;> simp only [pure_bind]
      rfl
  | ternary c e f ihc ihe ihf =>
    intro x h fit
    obtain ⟨d, a, b, t, hd, -, ha, hb, ht, -, rfl⟩ := check_ternary_eq_ok.1 h
    simp only [Term.accesses, Typed.accesses_as] at fit
    have hdc := ihc d hd fun i hi => fit i (by simp [hi])
    have hea := ihe a ha fun i hi => fit i (by simp [hi])
    have hfb := ihf b hb fun i hi => fit i (by simp [hi])
    simp only [eval, hdc, hea, hfb, table, ht, Term.eval, Typed.eval_as, require_some,
      map_eq_pure_bind, bind_assoc, pure_bind]
    refine bind_congr fun v => bind_congr fun l => bind_congr fun r => ?_
    split <;> rfl
  | call callee args ihcallee ihargs =>
    intro x h fit
    obtain ⟨f, id, output, inputs, terms, hf, htype, hargs, rfl⟩ := check_call_eq_ok.1 h
    cases callee with
    | func g =>
      cases hf
      simp only [callTerm, Term.accesses] at fit
      obtain ⟨nonneg, lt⟩ := fit g.index (by simp)
      have hterms := hargs.evalTerms_eq ihargs fun i hi => fit i (by simp [hi])
      change g.type = _ at htype
      simp only [eval, callTerm, Term.eval, hterms, htype, Ty.output?, Ty.inputs,
        require_some, toInt_funcValue nonneg lt, map_eq_pure_bind, bind_assoc, pure_bind]
    | _ =>
      simp only [callTerm, Term.accesses] at fit
      have hterms := hargs.evalTerms_eq ihargs fun i hi => fit i (by simp [hi])
      have hcallee := ihcallee f hf fun i hi => fit i (by simp [hi])
      rw [eval, hcallee]
      simp only [callTerm, Term.eval, hterms, htype, Ty.output?, Ty.inputs,
        require_some, map_eq_pure_bind, bind_assoc, pure_bind]

end
end Stackwork
