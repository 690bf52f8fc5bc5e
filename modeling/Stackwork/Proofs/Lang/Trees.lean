import Stackwork.Lang.Check

/-!
# Induction over expressions and terms

Calls hold a list of arguments. The induction principles below give, in the case of a call,
the statement for every member of that list.
-/
namespace Stackwork

@[elab_as_elim] theorem Term.induct {P : Term → Prop} (int : ∀ v, P (.int v))
    (float : ∀ bits, P (.float bits)) (text : ∀ s, P (.text s)) (load : ∀ v, P (.load v))
    (unary : ∀ op k x, P x → P (.unary op k x))
    (binary : ∀ op k x y, P x → P y → P (.binary op k x y))
    (both : ∀ x y, P x → P y → P (.both x y)) (either : ∀ x y, P x → P y → P (.either x y))
    (select : ∀ k c a b, P c → P a → P b → P (.select k c a b))
    (call : ∀ index args, (∀ t ∈ args, P t) → P (.call index args))
    (callValue : ∀ f args, P f → (∀ t ∈ args, P t) → P (.callValue f args)) (t : Term) : P t :=
  @Term.rec P (fun ts => ∀ t ∈ ts, P t) int float text load unary binary both
    either select call callValue (fun _ h => absurd h List.not_mem_nil)
    (fun _ _ ht hts => List.forall_mem_cons.2 ⟨ht, hts⟩) t

@[elab_as_elim] theorem Expr.induct {P : Expr → Prop} (missing : P .missing) (int : ∀ v, P (.int v))
    (float : ∀ bits, P (.float bits)) (bool : ∀ b, P (.bool b)) (text : ∀ s, P (.text s))
    (var : ∀ v, P (.var v)) (const : ∀ c, P (.const c)) (func : ∀ f, P (.func f))
    (unary : ∀ op x, P x → P (.unary op x)) (binary : ∀ op x y, P x → P y → P (.binary op x y))
    (ternary : ∀ c a b, P c → P a → P b → P (.ternary c a b))
    (call : ∀ callee args, P callee → (∀ e ∈ args, P e) → P (.call callee args)) (e : Expr) : P e :=
  @Expr.rec P (fun es => ∀ e ∈ es, P e) missing int float bool text var const
    func unary binary ternary call (fun _ h => absurd h List.not_mem_nil)
    (fun _ _ he hes => List.forall_mem_cons.2 ⟨he, hes⟩) e

end Stackwork
