import Stackwork.Proofs.Lang.Checking
import Stackwork.Proofs.Lang.Trees

/-!
# Operations of checked programs

Not every operation exists for every kind. The type rules admit an operator only on types
whose kind has the operation, so checked programs consist of operations that exist. The
rules bring numbers to the int and float type of the table, which have to be what their
names say.
-/
namespace Stackwork

open Kind (ofTy ofTyKind int)

namespace Kind

theorem ofTy_cases (t : Ty) : ofTy t = .none ∨ ofTy t = .int ∨ ofTy t = .float ∨ ofTy t = .obj := by
  unfold ofTy
  cases t.kind <;> simp [ofTyKind]

theorem ofTy_eq_none {t : Ty} : ofTy t = .none ↔ t.kind = .void := by
  unfold ofTy
  cases t.kind <;> simp [ofTyKind, none, int, float, obj]

theorem ofTy_mem_of_ne_none {t : Ty} (h : ofTy t ≠ .none) : [int, .float, .obj].contains (ofTy t) := by
  rcases ofTy_cases t with hk | hk | hk | hk <;> simp_all

end Kind

/-- The primitives of a table are of the sorts their names say. -/
structure TyTable.Proper (tt : TyTable) : Prop where
  void : tt.void.kind = .void
  boolean : tt.boolean.kind = .boolean
  int : tt.int.kind = .int
  float : tt.float.kind = .float
  string : tt.string.kind = .string

mutual
/-- Every operation exists for its kind. -/
def Term.Defined : Term → Prop
  | .int _ | .float _ | .text _ | .load _ => True
  | .unary op k x => op.kinds.contains k ∧ x.Defined
  | .binary op k x y => op.kinds.contains k ∧ x.Defined ∧ y.Defined
  | .both x y | .either x y => x.Defined ∧ y.Defined
  | .select k c a b => Opcode.select.kinds.contains k ∧ c.Defined ∧ a.Defined ∧ b.Defined
  | .call _ args => DefinedAll args
  | .callValue f args => DefinedAll args ∧ f.Defined

/-- Every operation of several terms exists. -/
def DefinedAll : List Term → Prop
  | [] => True
  | t :: ts => t.Defined ∧ DefinedAll ts
end

theorem definedAll_iff {ts : List Term} : DefinedAll ts ↔ ∀ t ∈ ts, t.Defined := by
  induction ts with
  | nil => simp [DefinedAll]
  | cons t ts ih => simp [DefinedAll, ih]

variable {x : Typed} {tt : TyTable} {ctx : Context}

theorem Typed.defined_as (h : x.term.Defined) (t : Ty) : (x.as t).Defined := by
  unfold Typed.as
  split
  · exact ⟨rfl, h⟩
  · exact h

theorem defined_unaryTerm {op : UnaryOp} {t : Ty} (ht : unaryType tt op x.type = some t)
    (h : x.term.Defined) : (unaryTerm op x).Defined := by
  unfold unaryType at ht
  cases op <;> cases hk : x.type.kind <;> rw [hk] at ht <;> cases ht <;>
    simp [unaryTerm, ofTy, hk, ofTyKind, Term.Defined, UnaryCode.kinds, h, int, Kind.float]

/-- Two numbers are combined as integers or as floats. -/
theorem kind_of_numericType (proper : tt.Proper) {x y t : Ty} (h : numericType tt x y = some t) :
    ofTy t = .int ∨ ofTy t = .float := by
  unfold numericType at h
  split at h
  · cases h
    split
    · exact .inr (by simp [ofTy, proper.float, ofTyKind])
    · exact .inl (by simp [ofTy, proper.int, ofTyKind])
  · cases h

/-- An infix operation exists for the type both operands are brought to. -/
theorem kinds_of_binaryType (proper : tt.Proper) {op : BinaryCode} {x y : Ty} {t : BinaryTyping}
    (h : binaryType tt (.plain op) x y = some t) : op.kinds.contains (ofTy t.operand) := by
  have numeric {f : Ty → BinaryTyping} (hf : ∀ u, (f u).operand = u)
      (h : (numericType tt x y).map f = some t) :
      [int, .float].contains (ofTy t.operand) := by
    obtain ⟨u, hu, rfl⟩ := Option.map_eq_some_iff.1 h
    rw [hf]
    rcases kind_of_numericType proper hu with hk | hk <;> simp [hk]
  have whole (h : (if x.kind = .int && y.kind = .int then some (⟨x, x⟩ : BinaryTyping) else none) =
      some t) : [int].contains (ofTy t.operand) := by
    split at h
    · next hk =>
      cases h
      simp_all [ofTy, ofTyKind]
    · cases h
  have bits (h : (if x.same y && (x.kind = .int || x.kind = .boolean) then
      some (⟨x, x⟩ : BinaryTyping) else none) = some t) :
      [int].contains (ofTy t.operand) := by
    split at h
    · next hk =>
      cases h
      simp only [Bool.and_eq_true, Bool.or_eq_true, decide_eq_true_eq] at hk
      rcases hk.2 with hk | hk <;> simp [ofTy, ofTyKind, hk]
    · cases h
  cases op with
  | add | sub | mul | div | lt | le | gt | ge => exact numeric (fun _ => rfl) h
  | mod | shl | shr => exact whole h
  | and | or | xor => exact bits h
  | eq | ne =>
    change [int, .float, .obj].contains (ofTy t.operand)
    simp only [binaryType] at h
    split at h
    · next u hu =>
      cases h
      rcases kind_of_numericType proper hu with hk | hk <;> simp [hk]
    · split at h
      · next hk =>
        cases h
        refine Kind.ofTy_mem_of_ne_none fun hnone => ?_
        simp [Kind.ofTy_eq_none.1 hnone] at hk
      · cases h

theorem defined_binaryTerm (proper : tt.Proper) {op : BinaryOp} {y : Typed} {t : BinaryTyping}
    (ht : binaryType tt op x.type y.type = some t) (hx : x.term.Defined) (hy : y.term.Defined) :
    (binaryTerm op t.operand x y).Defined := by
  cases op with
  | plain op => exact ⟨kinds_of_binaryType proper ht, x.defined_as hx _, y.defined_as hy _⟩
  | logAnd | logOr => exact ⟨hx, hy⟩

theorem Arguments.definedAll {args : List Expr} {inputs : List Ty} {terms : List Term}
    (h : Arguments ctx args inputs terms) (ih : ∀ e ∈ args, ∀ x, e.check ctx = .ok x → x.term.Defined) :
    DefinedAll terms := by
  induction h with
  | nil => trivial
  | cons checked _ _ ihrest =>
    obtain ⟨ha, hargs⟩ := List.forall_mem_cons.1 ih
    exact ⟨Typed.defined_as (ha _ checked) _, ihrest hargs⟩

/-- A checked expression consists of operations that exist. -/
theorem Expr.defined_of_check (proper : ctx.table.Proper) (e : Expr) :
    ∀ x, e.check ctx = .ok x → x.term.Defined := by
  induction e using Expr.induct with
  | missing => intro x h; cases h
  | int | float | bool | text | func => intro x h; cases h; trivial
  | const c =>
    intro x h
    cases h
    unfold constantTerm
    split <;> trivial
  | var v =>
    intro x h
    obtain ⟨-, rfl⟩ := check_var_eq_ok.1 h
    trivial
  | unary op e ih =>
    intro x h
    obtain ⟨a, t, ha, ht, rfl⟩ := check_unary_eq_ok.1 h
    exact defined_unaryTerm ht (ih a ha)
  | binary op e f ihe ihf =>
    intro x h
    obtain ⟨a, b, t, ha, hb, ht, rfl⟩ := check_binary_eq_ok.1 h
    exact defined_binaryTerm proper ht (ihe a ha) (ihf b hb)
  | ternary c e f ihc ihe ihf =>
    intro x h
    obtain ⟨d, a, b, t, hd, -, ha, hb, -, hvoid, rfl⟩ := check_ternary_eq_ok.1 h
    exact ⟨Kind.ofTy_mem_of_ne_none fun hnone => hvoid (Kind.ofTy_eq_none.1 hnone), ihc d hd,
      a.defined_as (ihe a ha) _, b.defined_as (ihf b hb) _⟩
  | call callee args ihcallee ihargs =>
    intro x h
    obtain ⟨f, id, output, inputs, terms, hf, -, hargs, rfl⟩ := check_call_eq_ok.1 h
    have hterms := hargs.definedAll ihargs
    cases callee with
    | func g => exact hterms
    | _ => exact ⟨hterms, ihcallee f hf⟩

/-- Every operation of a command exists for its kind. -/
def Command.Defined : Command → Prop
  | store _ x | drop x | branchTrue x _ | branchFalse x _ => x.Defined
  | ret k none => Opcode.ret.kinds.contains k
  | ret k (some x) => Opcode.ret.kinds.contains k ∧ x.Defined
  | jump _ | place _ | halt => True

/-- A checked statement consists of operations that exist. -/
theorem Stmt.Checks.defined (proper : ctx.table.Proper) {s : Stmt} {c : Command} (h : s.Checks ctx c) :
    c.Defined := by
  cases h with
  | assign _ _ checked => exact Typed.defined_as (Expr.defined_of_check proper _ _ checked) _
  | @stepInt s v onInt onFloat shape _ kind =>
    have hk : v.kind = .int := by simp [Variable.kind, ofTy, kind, ofTyKind]
    cases s with
    | increment | decrement =>
      cases shape
      rw [hk]
      exact ⟨rfl, trivial⟩
    | _ => cases shape
  | @stepFloat s v onInt onFloat shape _ kind =>
    have hk : v.kind = .float := by simp [Variable.kind, ofTy, kind, ofTyKind]
    cases s with
    | increment | decrement =>
      cases shape
      rw [hk]
      exact ⟨rfl, trivial, trivial⟩
    | _ => cases shape
  | eval checked | branchTrue checked | branchFalse checked =>
    exact Expr.defined_of_check proper _ _ checked
  | retTop | jump | place | halt => trivial
  | retVoid => rfl
  | @retValue out e x _ _ checked =>
    refine ⟨?_, x.defined_as (Expr.defined_of_check proper _ _ checked) _⟩
    rcases Kind.ofTy_cases out with hk | hk | hk | hk <;> rw [hk] <;> rfl

end Stackwork
