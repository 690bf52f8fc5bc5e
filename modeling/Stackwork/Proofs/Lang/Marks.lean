import Stackwork.Proofs.Lang.Meaning
import Stackwork.Proofs.Lang.Lines

/-!
# What is pending where

The code of a unit once more, each line with the types of the temporaries that are on the stack
when a run comes to it. An expression starts above whatever is pending and is followed by its own
type on top of that; a statement starts with nothing and leaves nothing. For checked units the
lines are those of the generated code.
-/
namespace Stackwork

/-- The type of an expression by the type rules; void where they give none. -/
def Expr.typeOf (tt : TyTable) : Expr → Ty
  | .missing => tt.void
  | .int _ => tt.int
  | .float _ => tt.float
  | .bool _ => tt.boolean
  | .text _ => tt.string
  | .var v => v.type
  | .const c => c.type
  | .func f => f.type
  | .unary op x => (unaryType tt op (x.typeOf tt)).getD tt.void
  | .binary op x y => ((binaryType tt op (x.typeOf tt) (y.typeOf tt)).map (·.result)).getD tt.void
  | .ternary _ x y => (unify tt (x.typeOf tt) (y.typeOf tt)).getD tt.void
  | .call callee _ => (callee.typeOf tt).output?.getD tt.void

/-- What both operands of an infix operation are brought to. -/
def operandType (tt : TyTable) (op : BinaryOp) (s t : Ty) : Ty :=
  ((binaryType tt op s t).map (·.operand)).getD tt.void

/-- The operation of a unary operator on a type; none where the value stays as it is. -/
def UnaryOp.code? (op : UnaryOp) (t : Ty) : Option UnaryCode :=
  match op with
  | .neg => some .minus
  | .bitNot => some .not
  | .logNot => some .logNot
  | .toBool => if t.kind = .boolean then none else some .toBool
  | .toInt => if Kind.ofTy t = .float then some .toInt else none
  | .toFloat => if Kind.ofTy t = .int then some .toFloat else none

/-- A line of code with what is pending when a run comes to it. -/
structure Mark where
  pending : List Ty
  line : Line Label
  /-- For a call of the function that a value stands for: the expression for the value. -/
  through : Option Expr := none

namespace Mark

/-- The lines alone. -/
def lines (ms : List Mark) : List (Line Label) := ms.map (·.line)

/-- The number of words that the lines take. -/
def words (ms : List Mark) : Nat := Line.words (lines ms)

/-- More is pending below. -/
def above (ts : List Ty) (m : Mark) : Mark := { m with pending := ts ++ m.pending }

/-- The same lines above more temporaries. -/
def raise (ts : List Ty) (ms : List Mark) : List Mark := ms.map (above ts)

@[simp] theorem lines_nil : lines [] = [] := rfl

@[simp] theorem lines_cons (m : Mark) (ms : List Mark) : lines (m :: ms) = m.line :: lines ms := rfl

@[simp] theorem lines_append (xs ys : List Mark) : lines (xs ++ ys) = lines xs ++ lines ys :=
  List.map_append

@[simp] theorem lines_raise (ts : List Ty) (ms : List Mark) : lines (raise ts ms) = lines ms := by
  simp [lines, raise, above]

theorem words_append (xs ys : List Mark) : words (xs ++ ys) = words xs + words ys := by
  simp [words]

@[simp] theorem raise_nil (ts : List Ty) : raise ts [] = [] := rfl

@[simp] theorem raise_cons (ts : List Ty) (m : Mark) (ms : List Mark) :
    raise ts (m :: ms) = m.above ts :: raise ts ms := rfl

@[simp] theorem raise_append (ts : List Ty) (xs ys : List Mark) :
    raise ts (xs ++ ys) = raise ts xs ++ raise ts ys :=
  List.map_append

@[simp] theorem raise_raise (ts us : List Ty) (ms : List Mark) :
    raise ts (raise us ms) = raise (ts ++ us) ms := by
  simp [raise, above]

theorem raise_empty (ms : List Mark) : raise [] ms = ms := List.map_id' ms

/-- A value of type `s` is brought to a type that it can be assigned to. -/
def widening (s t : Ty) : List Mark :=
  if widens s t then [⟨[s], ⟨.unary .toFloat, .int, []⟩, none⟩] else []

/-- The operation of a unary operator. -/
def unary (op : UnaryOp) (s : Ty) : List Mark :=
  match op.code? s with
  | some code => [⟨[s], ⟨.unary code, Kind.ofTy s, []⟩, none⟩]
  | none => []

/-- The value of the left operand decides whether the right one is evaluated. -/
def connective (branch : Opcode) (short : Int32) (s t : Ty) (xs ys : List Mark) : List Mark :=
  xs ++ ⟨[s], ⟨branch, .none, [.ahead (words ys + 2)]⟩, none⟩ :: ys ++
    [⟨[t], ⟨.jump, .none, [.ahead 1]⟩, none⟩, ⟨[], .pushInt short, none⟩]

/-- The line of a named constant. -/
def constant (c : Constant) : Mark :=
  ⟨[], if Kind.ofTy c.type = .float then .pushFloat c.value.bits else .pushInt c.value.toInt, none⟩

def load (v : Variable) : Mark := ⟨[], .indexed v.loadCode v.kind v.index, none⟩

def store (v : Variable) : Mark := ⟨[v.type], .indexed v.storeCode v.kind v.index, none⟩

end Mark

mutual
/-- The lines of an expression. `handle` gives the handles of string literals. -/
def Expr.marks (tt : TyTable) (handle : String → UInt64) : Expr → List Mark
  | .missing => []
  | .int v => [⟨[], .pushInt v, none⟩]
  | .float bits => [⟨[], .pushFloat bits, none⟩]
  | .bool b => [⟨[], .pushInt (if b then 1 else 0), none⟩]
  | .text s => [⟨[], .pushObj (handle s), none⟩]
  | .var v => [.load v]
  | .const c => [.constant c]
  | .func f => [⟨[], .pushInt (Int32.ofInt f.index), none⟩]
  | .unary op x => x.marks tt handle ++ Mark.unary op (x.typeOf tt)
  | .binary (.plain op) x y =>
    let t := operandType tt (.plain op) (x.typeOf tt) (y.typeOf tt)
    x.marks tt handle ++ Mark.widening (x.typeOf tt) t ++
      Mark.raise [t] (y.marks tt handle ++ Mark.widening (y.typeOf tt) t) ++
        [⟨[t, t], ⟨.binary op, Kind.ofTy t, []⟩, none⟩]
  | .binary .logAnd x y =>
    Mark.connective .branchFalse 0 (x.typeOf tt) (y.typeOf tt) (x.marks tt handle)
      (y.marks tt handle)
  | .binary .logOr x y =>
    Mark.connective .branchTrue 1 (x.typeOf tt) (y.typeOf tt) (x.marks tt handle)
      (y.marks tt handle)
  | .ternary c x y =>
    let s := c.typeOf tt
    let t := (unify tt (x.typeOf tt) (y.typeOf tt)).getD tt.void
    c.marks tt handle ++ Mark.raise [s] (x.marks tt handle ++ Mark.widening (x.typeOf tt) t) ++
      Mark.raise [s, t] (y.marks tt handle ++ Mark.widening (y.typeOf tt) t) ++
        [⟨[s, t, t], ⟨.select, Kind.ofTy t, []⟩, none⟩]
  | .call (.func g) args =>
    marksOf tt handle args g.type.inputs ++ [⟨g.type.inputs, .indexed .call .none g.index, none⟩]
  | .call callee args =>
    let f := callee.typeOf tt
    marksOf tt handle args f.inputs ++ Mark.raise f.inputs (callee.marks tt handle) ++
      [⟨f.inputs ++ [f], ⟨.callR, .none, []⟩, some callee⟩]

/-- The lines of arguments for parameters of the given types. -/
def marksOf (tt : TyTable) (handle : String → UInt64) : List Expr → List Ty → List Mark
  | e :: es, t :: ts =>
    e.marks tt handle ++ Mark.widening (e.typeOf tt) t ++ Mark.raise [t] (marksOf tt handle es ts)
  | _, _ => []
end

variable {callee : Expr}

/-- The lines of a call of the function that a value stands for. -/
theorem Expr.marks_call_value {tt : TyTable} {handle : String → UInt64} (h : ∀ g, callee ≠ .func g)
    (args : List Expr) : (call callee args).marks tt handle =
      marksOf tt handle args (callee.typeOf tt).inputs ++
        Mark.raise (callee.typeOf tt).inputs (callee.marks tt handle) ++
          [⟨(callee.typeOf tt).inputs ++ [callee.typeOf tt], ⟨.callR, .none, []⟩, some callee⟩] := by
  rw [marks]
  exact h

theorem callTerm_value (h : ∀ g, callee ≠ .func g) (f : Term) (args : List Term) :
    callTerm callee f args = .callValue f args := by
  cases callee with
  | func g => exact absurd rfl (h g)
  | _ => rfl

/-- The lines of an expression brought to a type. -/
def Expr.marksAs (tt : TyTable) (handle : String → UInt64) (e : Expr) (t : Ty) : List Mark :=
  e.marks tt handle ++ Mark.widening (e.typeOf tt) t

namespace Mark

/-- A variable moves by one. -/
def step (v : Variable) (onInt : UnaryCode) (onFloat : BinaryCode) : List Mark :=
  if v.type.kind = .int then
    [load v, ⟨[v.type], ⟨.unary onInt, v.kind, []⟩, none⟩, store v]
  else
    [load v, ⟨[v.type], .pushFloat 0x3ff0000000000000, none⟩,
      ⟨[v.type, v.type], ⟨.binary onFloat, v.kind, []⟩, none⟩, store v]

/-- The end of a unit. -/
def epilogue (output : Option Ty) : List Mark :=
  match output with
  | none => []
  | some out =>
    let k := Kind.ofTy out
    if out.kind = .void then [⟨[], ⟨.ret, .none, []⟩, none⟩]
    else [⟨[], ⟨if k = .obj then .pushNull else .pushZero, k, []⟩, none⟩, ⟨[out], ⟨.ret, k, []⟩, none⟩]

end Mark

/-- The lines of a statement, in a unit that returns a value of type `output`. -/
def Stmt.marks (tt : TyTable) (handle : String → UInt64) (output : Option Ty) : Stmt → List Mark
  | .missing | .place _ => []
  | .store v e => e.marksAs tt handle v.type ++ [.store v]
  | .combine v op e => (Expr.binary op (.var v) e).marksAs tt handle v.type ++ [.store v]
  | .increment v => Mark.step v .inc .add
  | .decrement v => Mark.step v .dec .sub
  | .eval e => e.marks tt handle ++ [⟨[e.typeOf tt], ⟨.pop, .none, []⟩, none⟩]
  | .ret (some e) =>
    let out := output.getD tt.void
    e.marksAs tt handle out ++ [⟨[out], ⟨.ret, Kind.ofTy out, []⟩, none⟩]
  | .ret none => [⟨[], ⟨if output.isSome then .ret else .halt, .none, []⟩, none⟩]
  | .jump l => [⟨[], ⟨.jump, .none, [.address l]⟩, none⟩]
  | .branchTrue e l =>
    e.marks tt handle ++ [⟨[e.typeOf tt], ⟨.branchTrue, .none, [.address l]⟩, none⟩]
  | .branchFalse e l =>
    e.marks tt handle ++ [⟨[e.typeOf tt], ⟨.branchFalse, .none, [.address l]⟩, none⟩]
  | .halt => [⟨[], ⟨.halt, .none, []⟩, none⟩]

/-- The lines of a unit. -/
def Body.marks (b : Body) : List Mark :=
  b.stmts.flatMap (·.marks b.table b.literal b.output) ++ Mark.epilogue b.output

/-! ### The marks of checked units -/

namespace Mark

variable {ms : List Mark} {x : Typed} {handle : String → UInt64}

theorem lines_widening (h : lines ms = x.term.lines handle) (t : Ty) :
    lines (ms ++ widening x.type t) = (x.as t).lines handle := by
  unfold widening Typed.as
  split <;> simp [h, Term.lines]

theorem lines_unary (h : lines ms = x.term.lines handle) (op : UnaryOp) :
    lines (ms ++ unary op x.type) = (unaryTerm op x).lines handle := by
  cases op with
  | neg | bitNot | logNot => simp [unary, UnaryOp.code?, unaryTerm, h, Term.lines]
  | toBool =>
    by_cases hk : x.type.kind = .boolean <;> simp [unary, UnaryOp.code?, unaryTerm, hk, h, Term.lines]
  | toInt =>
    by_cases hk : Kind.ofTy x.type = .float <;> simp [unary, UnaryOp.code?, unaryTerm, hk, h, Term.lines]
  | toFloat =>
    by_cases hk : Kind.ofTy x.type = .int <;> simp [unary, UnaryOp.code?, unaryTerm, hk, h, Term.lines]

theorem lines_connective (branch : Opcode) (short : Int32) (s t : Ty) (xs ys : List Mark) :
    lines (connective branch short s t xs ys) = connectiveLines branch short (lines xs) (lines ys) := by
  simp [connective, connectiveLines, words]

theorem line_constant (c : Constant) (handle : String → UInt64) :
    [(constant c).line] = (constantTerm c).lines handle := by
  unfold constant constantTerm
  split <;> rfl

end Mark

namespace Arguments

variable {ctx : Context} {args : List Expr} {inputs : List Ty} {terms : List Term}

theorem lines_marksOf (h : Arguments ctx args inputs terms) (handle : String → UInt64)
    (ih : ∀ e ∈ args, ∀ x, e.check ctx = .ok x → x.type = e.typeOf ctx.table ∧
      Mark.lines (e.marks ctx.table handle) = x.term.lines handle) :
    Mark.lines (marksOf ctx.table handle args inputs) = linesOf handle terms := by
  induction h with
  | nil => rfl
  | @cons a args t inputs x terms checked _ _ ihrest =>
    obtain ⟨ha, hargs⟩ := List.forall_mem_cons.1 ih
    obtain ⟨htype, hlines⟩ := ha x checked
    rw [marksOf, linesOf, Mark.lines_append, Mark.lines_raise, ihrest hargs, ← htype,
      Mark.lines_widening hlines]

end Arguments

variable {ctx : Context}

/-- A checked expression has the type of the rules, and its lines are those of its code. -/
theorem Expr.lines_marks (handle : String → UInt64) (e : Expr) :
    ∀ x, e.check ctx = .ok x → x.type = e.typeOf ctx.table ∧
      Mark.lines (e.marks ctx.table handle) = x.term.lines handle := by
  induction e using Expr.induct with
  | missing => intro x h; cases h
  | int | float | bool | text | func => intro x h; cases h; exact ⟨rfl, rfl⟩
  | const c =>
    intro x h
    cases h
    exact ⟨rfl, Mark.line_constant c handle⟩
  | var v =>
    intro x h
    obtain ⟨-, rfl⟩ := check_var_eq_ok.1 h
    exact ⟨rfl, rfl⟩
  | unary op e ih =>
    intro x h
    obtain ⟨a, t, ha, ht, rfl⟩ := check_unary_eq_ok.1 h
    obtain ⟨htype, hlines⟩ := ih a ha
    refine ⟨by rw [typeOf, ← htype, ht]; rfl, ?_⟩
    rw [marks, ← htype, Mark.lines_unary hlines]
  | binary op e f ihe ihf =>
    intro x h
    obtain ⟨a, b, t, ha, hb, ht, rfl⟩ := check_binary_eq_ok.1 h
    obtain ⟨htype, hlines⟩ := ihe a ha
    obtain ⟨htype', hlines'⟩ := ihf b hb
    refine ⟨by rw [typeOf, ← htype, ← htype', ht]; rfl, ?_⟩
    cases op with
    | plain op =>
      have hoperand : operandType ctx.table (.plain op) a.type b.type = t.operand := by
        rw [operandType, ht]
        rfl
      simp only [marks, ← htype, ← htype', hoperand]
      rw [Mark.lines_append, Mark.lines_append, Mark.lines_raise, Mark.lines_widening hlines,
        Mark.lines_widening hlines']
      rfl
    | logAnd | logOr => rw [marks, Mark.lines_connective, hlines, hlines']; rfl
  | ternary c e f ihc ihe ihf =>
    intro x h
    obtain ⟨d, a, b, t, hd, -, ha, hb, ht, -, rfl⟩ := check_ternary_eq_ok.1 h
    obtain ⟨-, hlines₀⟩ := ihc d hd
    obtain ⟨htype, hlines⟩ := ihe a ha
    obtain ⟨htype', hlines'⟩ := ihf b hb
    refine ⟨by rw [typeOf, ← htype, ← htype', ht]; rfl, ?_⟩
    simp only [marks, ← htype, ← htype', ht, Option.getD_some]
    rw [Mark.lines_append, Mark.lines_append, Mark.lines_append, Mark.lines_raise, Mark.lines_raise,
      Mark.lines_widening hlines, Mark.lines_widening hlines', hlines₀]
    rfl
  | call callee args ihcallee ihargs =>
    intro x h
    obtain ⟨f, id, output, inputs, terms, hf, hfun, hargs, rfl⟩ := check_call_eq_ok.1 h
    obtain ⟨htype, hlines⟩ := ihcallee f hf
    have hterms := hargs.lines_marksOf handle ihargs
    rw [hfun] at htype
    refine ⟨by rw [typeOf, ← htype]; rfl, ?_⟩
    by_cases hcallee : ∃ g, callee = .func g
    · obtain ⟨g, rfl⟩ := hcallee
      have hg : g.type = .function id output inputs := htype.symm
      rw [marks, hg, Ty.inputs, Mark.lines_append, hterms]
      rfl
    · have hvalue (g : Callable) : callee ≠ .func g := fun h => hcallee ⟨g, h⟩
      rw [marks_call_value hvalue, callTerm_value hvalue, ← htype, Ty.inputs, Mark.lines_append,
        Mark.lines_append, Mark.lines_raise, hterms, hlines]
      rfl

theorem Expr.lines_marksAs (handle : String → UInt64) {e : Expr} {x : Typed}
    (checked : e.check ctx = .ok x) (t : Ty) :
    Mark.lines (e.marksAs ctx.table handle t) = (x.as t).lines handle := by
  obtain ⟨htype, hlines⟩ := e.lines_marks handle x checked
  rw [marksAs, ← htype, Mark.lines_widening hlines]

/-- The lines of a checked statement are those of its code. -/
theorem Stmt.Checks.lines_marks {s : Stmt} {c : Command} (h : s.Checks ctx c) (handle : String → UInt64) :
    Mark.lines (s.marks ctx.table handle ctx.output) = c.lines handle := by
  cases h with
  | @assign s v e x shape _ checked =>
    have hlines := Expr.lines_marksAs handle checked v.type
    cases s with
    | store | combine =>
      cases shape
      rw [marks, Mark.lines_append, hlines]
      rfl
    | _ => cases shape
  | @stepInt s v onInt onFloat shape _ kind =>
    cases s with
    | increment | decrement =>
      cases shape
      rw [marks, Mark.step, if_pos kind]
      rfl
    | _ => cases shape
  | @stepFloat s v onInt onFloat shape _ kind =>
    have hint : v.type.kind ≠ .int := by simp [kind]
    cases s with
    | increment | decrement =>
      cases shape
      rw [marks, Mark.step, if_neg hint]
      rfl
    | _ => cases shape
  | @eval e x checked | @branchTrue e l x checked | @branchFalse e l x checked =>
    rw [marks, Mark.lines_append, (e.lines_marks handle x checked).2]
    rfl
  | retTop output | retVoid output => rw [marks, output]; rfl
  | @retValue out e x output _ checked =>
    rw [marks, output, Option.getD_some, Mark.lines_append, Expr.lines_marksAs handle checked]
    rfl
  | jump | place | halt => rfl

theorem Mark.lines_epilogue (output : Option Ty) : lines (epilogue output) = epilogueLines output := by
  cases output with
  | none => rfl
  | some out =>
    simp only [epilogue, epilogueLines]
    split
    · rfl
    · split <;> rfl

end Stackwork
