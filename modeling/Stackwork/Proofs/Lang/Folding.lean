import Stackwork.Proofs.Lang.Effects
import Stackwork.Proofs.Lang.Simulation
import Stackwork.Proofs.Lang.Typing

/-!
# Folding agrees with running

What the folder makes of a constant expression is what the generated code pushes. Named
constants hold values in the form in which the machine writes them, so conversions that the
checker leaves out change nothing, and evaluating both operands of a connective gives what
evaluating one of them gives. The code of the expression pushes the value in any code around
it, over any stack with room, and leaves everything else alone.
-/
namespace Stackwork

/-- The values of a sort of type as the machine writes them. -/
def TyKind.Holds (k : TyKind) (v : Slot) : Prop :=
  match k with
  | .boolean => ∃ b, v = .ofBool b
  | .int | .enum => ∃ i, v = .ofInt i
  | .float => True
  | _ => False

/-- A truth value is the integer 0 or 1. -/
theorem Slot.ofBool_eq (b : Bool) : ofBool b = ofInt (if b then 1 else 0) := by
  cases b <;> rfl

namespace TyKind.Holds

variable {k : TyKind} {v : Slot}

theorem ofInt_toInt (h : k.Holds v) (hk : k ≠ .float) : .ofInt v.toInt = v := by
  cases k with
  | boolean =>
    obtain ⟨b, rfl⟩ := h
    rw [Slot.ofBool_eq, Slot.toInt_ofInt]
  | int | enum =>
    obtain ⟨i, rfl⟩ := h
    rw [Slot.toInt_ofInt]
  | float => exact absurd rfl hk
  | _ => cases h

theorem ofTyKind_eq (h : k.Holds v) : Kind.ofTyKind k = .int ∨ Kind.ofTyKind k = .float := by
  cases k with
  | boolean | int | enum => exact .inl rfl
  | float => exact .inr rfl
  | _ => cases h

end TyKind.Holds

variable {s t : Ty} {v l r : Slot} {x : Term} {op : BinaryCode}

/-- A value that is brought to a type is one of that type. -/
theorem Ty.Agrees.holds_convert (h : s.Agrees t) (hv : s.kind.Holds v) : t.kind.Holds (convert v s t) := by
  unfold convert
  split
  · next hw =>
    have hfloat : t.kind = .float := by simp_all [widens]
    rw [hfloat]
    trivial
  · next hw => exact h.resolve_right hw ▸ hv

/-- A term whose code pushes a value by arithmetic alone. -/
inductive Term.Yields : Term → Tagged → Prop where
  | int (v : Int32) : Yields (.int v) (.int v)
  | float (bits : UInt64) : Yields (.float bits) ⟨⟨bits⟩, .float⟩
  | unary {op : UnaryCode} {k : Kind} {x : Term} {a : Slot} {t : Tagged} (number : k = .int ∨ k = .float)
      (operand : x.Yields ⟨a, k⟩) (result : op.on? k a = some t) : Yields (.unary op k x) t
  | binary {op : BinaryCode} {k : Kind} {x y : Term} {a b : Slot} {t : Tagged}
      (number : k = .int ∨ k = .float) (left : x.Yields ⟨a, k⟩) (right : y.Yields ⟨b, k⟩)
      (result : op.on? k a b = some t) : Yields (.binary op k x y) t
  | both {x y : Term} {a b : Slot} (left : x.Yields ⟨a, .int⟩) (right : y.Yields ⟨b, .int⟩) :
      Yields (.both x y) ⟨if a.toBool then b else .ofInt 0, .int⟩
  | either {x y : Term} {a b : Slot} (left : x.Yields ⟨a, .int⟩) (right : y.Yields ⟨b, .int⟩) :
      Yields (.either x y) ⟨if a.toBool then .ofInt 1 else b, .int⟩
  | select {k : Kind} {c x y : Term} {d a b : Slot} (cond : c.Yields ⟨d, .int⟩) (yes : x.Yields ⟨a, k⟩)
      (no : y.Yields ⟨b, k⟩) : Yields (.select k c x y) ⟨if d.toBool then a else b, k⟩

/-- Bringing a term to a type brings its value there. -/
theorem Term.Yields.as (h : s.Agrees t) (hx : x.Yields ⟨v, Kind.ofTy s⟩) :
    (Typed.as ⟨x, s⟩ t).Yields ⟨convert v s t, Kind.ofTy t⟩ := by
  unfold Typed.as convert
  by_cases hw : widens s t
  · have hs : Kind.ofTy s = .int := by simp_all [widens, Kind.ofTy, Kind.ofTyKind]
    have ht : Kind.ofTy t = .float := by simp_all [widens, Kind.ofTy, Kind.ofTyKind]
    rw [hs] at hx
    simp only [hw, if_true, ht]
    exact .unary (.inl rfl) hx rfl
  · have heq : Kind.ofTy s = Kind.ofTy t := by rw [Kind.ofTy, h.resolve_right hw, Kind.ofTy]
    simp only [hw]
    exact heq ▸ hx

/-- A named constant is pushed as it is. -/
theorem Constant.yields {c : Constant} (h : c.type.kind.Holds c.value) :
    (constantTerm c).Yields ⟨c.value, Kind.ofTy c.type⟩ := by
  unfold constantTerm
  split
  · next hfloat =>
    rw [hfloat]
    exact .float c.value.bits
  · next hfloat =>
    have hint : Kind.ofTy c.type = .int := h.ofTyKind_eq.resolve_right hfloat
    have hvalue := h.ofInt_toInt fun hk => hfloat (Kind.ofTy_eq_float.2 hk)
    have := Term.Yields.int c.value.toInt
    rwa [Tagged.int, hvalue, ← hint] at this

variable {tt : TyTable}

/-- A folded unary operator is one operation of the machine, or none. -/
theorem foldUnary_yields (proper : tt.Proper) {op : UnaryOp} (ht : unaryType tt op s = some t)
    (hv : s.kind.Holds v) (hx : x.Yields ⟨v, Kind.ofTy s⟩) : t.kind.Holds (foldUnary op v s) ∧
      (unaryTerm op ⟨x, s⟩).Yields ⟨foldUnary op v s, Kind.ofTy t⟩ := by
  have hboolean := proper.boolean
  have hint := proper.int
  have hfloat := proper.float
  have hsame := hv.ofInt_toInt
  unfold unaryType at ht
  cases op <;> cases hk : s.kind <;> rw [hk] at ht hv hsame <;> cases ht <;>
    simp only [foldUnary, unaryTerm, Kind.ofTy, hk, hboolean, hint, hfloat, Kind.ofTyKind,
      TyKind.Holds, reduceCtorEq, if_false, if_true, ne_eq, not_false_eq_true, true_implies,
      true_and] at hx hv hsame ⊢
  case neg.int.refl | bitNot.int.refl | logNot.boolean.refl | toBool.int.refl =>
    exact ⟨⟨_, rfl⟩, .unary (.inl rfl) hx rfl⟩
  case toBool.float.refl | toInt.float.refl => exact ⟨⟨_, rfl⟩, .unary (.inr rfl) hx rfl⟩
  case neg.float.refl => exact .unary (.inr rfl) hx rfl
  case toFloat.int.refl => exact .unary (.inl rfl) hx rfl
  case toFloat.float.refl => exact hx
  case toInt.boolean.refl | toInt.int.refl | toInt.enum.refl => exact ⟨⟨_, rfl⟩, hsame.symm ▸ hx⟩
  case toBool.boolean.refl =>
    obtain ⟨b, rfl⟩ := hv
    have hbool : Slot.ofBool ((Slot.ofBool b).toInt != 0) = .ofBool b := by cases b <;> rfl
    rw [hbool]
    exact ⟨⟨b, rfl⟩, hx⟩

/-- What the folder makes of two operands is what the machine makes of them. -/
theorem BinaryCode.on?_of_fold (hk : op.kinds.contains (Kind.ofTy t)) (hl : t.kind.Holds l)
    (h : foldBinary (.plain op) l r t = .ok v) :
    op.on? (Kind.ofTy t) l r = some ⟨v, op.resultKind (Kind.ofTy t)⟩ := by
  have hvalue : (op.on? (Kind.ofTy t) l r).map (·.slot) = some v := by
    rw [map_on? hk]
    unfold value?
    rw [if_neg, h]
    · rfl
    · rcases hl.ofTyKind_eq with hn | hn <;> simp [Kind.ofTy, hn, Kind.int, Kind.float, Kind.obj]
  rcases exists_on? hk l r with ⟨u, hu⟩ | ⟨hop, hint, hzero⟩
  · rw [hu] at hvalue ⊢
    cases hvalue
    rfl
  · rw [hint] at hvalue
    rcases hop with rfl | rfl <;> simp [on?, onInt, hzero] at hvalue

/-- Comparisons give truth values. -/
theorem holds_of_foldBinary_compares (compares : op.compares) (h : foldBinary (.plain op) l r t = .ok v) :
    TyKind.boolean.Holds v := by
  unfold foldBinary at h
  cases op with
  | eq | ne | lt | le | gt | ge => split at h <;> cases h <;> exact ⟨_, rfl⟩
  | _ => cases compares

/-- Arithmetic on integers gives integers. -/
theorem holds_of_foldInts (arithmetic : op.compares = false) {l r : Int32}
    (h : foldInts (.plain op) l r = .ok v) : TyKind.int.Holds v := by
  cases op with
  | div | mod =>
    simp only [foldInts] at h
    split at h <;> cases h
    exact ⟨_, rfl⟩
  | eq | ne | lt | le | gt | ge => cases arithmetic
  | _ =>
    cases h
    exact ⟨_, rfl⟩

/-- Operations on the bits of truth values give truth values. -/
theorem holds_of_foldInts_bool (bits : op = .and ∨ op = .or ∨ op = .xor) (hl : TyKind.boolean.Holds l)
    (hr : TyKind.boolean.Holds r) (h : foldInts (.plain op) l.toInt r.toInt = .ok v) :
    TyKind.boolean.Holds v := by
  obtain ⟨a, rfl⟩ := hl
  obtain ⟨b, rfl⟩ := hr
  rcases bits with rfl | rfl | rfl <;> cases h <;> cases a <;> cases b <;>
    first | exact ⟨true, rfl⟩ | exact ⟨false, rfl⟩

/-- A folded operation of the machine. -/
theorem foldBinary_yields (proper : tt.Proper) {s' : Ty} {t : BinaryTyping}
    (ht : binaryType tt (.plain op) s s' = some t) {y : Term} (hl : t.operand.kind.Holds l)
    (hr : t.operand.kind.Holds r) (hx : x.Yields ⟨l, Kind.ofTy t.operand⟩)
    (hy : y.Yields ⟨r, Kind.ofTy t.operand⟩) (h : foldBinary (.plain op) l r t.operand = .ok v) :
    t.result.kind.Holds v ∧
      (Term.binary op (Kind.ofTy t.operand) x y).Yields ⟨v, Kind.ofTy t.result⟩ := by
  have hyields := Term.Yields.binary hl.ofTyKind_eq hx hy
    (BinaryCode.on?_of_fold (kinds_of_binaryType proper ht) hl h)
  rcases result_of_binaryType proper ht with ⟨hop, hresult⟩ | ⟨hop, hresult, hsort⟩
  · have hkind : Kind.ofTy t.result = op.resultKind (Kind.ofTy t.operand) := by
      rw [hresult, Kind.ofTy, proper.boolean]
      cases op <;> first | rfl | cases hop
    rw [hkind, hresult, proper.boolean]
    exact ⟨holds_of_foldBinary_compares hop h, hyields⟩
  · have hkind : Kind.ofTy t.result = op.resultKind (Kind.ofTy t.operand) := by
      rw [hresult]
      cases op <;> first | rfl | cases hop
    refine ⟨?_, hkind ▸ hyields⟩
    rw [hresult]
    unfold foldBinary at h
    rcases hsort with hnum | ⟨hbool, hbits⟩
    · rcases Ty.isNumeric_iff.1 hnum with hk | hk
      · rw [hk] at h ⊢
        exact holds_of_foldInts hop h
      · rw [hk]
        trivial
    · rw [hbool] at h hl hr ⊢
      exact holds_of_foldInts_bool hbits hl hr h

/-- A folded connective, of which the folder evaluates both sides. -/
theorem foldConnective_yields {op : BinaryOp} (hop : op = .logAnd ∨ op = .logOr) {u : Ty}
    (ht : t.kind = .boolean) {x y : Typed} (hl : TyKind.boolean.Holds l) (hr : TyKind.boolean.Holds r)
    (hx : x.term.Yields ⟨l, .int⟩) (hy : y.term.Yields ⟨r, .int⟩) (h : foldBinary op l r t = .ok v) :
    TyKind.boolean.Holds v ∧ (binaryTerm op u x y).Yields ⟨v, .int⟩ := by
  obtain ⟨a, rfl⟩ := hl
  obtain ⟨b, rfl⟩ := hr
  rw [foldBinary, ht] at h
  rcases hop with rfl | rfl
  · have hv : v = .ofBool (a && b) := by
      cases h
      cases a <;> cases b <;> rfl
    have := Term.Yields.both hx hy
    rw [Slot.toBool_ofBool] at this
    refine ⟨⟨_, hv⟩, ?_⟩
    rw [hv]
    cases a <;> exact this
  · have hv : v = .ofBool (a || b) := by
      cases h
      cases a <;> cases b <;> rfl
    have := Term.Yields.either hx hy
    rw [Slot.toBool_ofBool] at this
    refine ⟨⟨_, hv⟩, ?_⟩
    rw [hv]
    cases a <;> exact this

namespace Expr

variable {tt : TyTable}

variable {e : Expr} {x : Folded}

theorem fold_unary_eq_ok {op : UnaryOp} (h : (unary op e).fold tt = .ok x) :
    ∃ a t, e.fold tt = .ok a ∧ unaryType tt op a.type = some t ∧
      x = ⟨foldUnary op a.value a.type, t⟩ := by
  rw [fold] at h
  obtain ⟨a, ha, h⟩ := Except.bind_eq_ok.1 h
  split at h
  · next t ht =>
    cases h
    exact ⟨a, t, ha, ht, rfl⟩
  · cases h

variable {f : Expr}

theorem fold_binary_eq_ok {op : BinaryOp} (h : (binary op e f).fold tt = .ok x) :
    ∃ a b t v, e.fold tt = .ok a ∧ f.fold tt = .ok b ∧ binaryType tt op a.type b.type = some t ∧
      foldBinary op (convert a.value a.type t.operand) (convert b.value b.type t.operand)
        t.operand = .ok v ∧ x = ⟨v, t.result⟩ := by
  rw [fold] at h
  obtain ⟨a, ha, h⟩ := Except.bind_eq_ok.1 h
  obtain ⟨b, hb, h⟩ := Except.bind_eq_ok.1 h
  split at h
  · next t ht =>
    obtain ⟨v, hv, h⟩ := Except.bind_eq_ok.1 h
    cases h
    exact ⟨a, b, t, v, ha, hb, ht, hv, rfl⟩
  · cases h

theorem fold_ternary_eq_ok {c : Expr} (h : (ternary c e f).fold tt = .ok x) :
    ∃ d a b t, c.fold tt = .ok d ∧ d.type.kind = .boolean ∧ e.fold tt = .ok a ∧ f.fold tt = .ok b ∧
      unify tt a.type b.type = some t ∧
        x = ⟨if d.value.toBool then convert a.value a.type t else convert b.value b.type t, t⟩ := by
  rw [fold] at h
  obtain ⟨d, hd, h⟩ := Except.bind_eq_ok.1 h
  by_cases hkind : d.type.kind = .boolean
  · rw [if_neg (by simpa using hkind)] at h
    obtain ⟨a, ha, h⟩ := Except.bind_eq_ok.1 h
    obtain ⟨b, hb, h⟩ := Except.bind_eq_ok.1 h
    cases ht : unify tt a.type b.type with
    | none =>
      rw [ht] at h
      cases h
    | some t =>
      rw [ht] at h
      cases h
      refine ⟨d, a, b, t, hd, hkind, ha, hb, ht, ?_⟩
      split <;> rfl
  · rw [if_pos hkind] at h
    cases h

/-- The named constants of an expression are of known types and have values of these types. -/
def ConstsHold (T : Ty → Prop) (e : Expr) : Prop :=
  ∀ c, .const c ∈ e.refs → T c.type ∧ c.type.kind.Holds c.value

/-- What folds to a value checks with the same type, and its term yields the value. -/
theorem yields_of_fold (ctx : Context) {T : Ty → Prop} (distinct : Ty.Distinct T)
    (proper : ctx.table.Proper) (prims : ∀ p, T (ctx.table.prim p)) (e : Expr) (consts : e.ConstsHold T) :
    ∀ x, e.fold ctx.table = .ok x → T x.type ∧ x.type.kind.Holds x.value ∧
      ∃ t, e.check ctx = .ok ⟨t, x.type⟩ ∧ t.Yields ⟨x.value, Kind.ofTy x.type⟩ := by
  have hint : Kind.ofTy ctx.table.int = .int := by rw [Kind.ofTy, proper.int]; rfl
  have hfloat : Kind.ofTy ctx.table.float = .float := by rw [Kind.ofTy, proper.float]; rfl
  have hboolean : Kind.ofTy ctx.table.boolean = .int := by rw [Kind.ofTy, proper.boolean]; rfl
  induction e using Expr.induct with
  | missing | text | var | func | call => intro x h; cases h
  | int v =>
    intro x h
    cases h
    exact ⟨prims .int, proper.int ▸ ⟨v, rfl⟩, _, rfl, hint ▸ .int v⟩
  | float bits =>
    intro x h
    cases h
    exact ⟨prims .float, proper.float ▸ trivial, _, rfl, hfloat ▸ .float bits⟩
  | bool b =>
    intro x h
    cases h
    refine ⟨prims .boolean, proper.boolean ▸ ⟨b, rfl⟩, _, rfl, ?_⟩
    rw [hboolean, Slot.ofBool_eq]
    exact .int _
  | const c =>
    intro x h
    cases h
    obtain ⟨hT, hvalue⟩ := consts c (List.mem_singleton.2 rfl)
    exact ⟨hT, hvalue, _, rfl, c.yields hvalue⟩
  | unary op e ih =>
    intro x h
    obtain ⟨a, t, ha, ht, rfl⟩ := fold_unary_eq_ok h
    obtain ⟨hT, hvalue, y, hy, hyields⟩ := ih consts a ha
    obtain ⟨hholds, hterm⟩ := foldUnary_yields proper ht hvalue hyields
    exact ⟨known_of_unaryType prims hT ht, hholds, _, check_unary_eq_ok.2 ⟨_, t, hy, ht, rfl⟩, hterm⟩
  | binary op e f ihe ihf =>
    intro x h
    obtain ⟨a, b, t, v, ha, hb, ht, hv, rfl⟩ := fold_binary_eq_ok h
    obtain ⟨hTa, hholda, y, hy, hya⟩ := ihe (fun c hc => consts c (List.mem_append_left _ hc)) a ha
    obtain ⟨hTb, hholdb, z, hz, hzb⟩ := ihf (fun c hc => consts c (List.mem_append_right _ hc)) b hb
    obtain ⟨hagree, hagree'⟩ := agrees_of_binaryType distinct proper hTa hTb ht
    have key : t.result.kind.Holds v ∧
        (binaryTerm op t.operand ⟨y, a.type⟩ ⟨z, b.type⟩).Yields ⟨v, Kind.ofTy t.result⟩ := by
      cases op with
      | plain op =>
        exact foldBinary_yields proper ht (hagree.holds_convert hholda) (hagree'.holds_convert hholdb)
          (hya.as hagree) (hzb.as hagree') hv
      | logAnd | logOr =>
        obtain ⟨hbool, hbool', rfl⟩ := boolean_of_connective (by simp) ht
        have hkeep (v : Slot) (s : Ty) : convert v s a.type = v := by simp [convert, widens, hbool]
        rw [hkeep, hkeep] at hv
        simp only [Kind.ofTy, hbool, hbool', Kind.ofTyKind] at hya hzb hholda hholdb ⊢
        exact foldConnective_yields (by simp) hbool hholda hholdb hya hzb hv
    exact ⟨known_of_binaryType prims hTa ht, key.1, _, check_binary_eq_ok.2 ⟨_, _, t, hy, hz, ht, rfl⟩, key.2⟩
  | ternary c e f ihc ihe ihf =>
    intro x h
    obtain ⟨d, a, b, t, hd, hkind, ha, hb, ht, rfl⟩ := fold_ternary_eq_ok h
    obtain ⟨-, -, w, hw, hwd⟩ := ihc (fun c hc => consts c (by simp [refs, hc])) d hd
    obtain ⟨hTa, hholda, y, hy, hya⟩ := ihe (fun c hc => consts c (by simp [refs, hc])) a ha
    obtain ⟨hTb, hholdb, z, hz, hzb⟩ := ihf (fun c hc => consts c (by simp [refs, hc])) b hb
    obtain ⟨hagree, hagree'⟩ := agrees_of_unify distinct proper hTa hTb ht
    have hholds : t.kind.Holds (if d.value.toBool then convert a.value a.type t
        else convert b.value b.type t) := by
      split
      · exact hagree.holds_convert hholda
      · exact hagree'.holds_convert hholdb
    have hvoid : t.kind ≠ .void := fun hvoid => by
      rw [hvoid] at hholds
      cases hholds
    have hcond : Kind.ofTy d.type = .int := by rw [Kind.ofTy, hkind]; rfl
    exact ⟨known_of_unify prims hTa ht, hholds, _,
      check_ternary_eq_ok.2 ⟨_, _, _, t, hw, hkind, hy, hz, ht, hvoid, rfl⟩,
      .select (hcond ▸ hwd) (hya.as hagree) (hzb.as hagree')⟩

end Expr

/-- From behind `front` a run leads behind `next` and puts the cells `above'` in the place of
`above`, over any other cells and whatever is to be done afterwards. -/
def Line.Moves (addressOf : Label → Nat) (all front : List (Line Label)) (above : List Tagged)
    (next : List (Line Label)) (above' : List Tagged) : Prop :=
  ∃ need, ∀ {depth rest result size} {cells : List Tagged} {o : Machine.Aside} {c : Config},
    o.halted = false → c.AtLine addressOf all front depth rest result size (cells ++ above) o →
    c.Leads size (cells.length + need)
      (Config.AtLine addressOf all next depth rest result size (cells ++ above') o)

namespace Line.Moves

variable {addressOf : Label → Nat} {all front next last : List (Line Label)}
  {above above' above'' : List Tagged}

theorem trans (h : Moves addressOf all front above next above')
    (h' : Moves addressOf all next above' last above'') : Moves addressOf all front above last above'' := by
  obtain ⟨need, h⟩ := h
  obtain ⟨need', h'⟩ := h'
  refine ⟨max need need', fun running hc => ?_⟩
  rw [← Nat.add_max_add_left]
  exact (h running hc).bind fun c' hc' => h' running hc'

/-- Cells in between stay. -/
theorem frame (h : Moves addressOf all front above next above') (between : List Tagged) :
    Moves addressOf all front (between ++ above) next (between ++ above') := by
  obtain ⟨need, h⟩ := h
  refine ⟨between.length + need, fun {depth rest result size cells o c} running hc => ?_⟩
  rw [← List.append_assoc] at hc ⊢
  have := h running hc
  rwa [List.length_append, Nat.add_assoc] at this

theorem push {l : Line Label} {t : Tagged} (hl : l.PushesCell t) (hall : front ++ [l] <+: all) :
    Moves addressOf all front [] (front ++ [l]) [t] := by
  refine ⟨1, fun {depth rest result size cells o c} running hc => ?_⟩
  rw [List.append_nil] at hc
  exact (hl depth size cells o hall).leads hall running hc

/-- A line that takes no room. -/
theorem of_effect {l : Line Label} (hall : front ++ [l] <+: all) (h : ∀ depth size cells o,
      l.Effect addressOf all front depth size 0 (cells ++ above) o next (cells ++ above') o) :
    Moves addressOf all front above next above' := by
  refine ⟨0, fun {depth rest result size cells o c} running hc => ?_⟩
  have hroom : cells.length ≤ size := by
    obtain ⟨m, -, hm⟩ := hc
    exact hm.lower.length_le
  have := (h depth size cells o).leads hall running hc
  exact ⟨fun _ => this.1 (Nat.zero_le _), fun hfull => absurd hroom (by omega)⟩

end Line.Moves

namespace Term.Yields

variable {addressOf : Label → Nat} {all : List (Line Label)} {handle : String → UInt64}

open Line (Moves)

/-- The branch of a connective leads to where the result is pushed or stays with the second
operand. -/
theorem moves_connective (taken : Bool) {short : Int32} {front x y : List (Line Label)} {a b : Slot}
    (hshort : (Line.pushInt short : Line Label).args = []) (small : Line.words all < operandLimit)
    (hall : front ++ connectiveLines (.branch taken) short x y <+: all)
    (hx : front ++ x <+: all → Moves addressOf all front [] (front ++ x) [⟨a, .int⟩])
    (hy : ∀ {front}, front ++ y <+: all → Moves addressOf all front [] (front ++ y) [⟨b, .int⟩]) :
    Moves addressOf all front [] (front ++ connectiveLines (.branch taken) short x y)
      [⟨if a.toBool = taken then .ofInt short else b, .int⟩] := by
  rw [append_connectiveLines] at hall ⊢
  have hjump := (List.prefix_append _ _).trans hall
  have hsecond := (List.prefix_append _ _).trans hjump
  have hfirst := (List.prefix_append _ _).trans hsecond
  refine (hx ((List.prefix_append _ _).trans hfirst)).trans ?_
  have hbranch : Moves addressOf all (front ++ x) [⟨a, .int⟩] _ [] :=
    .of_effect hfirst fun depth size cells o => by
      rw [List.append_nil]
      exact Line.effect_branch hfirst (resolve_branchOver ..)
        (Nat.lt_of_le_of_lt (Line.words_le hjump) small) a
  refine hbranch.trans ?_
  split
  · exact .push (Line.pushesCell_pushInt short) hall
  · refine (hy hsecond).trans (.of_effect hjump fun depth size cells o => ?_)
    exact Line.effect_jump hjump (resolve_jumpOver hshort) (Nat.lt_of_le_of_lt (Line.words_le hall) small)

/-- The code of a term that yields a value pushes the value and does nothing else. -/
theorem moves (small : Line.words all < operandLimit) {t : Term} {v : Tagged} (h : t.Yields v) :
    ∀ {front}, front ++ t.lines handle <+: all →
      Moves addressOf all front [] (front ++ t.lines handle) [v] := by
  induction h with
  | int v => exact fun hall => .push (Line.pushesCell_pushInt v) hall
  | float bits => exact fun hall => .push (Line.pushesCell_pushFloat bits) hall
  | unary number operand result ih =>
    intro front hall
    rw [lines, ← List.append_assoc] at hall ⊢
    refine (ih ((List.prefix_append _ _).trans hall)).trans (.of_effect hall fun depth size cells o => ?_)
    exact Line.effect_unary number result
  | binary number left right result ihx ihy =>
    intro front hall
    rw [lines, ← List.append_assoc, ← List.append_assoc] at hall ⊢
    have hboth := (List.prefix_append _ _).trans hall
    refine (ihx ((List.prefix_append _ _).trans hboth)).trans (((ihy hboth).frame [_]).trans ?_)
    refine .of_effect hall fun depth size cells o => ?_
    rw [← List.append_assoc]
    exact Line.effect_binary (number.imp_right .inl) result
  | @both x y a b left right ihx ihy =>
    intro front hall
    have hvalue : (if a.toBool then b else .ofInt 0) = if a.toBool = false then .ofInt 0 else b := by
      cases a.toBool <;> rfl
    rw [hvalue]
    exact moves_connective false rfl small hall ihx ihy
  | either left right ihx ihy => exact fun hall => moves_connective true rfl small hall ihx ihy
  | select cond yes no ihc iha ihb =>
    intro front hall
    rw [lines, ← List.append_assoc, ← List.append_assoc, ← List.append_assoc] at hall ⊢
    have hno := (List.prefix_append _ _).trans hall
    have hyes := (List.prefix_append _ _).trans hno
    refine (ihc ((List.prefix_append _ _).trans hyes)).trans (((iha hyes).frame [_]).trans ?_)
    refine ((ihb hno).frame [_, _]).trans (.of_effect hall fun depth size cells o => ?_)
    rw [← List.append_assoc, List.append_cons cells]
    exact Line.effect_select _ _ _

end Term.Yields

/-- A table of a registry, perhaps as it was before some of its types were registered. -/
def TyTable.Of (types : Registry) (tt : TyTable) : Prop := ∃ now ∈ types.tables, tt.prim = now.prim

namespace TyTable.Of

variable {types : Registry} {tt : TyTable}

theorem proper (h : tt.Of types) (sound : types.Sound) : tt.Proper := by
  obtain ⟨now, hnow, hprim⟩ := h
  have := sound.proper now hnow
  refine ⟨?_, ?_, ?_, ?_, ?_⟩
  · exact congrArg Ty.kind (congrFun hprim .void) |>.trans this.void
  · exact congrArg Ty.kind (congrFun hprim .boolean) |>.trans this.boolean
  · exact congrArg Ty.kind (congrFun hprim .int) |>.trans this.int
  · exact congrArg Ty.kind (congrFun hprim .float) |>.trans this.float
  · exact congrArg Ty.kind (congrFun hprim .string) |>.trans this.string

theorem knows_prim (h : tt.Of types) (sound : types.Sound) (p : Prim) : types.Knows (tt.prim p) := by
  obtain ⟨now, hnow, hprim⟩ := h
  rw [hprim]
  exact ⟨now, hnow, sound.prims now hnow p⟩

end TyTable.Of

namespace Workspace

variable {w : Workspace} {p : ProgramId} {scope : ScopeId} {name : String}

theorem fst_commit_eq_ok {α : Type} {a : α} {x : Except CompileError (α × Workspace)}
    (h : (w.commit p x).1 = .ok a) : ∃ w', x = .ok (a, w') := by
  unfold commit at h
  split at h
  · cases h
    exact ⟨_, rfl⟩
  · cases h

/-- A declared constant has the folded value, brought to its type. -/
theorem declareConst_eq_ok {e : Expr} {c : Constant} (h : (w.declareConst p scope name t e).1 = .ok c) :
    ∃ x, e.fold (w.tableOf p) = .ok x ∧ assignable t x.type ∧ c.type = t ∧
      c.value = convert x.value x.type t := by
  obtain ⟨w', h⟩ := fst_commit_eq_ok h
  have finish {x : Folded} (h : (do
      if !assignable t x.type then throw ⟨(w.program p).name, .constantValue name x.type t⟩
      let c : Constant := { name, type := t, value := convert x.value x.type t }
      let w ← w.declare scope name (.constant c)
      return (c, w)) = Except.ok (c, w')) :
      assignable t x.type ∧ c.type = t ∧ c.value = convert x.value x.type t := by
    split at h
    · cases h
    · next hassign =>
      obtain ⟨w₁, -, h⟩ := Except.bind_eq_ok.1 h
      cases h
      exact ⟨by simpa using hassign, rfl, rfl⟩
  split at h
  case h_5 => cases h
  all_goals
    obtain ⟨x, hx, h⟩ := Except.bind_eq_ok.1 h
    exact ⟨x, Except.mapError_eq_ok.1 hx, finish h⟩

theorem declareEnum_eq_ok {items : List (String × Option Expr)}
    (h : (w.declareEnum p scope name items).1 = .ok t) : t.kind = .enum := by
  unfold declareEnum at h
  split at h
  · cases h
  · obtain ⟨w', h⟩ := fst_commit_eq_ok h
    obtain ⟨w₁, -, h⟩ := Except.bind_eq_ok.1 h
    obtain ⟨w₂, -, h⟩ := Except.bind_eq_ok.1 h
    cases h
    rfl

end Workspace

/-- The named constants that declarations lead to, in programs with types of a registry. -/
inductive Constant.Declared (types : Registry) : Constant → Prop where
  | const {w : Workspace} {p : ProgramId} {scope : ScopeId} {name : String} {t : Ty} {e : Expr}
      {c : Constant} (table : (w.tableOf p).Of types) (type : types.Knows t)
      (consts : ∀ c', .const c' ∈ e.refs → Declared types c')
      (declared : (w.declareConst p scope name t e).1 = .ok c) : Declared types c
  | member {w : Workspace} {p : ProgramId} {scope : ScopeId} {name : String}
      {items : List (String × Option Expr)} {t : Ty} {m : EnumMember} (type : types.Knows t)
      (declared : (w.declareEnum p scope name items).1 = .ok t) (mem : m ∈ t.members) :
      Declared types (Workspace.memberConstant t m)

theorem Constant.Declared.holds {types : Registry} (sound : types.Sound) {c : Constant}
    (h : c.Declared types) : types.Knows c.type ∧ c.type.kind.Holds c.value := by
  have distinct : Ty.Distinct types.Knows := fun _ _ hs ht => sound.distinct hs ht
  induction h with
  | @const w p scope name t e c table type consts declared ih =>
    obtain ⟨x, hx, hassign, htype, hvalue⟩ := Workspace.declareConst_eq_ok declared
    obtain ⟨hT, hholds, -⟩ := e.yields_of_fold ⟨w.tableOf p, none, none⟩ distinct
      (table.proper sound) (table.knows_prim sound) ih x hx
    rw [htype, hvalue]
    exact ⟨type, (distinct.agrees_of_assignable hT type hassign).holds_convert hholds⟩
  | @member w p scope name items t m type declared mem =>
    have henum : (Workspace.memberConstant t m).type.kind = .enum := Workspace.declareEnum_eq_ok declared
    rw [henum]
    exact ⟨type, _, rfl⟩

/-- The code of a term between other lines. -/
def Term.codeIn (x : Term) (handle : String → UInt64) (addressOf : Label → Nat)
    (front back : List (Line Label)) : Code :=
  .ofList (Item.resolveFrom addressOf 0 (Line.row front ++ x.items handle ++ Line.row back))

/-- One slot has been pushed, and everything else is as before. -/
structure Machine.Pushed (v : Slot) (m m' : Machine) : Prop where
  sp : m'.sp = m.sp + 1
  size : m'.stack.size = m.stack.size
  pushed : at? m'.stack m.sp = some v
  below : ∀ i < m.sp, at? m'.stack i = at? m.stack i
  aside : m'.aside = m.aside

theorem Machine.Upright.pushed {m m' : Machine} (h : m.Upright) {v : Tagged}
    (h' : m'.Tops m.stack.size (m.cells ++ [v]) m.aside) : m.Pushed v.slot m' where
  sp := by
    rw [h'.sp, List.length_append, Int.natCast_add, h.length_cells]
    rfl
  size := h'.size
  pushed := by
    rw [← h.length_cells]
    exact Shows.at?_of_initial h'.slots (by simp)
  below i hi := by
    by_cases hnonneg : 0 ≤ i
    · have hlt : i.toNat < m.cells.length := by
        have := h.length_cells
        omega
      obtain ⟨c, hc⟩ : ∃ c, m.cells[i.toNat]? = some c := ⟨_, List.getElem?_eq_getElem hlt⟩
      have hold : at? m.stack i.toNat = some c.slot :=
        Shows.at?_of_initial h.tops_cells.slots (by simp [hc])
      have hnew : at? m'.stack i.toNat = some c.slot :=
        Shows.at?_of_initial h'.lower.slots (by simp [hc])
      rw [Int.toNat_of_nonneg hnonneg] at hold hnew
      rw [hold, hnew]
    · simp [at?, hnonneg]
  aside := h'.aside

/-- The code of a term, standing anywhere in a unit, pushes a value on every machine with enough
room, tagged or not, and changes nothing else. -/
def Term.Computes (x : Term) (v : Slot) : Prop :=
  ∀ (handle : String → UInt64) (addressOf : Label → Nat) (front back : List (Line Label)),
    (x.codeIn handle addressOf front back).size < operandLimit →
    ∃ need : Nat, ∀ (m : Machine) (depth : Nat) (rest : List Task) (result : Slot), m.Upright →
      m.halted = false → m.sp + need ≤ m.stack.size →
      ∃ m', m.Pushed v m' ∧ Config.Reaches
        ⟨m, .loop (x.codeIn handle addressOf front back) (Line.words front) depth :: rest, result⟩
        ⟨m', .loop (x.codeIn handle addressOf front back)
          (Line.words front + (x.items handle).length : Nat) depth :: rest, result⟩

/-- A term that yields a value computes it. -/
theorem Term.Yields.computes {t : Tagged} (h : x.Yields t) : x.Computes t.slot := by
  intro handle addressOf front back small
  have hcode : x.codeIn handle addressOf front back =
      Line.code addressOf (front ++ x.lines handle ++ back) := by
    rw [Term.codeIn, Line.code, Line.row_append, Line.row_append, Term.row_lines]
  have hbehind : Line.words front + (x.items handle).length = Line.words (front ++ x.lines handle) := by
    rw [Line.words_append, Line.words, Line.words, Term.row_lines]
  rw [hcode] at small ⊢
  rw [Line.size_code] at small
  rw [hbehind]
  obtain ⟨need, hmoves⟩ : Line.Moves addressOf _ front [] _ [t] := h.moves small (List.prefix_append _ _)
  refine ⟨need, fun m depth rest result upright running room => ?_⟩
  have hroom : m.cells.length + need ≤ m.stack.size := by
    have := upright.length_cells
    omega
  obtain ⟨c, hreaches, m', rfl, hm'⟩ := (hmoves running ⟨m, rfl, by simpa using upright.tops_cells⟩).1 hroom
  exact ⟨m', upright.pushed hm', hreaches⟩

/-- What an expression folds to is what its code pushes: it checks with the type that the folder
gives, and its code computes the folded value. -/
theorem Expr.computes_folded_value {types : Registry} (made : types.Made) (ctx : Context)
    (table : ctx.table.Of types) {e : Expr} (consts : ∀ c, .const c ∈ e.refs → c.Declared types)
    {v : Slot} {t : Ty} (folded : e.fold ctx.table = .ok ⟨v, t⟩) :
    ∃ x, e.check ctx = .ok ⟨x, t⟩ ∧ x.Computes v := by
  have sound := made.sound
  obtain ⟨-, -, x, hx, hyields⟩ := e.yields_of_fold ctx (fun _ _ hs ht => sound.distinct hs ht)
    (table.proper sound) (table.knows_prim sound) (fun c hc => (consts c hc).holds sound) _ folded
  exact ⟨x, hx, hyields.computes⟩

/-! ### A program with an enum and a constant made from it -/

namespace Shades

def workspace : Workspace := (({} : Workspace).newTable.2.newProgram "shades" ⟨0⟩ []).2

def types : Registry := (Registry.empty.newTable.2.enumOf ⟨0⟩ "Shade" [⟨"dark", 0⟩, ⟨"light", 5⟩]).2

def shade : Ty := .enum 5 "Shade" [⟨"dark", 0⟩, ⟨"light", 5⟩]

def light : Constant := Workspace.memberConstant shade ⟨"light", 5⟩

/-- One more than the number of `light`. -/
def limit : Constant := ⟨"limit", .prim 2 .int, .ofInt 6⟩

/-- `limit < 3 || light == light ? -limit : 1` -/
def choice : Expr :=
  .ternary (.binary .logOr (.binary (.plain .lt) (.const limit) (.int 3))
    (.binary (.plain .eq) (.const light) (.const light))) (.unary .neg (.const limit)) (.int 1)

theorem made_types : types.Made := .enumOf (.newTable .empty) _ _ _

/-- The table of the types, as it is in the end. -/
def table : TyTable :=
  { TyTable.startingAt 0 with types := (TyTable.startingAt 0).types ++ [shade] }

theorem tables_types : types.tables = #[table] := rfl

theorem of_types : (workspace.tableOf ⟨0⟩).Of types :=
  ⟨table, by simp [tables_types], rfl⟩

theorem knows_types (h : t ∈ table.types) : types.Knows t := ⟨table, by simp [tables_types], h⟩

theorem declared_light : light.Declared types := by
  have declared : (workspace.declareEnum ⟨0⟩ ⟨0⟩ "Shade" [("dark", none), ("light", some (.int 5))]).1 =
      .ok shade := rfl
  exact .member (knows_types (by simp [table])) declared (by simp [shade, Ty.members])

theorem declared_limit : limit.Declared types := by
  have declared : (workspace.declareConst ⟨0⟩ ⟨0⟩ "limit" (.prim 2 .int)
      (.binary (.plain .add) (.unary .toInt (.const light)) (.int 1))).1 = .ok limit := rfl
  refine .const of_types (knows_types (by simp [table, TyTable.startingAt])) (fun c hc => ?_) declared
  obtain rfl : c = light := by simpa [Expr.refs] using hc
  exact declared_light

theorem declared_choice : ∀ c, .const c ∈ choice.refs → c.Declared types := by
  intro c hc
  have : c = limit ∨ c = light ∨ c = limit := by simpa [choice, Expr.refs] using hc
  rcases this with rfl | rfl | rfl
  · exact declared_limit
  · exact declared_light
  · exact declared_limit

theorem fold_choice : choice.fold (workspace.tableOf ⟨0⟩) = .ok ⟨.ofInt (-6), .prim 2 .int⟩ := rfl

end Shades

theorem Expr.computes_folded_value_choice :
    Shades.choice.fold (Shades.workspace.tableOf ⟨0⟩) = .ok ⟨.ofInt (-6), .prim 2 .int⟩ ∧
      ∃ x, Shades.choice.check ⟨Shades.workspace.tableOf ⟨0⟩, none, none⟩ = .ok ⟨x, .prim 2 .int⟩ ∧
        x.Computes (.ofInt (-6)) :=
  ⟨Shades.fold_choice, Expr.computes_folded_value Shades.made_types
    ⟨Shades.workspace.tableOf ⟨0⟩, none, none⟩ Shades.of_types Shades.declared_choice
    Shades.fold_choice⟩

end Stackwork
