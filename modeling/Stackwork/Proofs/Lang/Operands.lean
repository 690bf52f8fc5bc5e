import Stackwork.Proofs.Lang.Flow

/-!
# The stretches of code that evaluate expressions

Every expression of a unit, however deep it lies inside others, is evaluated by a stretch of the
code. The stretch starts above what the surrounding expression has left pending, and behind it
there is exactly one value more.
-/
namespace Stackwork

open Kind

/-- The code of an expression inside some lines: where it begins and ends, what is pending below
it, and the type of the value it leaves. -/
structure Stretch where
  start : Nat
  stop : Nat
  pending : List Ty
  value : Ty

namespace Stretch

/-- The same code further on, above more temporaries. -/
def shift (n : Nat) (ts : List Ty) (q : Stretch) : Stretch :=
  ⟨n + q.start, n + q.stop, ts ++ q.pending, q.value⟩

def move (n : Nat) (ts : List Ty) (qs : List Stretch) : List Stretch := qs.map (shift n ts)

@[simp] theorem move_nil (n : Nat) (ts : List Ty) : move n ts [] = [] := rfl

@[simp] theorem shift_shift (n m : Nat) (ts us : List Ty) (q : Stretch) :
    shift n ts (shift m us q) = shift (n + m) (ts ++ us) q := by
  simp [shift, Nat.add_assoc]

@[simp] theorem move_cons (n : Nat) (ts : List Ty) (q : Stretch) (qs : List Stretch) :
    move n ts (q :: qs) = shift n ts q :: move n ts qs := rfl

@[simp] theorem move_append (n : Nat) (ts : List Ty) (qs rs : List Stretch) :
    move n ts (qs ++ rs) = move n ts qs ++ move n ts rs :=
  List.map_append

@[simp] theorem move_move (n m : Nat) (ts us : List Ty) (qs : List Stretch) :
    move n ts (move m us qs) = move (n + m) (ts ++ us) qs := by
  simp [move]

theorem move_zero (qs : List Stretch) : move 0 [] qs = qs := by
  have hshift : shift 0 [] = id := funext fun q => by simp [shift]
  rw [move, hshift, List.map_id]

end Stretch

theorem Mark.words_raise (ts : List Ty) (ms : List Mark) : words (raise ts ms) = words ms := by
  rw [words, lines_raise, words]

/-- An expression as a whole. -/
def Expr.stretch (tt : TyTable) (handle : String → UInt64) (e : Expr) : Stretch :=
  ⟨0, Mark.words (e.marks tt handle), [], e.typeOf tt⟩

mutual
/-- The operands inside an expression, the operands of operands among them. -/
def Expr.inner (tt : TyTable) (handle : String → UInt64) : Expr → List Stretch
  | .unary _ x => x.stretch tt handle :: x.inner tt handle
  | .binary (.plain op) x y =>
    let t := operandType tt (.plain op) (x.typeOf tt) (y.typeOf tt)
    x.stretch tt handle :: x.inner tt handle ++
      Stretch.move (Mark.words (x.marks tt handle ++ Mark.widening (x.typeOf tt) t)) [t]
        (y.stretch tt handle :: y.inner tt handle)
  | .binary .logAnd x y | .binary .logOr x y =>
    x.stretch tt handle :: x.inner tt handle ++
      Stretch.move (Mark.words (x.marks tt handle) + 2) [] (y.stretch tt handle :: y.inner tt handle)
  | .ternary c x y =>
    let s := c.typeOf tt
    let t := (unify tt (x.typeOf tt) (y.typeOf tt)).getD tt.void
    c.stretch tt handle :: c.inner tt handle ++
      Stretch.move (Mark.words (c.marks tt handle)) [s] (x.stretch tt handle :: x.inner tt handle) ++
        Stretch.move (Mark.words (c.marks tt handle) +
          Mark.words (x.marks tt handle ++ Mark.widening (x.typeOf tt) t)) [s, t]
            (y.stretch tt handle :: y.inner tt handle)
  | .call (.func g) args => innerOf tt handle args g.type.inputs
  | .call callee args =>
    innerOf tt handle args (callee.typeOf tt).inputs ++
      Stretch.move (Mark.words (marksOf tt handle args (callee.typeOf tt).inputs))
        (callee.typeOf tt).inputs (callee.stretch tt handle :: callee.inner tt handle)
  | _ => []

/-- The operands inside arguments, and the arguments themselves. -/
def innerOf (tt : TyTable) (handle : String → UInt64) : List Expr → List Ty → List Stretch
  | e :: es, t :: ts =>
    e.stretch tt handle :: e.inner tt handle ++
      Stretch.move (Mark.words (e.marks tt handle ++ Mark.widening (e.typeOf tt) t)) [t]
        (innerOf tt handle es ts)
  | _, _ => []
end

/-- An expression and all operands inside it. -/
def Expr.stretches (tt : TyTable) (handle : String → UInt64) (e : Expr) : List Stretch :=
  e.stretch tt handle :: e.inner tt handle

theorem Expr.inner_call_value {tt : TyTable} {handle : String → UInt64} {callee : Expr}
    (h : ∀ g, callee ≠ .func g) (args : List Expr) : (call callee args).inner tt handle =
      innerOf tt handle args (callee.typeOf tt).inputs ++
        Stretch.move (Mark.words (marksOf tt handle args (callee.typeOf tt).inputs))
          (callee.typeOf tt).inputs (callee.stretches tt handle) := by
  rw [inner]
  · rfl
  · exact h

namespace Listing

variable (u : Listing)

/-- What is pending in front of a stretch, and behind it. -/
def Spans (p : Nat) (q : Stretch) : Prop :=
  u.stackMap.Ready (p + q.start) q.pending ∧ u.stackMap.Ready (p + q.stop) (q.pending ++ [q.value])

/-- Lines that flow, and so do the stretches inside them. -/
structure Bears (S : Stage) (ms : List Mark) (qs : List Stretch) (a b : List Ty) : Prop where
  flows : u.Flows S ms a b
  spans : ∀ front back, u.marks = front ++ ms ++ back → u.stackMap.Ready (Mark.words (front ++ ms)) b →
    ∀ q ∈ qs, u.Spans (Mark.words front) q

variable {u} {S : Stage} {a b c : List Ty} {qs rs : List Stretch} {ms : List Mark}

theorem spans_move {p n : Nat} (h : ∀ q ∈ qs, u.Spans (p + n) q) :
    ∀ q ∈ Stretch.move n [] qs, u.Spans p q := by
  intro q hq
  obtain ⟨q', hq', rfl⟩ := List.mem_map.1 hq
  simpa [Spans, Stretch.shift, Nat.add_assoc] using h q' hq'

theorem Flows.bears (h : u.Flows S ms a b) : u.Bears S ms [] a b := ⟨h, nofun⟩

namespace Bears

variable {xs ys : List Mark} {t : Ty} {ts : List Ty}

theorem append (hx : u.Bears S xs qs a b) (hy : u.Bears S ys rs b c) :
    u.Bears S (xs ++ ys) (qs ++ Stretch.move (Mark.words xs) [] rs) a c := by
  refine ⟨hx.flows.append hy.flows, fun front back hall hend => ?_⟩
  rw [← List.append_assoc] at hall hend
  obtain ⟨hmid, -⟩ := hy.flows (front ++ xs) back hall hend
  refine List.forall_mem_append.2 ⟨?_, spans_move ?_⟩
  · exact hx.spans front (ys ++ back) (by rw [hall, List.append_assoc]) hmid
  · rw [← Mark.words_append]
    exact hy.spans (front ++ xs) back hall hend

/-- Lines that have no stretches of their own. -/
theorem append_flows (hx : u.Bears S xs qs a b) (hy : u.Flows S ys b c) : u.Bears S (xs ++ ys) qs a c := by
  have := hx.append hy.bears
  rwa [Stretch.move_nil, List.append_nil] at this

theorem widening {s : Ty} (h : s.Passes t ∨ widens s t) (hms : u.Bears S ms qs a (ts ++ [s])) :
    u.Bears S (ms ++ Mark.raise ts (Mark.widening s t)) qs a (ts ++ [t]) :=
  hms.append_flows (Flows.widening h (.nil : u.Flows S [] (ts ++ [s]) (ts ++ [s])))

/-- An expression and what is inside it. -/
theorem whole {tt : TyTable} {handle : String → UInt64} {e : Expr} (ht : t = e.typeOf tt)
    (h : u.Bears S (Mark.raise ts (e.marks tt handle)) (Stretch.move 0 ts (e.inner tt handle)) ts (ts ++ [t])) :
    u.Bears S (Mark.raise ts (e.marks tt handle)) (Stretch.move 0 ts (e.stretches tt handle)) ts
      (ts ++ [t]) := by
  refine ⟨h.flows, fun front back hall hend => ?_⟩
  refine List.forall_mem_cons.2 ⟨⟨?_, ?_⟩, h.spans front back hall hend⟩
  · simpa [Stretch.shift, Expr.stretch] using (h.flows front back hall hend).1
  · rw [Mark.words_append, Mark.words_raise] at hend
    simpa [Stretch.shift, Expr.stretch, ht] using hend

theorem connective {op : Opcode} {short : Int32} {s r : Ty} (hx : u.Bears S (Mark.raise ts xs) qs ts (ts ++ [s]))
    (hy : u.Bears S (Mark.raise ts ys) rs ts (ts ++ [t]))
    (hall : u.Flows S (Mark.raise ts (Mark.connective op short s t xs ys)) ts (ts ++ [r])) :
    u.Bears S (Mark.raise ts (Mark.connective op short s t xs ys))
      (qs ++ Stretch.move (Mark.words xs + 2) [] rs) ts (ts ++ [r]) := by
  let skip : Mark := ⟨ts ++ [s], ⟨op, .none, [.ahead (Mark.words ys + 2)]⟩, none⟩
  let jump : Mark := ⟨ts ++ [t], ⟨.jump, .none, [.ahead 1]⟩, none⟩
  let push : Mark := ⟨ts, .pushInt short, none⟩
  have hparts : Mark.raise ts (Mark.connective op short s t xs ys) =
      Mark.raise ts xs ++ skip :: (Mark.raise ts ys ++ jump :: [push]) := by
    simp [Mark.connective, Mark.above, skip, jump, push]
  refine ⟨hall, fun front back hmarks _ => List.forall_mem_append.2 ⟨?_, spans_move ?_⟩⟩
  · have hfirst : u.marks = (front ++ Mark.raise ts xs) ++ skip :: (Mark.raise ts ys ++ jump :: [push] ++ back) := by
      simp [hmarks, hparts]
    exact hx.spans front _ hfirst (ready_mark hfirst)
  · have hsecond : u.marks =
        (front ++ Mark.raise ts xs ++ [skip]) ++ Mark.raise ts ys ++ jump :: ([push] ++ back) := by
      simp [hmarks, hparts]
    have hstart : Mark.words (front ++ Mark.raise ts xs ++ [skip]) =
        Mark.words front + (Mark.words xs + 2) := by
      rw [words_snoc, Mark.words_append, Mark.words_raise, Nat.add_assoc]
      rfl
    rw [← hstart]
    exact hy.spans _ _ hsecond (ready_mark hsecond)

end Bears
end Listing

section

variable {u : Listing} {S : Stage} {T : Ty → Prop} {ctx : Context}

/-- Arguments are left in order. -/
theorem Arguments.bears (governs : ctx.table.Governs T) {handle : String → UInt64} {args : List Expr}
    {inputs : List Ty} {terms : List Term} (h : Arguments ctx args inputs terms)
    (hinputs : ∀ t ∈ inputs, T t) (sits : ∀ r ∈ refsOf args, r.Sits S T u.frame)
    (ih : ∀ e ∈ args, ∀ x, e.check ctx = .ok x → (∀ r ∈ e.refs, r.Sits S T u.frame) →
      T x.type ∧ ∀ ts, u.Bears S (Mark.raise ts (e.marks ctx.table handle))
        (Stretch.move 0 ts (e.inner ctx.table handle)) ts (ts ++ [x.type]))
    (ts : List Ty) :
    u.Bears S (Mark.raise ts (marksOf ctx.table handle args inputs))
      (Stretch.move 0 ts (innerOf ctx.table handle args inputs)) ts (ts ++ inputs) := by
  induction h generalizing ts with
  | nil =>
    rw [List.append_nil]
    exact Listing.Flows.nil.bears
  | @cons e args t inputs x terms checked fits _ ihrest =>
    obtain ⟨he, hargs⟩ := List.forall_mem_cons.1 ih
    obtain ⟨ht, hrest⟩ := List.forall_mem_cons.1 hinputs
    obtain ⟨sits₁, sits₂⟩ := List.forall_mem_append.1 sits
    obtain ⟨hx, hbears⟩ := he x checked sits₁
    have htype := (e.lines_marks handle x checked).1
    have hpass := governs.passes_of_assignable hx ht fits
    have htail := ihrest hrest sits₂ hargs (ts ++ [t])
    rw [List.append_assoc, List.singleton_append] at htail
    have hall := (((hbears ts).whole htype).widening hpass).append htail
    rw [marksOf, innerOf, ← htype]
    simpa [Expr.stretches, Mark.words_append, Mark.words_raise] using hall

theorem Expr.refs_call_value {callee : Expr} (h : ∀ g, callee ≠ .func g) (args : List Expr) :
    (call callee args).refs = refsOf args ++ callee.refs := by
  rw [refs]
  exact h

/-- The lines of a checked expression leave one value of its type, above anything. -/
theorem Expr.bears (governs : ctx.table.Governs T) (small : Mark.words u.marks < operandLimit)
    (handle : String → UInt64) (e : Expr) : ∀ x, e.check ctx = .ok x →
      (∀ r ∈ e.refs, r.Sits S T u.frame) →
        T x.type ∧ ∀ ts, u.Bears S (Mark.raise ts (e.marks ctx.table handle))
        (Stretch.move 0 ts (e.inner ctx.table handle)) ts (ts ++ [x.type]) := by
  induction e using Expr.induct with
  | missing => intro x h; cases h
  | int v =>
    intro x h _
    cases h
    have hkind : ofTy ctx.table.int = .int := by rw [ofTy, governs.proper.int]; rfl
    refine ⟨governs.prims .int, fun ts => ?_⟩
    simp only [marks, inner, Stretch.move_nil, Mark.raise_cons, Mark.raise_nil, Mark.above, List.append_nil]
    exact (Listing.Flows.int (.of_kind hkind.symm (by simp [governs.proper.int])) ts).bears
  | float bits =>
    intro x h _
    cases h
    refine ⟨governs.prims .float, fun ts => ?_⟩
    simp only [marks, inner, Stretch.move_nil, Mark.raise_cons, Mark.raise_nil, Mark.above, List.append_nil]
    exact (Listing.Flows.float governs.proper.float ts).bears
  | bool b =>
    intro x h _
    cases h
    have hkind : ofTy ctx.table.boolean = .int := by rw [ofTy, governs.proper.boolean]; rfl
    refine ⟨governs.prims .boolean, fun ts => ?_⟩
    simp only [marks, inner, Stretch.move_nil, Mark.raise_cons, Mark.raise_nil, Mark.above, List.append_nil]
    exact (Listing.Flows.int (.of_kind hkind.symm (by simp [governs.proper.boolean])) ts).bears
  | text s =>
    intro x h _
    cases h
    have hkind : ofTy ctx.table.string = .obj := by rw [ofTy, governs.proper.string]; rfl
    refine ⟨governs.prims .string, fun ts => ?_⟩
    simp only [marks, inner, Stretch.move_nil, Mark.raise_cons, Mark.raise_nil, Mark.above, List.append_nil]
    exact (Listing.Flows.push (Line.pushesCell_pushObj _) (Line.isPush_pushObj _)
      (.of_kind hkind.symm (by simp [governs.proper.string])) ts).bears
  | const c =>
    intro x h sits
    cases h
    obtain ⟨htype, holds⟩ := sits (.const c) (List.mem_singleton.2 rfl)
    refine ⟨htype, fun ts => ?_⟩
    simp only [marks, inner, Stretch.move_nil, Mark.raise_cons, Mark.raise_nil]
    exact (Listing.Flows.constant holds ts).bears
  | func f =>
    intro x h sits
    cases h
    obtain ⟨htype, hlt, hf, r, hr, hrtype⟩ := sits (.func f) (List.mem_singleton.2 rfl)
    have hkind : ofTy f.type = .int := by rw [ofTy, hf]; rfl
    refine ⟨htype, fun ts => ?_⟩
    simp only [marks, inner, Stretch.move_nil, Mark.raise_cons, Mark.raise_nil, Mark.above, List.append_nil]
    exact (Listing.Flows.int ⟨hkind.symm, hrtype ▸ S.function hr hlt⟩ ts).bears
  | var v =>
    intro x h sits
    obtain ⟨-, rfl⟩ := check_var_eq_ok.1 h
    obtain ⟨htype, hv⟩ := sits (.read v) (List.mem_singleton.2 rfl)
    refine ⟨htype, fun ts => ?_⟩
    simp only [marks, inner, Stretch.move_nil, Mark.raise_cons, Mark.raise_nil, Mark.load, Mark.above,
      List.append_nil]
    exact (Listing.Flows.load hv ts).bears
  | unary op e ih =>
    intro x h sits
    obtain ⟨a, t, ha, ht, rfl⟩ := check_unary_eq_ok.1 h
    obtain ⟨hT, hbears⟩ := ih a ha sits
    refine ⟨known_of_unaryType governs.prims hT ht, fun ts => ?_⟩
    have htype := (e.lines_marks handle a ha).1
    rw [marks, inner, ← htype, Mark.raise_append]
    exact ((hbears ts).whole htype).append_flows (Listing.Flows.unaryOp governs ht .nil)
  | binary op e f ihe ihf =>
    intro x h sits
    obtain ⟨a, b, t, ha, hb, ht, rfl⟩ := check_binary_eq_ok.1 h
    obtain ⟨sits₁, sits₂⟩ := List.forall_mem_append.1 sits
    obtain ⟨hTa, hbears⟩ := ihe a ha sits₁
    obtain ⟨hTb, hbears'⟩ := ihf b hb sits₂
    have htype := (e.lines_marks handle a ha).1
    have htype' := (f.lines_marks handle b hb).1
    refine ⟨known_of_binaryType governs.prims hTa ht, fun ts => ?_⟩
    have hx := (hbears ts).whole htype
    have hconnective {branch : Opcode} {short : Int32} (hop : op = .logAnd ∨ op = .logOr)
        (which : branch = .branchTrue ∨ branch = .branchFalse)
        (hshort : (Line.pushInt short : Line Label).args = []) :
        u.Bears S (Mark.raise ts (Mark.connective branch short a.type b.type
            (e.marks ctx.table handle) (f.marks ctx.table handle)))
          (Stretch.move 0 ts (e.stretches ctx.table handle) ++
            Stretch.move (Mark.words (e.marks ctx.table handle) + 2) ts (f.stretches ctx.table handle))
          ts (ts ++ [t.result]) := by
      obtain ⟨hka, hkb, rfl⟩ := boolean_of_connective hop ht
      have hkind : ofTy a.type = .int := by rw [ofTy, hka]; rfl
      have plain : a.type.kind ≠ .function := by simp [hka]
      have hy := (hbears' ts).whole htype'
      have hboth := hx.connective hy (.connective which hkind (.of_kind hkind.symm plain) hshort
        (.of_kind (hkb.trans hka.symm) plain) small hx.flows hy.flows)
      rwa [Stretch.move_move] at hboth
    cases op with
    | plain op =>
      have hoperand : operandType ctx.table (.plain op) a.type b.type = t.operand := by
        rw [operandType, ht]
        rfl
      obtain ⟨hpass, hpass'⟩ := governs.passes_of_binaryType hTa hTb ht
      obtain ⟨hkind, plain⟩ := governs.result_of_binary ht
      have hy := (hbears' (ts ++ [t.operand])).whole htype'
      have hall := ((hx.widening hpass).append (hy.widening hpass')).append_flows
        (.binary (kinds_of_binaryType governs.proper ht) hkind plain ts)
      simp only [marks, inner, ← htype, ← htype', hoperand]
      simpa [Mark.above, stretches, Mark.words_append, Mark.words_raise] using hall
    | logAnd =>
      have hall := hconnective (.inl rfl) (.inr rfl) (rfl : (Line.pushInt 0 : Line Label).args = [])
      rw [marks, inner, ← htype, ← htype']
      simpa [stretches] using hall
    | logOr =>
      have hall := hconnective (.inr rfl) (.inl rfl) (rfl : (Line.pushInt 1 : Line Label).args = [])
      rw [marks, inner, ← htype, ← htype']
      simpa [stretches] using hall
  | ternary c e f ihc ihe ihf =>
    intro x h sits
    obtain ⟨d, a, b, t, hd, hcond, ha, hb, ht, -, rfl⟩ := check_ternary_eq_ok.1 h
    obtain ⟨sits₁, sits₃⟩ := List.forall_mem_append.1 sits
    obtain ⟨sits₁, sits₂⟩ := List.forall_mem_append.1 sits₁
    obtain ⟨-, hbears₀⟩ := ihc d hd sits₁
    obtain ⟨hTa, hbears⟩ := ihe a ha sits₂
    obtain ⟨hTb, hbears'⟩ := ihf b hb sits₃
    have htype₀ := (c.lines_marks handle d hd).1
    have htype := (e.lines_marks handle a ha).1
    have htype' := (f.lines_marks handle b hb).1
    have hkind : ofTy d.type = .int := by rw [ofTy, hcond]; rfl
    obtain ⟨hpass, hpass'⟩ := governs.passes_of_unify hTa hTb ht
    refine ⟨known_of_unify governs.prims hTa ht, fun ts => ?_⟩
    have hc := (hbears₀ ts).whole htype₀
    have hx := (hbears (ts ++ [d.type])).whole htype
    have hy := (hbears' (ts ++ [d.type] ++ [t])).whole htype'
    have hall := ((hc.append (hx.widening hpass)).append (hy.widening hpass')).append_flows
      (.select hkind ts)
    simp only [marks, inner, ← htype₀, ← htype, ← htype', ht, Option.getD_some]
    simpa [Mark.above, stretches, Mark.words_append, Mark.words_raise] using hall
  | call callee args ihcallee ihargs =>
    intro x h sits
    obtain ⟨f, id, output, inputs, terms, hf, hfun, hargs, rfl⟩ := check_call_eq_ok.1 h
    have htype := (callee.lines_marks handle f hf).1
    rw [hfun] at htype
    by_cases hcallee : ∃ g, callee = .func g
    · obtain ⟨g, rfl⟩ := hcallee
      rw [refs] at sits
      obtain ⟨sitsArgs, sitsCall⟩ := List.forall_mem_append.1 sits
      obtain ⟨hT, hlt, -, r, hr, hrtype⟩ := sitsCall (.call g) (List.mem_singleton.2 rfl)
      have hg : g.type = .function id output inputs := htype.symm
      rw [hg] at hT hrtype
      refine ⟨governs.output hT, fun ts => ?_⟩
      rw [marks, inner, hg, Ty.inputs, Mark.raise_append]
      exact (hargs.bears governs (governs.inputs hT) sitsArgs ihargs ts).append_flows
        (.call hr hlt hrtype ts)
    · have hvalue (g : Callable) : callee ≠ .func g := fun h => hcallee ⟨g, h⟩
      rw [refs_call_value hvalue] at sits
      obtain ⟨sitsArgs, sitsCallee⟩ := List.forall_mem_append.1 sits
      obtain ⟨hT, hbears⟩ := ihcallee f hf sitsCallee
      rw [hfun] at hT
      refine ⟨governs.output hT, fun ts => ?_⟩
      have hcall := (hbears (ts ++ inputs)).whole (hfun.trans htype)
      rw [hfun] at hcall
      have hall := ((hargs.bears governs (governs.inputs hT) sitsArgs ihargs ts).append hcall).append_flows
        (.callR (some callee) ts)
      rw [marks_call_value hvalue, inner_call_value hvalue, ← htype, Ty.inputs]
      simpa [Mark.above, Mark.words_raise] using hall

end

end Stackwork
