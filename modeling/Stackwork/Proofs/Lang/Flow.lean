import Stackwork.Proofs.Lang.Folding
import Stackwork.Proofs.Lang.Marks
import Stackwork.Proofs.Machine.StackTyping

/-!
# Stack maps of generated code

The marks of a unit are a stack map of its code. Each line takes its operands from what is
pending in front of it and leaves what is pending at every line that can come next: behind it,
at the end of a connective, or where a label stands. Lines are followed backwards: what comes
behind some lines has to be ready for what they leave.
-/
namespace Stackwork

open Machine (at?)

/-- The code of a unit with everything that its stack map needs. -/
structure Listing where
  addressOf : Label → Nat
  /-- The labels that the unit places. -/
  labels : List Label
  frame : List Ty
  /-- Nothing at top level. -/
  output : Option Ty
  marks : List Mark

/-- A mark stands at a position. -/
def Mark.Sits (all : List Mark) (p : Nat) (m : Mark) : Prop :=
  ∃ front back, all = front ++ m :: back ∧ p = words front

/-- A variable has a slot of its type: a global in the heap, a local in the frame. -/
structure Variable.Sits (S : Stage) (frame : List Ty) (v : Variable) : Prop where
  nonneg : 0 ≤ v.index
  lt : v.index < operandLimit
  found : (if v.isGlobal then S.globals else frame)[v.index.toNat]? = some v.type

namespace Line

variable {L : Type}

theorem isPush_pushInt (v : Int32) : (pushInt v : Line L).op.isPush := by
  unfold pushInt
  split
  · rfl
  · split <;> rfl

theorem isPush_pushFloat (bits : UInt64) : (pushFloat bits : Line L).op.isPush := by
  unfold pushFloat
  split
  · rfl
  · split <;> rfl

theorem isPush_pushObj (handle : UInt64) : (pushObj handle : Line L).op.isPush := by
  unfold pushObj
  split <;> rfl

end Line

namespace Listing

variable (u : Listing)

def code : Code := Line.code u.addressOf (Mark.lines u.marks)

/-- What the marks say is pending. A run gets behind the last line only at top level. -/
def stackMap : StackMap where
  code := u.code
  frame := u.frame
  output := u.output
  At p ts := (∃ m, Mark.Sits u.marks p m ∧ ts = m.pending) ∨
    u.output = none ∧ p = Mark.words u.marks ∧ ts = []

/-- Every one of some lines from a position on admits what is pending in front of it. -/
def Admit (S : Stage) : Nat → List Mark → Prop
  | _, [] => True
  | p, m :: ms => S.Admits u.stackMap p m.pending ∧ Admit S (p + Mark.words [m]) ms

/-- Where labels stand nothing is pending. -/
def Landed : Prop :=
  ∀ l ∈ u.labels, u.addressOf l < operandLimit ∧ u.stackMap.Ready (u.addressOf l) []

/-- Wherever the lines stand in the unit: if what comes behind them is ready for `b`, then they
are ready for `a` and each of them admits what is pending there. -/
def Flows (S : Stage) (ms : List Mark) (a b : List Ty) : Prop :=
  ∀ front back, u.marks = front ++ ms ++ back → u.stackMap.Ready (Mark.words (front ++ ms)) b →
    u.stackMap.Ready (Mark.words front) a ∧ (u.Landed → u.Admit S (Mark.words front) ms)

variable {u} {S : Stage}

theorem admit_append {p : Nat} {xs ys : List Mark} :
    u.Admit S p (xs ++ ys) ↔ u.Admit S p xs ∧ u.Admit S (p + Mark.words xs) ys := by
  induction xs generalizing p with
  | nil => simp [Admit, Mark.words]
  | cons x xs ih =>
    have hwords : p + Mark.words [x] + Mark.words xs = p + Mark.words (x :: xs) := by
      rw [Nat.add_assoc, ← Mark.words_append]
      rfl
    simp only [List.cons_append, Admit, ih, hwords, and_assoc]

variable {front : List Mark} {m : Mark}

theorem ready_mark {back : List Mark} (h : u.marks = front ++ m :: back) :
    u.stackMap.Ready (Mark.words front) m.pending :=
  StackMap.ready_of_at (.inl ⟨m, ⟨front, back, h, rfl⟩, rfl⟩)

theorem words_snoc : Mark.words (front ++ [m]) = Mark.words front + (1 + m.line.args.length) := by
  simp [Mark.words]

namespace Flows

variable {a b c : List Ty}

theorem nil : u.Flows S [] a a := by
  intro front back _ hend
  rw [List.append_nil] at hend
  exact ⟨hend, fun _ => trivial⟩

variable {xs ys : List Mark} {v : Variable} {ts ins : List Ty} {id : Nat} {l : Label} {op : Opcode}

theorem append (hx : u.Flows S xs a b) (hy : u.Flows S ys b c) : u.Flows S (xs ++ ys) a c := by
  intro front back hall hend
  rw [← List.append_assoc] at hall hend
  obtain ⟨hmid, hadmits⟩ := hy (front ++ xs) back hall hend
  obtain ⟨hstart, hadmits'⟩ := hx front (ys ++ back) (by rw [hall, List.append_assoc]) hmid
  refine ⟨hstart, fun landed => admit_append.2 ⟨hadmits' landed, ?_⟩⟩
  rw [← Mark.words_append]
  exact hadmits landed

variable {ms : List Mark} {s t out : Ty}

/-- What is left may stand for other types. -/
theorem pass (h : u.Flows S ms a b) (hpass : List.Forall₂ Ty.Passes b c) : u.Flows S ms a c :=
  fun front back hall hend => h front back hall (hend.mono hpass)

theorem pass_last (h : u.Flows S ms a (b ++ [s])) (hpass : s.Passes t) : u.Flows S ms a (b ++ [t]) :=
  h.pass (List.rel_append (List.forall₂_same.2 fun t _ => .refl t) (.cons hpass .nil))

/-- A single line, which comes behind some lines. -/
theorem single {m : Mark} (h : ∀ front, Mark.lines front ++ [m.line] <+: Mark.lines u.marks → u.Landed →
    u.stackMap.Ready (Mark.words (front ++ [m])) b → S.Admits u.stackMap (Mark.words front) m.pending) :
    u.Flows S [m] m.pending b := by
  intro front back hall hend
  have hmark : u.marks = front ++ m :: back := by simpa using hall
  refine ⟨ready_mark hmark, fun landed => ⟨h front ?_ landed hend, trivial⟩⟩
  exact ⟨Mark.lines back, by simp [hmark]⟩

/-- A line that pushes a value. -/
theorem push {l : Line Label} {cell : Tagged} (hl : l.PushesCell cell) (constant : l.op.isPush)
    (hcell : S.Cell cell t) (ts : List Ty) : u.Flows S [⟨ts, l, none⟩] ts (ts ++ [t]) := by
  refine single fun front hall _ hend => ?_
  have hpush : u.code.Pushes (Mark.words front) l.op l.kind cell (Line.words (Mark.lines front ++ [l])) :=
    fun depth size cells o => hl depth size cells o hall
  rw [Mark.words, Mark.lines_append] at hend
  exact .push (Line.instr?_of_initial u.addressOf hall) constant hpush hcell hend

theorem int {v : Int32} (hcell : S.Cell (.int v) t) (ts : List Ty) :
    u.Flows S [⟨ts, .pushInt v, none⟩] ts (ts ++ [t]) :=
  push (Line.pushesCell_pushInt v) (Line.isPush_pushInt v) hcell ts

theorem float {bits : UInt64} (ht : t.kind = .float) (ts : List Ty) :
    u.Flows S [⟨ts, .pushFloat bits, none⟩] ts (ts ++ [t]) :=
  push (Line.pushesCell_pushFloat bits) (Line.isPush_pushFloat bits)
    (.of_kind (Kind.ofTy_eq_float.2 ht).symm (by simp [ht])) ts

theorem load (hv : v.Sits S u.frame) (ts : List Ty) :
    u.Flows S [⟨ts, .indexed v.loadCode v.kind v.index, none⟩] ts (ts ++ [v.type]) := by
  refine single fun front hall _ hend => ?_
  have fetch := Line.instr?_of_initial u.addressOf hall
  obtain ⟨i, operand, hi⟩ := Line.int?_indexed u.addressOf hall hv.nonneg hv.lt
  have hindex : i.toInt = v.index.toNat := by rw [hi, Int.toNat_of_nonneg hv.nonneg]
  have found := hv.found
  rw [words_snoc] at hend
  cases hg : v.isGlobal with
  | true =>
    rw [Line.indexed, Variable.loadCode, if_pos hg] at fetch
    rw [if_pos hg] at found
    exact .loadGlobal fetch operand hindex found hend
  | false =>
    rw [Line.indexed, Variable.loadCode, if_neg (by simp [hg])] at fetch
    rw [if_neg (by simp [hg])] at found
    exact .loadLocal fetch operand hindex found hend

theorem store (hv : v.Sits S u.frame) : u.Flows S [.store v] [v.type] [] := by
  refine single fun front hall _ hend => ?_
  have fetch := Line.instr?_of_initial u.addressOf hall
  obtain ⟨i, operand, hi⟩ := Line.int?_indexed u.addressOf hall hv.nonneg hv.lt
  have hindex : i.toInt = v.index.toNat := by rw [hi, Int.toNat_of_nonneg hv.nonneg]
  have found := hv.found
  have hpending : (Mark.store v).pending = [] ++ [v.type] := rfl
  rw [words_snoc] at hend
  rw [hpending]
  cases hg : v.isGlobal with
  | true =>
    rw [Mark.store, Line.indexed, Variable.storeCode, if_pos hg] at fetch
    rw [if_pos hg] at found
    exact .storeGlobal fetch operand hindex found hend
  | false =>
    rw [Mark.store, Line.indexed, Variable.storeCode, if_neg (by simp [hg])] at fetch
    rw [if_neg (by simp [hg])] at found
    exact .storeLocal fetch operand hindex found hend

/-- An operation on the topmost value. -/
theorem unary {op : UnaryCode} {k : Kind} (hk : k = Kind.ofTy s) (exists_ : op.kinds.contains k)
    (kind : Kind.ofTy t = op.resultKind k) (plain : t.kind ≠ .function) (ts : List Ty) :
    u.Flows S [⟨ts ++ [s], ⟨.unary op, k, []⟩, none⟩] (ts ++ [s]) (ts ++ [t]) := by
  subst hk
  refine single fun front hall _ hend => ?_
  rw [words_snoc] at hend
  exact .unary (Line.instr?_of_initial u.addressOf hall) exists_ kind plain hend

/-- An operation on the two topmost values. -/
theorem binary {op : BinaryCode} (exists_ : op.kinds.contains (Kind.ofTy s))
    (kind : Kind.ofTy t = op.resultKind (Kind.ofTy s)) (plain : t.kind ≠ .function) (ts : List Ty) :
    u.Flows S [⟨ts ++ [s] ++ [s], ⟨.binary op, Kind.ofTy s, []⟩, none⟩] (ts ++ [s] ++ [s]) (ts ++ [t]) := by
  refine single fun front hall _ hend => ?_
  rw [words_snoc] at hend
  exact .binary (Line.instr?_of_initial u.addressOf hall) exists_ kind plain hend

theorem select {c : Ty} (cond : Kind.ofTy c = .int) (ts : List Ty) :
    u.Flows S [⟨ts ++ [c] ++ [t] ++ [t], ⟨.select, Kind.ofTy t, []⟩, none⟩] (ts ++ [c] ++ [t] ++ [t])
      (ts ++ [t]) := by
  refine single fun front hall _ hend => ?_
  rw [words_snoc] at hend
  exact .select (Line.instr?_of_initial u.addressOf hall) cond hend

/-- A value is brought to a type that it can stand for. -/
theorem widening (h : s.Passes t ∨ widens s t) (hms : u.Flows S ms a (ts ++ [s])) :
    u.Flows S (ms ++ Mark.raise ts (Mark.widening s t)) a (ts ++ [t]) := by
  unfold Mark.widening
  split
  · next hw =>
    have hkinds : t.kind = .float ∧ s.kind = .int := by simpa [widens] using hw
    have hs : Kind.int = Kind.ofTy s := by rw [Kind.ofTy, hkinds.2]; rfl
    refine hms.append (unary hs rfl ?_ ?_ ts)
    · rw [Kind.ofTy, hkinds.1]
      rfl
    · simp [hkinds.1]
  · next hw =>
    rw [Mark.raise_nil, List.append_nil]
    exact hms.pass_last (h.resolve_right hw)

/-- The arguments of a direct call are replaced by the result. -/
theorem call {r : Routine} {index : Int} (found : at? S.exe.routines index = some r) (lt : index < operandLimit)
    (type : r.type = .function id out ins) (ts : List Ty) :
    u.Flows S [⟨ts ++ ins, .indexed .call .none index, none⟩] (ts ++ ins) (ts ++ [out]) := by
  refine single fun front hall _ hend => ?_
  obtain ⟨n, hn, -⟩ := Machine.exists_of_at? found
  obtain ⟨i, operand, hi⟩ := Line.int?_indexed u.addressOf hall (by omega) lt
  rw [words_snoc] at hend
  exact .call (Line.instr?_of_initial u.addressOf hall) operand (hi ▸ found) type hend

/-- The arguments of a call and the function are replaced by the result. -/
theorem callR (e : Option Expr) (ts : List Ty) :
    u.Flows S [⟨ts ++ ins ++ [.function id out ins], ⟨.callR, .none, []⟩, e⟩]
      (ts ++ ins ++ [.function id out ins]) (ts ++ [out]) := by
  refine single fun front hall _ hend => ?_
  rw [words_snoc] at hend
  exact .callR (Line.instr?_of_initial u.addressOf hall) hend

theorem pop : u.Flows S [⟨[t], ⟨.pop, .none, []⟩, none⟩] [t] [] := by
  refine single fun front hall _ hend => ?_
  have hpending : [t] = [] ++ [t] := rfl
  rw [words_snoc] at hend
  rw [hpending]
  exact .pop (Line.instr?_of_initial u.addressOf hall) hend

theorem halt : u.Flows S [⟨[], ⟨.halt, .none, []⟩, none⟩] [] [] :=
  single fun _ hall _ _ => .halt (Line.instr?_of_initial u.addressOf hall)

theorem ret (output : u.output = some out) (value : out.kind ≠ .void) :
    u.Flows S [⟨[out], ⟨.ret, Kind.ofTy out, []⟩, none⟩] [out] [] :=
  single fun _ hall _ _ => .ret (Line.instr?_of_initial u.addressOf hall) output
    fun hnone => value (Kind.ofTy_eq_none.1 hnone)

theorem retNothing (output : u.output = some out) (void : out.kind = .void) :
    u.Flows S [⟨[], ⟨.ret, .none, []⟩, none⟩] [] [] :=
  single fun _ hall _ _ => .retNothing (Line.instr?_of_initial u.addressOf hall) output
    (Kind.ofTy_eq_none.2 void)

theorem jump (hl : l ∈ u.labels) : u.Flows S [⟨[], ⟨.jump, .none, [.address l]⟩, none⟩] [] [] := by
  refine single fun front hall landed _ => ?_
  obtain ⟨small, ready⟩ := landed l hl
  obtain ⟨i, operand, hi⟩ := Line.int?_jump hall rfl small
  exact .jump (Line.instr?_of_initial u.addressOf hall) operand hi ready

theorem branch (which : op = .branchTrue ∨ op = .branchFalse) {c : Ty} (cond : c.kind = .boolean)
    (hl : l ∈ u.labels) : u.Flows S [⟨[c], ⟨op, .none, [.address l]⟩, none⟩] [c] [] := by
  refine single fun front hall landed hend => ?_
  obtain ⟨small, ready⟩ := landed l hl
  obtain ⟨i, operand, hi⟩ := Line.int?_jump hall rfl small
  have hc : Kind.ofTy c = .int := by rw [Kind.ofTy, cond]; rfl
  have hpending : [c] = [] ++ [c] := rfl
  rw [words_snoc] at hend
  rw [hpending]
  exact .branch which (Line.instr?_of_initial u.addressOf hall) operand hi hc ready hend

/-- The branch of a connective goes on with the second operand or to where the result is pushed;
behind the second operand a jump leads over that. -/
theorem connective {short : Int32} {r : Ty} (which : op = .branchTrue ∨ op = .branchFalse)
    (cond : Kind.ofTy s = .int) (hcell : S.Cell (.int short) r)
    (hshort : (Line.pushInt short : Line Label).args = []) (hpass : t.Passes r)
    (small : Mark.words u.marks < operandLimit) (hx : u.Flows S (Mark.raise ts xs) ts (ts ++ [s]))
    (hy : u.Flows S (Mark.raise ts ys) ts (ts ++ [t])) :
    u.Flows S (Mark.raise ts (Mark.connective op short s t xs ys)) ts (ts ++ [r]) := by
  let skip : Mark := ⟨ts ++ [s], ⟨op, .none, [.ahead (Mark.words ys + 2)]⟩, none⟩
  let jump : Mark := ⟨ts ++ [t], ⟨.jump, .none, [.ahead 1]⟩, none⟩
  let push : Mark := ⟨ts, .pushInt short, none⟩
  have hmarks : Mark.raise ts (Mark.connective op short s t xs ys) =
      Mark.raise ts xs ++ [skip] ++ Mark.raise ts ys ++ [jump] ++ [push] := by
    simp [Mark.connective, Mark.above, skip, jump, push]
  rw [hmarks]
  intro front back hall hend
  generalize hxs : Mark.raise ts xs = xs' at *
  have hwords : Mark.words (Mark.raise ts ys) = Mark.words ys := by
    rw [Mark.words, Mark.lines_raise, Mark.words]
  generalize hys : Mark.raise ts ys = ys' at *
  have hfirst : u.marks = (front ++ xs') ++ skip :: (ys' ++ [jump] ++ [push] ++ back) := by simp [hall]
  have hsecond : u.marks = (front ++ xs' ++ [skip]) ++ ys' ++ ([jump] ++ [push] ++ back) := by simp [hall]
  have hjump : u.marks = (front ++ xs' ++ [skip] ++ ys') ++ jump :: ([push] ++ back) := by simp [hall]
  have hpush : u.marks = (front ++ xs' ++ [skip] ++ ys' ++ [jump]) ++ [push] ++ back := by simp [hall]
  -- The positions of the result, and behind it.
  have htarget : Mark.words (front ++ xs' ++ [skip] ++ ys' ++ [jump]) =
      Mark.words (front ++ xs') + 1 + 1 + (Mark.words ys + 2) := by
    rw [words_snoc, Mark.words_append _ ys', hwords, words_snoc]
    simp only [skip, jump, List.length_singleton]
    omega
  have hover : Mark.words (front ++ xs' ++ [skip] ++ ys' ++ [jump] ++ [push]) =
      Mark.words (front ++ xs' ++ [skip] ++ ys') + 1 + 1 + 1 := by
    rw [words_snoc, words_snoc]
    simp only [push, jump, hshort, List.length_singleton, List.length_nil]
  have hlast : Mark.words (front ++ xs' ++ [skip] ++ ys' ++ [jump] ++ [push]) =
      Mark.words (front ++ xs' ++ [skip] ++ ys' ++ [jump]) + (1 + push.line.args.length) := words_snoc
  have hwithin : Mark.words (front ++ xs' ++ [skip] ++ ys' ++ [jump] ++ [push]) ≤ Mark.words u.marks := by
    rw [hpush, Mark.words_append _ back]
    exact Nat.le_add_right _ _
  have hend' : u.stackMap.Ready (Mark.words (front ++ xs' ++ [skip] ++ ys' ++ [jump] ++ [push]))
      (ts ++ [r]) := by simpa using hend
  obtain ⟨hresult, hadmitPush⟩ := Flows.int hcell ts _ back hpush hend'
  obtain ⟨hright, hadmitRight⟩ := hy _ _ hsecond (ready_mark hjump)
  obtain ⟨hstart, hadmitLeft⟩ := hx front _ hfirst (ready_mark hfirst)
  have hadmitOver : S.Admits u.stackMap (Mark.words (front ++ xs')) skip.pending := by
    have hinitial : Mark.lines (front ++ xs') ++ [skip.line] <+: Mark.lines u.marks :=
      ⟨Mark.lines (ys' ++ [jump] ++ [push] ++ back), by simp [hfirst]⟩
    obtain ⟨i, operand, hi⟩ := Line.int?_jump hinitial rfl (by omega :
      Mark.words (front ++ xs') + 1 + 1 + (Mark.words ys + 2) < operandLimit)
    rw [htarget] at hresult
    rw [words_snoc] at hright
    exact .branch which (Line.instr?_of_initial u.addressOf hinitial) operand hi cond hresult hright
  have hadmitJump : S.Admits u.stackMap (Mark.words (front ++ xs' ++ [skip] ++ ys')) jump.pending := by
    have hinitial : Mark.lines (front ++ xs' ++ [skip] ++ ys') ++ [jump.line] <+: Mark.lines u.marks :=
      ⟨Mark.lines ([push] ++ back), by simp [hjump]⟩
    obtain ⟨i, operand, hi⟩ := Line.int?_jump hinitial rfl (by omega :
      Mark.words (front ++ xs' ++ [skip] ++ ys') + 1 + 1 + 1 < operandLimit)
    rw [hover] at hend'
    exact .jump (Line.instr?_of_initial u.addressOf hinitial) operand hi (hend'.last hpass)
  refine ⟨hstart, fun landed => ?_⟩
  simp only [admit_append, ← Mark.words_append, ← List.append_assoc]
  exact ⟨⟨⟨⟨hadmitLeft landed, hadmitOver, trivial⟩, hadmitRight landed⟩, hadmitJump, trivial⟩,
    hadmitPush landed⟩

end Flows

end Listing

/-! ### Types that pass -/

/-- Types that are told apart by their numbers, with the parts of function types and the
primitives of a table among them. -/
structure TyTable.Governs (T : Ty → Prop) (tt : TyTable) : Prop where
  distinct : Ty.Distinct T
  proper : tt.Proper
  prims : ∀ q, T (tt.prim q)
  output : ∀ {id out ins}, T (.function id out ins) → T out
  inputs : ∀ {id out ins}, T (.function id out ins) → ∀ t ∈ ins, T t

theorem BinaryCode.resultKind_eq (op : BinaryCode) (k : Kind) :
    op.resultKind k = if op.compares then .int else k := by
  cases op <;> rfl

namespace TyTable.Governs

variable {T : Ty → Prop} {tt : TyTable} {x y : Ty}

/-- What can be assigned to a type passes for it, or is widened. -/
theorem passes_of_assignable (h : tt.Governs T) (hx : T x) (hy : T y) (fits : assignable y x) :
    x.Passes y ∨ widens x y := by
  rcases Bool.or_eq_true_iff.1 fits with hsame | hw
  · exact .inl (h.distinct.eq_of_same hy hx hsame ▸ .refl _)
  · exact .inr hw

variable {t : BinaryTyping}

variable {op : BinaryOp}

/-- Only equality works on functions, and then on two of one type. -/
theorem operand_of_function (h : tt.Governs T) (hx : T x) (hy : T y) (ht : binaryType tt op x y = some t)
    (hf : t.operand.kind = .function) : x = t.operand ∧ y = t.operand := by
  cases op with
  | logAnd | logOr =>
    simp only [binaryType] at ht
    split at ht <;> cases ht
    simp_all
  | plain op =>
    have hcases := result_of_binaryType h.proper ht
    cases op with
    | eq | ne =>
      simp only [binaryType] at ht
      split at ht
      · next u hu =>
        cases ht
        have := isNumeric_of_numericType h.proper hu
        simp_all [Ty.isNumeric_iff]
      · split at ht <;> cases ht
        next hk =>
          simp only [Bool.and_eq_true] at hk
          exact ⟨rfl, (h.distinct.eq_of_same hx hy hk.1).symm⟩
    | lt | le | gt | ge =>
      obtain ⟨u, hu, rfl⟩ := Option.map_eq_some_iff.1 ht
      have := isNumeric_of_numericType h.proper hu
      simp_all [Ty.isNumeric_iff]
    | _ => simp_all [Ty.isNumeric_iff, BinaryCode.compares]

/-- Both operands pass for the type that they are brought to, or are widened. -/
theorem passes_of_binaryType (h : tt.Governs T) (hx : T x) (hy : T y) (ht : binaryType tt op x y = some t) :
    (x.Passes t.operand ∨ widens x t.operand) ∧ (y.Passes t.operand ∨ widens y t.operand) := by
  obtain ⟨hax, hay⟩ := agrees_of_binaryType h.distinct h.proper hx hy ht
  by_cases hf : t.operand.kind = .function
  · obtain ⟨hxt, hyt⟩ := h.operand_of_function hx hy ht hf
    rw [hxt, hyt]
    exact ⟨.inl (.refl _), .inl (.refl _)⟩
  · exact ⟨hax.imp_left (.of_kind · hf), hay.imp_left (.of_kind · hf)⟩

theorem passes_of_unify (h : tt.Governs T) (hx : T x) (hy : T y) {t : Ty} (ht : unify tt x y = some t) :
    (x.Passes t ∨ widens x t) ∧ (y.Passes t ∨ widens y t) := by
  obtain ⟨hax, hay⟩ := agrees_of_unify h.distinct h.proper hx hy ht
  unfold unify at ht
  split at ht
  · next hsame =>
    cases ht
    rw [← h.distinct.eq_of_same hx hy hsame]
    exact ⟨.inl (.refl _), .inl (.refl _)⟩
  · split at ht <;> cases ht
    have hf : tt.float.kind ≠ .function := by simp [h.proper.float]
    exact ⟨hax.imp_left (.of_kind · hf), hay.imp_left (.of_kind · hf)⟩

/-- The result of an infix operation is written as its type says. -/
theorem result_of_binary (h : tt.Governs T) {op : BinaryCode} (ht : binaryType tt (.plain op) x y = some t) :
    Kind.ofTy t.result = op.resultKind (Kind.ofTy t.operand) ∧ t.result.kind ≠ .function := by
  rcases result_of_binaryType h.proper ht with ⟨hop, hresult⟩ | ⟨hop, hresult, hkind⟩
  · rw [hresult, op.resultKind_eq, if_pos hop, Kind.ofTy, h.proper.boolean]
    exact ⟨rfl, by simp⟩
  · rw [hresult, op.resultKind_eq, if_neg (by simp [hop])]
    refine ⟨rfl, fun hf => ?_⟩
    simp [Ty.isNumeric_iff, hf] at hkind

/-- The result of a unary operator is written as its type says. -/
theorem result_of_unary (h : tt.Governs T) {op : UnaryOp} {t : Ty} (ht : unaryType tt op x = some t) :
    t.kind ≠ .function ∧ (op.code? x = none → Kind.ofTy x = Kind.ofTy t) ∧
      ∀ code, op.code? x = some code →
        code.kinds.contains (Kind.ofTy x) ∧ Kind.ofTy t = code.resultKind (Kind.ofTy x) := by
  have hboolean := h.proper.boolean
  have hint := h.proper.int
  have hfloat := h.proper.float
  unfold unaryType at ht
  cases op <;> cases hk : x.kind <;> rw [hk] at ht <;> cases ht <;>
    simp [UnaryOp.code?, Kind.ofTy, hk, hboolean, hint, hfloat, Kind.ofTyKind, Kind.int, Kind.float,
      UnaryCode.kinds, UnaryCode.resultKind]

end TyTable.Governs

/-- A reference to what has its place in the program, and the type it is known by there. -/
def Ref.Sits (S : Stage) (T : Ty → Prop) (frame : List Ty) : Ref → Prop
  | read v | write v => T v.type ∧ v.Sits S frame
  | func f | call f => T f.type ∧ f.index < operandLimit ∧ f.type.kind = .function ∧
    ∃ r, at? S.exe.routines f.index = some r ∧ r.type = f.type
  | const c => T c.type ∧ c.type.kind.Holds c.value
  | text _ => True

namespace Listing.Flows

variable {u : Listing} {S : Stage} {T : Ty → Prop} {ctx : Context} {a : List Ty}

theorem unaryOp (governs : ctx.table.Governs T) {op : UnaryOp} {s t : Ty}
    (ht : unaryType ctx.table op s = some t) {ms : List Mark} {ts : List Ty}
    (hms : u.Flows S ms a (ts ++ [s])) :
    u.Flows S (ms ++ Mark.raise ts (Mark.unary op s)) a (ts ++ [t]) := by
  obtain ⟨plain, hnone, hsome⟩ := governs.result_of_unary ht
  unfold Mark.unary
  split
  · next code hcode =>
    obtain ⟨exists_, kind⟩ := hsome code hcode
    exact hms.append (unary rfl exists_ kind plain ts)
  · next hcode =>
    rw [Mark.raise_nil, List.append_nil]
    exact hms.pass_last ⟨hnone hcode, fun hf => absurd hf plain⟩

/-- The line of a constant. -/
theorem constant {c : Constant} (h : c.type.kind.Holds c.value) (ts : List Ty) :
    u.Flows S [(Mark.constant c).above ts] ts (ts ++ [c.type]) := by
  have habove : (Mark.constant c).above ts = ⟨ts, (Mark.constant c).line, none⟩ := by
    simp [Mark.constant, Mark.above]
  have plain : c.type.kind ≠ .function := fun hf => by rw [hf] at h; exact h
  rw [habove]
  unfold Mark.constant
  split
  · next hfloat => exact float (Kind.ofTy_eq_float.1 hfloat) ts
  · next hfloat =>
    have hint : Kind.ofTy c.type = .int := h.ofTyKind_eq.resolve_right hfloat
    exact int (.of_kind hint.symm plain) ts

end Listing.Flows

end Stackwork
