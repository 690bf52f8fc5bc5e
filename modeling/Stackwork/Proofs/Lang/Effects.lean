import Stackwork.Proofs.Lang.Carrying

/-!
# What lines do to cells

The effect of each line of generated code on the cells of a stack with their kinds. The
machine may be tagged or not: a line reads its operands as the kinds that the lines before it
have written, so the only thing that it may lack is room for one more cell.
-/
namespace Stackwork

open Op (Takes)
open Machine (Tops execute)

/-- The kind of what an operation makes of a value of kind `k`. -/
def UnaryCode.resultKind (k : Kind) : UnaryCode → Kind
  | minus | inc | dec | not => k
  | logNot | toBool | toInt => .int
  | toFloat => .float

/-- The kind of what an operation makes of two values of kind `k`. -/
def BinaryCode.resultKind (k : Kind) : BinaryCode → Kind
  | add | sub | mul | div | mod | shl | shr | and | or | xor => k
  | eq | ne | lt | le | gt | ge => .int

variable {k : Kind}

variable {op : UnaryCode}

theorem UnaryCode.number_of_kinds (hk : op.kinds.contains k) : k = .int ∨ k = .float := by
  cases op <;> simp [kinds] at hk <;> simp [hk]

/-- An operation that exists for a kind is defined on every value. -/
theorem UnaryCode.exists_on? (hk : op.kinds.contains k) (x : Slot) :
    ∃ v, op.on? k x = some ⟨v, op.resultKind k⟩ := by
  rcases number_of_kinds hk with rfl | rfl
  · cases op with
    | toInt => cases hk
    | _ => exact ⟨_, rfl⟩
  · cases op with
    | minus | toBool | toInt => exact ⟨_, rfl⟩
    | _ => cases hk

theorem BinaryCode.value_of_kinds {op : BinaryCode} (hk : op.kinds.contains k) :
    k = .int ∨ k = .float ∨ k = .obj := by
  cases op <;> simp [kinds] at hk <;> grind

/-- An operation that exists for a kind is defined on two values, unless it divides by zero. -/
theorem BinaryCode.exists_on? {op : BinaryCode} (hk : op.kinds.contains k) (l r : Slot) :
    (∃ v, op.on? k l r = some ⟨v, op.resultKind k⟩) ∨
      (op = .div ∨ op = .mod) ∧ k = .int ∧ r.toInt = 0 := by
  rcases value_of_kinds hk with rfl | rfl | rfl
  · cases op with
    | div | mod =>
      by_cases hr : r.toInt = 0
      · exact .inr ⟨by simp, rfl, hr⟩
      · exact .inl ⟨_, (if_pos rfl).trans (if_neg hr)⟩
    | _ => exact .inl ⟨_, rfl⟩
  · cases op with
    | mod | shl | shr | and | or | xor => cases hk
    | _ => exact .inl ⟨_, rfl⟩
  · cases op with
    | eq | ne => exact .inl ⟨_, rfl⟩
    | _ => cases hk

namespace Line

variable {addressOf : Label → Nat} {all front : List (Line Label)} {size depth : Nat}
  {cells : List Tagged} {o : Machine.Aside}

variable {k : Kind} {i : Item Label} {next : List (Line Label)}

variable {t : Tagged}

theorem effect_unary {op : UnaryCode} (hk : k = .int ∨ k = .float) {x : Slot} (h : op.on? k x = some t) :
    (⟨.unary op, k, []⟩ : Line Label).Effect addressOf all front depth size 0 (cells ++ [⟨x, k⟩]) o
      (front ++ [⟨.unary op, k, []⟩]) (cells ++ [t]) o := by
  exact (Machine.Cells.unary (by rcases hk with rfl | rfl <;> rfl) h).goto (by simp)

theorem effect_binary {op : BinaryCode} (hk : k = .int ∨ k = .float ∨ k = .obj) {l r : Slot}
    (h : op.on? k l r = some t) : (⟨.binary op, k, []⟩ : Line Label).Effect addressOf all front depth size 0
      (cells ++ [⟨l, k⟩] ++ [⟨r, k⟩]) o (front ++ [⟨.binary op, k, []⟩]) (cells ++ [t]) o := by
  exact (Machine.Cells.binary (by rcases hk with rfl | rfl | rfl <;> rfl) h).goto (by simp)

theorem effect_select (c a b : Slot) : (⟨.select, k, []⟩ : Line Label).Effect addressOf all front depth size 0
      (cells ++ [⟨c, .int⟩] ++ [⟨a, k⟩] ++ [⟨b, k⟩]) o (front ++ [⟨.select, k, []⟩])
      (cells ++ [⟨if c.toBool then a else b, k⟩]) o :=
  (Machine.Cells.select k c a b).goto (by simp)

end Line

/-- A dispatch loop works on the code of some lines, behind the lines `front`. -/
def Config.AtLine (addressOf : Label → Nat) (all front : List (Line Label)) (depth : Nat)
    (rest : List Task) (result : Slot) (size : Nat) (cells : List Tagged) (o : Machine.Aside)
    (c : Config) : Prop :=
  ∃ m, c = ⟨m, .loop (Line.code addressOf all) (Line.words front) depth :: rest, result⟩ ∧
    m.Tops size cells o

/-- A line leads to where its effect says. -/
theorem Line.Effect.leads {addressOf : Label → Nat} {all front next : List (Line Label)} {depth : Nat}
    {l : Line Label} {size level : Nat} {cells cells' : List Tagged} {o o' : Machine.Aside}
    (h : l.Effect addressOf all front depth size level cells o next cells' o')
    (hall : front ++ [l] <+: all) (running : o.halted = false) {rest : List Task} {result : Slot}
    {c : Config} (hc : c.AtLine addressOf all front depth rest result size cells o) :
    c.Leads size level (Config.AtLine addressOf all next depth rest result size cells' o') := by
  obtain ⟨m, rfl, hm⟩ := hc
  have hstep : Takes size level (Tops size cells o)
      (Machine.taskStep result (.loop (code addressOf all) (words front) depth)) fun p m =>
        p = ([.loop (code addressOf all) (words next) depth], result) ∧ m.Tops size cells' o' := by
    refine .get fun m h' => ?_
    rw [h'.halted_eq, running]
    exact (Machine.Cells.dispatch (instr?_of_initial addressOf hall) h).readThen
      (.pure fun m h => ⟨rfl, h⟩)
  exact .of_takes_eq hm hstep fun m' hm' => ⟨m', rfl, hm'⟩

end Stackwork
