import Stackwork.Proofs.Ty.Registration

/-!
# Facts about the type rules

The rules compare types by their registration numbers. Among types that these numbers tell
apart, whatever a rule accepts in the place of a type is of the same sort or an integer that
becomes a float, and the result of an operation has the kind that the machine gives it.
-/
namespace Stackwork

namespace Ty

/-- Types that are told apart by their numbers. -/
def Distinct (T : Ty → Prop) : Prop := ∀ ⦃s t⦄, T s → T t → s.id = t.id → s = t

/-- A value of type `s` can stand for one of type `t`, as it is or widened. -/
def Agrees (s t : Ty) : Prop := s.kind = t.kind ∨ widens s t

theorem Agrees.refl (t : Ty) : t.Agrees t := .inl rfl

theorem isNumeric_iff {t : Ty} : t.isNumeric ↔ t.kind = .int ∨ t.kind = .float := by
  simp [isNumeric]

namespace Distinct

variable {T : Ty → Prop} {s t : Ty}

theorem eq_of_same (distinct : Distinct T) (hs : T s) (ht : T t) (h : s.same t) : s = t :=
  distinct hs ht (by simpa [same] using h)

theorem agrees_of_assignable (distinct : Distinct T) (hs : T s) (ht : T t) (h : assignable t s) :
    s.Agrees t := by
  rcases Bool.or_eq_true_iff.1 h with h | h
  · exact .inl (by rw [distinct.eq_of_same ht hs h])
  · exact .inr h

end Distinct
end Ty

section

variable {T : Ty → Prop} {tt : TyTable} {x y : Ty}

variable {t : Ty} {op : BinaryOp}

/-- Two numbers agree with the type in which they are combined. -/
theorem agrees_of_numericType (proper : tt.Proper) (h : numericType tt x y = some t) :
    x.Agrees t ∧ y.Agrees t := by
  unfold numericType at h
  split at h
  · next hnum =>
    simp only [Bool.and_eq_true, Ty.isNumeric_iff] at hnum
    cases h
    have hint := proper.int
    have hfloat := proper.float
    rcases hnum with ⟨hx | hx, hy | hy⟩ <;> simp [Ty.Agrees, widens, hx, hy, hint, hfloat]
  · cases h

theorem isNumeric_of_numericType (proper : tt.Proper) (h : numericType tt x y = some t) : t.isNumeric := by
  unfold numericType at h
  split at h
  · cases h
    rw [Ty.isNumeric_iff]
    split
    · exact .inr proper.float
    · exact .inl proper.int
  · cases h

/-- Both operands agree with the type they are brought to. -/
theorem agrees_of_binaryType (distinct : Ty.Distinct T) (proper : tt.Proper) (hx : T x) (hy : T y)
    {t : BinaryTyping} (h : binaryType tt op x y = some t) : x.Agrees t.operand ∧ y.Agrees t.operand := by
  have numeric {f : Ty → BinaryTyping} (hf : ∀ u, (f u).operand = u)
      (h : (numericType tt x y).map f = some t) : x.Agrees t.operand ∧ y.Agrees t.operand := by
    obtain ⟨u, hu, rfl⟩ := Option.map_eq_some_iff.1 h
    rw [hf]
    exact agrees_of_numericType proper hu
  have sort {k : TyKind} (h : (if x.kind = k && y.kind = k then some (⟨x, x⟩ : BinaryTyping) else none) =
      some t) : x.Agrees t.operand ∧ y.Agrees t.operand := by
    split at h
    · next hk =>
      cases h
      simp only [Bool.and_eq_true, decide_eq_true_eq] at hk
      exact ⟨.refl x, .inl (hk.2.trans hk.1.symm)⟩
    · cases h
  have one {b : Bool} {r : Ty} (h : (if x.same y && b then some (⟨r, x⟩ : BinaryTyping) else none) = some t) :
      x.Agrees t.operand ∧ y.Agrees t.operand := by
    split at h
    · next hk =>
      cases h
      simp only [Bool.and_eq_true] at hk
      rw [← distinct.eq_of_same hx hy hk.1]
      exact ⟨.refl x, .refl x⟩
    · cases h
  cases op with
  | logAnd | logOr => exact sort h
  | plain op =>
    cases op with
    | add | sub | mul | div | lt | le | gt | ge => exact numeric (fun _ => rfl) h
    | mod | shl | shr => exact sort h
    | and | or | xor => exact one h
    | eq | ne =>
      simp only [binaryType] at h
      split at h
      · next u hu =>
        cases h
        exact agrees_of_numericType proper hu
      · exact one h

/-- Both branches of a conditional agree with their common type. -/
theorem agrees_of_unify (distinct : Ty.Distinct T) (proper : tt.Proper) (hx : T x) (hy : T y)
    (h : unify tt x y = some t) : x.Agrees t ∧ y.Agrees t := by
  unfold unify at h
  split at h
  · next hsame =>
    cases h
    rw [← distinct.eq_of_same hx hy hsame]
    exact ⟨.refl x, .refl x⟩
  · split at h
    · next hnum =>
      cases h
      simp only [Bool.and_eq_true, Ty.isNumeric_iff] at hnum
      have hfloat := proper.float
      rcases hnum with ⟨hx | hx, hy | hy⟩ <;> simp [Ty.Agrees, widens, hx, hy, hfloat]
    · cases h

section

variable (prims : ∀ p, T (tt.prim p))
include prims

/-- The rules lead to operand types and to primitives of the table. -/
theorem known_of_unaryType {op : UnaryOp} (hx : T x) (h : unaryType tt op x = some t) : T t := by
  unfold unaryType at h
  split at h <;> cases h <;> first | exact hx | exact prims .boolean | exact prims .int | exact prims .float

theorem known_of_numericType (h : numericType tt x y = some t) : T t := by
  unfold numericType at h
  split at h <;> cases h
  split
  · exact prims .float
  · exact prims .int

theorem known_of_binaryType (hx : T x) {t : BinaryTyping}
    (h : binaryType tt op x y = some t) : T t.result := by
  cases op with
  | logAnd | logOr =>
    simp only [binaryType] at h
    split at h <;> cases h
    exact hx
  | plain op =>
    cases op with
    | add | sub | mul | div =>
      obtain ⟨u, hu, rfl⟩ := Option.map_eq_some_iff.1 h
      exact known_of_numericType prims hu
    | mod | shl | shr | and | or | xor =>
      simp only [binaryType] at h
      split at h <;> cases h
      exact hx
    | lt | le | gt | ge =>
      obtain ⟨u, -, rfl⟩ := Option.map_eq_some_iff.1 h
      exact prims .boolean
    | eq | ne =>
      simp only [binaryType] at h
      split at h
      · cases h
        exact prims .boolean
      · split at h <;> cases h
        exact prims .boolean

theorem known_of_unify (hx : T x) (h : unify tt x y = some t) : T t := by
  unfold unify at h
  split at h
  · cases h
    exact hx
  · split at h <;> cases h
    exact prims .float

end

end

variable {tt : TyTable} {x y : Ty} {t : BinaryTyping}

/-- Connectives work on truth values. -/
theorem boolean_of_connective {op : BinaryOp} (hop : op = .logAnd ∨ op = .logOr)
    (h : binaryType tt op x y = some t) : x.kind = .boolean ∧ y.kind = .boolean ∧ t = ⟨x, x⟩ := by
  rcases hop with rfl | rfl <;> simp only [binaryType] at h <;> split at h <;> cases h <;> simp_all

/-- Operations that give a truth value. -/
def BinaryCode.compares : BinaryCode → Bool
  | eq | ne | lt | le | gt | ge => true
  | _ => false

/-- Comparisons give truth values; other operations give what they work on, which is a number
or, for operations on bits, a truth value. -/
theorem result_of_binaryType (proper : tt.Proper) {op : BinaryCode}
    (h : binaryType tt (.plain op) x y = some t) : op.compares ∧ t.result = tt.boolean ∨
      op.compares = false ∧ t.result = t.operand ∧ (t.operand.isNumeric ∨
        t.operand.kind = .boolean ∧ (op = .and ∨ op = .or ∨ op = .xor)) := by
  have numeric (h : (numericType tt x y).map (fun t => ⟨t, t⟩) = some t) :
      t.result = t.operand ∧ t.operand.isNumeric := by
    obtain ⟨u, hu, rfl⟩ := Option.map_eq_some_iff.1 h
    exact ⟨rfl, isNumeric_of_numericType proper hu⟩
  have whole (h : (if x.kind = .int && y.kind = .int then some (⟨x, x⟩ : BinaryTyping) else none) =
      some t) : t.result = t.operand ∧ t.operand.isNumeric := by
    split at h <;> cases h
    next hk => exact ⟨rfl, Ty.isNumeric_iff.2 (.inl (by simp_all))⟩
  have bits (h : (if x.same y && (x.kind = .int || x.kind = .boolean) then
      some (⟨x, x⟩ : BinaryTyping) else none) = some t) :
      t.result = t.operand ∧ (t.operand.isNumeric ∨ t.operand.kind = .boolean) := by
    split at h <;> cases h
    next hk =>
      simp only [Bool.and_eq_true, Bool.or_eq_true, decide_eq_true_eq] at hk
      exact ⟨rfl, hk.2.imp_left fun hk => Ty.isNumeric_iff.2 (.inl hk)⟩
  cases op with
  | add | sub | mul | div => exact .inr ⟨rfl, (numeric h).1, .inl (numeric h).2⟩
  | mod | shl | shr => exact .inr ⟨rfl, (whole h).1, .inl (whole h).2⟩
  | and | or | xor => exact .inr ⟨rfl, (bits h).1, (bits h).2.imp_right fun hk => ⟨hk, by simp⟩⟩
  | lt | le | gt | ge =>
    obtain ⟨u, -, rfl⟩ := Option.map_eq_some_iff.1 h
    exact .inl ⟨rfl, rfl⟩
  | eq | ne =>
    simp only [binaryType] at h
    split at h
    · cases h
      exact .inl ⟨rfl, rfl⟩
    · split at h <;> cases h
      exact .inl ⟨rfl, rfl⟩

end Stackwork
