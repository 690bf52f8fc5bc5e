import Stackwork.Proofs.Lang.Operands

/-!
# Certified units

The stack map of a whole unit. Statements start and end with nothing pending, so nothing is
pending where a label stands, and a jump may come from anywhere. A function ends with a return
of its own; only the top level of a program can be run to its end.
-/
namespace Stackwork

open List Listing
open Mark (words)
open Kind (ofTy)

open Machine (at?)

variable {u : Listing} {S : Stage} {T : Ty → Prop} {ctx : Context}

/-- The expressions of a statement. -/
def Stmt.stretches (tt : TyTable) (handle : String → UInt64) : Stmt → List Stretch
  | .store _ e | .eval e | .ret (some e) | .branchTrue e _ | .branchFalse e _ => e.stretches tt handle
  | .combine v op e => (Expr.binary op (.var v) e).stretches tt handle
  | .missing | .place _ | .increment _ | .decrement _ | .ret none | .jump _ | .halt => []

/-- The expressions of some statements. -/
def stretchesOf (tt : TyTable) (handle : String → UInt64) (output : Option Ty) : List Stmt → List Stretch
  | [] => []
  | s :: ss => s.stretches tt handle ++
    Stretch.move (Mark.words (s.marks tt handle output)) [] (stretchesOf tt handle output ss)

/-- The expressions of a unit. -/
def Body.stretches (b : Body) : List Stretch := stretchesOf b.table b.literal b.output b.stmts

variable {e : Expr} {x : Typed} {t : Ty} {stmts : List Stmt} {commands : List Command} {front : List Mark}

theorem Expr.bears_stretches (governs : ctx.table.Governs T) (small : words u.marks < operandLimit)
    (handle : String → UInt64) (checked : e.check ctx = .ok x) (sits : ∀ r ∈ e.refs, r.Sits S T u.frame) :
    T x.type ∧ u.Bears S (e.marks ctx.table handle) (e.stretches ctx.table handle) [] [x.type] := by
  obtain ⟨hT, hbears⟩ := e.bears governs small handle x checked sits
  have := (hbears []).whole (e.lines_marks handle x checked).1
  rw [Mark.raise_empty, Stretch.move_zero] at this
  exact ⟨hT, this⟩

/-- An expression that is brought to a type leaves one value of that type. -/
theorem Expr.bears_marksAs (governs : ctx.table.Governs T) (small : words u.marks < operandLimit)
    (handle : String → UInt64) (checked : e.check ctx = .ok x) (sits : ∀ r ∈ e.refs, r.Sits S T u.frame)
    (ht : T t) (fits : assignable t x.type) :
    u.Bears S (e.marksAs ctx.table handle t) (e.stretches ctx.table handle) [] [t] := by
  obtain ⟨hT, hbears⟩ := e.bears_stretches governs small handle checked sits
  have hvalue : u.Bears S (e.marks ctx.table handle) _ [] ([] ++ [x.type]) := hbears
  have := hvalue.widening (governs.passes_of_assignable hT ht fits)
  rwa [Mark.raise_empty, (e.lines_marks handle x checked).1] at this

/-- A variable that moves by one. -/
theorem Listing.Flows.step {v : Variable} (hv : v.Sits S u.frame) {onInt : UnaryCode} {onFloat : BinaryCode}
    (hint : onInt = .inc ∨ onInt = .dec) (hfloat : onFloat = .add ∨ onFloat = .sub)
    (kind : v.type.kind = .int ∨ v.type.kind = .float) : u.Flows S (Mark.step v onInt onFloat) [] [] := by
  have hload : u.Flows S [Mark.load v] [] [v.type] := .load hv []
  have hplain : v.type.kind ≠ .function := by rcases kind with hk | hk <;> simp [hk]
  have hstore : u.Flows S [Mark.store v] [v.type] [] := .store hv
  unfold Mark.step
  split
  · next hk =>
    have hkind : ofTy v.type = .int := by rw [ofTy, hk]; rfl
    have hop : u.Flows S [⟨[v.type], ⟨.unary onInt, v.kind, []⟩, none⟩] [v.type] [v.type] := by
      refine .unary rfl ?_ ?_ hplain []
      · rcases hint with rfl | rfl <;> simp [hkind, UnaryCode.kinds]
      · rcases hint with rfl | rfl <;> rfl
    exact (hload.append hop).append hstore
  · next hk =>
    have hk := kind.resolve_left hk
    have hkind : ofTy v.type = .float := by rw [ofTy, hk]; rfl
    have hone : u.Flows S [⟨[v.type], .pushFloat 0x3ff0000000000000, none⟩] [v.type]
        [v.type, v.type] := .float hk [v.type]
    have hop : u.Flows S [⟨[v.type, v.type], ⟨.binary onFloat, v.kind, []⟩, none⟩] [v.type, v.type]
        [v.type] := by
      refine .binary ?_ ?_ hplain []
      · rcases hfloat with rfl | rfl <;> simp [hkind, BinaryCode.kinds]
      · rcases hfloat with rfl | rfl <;> rfl
    exact ((hload.append hone).append hop).append hstore

/-- The lines of a checked statement leave nothing. -/
theorem Stmt.Checks.bears (governs : ctx.table.Governs T) (small : words u.marks < operandLimit)
    (handle : String → UInt64) (output : u.output = ctx.output) (known : ∀ t ∈ ctx.output, T t) {s : Stmt}
    {c : Command} (h : s.Checks ctx c) (sits : ∀ r ∈ s.refs, r.Sits S T u.frame)
    (labels : ∀ l, c.label? = some l → l ∈ u.labels) :
    u.Bears S (s.marks ctx.table handle ctx.output) (s.stretches ctx.table handle) [] [] := by
  cases h with
  | @assign s v e x shape _ checked fits =>
    have hassign (hrefs : s.refs = e.refs ++ [.write v]) :
        u.Bears S (e.marksAs ctx.table handle v.type ++ [.store v]) (e.stretches ctx.table handle) [] [] := by
      rw [hrefs] at sits
      obtain ⟨sitsValue, sitsWrite⟩ := forall_mem_append.1 sits
      obtain ⟨hT, hv⟩ := sitsWrite (.write v) (mem_singleton.2 rfl)
      exact (e.bears_marksAs governs small handle checked sitsValue hT fits).append_flows (.store hv)
    cases s with
    | store | combine =>
      cases shape
      exact hassign rfl
    | _ => cases shape
  | @stepInt s v onInt onFloat shape _ kind | @stepFloat s v onInt onFloat shape _ kind =>
    cases s with
    | increment | decrement =>
      cases shape
      obtain ⟨-, hv⟩ := sits (.read v) (mem_cons_self ..)
      exact (Listing.Flows.step hv (by simp) (by simp) (by simp [kind])).bears
    | _ => cases shape
  | @eval e x checked =>
    rw [marks, ← (e.lines_marks handle x checked).1]
    exact (e.bears_stretches governs small handle checked sits).2.append_flows .pop
  | retTop htop =>
    rw [marks, htop]
    exact Listing.Flows.halt.bears
  | retVoid hout void =>
    rw [marks, hout]
    exact (Listing.Flows.retNothing (output.trans hout) void).bears
  | @retValue out e x hout value checked fits =>
    rw [marks, hout, Option.getD_some]
    exact (e.bears_marksAs governs small handle checked sits (known out hout) fits).append_flows
      (.ret (output.trans hout) value)
  | @jump l => exact (Listing.Flows.jump (labels l rfl)).bears
  | @branchTrue e l x checked cond =>
    rw [marks, ← (e.lines_marks handle x checked).1]
    exact (e.bears_stretches governs small handle checked sits).2.append_flows
      (.branch (.inl rfl) cond (labels l rfl))
  | @branchFalse e l x checked cond =>
    rw [marks, ← (e.lines_marks handle x checked).1]
    exact (e.bears_stretches governs small handle checked sits).2.append_flows
      (.branch (.inr rfl) cond (labels l rfl))
  | place => exact Listing.Flows.nil.bears
  | halt => exact Listing.Flows.halt.bears

/-- The lines of checked statements leave nothing. -/
theorem bears_stmts (governs : ctx.table.Governs T) (small : words u.marks < operandLimit)
    (handle : String → UInt64) (output : u.output = ctx.output) (known : ∀ t ∈ ctx.output, T t)
    (h : List.Forall₂ (Stmt.Checks ctx) stmts commands) (sits : ∀ s ∈ stmts, ∀ r ∈ s.refs, r.Sits S T u.frame)
    (labels : ∀ c ∈ commands, ∀ l, c.label? = some l → l ∈ u.labels) :
    u.Bears S (stmts.flatMap (·.marks ctx.table handle ctx.output))
      (stretchesOf ctx.table handle ctx.output stmts) [] [] := by
  induction h with
  | nil => exact Listing.Flows.nil.bears
  | cons hc _ ih =>
    obtain ⟨sits₁, sits₂⟩ := forall_mem_cons.1 sits
    obtain ⟨labels₁, labels₂⟩ := forall_mem_cons.1 labels
    rw [flatMap_cons]
    exact (hc.bears governs small handle output known sits₁ labels₁).append (ih sits₂ labels₂)

theorem lines_stmts (handle : String → UInt64) (h : List.Forall₂ (Stmt.Checks ctx) stmts commands) :
    Mark.lines (stmts.flatMap (·.marks ctx.table handle ctx.output)) = bodyLines handle commands := by
  induction h with
  | nil => rfl
  | cons hc _ ih =>
    rw [flatMap_cons, Mark.lines_append, hc.lines_marks, ih]
    rfl

/-- The line that pushes what a function returns by itself. -/
def Line.zero (k : Kind) : Line Label := ⟨if k = .obj then .pushNull else .pushZero, k, []⟩

theorem Line.pushesCell_zero (ht : ofTy t ≠ .none) :
    (zero (ofTy t)).PushesCell ⟨.zero, ofTy t⟩ ∧ (zero (ofTy t)).op.isPush := by
  rcases (Kind.ofTy_cases t).resolve_left ht with hk | hk | hk <;> rw [hk]
  · exact ⟨pushesCell_pushInt 0, rfl⟩
  · exact ⟨pushesCell_pushFloat 0, rfl⟩
  · exact ⟨pushesCell_pushObj 0, rfl⟩

/-- The end of a function: a value of zero is returned, if one has to be. -/
theorem admit_epilogue (hall : u.marks = front ++ Mark.epilogue u.output) (landed : u.Landed) :
    u.Admit S (words front) (Mark.epilogue u.output) := by
  cases hout : u.output with
  | none => trivial
  | some out =>
    rw [hout] at hall
    simp only [Mark.epilogue] at hall ⊢
    split
    · next void =>
      rw [if_pos void] at hall
      have hinitial : Mark.lines front ++ [⟨.ret, .none, []⟩] <+: Mark.lines u.marks := by simp [hall]
      exact ⟨.retNothing (Line.instr?_of_initial u.addressOf hinitial) hout (Kind.ofTy_eq_none.2 void),
        trivial⟩
    · next value =>
      rw [if_neg value] at hall
      have hnone : ofTy out ≠ .none := fun h => value (Kind.ofTy_eq_none.1 h)
      obtain ⟨hpush, constant⟩ := Line.pushesCell_zero hnone
      have hret : u.marks = (front ++ [⟨[], .zero (ofTy out), none⟩]) ++
          [⟨[out], ⟨.ret, ofTy out, []⟩, none⟩] := by
        rw [hall]
        simp [Line.zero]
      have hinitial : Mark.lines (front ++ [⟨[], .zero (ofTy out), none⟩]) ++
          [⟨.ret, ofTy out, []⟩] <+: Mark.lines u.marks := by simp [hret]
      have hflows : u.Flows S [⟨[], .zero (ofTy out), none⟩] [] [out] :=
        .push hpush constant ⟨rfl, S.zero out⟩ []
      obtain ⟨-, hadmits⟩ := hflows front _ hret (ready_mark hret)
      refine ⟨(hadmits landed).1, ?_, trivial⟩
      have hend : words front + words [⟨[], .zero (ofTy out), none⟩] =
          words (front ++ [⟨[], .zero (ofTy out), none⟩]) := (Mark.words_append _ _).symm
      exact hend ▸ .ret (Line.instr?_of_initial u.addressOf hinitial) hout hnone

/-- What a unit has to be ready for at its end. -/
theorem ready_epilogue (hall : u.marks = front ++ Mark.epilogue u.output) :
    u.stackMap.Ready (words front) [] := by
  cases hout : u.output with
  | none =>
    rw [hout, Mark.epilogue, append_nil] at hall
    exact StackMap.ready_of_at (.inr ⟨hout, by rw [hall], rfl⟩)
  | some out =>
    rw [hout] at hall
    simp only [Mark.epilogue] at hall
    split at hall
    · exact ready_mark hall
    · exact ready_mark hall

/-- The code of a body with its stack map. -/
def Body.listing (b : Body) (commands : List Command) (frame : List Ty) : Listing where
  addressOf := labelAddress b.literal commands
  labels := commands.filterMap Command.placed?
  frame := frame
  output := b.output
  marks := b.marks

namespace Body.Laid

variable {b : Body} {lim : Limits} {commands : List Command} {frame : List Ty}

theorem lines_marks (laid : b.Laid ctx lim commands) :
    Mark.lines b.marks = unitLines b.literal b.output commands := by
  rw [marks, Mark.lines_append, laid.table, laid.output, lines_stmts b.literal laid.generated.checks,
    Mark.lines_epilogue, unitLines]

theorem code_listing (laid : b.Laid ctx lim commands) : (b.listing commands frame).code =
    Line.code (labelAddress b.literal commands) (unitLines b.literal b.output commands) := by
  rw [code, listing, laid.lines_marks]

variable (laid : b.Laid ctx lim commands) (governs : ctx.table.Governs T)
  (known : ∀ t ∈ b.output, T t) (sits : ∀ s ∈ b.stmts, ∀ r ∈ s.refs, r.Sits S T frame)
include laid governs known sits

/-- Statements from some point on leave nothing. -/
theorem bears_drop (n : Nat) : (b.listing commands frame).Bears S
    ((b.stmts.drop n).flatMap (·.marks b.table b.literal b.output))
    (stretchesOf b.table b.literal b.output (b.stmts.drop n)) [] [] := by
  have small : words (b.listing commands frame).marks < operandLimit := by
    rw [words, listing, laid.lines_marks]
    exact laid.short
  have labels : ∀ c ∈ commands.drop n, ∀ l, c.label? = some l → l ∈ (b.listing commands frame).labels := by
    intro c hc l hl
    exact mem_filterMap.2
      ⟨_, place_mem_of_unplaced laid.generated.placed (mem_of_mem_drop hc) hl, rfl⟩
  rw [laid.table, laid.output]
  exact bears_stmts governs small b.literal laid.output (laid.output ▸ known)
    (forall₂_drop n laid.generated.checks) (fun s hs => sits s (mem_of_mem_drop hs)) labels

/-- Nothing is pending in front of a statement. -/
theorem ready_take (n : Nat) : (b.listing commands frame).stackMap.Ready
    (words ((b.stmts.take n).flatMap (·.marks b.table b.literal b.output))) [] := by
  have hsplit : (b.listing commands frame).marks =
      (b.stmts.take n).flatMap (·.marks b.table b.literal b.output) ++
        (b.stmts.drop n).flatMap (·.marks b.table b.literal b.output) ++ Mark.epilogue b.output := by
    rw [← flatMap_append, take_append_drop]
    rfl
  exact ((laid.bears_drop governs known sits n).flows _ _ hsplit (ready_epilogue hsplit)).1

/-- Every expression leaves one value. -/
theorem spans {q : Stretch} (hq : q ∈ b.stretches) : (b.listing commands frame).Spans 0 q := by
  have hsplit : (b.listing commands frame).marks =
      [] ++ b.stmts.flatMap (·.marks b.table b.literal b.output) ++ Mark.epilogue b.output := rfl
  exact (laid.bears_drop governs known sits 0).spans [] _ hsplit (ready_epilogue hsplit) q hq

theorem landed : (b.listing commands frame).Landed := by
  intro l hl
  obtain ⟨c, hc, hplaced⟩ := mem_filterMap.1 hl
  cases c with
  | place l' =>
    cases hplaced
    obtain ⟨pre, post, hcommands, haddress⟩ := exists_labelAddress b.literal hc
    have hpre : Mark.lines ((b.stmts.take pre.length).flatMap (·.marks b.table b.literal b.output)) =
        bodyLines b.literal pre := by
      have hchecks := forall₂_take pre.length laid.generated.checks
      rw [hcommands, take_left] at hchecks
      rw [laid.table, laid.output, lines_stmts b.literal hchecks]
    have hready := laid.ready_take governs known sits pre.length
    rw [words, hpre, ← haddress] at hready
    refine ⟨?_, hready⟩
    have hshort := Line.words_le (take_bodyLines_initial b.literal b.output commands pre.length)
    rw [hcommands, take_left, ← hcommands, ← haddress] at hshort
    exact Nat.lt_of_le_of_lt hshort laid.short
  | _ => cases hplaced

/-- Every position of a unit admits what is pending there. -/
theorem admits {p : Nat} {ts : List Ty} (at_ : (b.listing commands frame).stackMap.At p ts) :
    S.Admits (b.listing commands frame).stackMap p ts := by
  have landed := laid.landed governs known sits
  have hall : (b.listing commands frame).marks =
      b.stmts.flatMap (·.marks b.table b.literal b.output) ++ Mark.epilogue b.output := rfl
  have hbody : (b.listing commands frame).Flows S
      (b.stmts.flatMap (·.marks b.table b.literal b.output)) [] [] :=
    (laid.bears_drop governs known sits 0).flows
  obtain ⟨-, hadmits⟩ := hbody [] _ hall (ready_epilogue hall)
  have hunit : (b.listing commands frame).Admit S 0 (b.listing commands frame).marks := by
    rw [hall, admit_append]
    refine ⟨hadmits landed, ?_⟩
    rw [Nat.zero_add]
    exact admit_epilogue hall landed
  rcases at_ with ⟨m, ⟨front, back, hsplit, rfl⟩, rfl⟩ | ⟨htop, rfl, rfl⟩
  · rw [hsplit, admit_append, Nat.zero_add] at hunit
    exact hunit.2.1
  · exact .last (by rw [stackMap, code, Line.size_code]; rfl) htop

theorem at_zero : (b.listing commands frame).stackMap.At 0 [] := by
  obtain ⟨us, hat, hpass⟩ := laid.ready_take governs known sits 0
  cases hpass
  exact hat

end Body.Laid
end Stackwork
