import Stackwork.Proofs.Lang.Certification
import Stackwork.Proofs.Lang.Resolution

/-!
# Positions of a unit

Every line of a unit has a position of its own, so at most one mark stands there. From this the
stack map of a unit is read backwards: at a known position the pending types are known, an
instruction begins there and passes verification, and a call through a value is the call of one
particular expression.
-/
namespace Stackwork

open List Line

mutual
/-- The expressions for the functions in calls through a value. A call that names its function has
none. -/
def Expr.callees : Expr → List Expr
  | .unary _ x => x.callees
  | .binary _ x y => x.callees ++ y.callees
  | .ternary c x y => c.callees ++ x.callees ++ y.callees
  | .call (.func _) args => calleesOf args
  | .call callee args => calleesOf args ++ callee.callees ++ [callee]
  | .missing | .int _ | .float _ | .bool _ | .text _ | .var _ | .const _ | .func _ => []

def calleesOf : List Expr → List Expr
  | [] => []
  | e :: es => e.callees ++ calleesOf es
end

theorem Expr.callees_call_value {callee : Expr} (h : ∀ g, callee ≠ .func g) (args : List Expr) :
    (call callee args).callees = calleesOf args ++ callee.callees ++ [callee] := by
  rw [callees]
  exact h

/-- The expressions for the functions in the calls through a value of a statement. -/
def Stmt.callees : Stmt → List Expr
  | .store _ e | .combine _ _ e | .eval e | .ret (some e) | .branchTrue e _ | .branchFalse e _ => e.callees
  | .missing | .place _ | .increment _ | .decrement _ | .ret none | .jump _ | .halt => []

namespace Mark

/-- If the line calls through a value, then it is the call of one of the expressions: above the
arguments for it, the value of the expression is pending. -/
def Via (tt : TyTable) (es : List Expr) (m : Mark) : Prop :=
  m.line.op = .callR → ∃ callee ∈ es, m.through = some callee ∧
    ∃ lower, m.pending = lower ++ (callee.typeOf tt).inputs ++ [callee.typeOf tt]

variable {tt : TyTable} {es fs : List Expr}

variable {m : Mark} {xs ys : List Mark}

theorem Via.mono (h : m.Via tt es) (sub : es ⊆ fs) : m.Via tt fs := fun hop => by
  obtain ⟨callee, hmem, hcallee⟩ := h hop
  exact ⟨callee, sub hmem, hcallee⟩

theorem Via.above (h : m.Via tt es) (ts : List Ty) : (m.above ts).Via tt es := fun hop => by
  obtain ⟨callee, hmem, hthrough, lower, hpending⟩ := h hop
  exact ⟨callee, hmem, hthrough, ts ++ lower, by simp [Mark.above, hpending]⟩

theorem Via.raise {ms : List Mark} (h : ∀ m ∈ ms, m.Via tt es) (ts : List Ty) :
    ∀ m ∈ raise ts ms, m.Via tt es := by
  intro m hm
  obtain ⟨m', hm', rfl⟩ := mem_map.1 hm
  exact (h m' hm').above ts

theorem Via.append (hx : ∀ m ∈ xs, m.Via tt es) (hy : ∀ m ∈ ys, m.Via tt fs) :
    ∀ m ∈ xs ++ ys, m.Via tt (es ++ fs) :=
  forall_mem_append.2 ⟨fun m hm => (hx m hm).mono (subset_append_left ..),
    fun m hm => (hy m hm).mono (subset_append_right ..)⟩

theorem via_of_ne (h : decide (m.line.op = .callR) = false) : m.Via tt es :=
  fun hop => absurd hop (of_decide_eq_false h)

theorem via_widening (es : List Expr) (s t : Ty) : ∀ m ∈ widening s t, m.Via tt es := by
  unfold widening
  split
  · exact forall_mem_singleton.2 (via_of_ne rfl)
  · exact forall_mem_nil _

theorem via_unary (op : UnaryOp) (s : Ty) : ∀ m ∈ unary op s, m.Via tt es := by
  unfold unary
  split
  · exact forall_mem_singleton.2 (via_of_ne rfl)
  · exact forall_mem_nil _

theorem via_of_isPush (h : m.line.op.isPush) : m.Via tt es := by
  intro hop
  rw [hop] at h
  cases h

theorem via_connective {branch : Opcode} (hbranch : decide (branch = .callR) = false) {short : Int32} {s t : Ty}
    (hx : ∀ m ∈ xs, m.Via tt es) (hy : ∀ m ∈ ys, m.Via tt fs) :
    ∀ m ∈ connective branch short s t xs ys, m.Via tt (es ++ fs) := by
  have hmid : ∀ m ∈ xs ++ [⟨[s], ⟨branch, .none, [.ahead (words ys + 2)]⟩, none⟩], m.Via tt es :=
    forall_mem_append.2 ⟨hx, forall_mem_singleton.2 (via_of_ne hbranch)⟩
  have hend : ∀ m ∈ ys ++ [⟨[t], ⟨.jump, .none, [.ahead 1]⟩, none⟩, ⟨[], .pushInt short, none⟩], m.Via tt fs :=
    forall_mem_append.2 ⟨hy, forall_mem_cons.2
      ⟨via_of_ne rfl, forall_mem_singleton.2 (via_of_isPush (isPush_pushInt short))⟩⟩
  simpa only [connective, append_assoc, cons_append, nil_append] using Via.append hmid hend

theorem via_load (v : Variable) : (load v).Via tt es := by
  refine via_of_ne ?_
  unfold load indexed Variable.loadCode
  split <;> rfl

theorem via_store (v : Variable) : (store v).Via tt es := by
  refine via_of_ne ?_
  unfold store indexed Variable.storeCode
  split <;> rfl

theorem via_step (v : Variable) (onInt : UnaryCode) (onFloat : BinaryCode) :
    ∀ m ∈ step v onInt onFloat, m.Via tt es := by
  unfold step
  split
  · exact forall_mem_cons.2 ⟨via_load v, forall_mem_cons.2
      ⟨via_of_ne rfl, forall_mem_singleton.2 (via_store v)⟩⟩
  · exact forall_mem_cons.2 ⟨via_load v, forall_mem_cons.2
      ⟨via_of_isPush (isPush_pushFloat _), forall_mem_cons.2
        ⟨via_of_ne rfl, forall_mem_singleton.2 (via_store v)⟩⟩⟩

theorem via_epilogue (output : Option Ty) : ∀ m ∈ epilogue output, m.Via tt es := by
  cases output with
  | none => exact forall_mem_nil _
  | some out =>
    simp only [epilogue]
    split
    · exact forall_mem_singleton.2 (via_of_ne rfl)
    · refine forall_mem_cons.2 ⟨via_of_ne ?_, forall_mem_singleton.2 (via_of_ne rfl)⟩
      simp only
      split <;> rfl

end Mark

open Mark (Via)

theorem via_marksOf {tt : TyTable} {handle : String → UInt64} {args : List Expr}
    (ih : ∀ e ∈ args, ∀ m ∈ e.marks tt handle, m.Via tt e.callees) (inputs : List Ty) :
    ∀ m ∈ marksOf tt handle args inputs, m.Via tt (calleesOf args) := by
  induction args generalizing inputs with
  | nil => exact forall_mem_nil _
  | cons e args ihargs =>
    obtain ⟨he, hargs⟩ := forall_mem_cons.1 ih
    cases inputs with
    | nil => exact forall_mem_nil _
    | cons t inputs =>
      exact Via.append (forall_mem_append.2 ⟨he, Mark.via_widening _ _ t⟩)
        (Via.raise (ihargs hargs inputs) [t])

/-- The calls through a value in the code of an expression are those of its callees. -/
theorem Expr.via_marks (tt : TyTable) (handle : String → UInt64) (e : Expr) :
    ∀ m ∈ e.marks tt handle, m.Via tt e.callees := by
  induction e using Expr.induct with
  | missing =>
    rw [marks]
    exact forall_mem_nil _
  | int | bool | func =>
    rw [marks]
    exact forall_mem_singleton.2 (Mark.via_of_isPush (isPush_pushInt _))
  | float bits =>
    rw [marks]
    exact forall_mem_singleton.2 (Mark.via_of_isPush (isPush_pushFloat bits))
  | text s =>
    rw [marks]
    exact forall_mem_singleton.2 (Mark.via_of_isPush (isPush_pushObj _))
  | var v =>
    rw [marks]
    exact forall_mem_singleton.2 (Mark.via_load v)
  | const c =>
    rw [marks]
    refine forall_mem_singleton.2 (Mark.via_of_isPush ?_)
    unfold Mark.constant
    split
    · exact isPush_pushFloat _
    · exact isPush_pushInt _
  | unary op x ih =>
    rw [marks, callees]
    exact forall_mem_append.2 ⟨ih, Mark.via_unary op _⟩
  | binary op x y ihx ihy =>
    cases op with
    | plain op =>
      have hx := forall_mem_append.2 ⟨ihx, Mark.via_widening x.callees (x.typeOf tt)
        (operandType tt (.plain op) (x.typeOf tt) (y.typeOf tt))⟩
      have hy := Via.raise (forall_mem_append.2 ⟨ihy, Mark.via_widening y.callees (y.typeOf tt)
        (operandType tt (.plain op) (x.typeOf tt) (y.typeOf tt))⟩)
          [operandType tt (.plain op) (x.typeOf tt) (y.typeOf tt)]
      rw [marks, callees]
      exact forall_mem_append.2 ⟨Via.append hx hy, forall_mem_singleton.2 (Mark.via_of_ne rfl)⟩
    | logAnd | logOr =>
      rw [marks, callees]
      exact Mark.via_connective rfl ihx ihy
  | ternary c x y ihc ihx ihy =>
    rw [marks, callees]
    refine forall_mem_append.2 ⟨Via.append (Via.append ihc (Via.raise ?_ _)) (Via.raise ?_ _),
      forall_mem_singleton.2 (Mark.via_of_ne rfl)⟩
    · exact forall_mem_append.2 ⟨ihx, Mark.via_widening _ _ _⟩
    · exact forall_mem_append.2 ⟨ihy, Mark.via_widening _ _ _⟩
  | call callee args ihcallee ihargs =>
    by_cases hcallee : ∃ g, callee = .func g
    · obtain ⟨g, rfl⟩ := hcallee
      exact forall_mem_append.2 ⟨via_marksOf ihargs _, forall_mem_singleton.2 (Mark.via_of_ne rfl)⟩
    · have hvalue (g : Callable) : callee ≠ .func g := fun h => hcallee ⟨g, h⟩
      rw [marks_call_value hvalue, callees_call_value hvalue]
      refine Via.append (Via.append (via_marksOf ihargs _) (Via.raise ihcallee _)) ?_
      exact forall_mem_singleton.2 fun _ => ⟨callee, mem_singleton.2 rfl, rfl, [], rfl⟩

/-- The calls through a value in the code of a statement are those of its callees. -/
theorem Stmt.via_marks (tt : TyTable) (handle : String → UInt64) (output : Option Ty) (s : Stmt) :
    ∀ m ∈ s.marks tt handle output, m.Via tt s.callees := by
  have last {e : Expr} {t : Ty} {m : Mark} (hm : m.Via tt e.callees) :
      ∀ m' ∈ e.marksAs tt handle t ++ [m], m'.Via tt e.callees :=
    forall_mem_append.2 ⟨forall_mem_append.2 ⟨e.via_marks tt handle, Mark.via_widening _ _ t⟩,
      forall_mem_singleton.2 hm⟩
  have plain {e : Expr} {m : Mark} (hm : decide (m.line.op = .callR) = false) :
      ∀ m' ∈ e.marks tt handle ++ [m], m'.Via tt e.callees :=
    forall_mem_append.2 ⟨e.via_marks tt handle, forall_mem_singleton.2 (Mark.via_of_ne hm)⟩
  cases s with
  | missing | place => exact forall_mem_nil _
  | store v e | combine v op e => exact last (Mark.via_store v)
  | increment v | decrement v => exact Mark.via_step v _ _
  | eval e | branchTrue e l | branchFalse e l => exact plain rfl
  | ret e =>
    cases e with
    | some e => exact last (Mark.via_of_ne rfl)
    | none =>
      refine forall_mem_singleton.2 (Mark.via_of_ne ?_)
      simp only
      split <;> rfl
  | jump | halt => exact forall_mem_singleton.2 (Mark.via_of_ne rfl)

namespace Mark

theorem words_pos (m : Mark) (ms : List Mark) : 0 < words (m :: ms) := by
  rw [words, lines_cons, words_cons]
  omega

variable {all : List Mark} {p : Nat} {m : Mark}

/-- At most one mark stands at a position. -/
theorem Sits.unique {m' : Mark} (h : Sits all p m) (h' : Sits all p m') : m = m' := by
  obtain ⟨front, back, hall, hp⟩ := h
  obtain ⟨front', back', hall', hp'⟩ := h'
  have hwords : words front = words front' := hp.symm.trans hp'
  rcases append_eq_append_iff.1 (hall.symm.trans hall') with ⟨mid, hfront, hback⟩ | ⟨mid, hfront, hback⟩
  all_goals
    cases mid with
    | nil =>
      cases hback
      rfl
    | cons x mid =>
      rw [hfront, words_append] at hwords
      have := words_pos x mid
      omega

/-- No mark stands behind the last line. -/
theorem Sits.lt (h : Sits all p m) : p < words all := by
  obtain ⟨front, back, rfl, rfl⟩ := h
  have := words_pos m back
  rw [words_append]
  omega

end Mark

variable {u : Listing} {p : Nat} {ts us : List Ty}

/-- What is pending at a position is fixed. -/
theorem Listing.at_unique (h : u.stackMap.At p ts) (h' : u.stackMap.At p us) : ts = us := by
  rcases h with ⟨m, hm, rfl⟩ | ⟨-, hp, rfl⟩
  · rcases h' with ⟨m', hm', rfl⟩ | ⟨-, hp, rfl⟩
    · rw [hm.unique hm']
    · exact absurd hm.lt (by omega)
  · rcases h' with ⟨m', hm', rfl⟩ | ⟨-, hp, rfl⟩
    · exact absurd hm'.lt (by omega)
    · rfl

theorem Listing.length_of_ready (h : u.stackMap.At p ts) (ready : u.stackMap.Ready p us) :
    ts.length = us.length := by
  obtain ⟨vs, hat, hpass⟩ := ready
  rw [at_unique h hat, hpass.length_eq]

/-- The height of the stack at a position, above the frame: it is that of the temporaries in front
of every expression that begins there, one more behind every expression that ends there, and zero
between statements. -/
structure Body.Balanced (b : Body) (p : Nat) (height : Int) : Prop where
  before : ∀ q ∈ b.stretches, p = q.start → height = q.pending.length
  behind : ∀ q ∈ b.stretches, p = q.stop → height = q.pending.length + 1
  between : ∀ n, p = Mark.words ((b.stmts.take n).flatMap (·.marks b.table b.literal b.output)) → height = 0

/-- The line at a position calls the function that an expression stands for. -/
def Body.CallsAt (b : Body) (p : Nat) (callee : Expr) : Prop :=
  ∃ m, Mark.Sits b.marks p m ∧ m.line.op = .callR ∧ m.through = some callee

namespace Body.Laid

variable {S : Stage} {T : Ty → Prop} {ctx : Context} {b : Body} {lim : Limits} {commands : List Command}
  {frame : List Ty} {p : Nat} {ts : List Ty}

theorem balanced (laid : b.Laid ctx lim commands) (governs : ctx.table.Governs T)
    (known : ∀ t ∈ b.output, T t) (sits : ∀ s ∈ b.stmts, ∀ r ∈ s.refs, r.Sits S T frame)
    (here : (b.listing commands frame).stackMap.At p ts) : b.Balanced p ts.length where
  before q hq hp := by
    have hspans := (laid.spans governs known sits hq).1
    rw [Nat.zero_add, ← hp] at hspans
    rw [Listing.length_of_ready here hspans]
  behind q hq hp := by
    have hspans := (laid.spans governs known sits hq).2
    rw [Nat.zero_add, ← hp] at hspans
    rw [Listing.length_of_ready here hspans]
    simp
  between n hp := by
    have hready := laid.ready_take governs known sits n
    rw [← hp] at hready
    rw [Listing.length_of_ready here hready]
    rfl

/-- The code of a unit passes verification, and a run is in front of an instruction of it that is
acceptable, or behind the last one of a top level. -/
theorem accepts (laid : b.Laid ctx lim commands) (here : (b.listing commands frame).stackMap.At p ts) :
    (∃ i, lim.Accepts (b.listing commands frame).code p i) ∨
      p = (b.listing commands frame).code.size ∧ b.output = none := by
  have sound := each_sound_unitLines laid.small b.literal b.output
    (laid.generated.all_defined laid.proper) laid.fits laid.generated.placed
  have formed := formed_of_each (fun _ _ hl => hl.toFormed) sound
  have hlines : Mark.lines (b.listing commands frame).marks = unitLines b.literal b.output commands :=
    laid.lines_marks
  rcases here with ⟨m, hm, rfl⟩ | ⟨htop, rfl, rfl⟩
  · have hlt := hm.lt
    rw [Mark.words, hlines] at hlt
    obtain ⟨front, back, hall, rfl⟩ := hm
    refine .inl ?_
    rw [laid.code_listing]
    refine Code.accepts_of_start (verify_code laid.short sound) ?_ (by rwa [size_code])
    refine (start_code formed).2 (mem_boundaries.2 ⟨Mark.lines front, Mark.lines (m :: back), ?_, ?_⟩)
    · rw [← hlines, hall, Mark.lines_append]
    · rw [Nat.zero_add]
      rfl
  · exact .inr ⟨by rw [Listing.code, size_code]; rfl, htop⟩

/-- A call through a value is the call of one of the callees of the unit. -/
theorem callee (here : (b.listing commands frame).stackMap.At p ts)
    (calls : (b.listing commands frame).code.op? p = some .callR) :
    ∃ callee ∈ b.stmts.flatMap Stmt.callees, b.CallsAt p callee ∧ ∃ lower,
      ts = lower ++ (callee.typeOf b.table).inputs ++ [callee.typeOf b.table] := by
  rcases here with ⟨m, ⟨front, back, hall, rfl⟩, rfl⟩ | ⟨-, rfl, -⟩
  · have hinitial : Mark.lines front ++ [m.line] <+: Mark.lines (b.listing commands frame).marks := by
      simp [hall]
    have hinstr : (b.listing commands frame).code.instr? (Mark.words front) = _ :=
      instr?_of_initial (b.listing commands frame).addressOf hinitial
    have hop : m.line.op = .callR := by
      rw [Code.op?, hinstr] at calls
      simpa using calls
    have hvia : ∀ m ∈ b.marks, m.Via b.table (b.stmts.flatMap Stmt.callees) := by
      refine forall_mem_append.2 ⟨fun m hm => ?_, Mark.via_epilogue _⟩
      obtain ⟨s, hs, hm⟩ := mem_flatMap.1 hm
      exact (s.via_marks _ _ _ m hm).mono fun e he => mem_flatMap.2 ⟨s, hs, he⟩
    have hmarks : b.marks = front ++ m :: back := hall
    have hmem : m ∈ b.marks := hmarks ▸ mem_append_right _ (mem_cons_self ..)
    obtain ⟨callee, hcallee, hthrough, lower, hpending⟩ := hvia m hmem hop
    exact ⟨callee, hcallee, ⟨m, ⟨front, back, hmarks, rfl⟩, hop, hthrough⟩, lower, hpending⟩
  · obtain ⟨i, fetch, -⟩ := Option.bind_eq_some_iff.1 calls
    have hlt := Code.lt_size fetch
    rw [Listing.code, size_code] at hlt
    exact absurd hlt (Nat.lt_irrefl _)

end Body.Laid
end Stackwork
