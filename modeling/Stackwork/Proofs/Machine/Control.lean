import Stackwork.Proofs.Code.Boundary
import Stackwork.Proofs.Code.Encoding
import Stackwork.Proofs.Machine.Op

/-!
# Flow of control

Where one dispatch leads and what it does to the frames. Instructions other than calls,
returns and HALT go on in the same code and leave frames and BASE alone; `Goes` says to
which positions. A call pushes a frame and starts a routine at its first word, a return
takes the frame back, and HALT drops the frames of the loop. `Machine.flow_of_dispatch` is
the one place where instructions are taken apart for this.
-/
namespace Stackwork

/-- The positions at which execution can go on behind the valid instruction `i` at `pc`, in
the same code. -/
inductive Goes (code : Code) (pc : Int) (i : Instr) : Int → Prop where
  | next : Goes code pc i (pc + 1 + i.operandWords)
  | jump {op : Opcode} {v : Int32} (hop : i.op? = some op) (hj : op.isJump)
      (target : code.int? (pc + 1) = some v) : Goes code pc i v.toInt
  | indirect {op : Opcode} {pc' : Int} (hop : i.op? = some op) (hi : op.isComputedJump) :
      Goes code pc i pc'

/-- What a dispatch at a position of a code, in a loop begun at a frame depth, can come to. -/
inductive Machine.Flow (code : Code) (pc : Int) (depth : Nat) (m : Machine) :
    Next → Machine → Prop where
  | goto {i : Instr} {pc' : Int} {m' : Machine} (fetch : code.instr? pc = some i)
      (goes : i.valid → Goes code pc i pc') (same : m'.control = m.control) :
      Flow code pc depth m (.goto pc') m'
  | host {i : Instr} {index : Int} {r : Routine} {builtin : Builtin} {m' : Machine}
      (fetch : code.instr? pc = some i) (found : at? m.routines index = some r)
      (body : r.body = .host builtin) (same : m'.control = m.control) :
      Flow code pc depth m (.host r builtin (pc + 1 + i.operandWords)) m'
  | enter {i : Instr} {index : Int} {r : Routine} {target : Code} {m' : Machine} (base : Int)
      (fetch : code.instr? pc = some i) (found : at? m.routines index = some r)
      (body : r.code? = some target)
      (same : m'.control =
        { m.control with frames := m.frames.push ⟨code, pc + 1 + i.operandWords, m.base⟩, base })
      (top : m'.sp = base + r.locals.length) :
      Flow code pc depth m (.move target 0) m'
  | leave {m' : Machine} (outermost : m.frames.size = depth ∨ m.frames = #[])
      (same : m'.control = m.control) (top : m'.sp = m.base + 1) : Flow code pc depth m .leave m'
  | back {f : Frame} {m' : Machine} (inner : m.frames.size ≠ depth)
      (top : m.frames.back? = some f)
      (same : m'.control = { m.control with frames := m.frames.pop, base := f.base }) :
      Flow code pc depth m (.move f.code f.pc) m'
  | halt {m' : Machine}
      (same : m'.control = { m.control with halted := true, frames := m.frames.take depth }) :
      Flow code pc depth m .leave m'

namespace Machine

open Op (Keeps)

theorem size_clearFrom (stack : Array Slot) (from_ n : Nat) :
    (clearFrom stack from_ n).size = stack.size := by
  unfold clearFrom
  induction n with
  | zero => rfl
  | succ n ih => simp [Nat.fold_succ, ih]

theorem size_foldl_setIfInBounds {α β : Type} (xs : List β) (at_ : β → Nat) (value : β → α) (ts : Array α) :
    (xs.foldl (fun ts x => ts.setIfInBounds (at_ x) (value x)) ts).size = ts.size := by
  induction xs generalizing ts with
  | nil => rfl
  | cons x xs ih => rw [List.foldl_cons, ih, Array.size_setIfInBounds]

/-- Behind the set-up of a frame, SP is where its locals end. -/
theorem sp_of_enter {r : Routine} {base : Int} {m m' : Machine} (h : enter r m = .ok base m') :
    m'.sp = base + r.locals.length := by
  unfold enter at h
  simp only at h
  split at h <;> cases h
  rfl

theorem keeps_enter (r : Routine) : Keeps control (enter r) := by
  intro m base m' h
  unfold enter at h
  simp only at h
  split at h
  · cases h
    simp [control, size_clearFrom, apply_ite Array.size, size_foldl_setIfInBounds]
  · cases h

theorem keeps_pushResult (t : Option Tagged) : Keeps control (pushResult t) := by
  cases t with
  | none => exact .pure ()
  | some t => exact keeps_push _ _

theorem keeps_popInt : Keeps control popInt := .map (keeps_pop _)

theorem keeps_popFloat : Keeps control popFloat := .map (keeps_pop _)

theorem keeps_unary (op : UnaryCode) (k : Kind) : Keeps control (unary op k) :=
  .ite (.bind keeps_popInt fun _ => keeps_pushResult _)
    (.bind keeps_popFloat fun _ => keeps_pushResult _)

theorem keeps_binary (op : BinaryCode) (k : Kind) : Keeps control (binary op k) := by
  refine .ite ?_ (.ite ?_ ?_)
  · refine .bind keeps_popInt fun r => .bind keeps_popInt fun l => ?_
    split
    · exact keeps_push _ _
    · exact .fault _
  · exact .bind keeps_popFloat fun _ => .bind keeps_popFloat fun _ => keeps_pushResult _
  · exact .bind (keeps_pop _) fun _ => .bind (keeps_pop _) fun _ => keeps_push _ _

theorem keeps_select (k : Kind) : Keeps control (select k) :=
  .bind (keeps_pop _) fun _ => .bind (keeps_pop _) fun _ => .bind keeps_popInt fun _ =>
    .ite (keeps_push _ _) (keeps_push _ _)

/-- An operation that goes well goes on at a position with `P` and keeps the control state. -/
def Yields (P : Int → Prop) (x : Op Next) : Prop :=
  ∀ v, Op.Gives control v (fun next => ∃ pc, next = .goto pc ∧ P pc) x

namespace Yields

variable {α : Type} {P : Int → Prop}

theorem pure {pc : Int} (h : P pc) : Yields P (pure (.goto pc)) := fun _ => .pure ⟨pc, rfl, h⟩

theorem bind {x : Op α} {f : α → Op Next} (hx : Keeps control x) (hf : ∀ a, Yields P (f a)) :
    Yields P (x >>= f) :=
  fun v => .bind hx fun a => hf a v

theorem operand {code : Code} {pc : Int} {f : Int → Op Next}
    (hf : ∀ v, code.int? pc = some v → Yields P (f v.toInt)) :
    Yields P (operand code pc >>= f) := by
  intro c m next m' hm h
  obtain ⟨a, m₁, h₁, h₂⟩ := Op.bind_eq_ok.1 h
  obtain ⟨v, m₂, hv, ha⟩ := Op.bind_eq_ok.1 h₁
  obtain ⟨hint, rfl⟩ := Op.require_eq_ok.1 hv
  cases ha
  exact hf v hint c hm h₂

end Yields

variable {code : Code} {pc : Int} {i : Instr} {depth : Nat} {m m₁ m' : Machine} {next : Next}

theorem yields_pushImmediate (hop : i.op? = some .pushImm) :
    Yields (fun pc' => i.valid → Goes code pc i pc') (pushImmediate code (pc + 1) i.kind) := by
  have hw : i.operandWords = i.kind.words := by simp [Instr.operandWords, hop, Opcode.operand]
  unfold pushImmediate
  split
  · next hk =>
    refine .bind (.require _) fun w => .bind (keeps_push _ _) fun _ => .pure fun _ => ?_
    have : i.operandWords = 1 := by rw [hw, hk]; rfl
    simpa [this] using (Goes.next : Goes code pc i _)
  · next hk =>
    refine .bind (.require _) fun w => .bind (keeps_push _ _) fun _ => .pure fun hv => ?_
    have : i.operandWords = 2 := by
      rw [hw]
      simp only [Instr.valid, hop, Opcode.kinds, Bool.and_eq_true, List.contains_eq_mem,
        List.mem_cons, List.not_mem_nil, or_false, decide_eq_true_eq] at hv
      rcases hv.2 with h | h | h
      · exact absurd h hk
      · rw [h]; rfl
      · rw [h]; rfl
    simpa [this] using (Goes.next : Goes code pc i _)

/-- An instruction that is no call, no return and not HALT goes on in the same code. -/
theorem yields_execute {op : Opcode} (hop : i.op? = some op) (hcall : op ≠ .call) (hcallR : op ≠ .callR)
    (hret : op ≠ .ret) (hhalt : op ≠ .halt) :
    Yields (fun pc' => i.valid → Goes code pc i pc') (execute code (pc + 1) depth op i.kind) := by
  -- Behind an instruction without an operand, and behind one operand word.
  have next₀ (h : op.operand = .none) : i.valid → Goes code pc i (pc + 1) := by
    have hw : i.operandWords = 0 := by simp [Instr.operandWords, hop, h]
    simpa [hw] using fun _ => (Goes.next : Goes code pc i _)
  have next₁ (h : op.operand = .word) : i.valid → Goes code pc i (pc + 1 + 1) := by
    have hw : i.operandWords = 1 := by simp [Instr.operandWords, hop, h]
    simpa [hw] using fun _ => (Goes.next : Goes code pc i _)
  cases op with
  | nop => exact .pure (next₀ rfl)
  | pop => exact .bind (.modify fun _ => rfl) fun _ => .pure (next₀ rfl)
  | pushImm => exact yields_pushImmediate hop
  | pushZero | pushOne =>
    simp only [execute]
    split <;> exact .bind (keeps_push _ _) fun _ => .pure (next₀ rfl)
  | pushNull => exact .bind (keeps_push _ _) fun _ => .pure (next₀ rfl)
  | loadGlobal =>
    exact .operand fun _ _ => .bind (keeps_readHeap _ _) fun _ => .bind (keeps_push _ _)
      fun _ => .pure (next₁ rfl)
  | storeGlobal =>
    exact .operand fun _ _ => .bind (keeps_pop _) fun _ => .bind (keeps_writeHeap _ _ _)
      fun _ => .pure (next₁ rfl)
  | loadLocal =>
    exact .bind .get fun _ => .operand fun _ _ => .bind (keeps_readStack _ _) fun _ =>
      .bind (keeps_push _ _) fun _ => .pure (next₁ rfl)
  | storeLocal =>
    exact .bind .get fun _ => .operand fun _ _ => .bind (keeps_pop _) fun _ =>
      .bind (keeps_writeStack _ _ _) fun _ => .pure (next₁ rfl)
  | unary op => exact .bind (keeps_unary _ _) fun _ => .pure (next₀ rfl)
  | binary op => exact .bind (keeps_binary _ _) fun _ => .pure (next₀ rfl)
  | select => exact .bind (keeps_select _) fun _ => .pure (next₀ rfl)
  | jump => exact .operand fun v hv => .pure fun _ => .jump hop rfl hv
  | branchTrue | branchFalse =>
    refine .operand fun v hv => .bind keeps_popInt fun c => .pure fun hvalid => ?_
    split
    all_goals first
      | exact .jump hop rfl hv
      | exact next₁ rfl hvalid
  | jumpR => exact .bind keeps_popInt fun _ => .pure fun _ => .indirect hop rfl
  | branchTrueR | branchFalseR =>
    exact .bind keeps_popInt fun _ => .bind keeps_popInt fun _ => .pure fun _ =>
      .indirect hop rfl
  | call => exact absurd rfl hcall
  | callR => exact absurd rfl hcallR
  | ret => exact absurd rfl hret
  | halt => exact absurd rfl hhalt

theorem flow_of_callRoutine (fetch : code.instr? pc = some i) (hc : m₁.control = m.control) (index : Int)
    (h : callRoutine code (pc + 1 + i.operandWords) index m₁ = .ok next m') :
    Flow code pc depth m next m' := by
  have hr : m₁.routines = m.routines := by
    simp only [routines, show m₁.exe = m.exe from congrArg Control.exe hc]
  obtain ⟨_, _, hget, h₁⟩ := Op.bind_eq_ok.1 h
  cases hget
  obtain ⟨r, m₂, hreq, h₂⟩ := Op.bind_eq_ok.1 h₁
  obtain ⟨found, rfl⟩ := Op.require_eq_ok.1 hreq
  rw [hr] at found
  cases body : r.body with
  | host builtin =>
    simp only [body] at h₂
    cases h₂
    exact .host fetch found body hc
  | compiled target ks =>
    simp only [body] at h₂
    obtain ⟨_, _, hpush, h₃⟩ := Op.bind_eq_ok.1 h₂
    cases hpush
    obtain ⟨base, m₄, henter, h₄⟩ := Op.bind_eq_ok.1 h₃
    obtain ⟨_, _, hbase, h₅⟩ := Op.bind_eq_ok.1 h₄
    cases hbase
    cases target with
    | none => cases h₅
    | some target =>
      cases h₅
      have htop : m₄.sp = base + r.locals.length := sp_of_enter henter
      refine .enter base fetch found (by simp [Routine.code?, body]) ?_ htop
      have hkept := keeps_enter r henter
      simp only [control, Control.mk.injEq] at hkept hc ⊢
      simp_all

/-- The result that a return hands to the caller. -/
def popResult (k : Kind) : Op Slot := if k = .none then pure .zero else pop k

/-- Put a result where the frame began. -/
def putResult (k : Kind) (v : Slot) : Op Unit := do
  let base := (← get).base
  writeStack base v k
  modify fun m => { m with sp := base + 1 }

/-- Find the caller of a frame that is over. -/
def findCaller (depth : Nat) : Op Next := do
  if (← get).frames.size = depth then return .leave
  match (← get).frames.back? with
  | none => return .leave
  | some f =>
    modify fun m => { m with frames := m.frames.pop, base := f.base }
    return .move f.code f.pc

/-- Put a result in the place of the frame and find the caller. -/
def handBack (k : Kind) (depth : Nat) (result : Slot) : Op Next := do
  putResult k result
  findCaller depth

theorem returnFrom_eq (k : Kind) (depth : Nat) :
    returnFrom k depth = popResult k >>= handBack k depth := by
  unfold returnFrom popResult handBack putResult
  simp only [bind_assoc]
  split <;> rfl

theorem keeps_popResult (k : Kind) : Keeps control (popResult k) := .ite (.pure _) (keeps_pop _)

theorem flow_of_handBack {k : Kind} {result : Slot} (hc : m₁.control = m.control)
    (h : handBack k depth result m₁ = .ok next m') : Flow code pc depth m next m' := by
  obtain ⟨_, _, hput, h₃⟩ := Op.bind_eq_ok.1 h
  obtain ⟨_, _, hget, h₁⟩ := Op.bind_eq_ok.1 hput
  cases hget
  obtain ⟨_, m₂, hwrite, hsp⟩ := Op.bind_eq_ok.1 h₁
  have hc₂ : m₂.control = m.control := (keeps_writeStack _ _ _ hwrite).trans hc
  have hframes : m₂.frames = m.frames := congrArg Control.frames hc₂
  have htop : m₁.base + 1 = m.base + 1 := congrArg (Control.base · + 1) hc
  cases hsp
  obtain ⟨_, _, hget, h₄⟩ := Op.bind_eq_ok.1 h₃
  cases hget
  split at h₄
  · next hsize =>
    cases h₄
    exact .leave (.inl (by rw [← hframes]; exact hsize)) hc₂ htop
  · next hsize =>
    obtain ⟨_, _, hget, h₅⟩ := Op.bind_eq_ok.1 h₄
    cases hget
    cases hback : m₂.frames.back? with
    | none =>
      simp only [hback] at h₅
      cases h₅
      exact .leave (.inr (by rw [← hframes]; simpa using hback)) hc₂ htop
    | some f =>
      simp only [hback] at h₅
      obtain ⟨_, _, hmod, h₆⟩ := Op.bind_eq_ok.1 h₅
      cases hmod
      cases h₆
      refine .back (by rw [← hframes]; exact hsize) (by rw [← hframes]; exact hback) ?_
      simp only [control, Control.mk.injEq] at hc₂ ⊢
      simp_all

theorem flow_of_returnFrom {k : Kind} (hc : m₁.control = m.control)
    (h : returnFrom k depth m₁ = .ok next m') : Flow code pc depth m next m' := by
  rw [returnFrom_eq] at h
  obtain ⟨result, m₂, hpop, h₁⟩ := Op.bind_eq_ok.1 h
  exact flow_of_handBack ((keeps_popResult k hpop).trans hc) h₁

/-- Write the instruction at `pc` to the journal of a machine that traces. -/
def trace (code : Code) (pc : Int) (i : Instr) : Op Unit := do
  if (← get).settings.trace then modify fun m => m.write (m.traceLine code pc i)

/-- The work of an instruction, whose opcode may be unknown. -/
def work (code : Code) (pc : Int) (depth : Nat) (i : Instr) : Op Next :=
  match i.op? with
  | some op => execute code (pc + 1) depth op i.kind
  | none => return .goto (pc + 1)

theorem dispatch_of_lt (depth : Nat) (h : pc < code.size) : dispatch code pc depth = (do
      let w ← require (code.word? pc)
      trace code pc ⟨w⟩
      work code pc depth ⟨w⟩) := by
  unfold dispatch
  rw [if_pos h]
  refine bind_congr fun w => ?_
  rw [trace, bind_assoc]
  refine bind_congr fun m => ?_
  simp only
  split
  · rfl
  · rw [pure_bind]
    rfl

theorem keeps_trace (code : Code) (pc : Int) (i : Instr) : Keeps control (trace code pc i) :=
  .bind .get fun _ => .ite (.modify fun _ => rfl) (.pure _)

/-- Everything a dispatch that goes well can come to. -/
theorem flow_of_dispatch (h : dispatch code pc depth m = .ok next m') : Flow code pc depth m next m' := by
  by_cases hpc : pc < code.size
  case neg =>
    unfold dispatch at h
    rw [if_neg hpc] at h
    exact flow_of_returnFrom rfl h
  rw [dispatch_of_lt depth hpc] at h
  obtain ⟨w, m₁, hreq, h₁⟩ := Op.bind_eq_ok.1 h
  obtain ⟨hw, rfl⟩ := Op.require_eq_ok.1 hreq
  have fetch : code.instr? pc = some ⟨w⟩ := by simp [Code.instr?, hw]
  obtain ⟨_, m₂, htrace, h₂⟩ := Op.bind_eq_ok.1 h₁
  have hc : m₂.control = m₁.control := keeps_trace _ _ _ htrace
  cases hop : (Instr.mk w).op? with
  | none =>
    simp only [work, hop] at h₂
    cases h₂
    refine .goto fetch (fun hvalid => ?_) hc
    obtain ⟨op, hop'⟩ := Instr.exists_op_of_valid hvalid
    simp [hop] at hop'
  | some op =>
    simp only [work, hop] at h₂
    by_cases hcall : op = .call
    · subst hcall
      obtain ⟨index, m₃, hindex, h₃⟩ := Op.bind_eq_ok.1 h₂
      obtain ⟨v, m₄, hv, hi⟩ := Op.bind_eq_ok.1 hindex
      obtain ⟨-, rfl⟩ := Op.require_eq_ok.1 hv
      cases hi
      refine flow_of_callRoutine fetch hc v.toInt ?_
      simpa [Instr.operandWords, hop, Opcode.operand] using h₃
    by_cases hcallR : op = .callR
    · subst hcallR
      obtain ⟨index, m₃, hindex, h₃⟩ := Op.bind_eq_ok.1 h₂
      refine flow_of_callRoutine fetch ((keeps_popInt hindex).trans hc) index.toInt ?_
      simpa [Instr.operandWords, hop, Opcode.operand] using h₃
    by_cases hret : op = .ret
    · subst hret
      exact flow_of_returnFrom hc h₂
    by_cases hhalt : op = .halt
    · subst hhalt
      cases h₂
      refine .halt ?_
      simp only [control, Control.mk.injEq] at hc ⊢
      simp_all
    obtain ⟨hsame, pc', rfl, hgoes⟩ := yields_execute hop hcall hcallR hret hhalt _ rfl h₂
    exact .goto fetch hgoes (hsame.trans hc)

end Machine
end Stackwork
