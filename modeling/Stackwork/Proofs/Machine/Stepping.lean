import Stackwork.Proofs.Machine.StackTyping

/-!
# A step of typed code

In a certified program a dispatch loop that stands at a position with the pending values that
are assigned to it makes a step that leads to such a position again: in the same code, in a
routine that is called, in the caller of a routine that is over, or behind a host function. The
slots below BASE stay as they are. A step can fail for two reasons only, a stack that is too
small for what the instruction writes, and an integer division by zero.
-/
namespace Stackwork

open Machine.Cells Instr Routine Opcode

open Op (Takes)
open Machine (Tops Shows at?)

/-- An operation ends in a fault. -/
def Op.Fails {α : Type} (pre : Machine → Prop) (x : Op α) (e : Fault) : Prop :=
  ∀ m, pre m → ∃ m', x m = .error e m'

variable {α β : Type} {pre : Machine → Prop} {x : Op α} {e : Fault}

variable {size : Nat} {f : α → Op β}

theorem Op.Fails.after {mid : α → Machine → Prop} (hx : Takes size 0 pre x mid) (hf : ∀ a, Fails (mid a) (f a) e) :
    Fails pre (x >>= f) e := by
  intro m hm
  obtain ⟨a, m₁, hok, hmid⟩ := (hx hm).1 (Nat.zero_le _)
  rw [EStateM.bind_of_ok hok]
  exact hf a m₁ hmid

theorem Op.Fails.first (hx : Fails pre x e) (f : α → Op β) : Fails pre (x >>= f) e := by
  intro m hm
  obtain ⟨m', herr⟩ := hx m hm
  exact ⟨m', EStateM.bind_of_error herr⟩

theorem Op.Fails.get {f : Machine → Op α} (h : ∀ m, pre m → Fails pre (f m) e) : Fails pre (get >>= f) e :=
  fun m hm => h m hm m hm

theorem Op.Fails.read {mid : Machine → Prop} {a : α} (hx : Takes size 0 pre x fun b m => b = a ∧ mid m)
    (hf : Fails mid (f a) e) : Fails pre (x >>= f) e := by
  refine .after hx fun b m hm => ?_
  obtain ⟨rfl, hmid⟩ := hm
  exact hf m hmid

/-- There is no instruction behind the last word. -/
theorem Code.instr?_eq_none {code : Code} {p : Nat} (h : code.size ≤ p) : code.instr? p = none := by
  cases hi : code.instr? p with
  | none => rfl
  | some i =>
    have := Code.lt_size hi
    omega

/-- How many slots an instruction takes off the stack, the arguments of a call apart. -/
def Opcode.pops (k : Kind) : Opcode → Nat
  | pop | storeGlobal | storeLocal | unary _ | jumpR | branchTrue | branchFalse | callR => 1
  | binary _ | branchTrueR | branchFalseR => 2
  | select => 3
  | ret => if k = .none then 0 else 1
  | _ => 0

namespace Machine

/-- The routine that the instruction at a position calls. -/
def called? (m : Machine) (code : Code) (p : Nat) : Option Routine :=
  match code.op? p with
  | some .call => (code.int? ((p : Int) + 1)).bind fun i => at? m.routines i.toInt
  | some .callR => (at? m.stack (m.sp - 1)).bind fun v => at? m.routines v.toInt.toInt
  | _ => none

/-- How many slots the instruction at a position takes off the stack. -/
def popped (m : Machine) (code : Code) (p : Nat) : Nat :=
  (code.instr? p).elim 0 fun i => i.op?.elim 0 (Opcode.pops i.kind) +
    (m.called? code p).elim 0 Routine.arity

/-- How far up the instruction at a position, or a return behind the last one, needs the stack. -/
def demand (m : Machine) (code : Code) (p : Nat) : Int :=
  match code.op? p with
  | some .pushImm | some .pushZero | some .pushOne | some .pushNull | some .loadGlobal
  | some .loadLocal => m.sp + 1
  | some .call | some .callR => m.sp - m.popped code p + (m.called? code p).elim 0 Routine.frameSize
  | some .ret | none => m.base + 1
  | some _ => 0

variable {m : Machine} {code : Code} {p size depth : Nat} {op : Opcode} {k : Kind} {sp : Int} {o : Aside}
  {cells : List Tagged}

theorem popped_eq (fetch : code.instr? p = some (make op k)) :
    m.popped code p = op.pops k + (m.called? code p).elim 0 arity := by
  simp [popped, fetch]

/-- An instruction other than a call takes what its opcode says. -/
theorem popped_of_not_call (fetch : code.instr? p = some (make op k)) (hcall : op ≠ .call)
    (hcallR : op ≠ .callR) : m.popped code p = op.pops k := by
  have hnone : m.called? code p = none := by
    simp only [called?, Code.op?, fetch, Option.bind_some, op?_make]
    split
    · next h => exact absurd (Option.some_inj.1 h) hcall
    · next h => exact absurd (Option.some_inj.1 h) hcallR
    · rfl
  rw [popped_eq fetch, hnone, Option.elim_none, Nat.add_zero]

/-- The slots below BASE are what they were. -/
def Untouched (m m' : Machine) : Prop :=
  ∀ i : Nat, (i : Int) < m.base → m'.stack[i]? = m.stack[i]? ∧
    (m.settings.tagged → m'.stackTags[i]? = m.stackTags[i]?)

theorem Shows.untouched {below above above' : List Tagged} {sp' : Int} {o' : Aside} {m' : Machine}
    (h : m.Shows size (below ++ above) sp o) (h' : m'.Shows size (below ++ above') sp' o')
    (base : o.base = below.length) (settings : o'.settings = o.settings) : m.Untouched m' := by
  intro i hi
  rw [h.base_eq, base] at hi
  have hlt : i < below.length := by omega
  have hcell (xs : List Tagged) : (below ++ xs)[i]? = some below[i] := by
    rw [List.getElem?_append_left hlt, List.getElem?_eq_getElem hlt]
  refine ⟨(h'.stack_eq (hcell _)).trans (h.stack_eq (hcell _)).symm, fun tagged => ?_⟩
  have tagged' : m'.settings.tagged := by rwa [h'.settings_eq, settings, ← h.settings_eq]
  exact (h'.stackTags_eq tagged' (hcell _)).trans (h.stackTags_eq tagged (hcell _)).symm

theorem Shows.at?_last {v : Slot} (h : m.Tops size (cells ++ [⟨v, k⟩]) o) :
    at? m.stack (m.sp - 1) = some v := by
  have hsp : m.sp - 1 = cells.length := by
    rw [h.sp, List.length_append, List.length_singleton]
    omega
  rw [hsp, at?_natCast]
  exact h.stack_eq (List.getElem?_concat_length ..)

/-- Executing an instruction that fails. -/
theorem Cells.dispatch_fails (fetch : code.instr? p = some (make op k))
    (hx : Op.Fails (Shows size cells sp o) (execute code (p + 1) depth op k) e) :
    Op.Fails (Shows size cells sp o) (Machine.dispatch code p depth) e := by
  have hlt : (p : Int) < code.size := by exact_mod_cast Code.lt_size fetch
  obtain ⟨w, hw, hi⟩ := Option.map_eq_some_iff.1 fetch
  have hfetch : Takes size 0 (Shows size cells sp o) (require (code.word? p))
      fun b m => b = w ∧ m.Shows size cells sp o := .require hw
  have htrace : Takes size 0 (Shows size cells sp o) (trace code p ⟨w⟩) fun _ => Shows size cells sp o :=
    .trace (fun _ line h => h.write line) _ _ _
  rw [dispatch_of_lt depth hlt]
  refine .read hfetch (.after htrace fun _ => ?_)
  rw [hi, work, op?_make, kind_make]
  exact hx

/-- A division of an integer by zero. -/
theorem Cells.binary_fails {op : BinaryCode} (divides : op = .div ∨ op = .mod) (x : Slot) {y : Slot}
    (zero : y.toInt = 0) :
    Op.Fails (Tops size (cells ++ [⟨x, .int⟩] ++ [⟨y, .int⟩]) o) (Machine.binary op .int) .division := by
  refine .read (Cells.popInt y) (.read (Cells.popInt x) fun m hm => ⟨m, ?_⟩)
  have hnone : op.onInt x.toInt y.toInt = none := by
    rcases divides with rfl | rfl <;> simp [BinaryCode.onInt, zero]
  rw [hnone]
  rfl

variable {pc : Int} {result : Slot}

/-- A dispatch loop at an instruction that fails. -/
theorem Cells.loop_fails (running : o.halted = false)
    (hx : Op.Fails (Shows size cells sp o) (Machine.dispatch code pc depth) e) :
    Op.Fails (Shows size cells sp o) (taskStep result (.loop code pc depth)) e := by
  refine .get fun m h => ?_
  rw [h.halted_eq, running]
  exact hx.first _

end Machine

namespace Stage

variable (S : Stage) (size bottom : Nat) (ground : List Frame)

/-- The callers of a routine that returns a value of the given type, innermost first: their
frames, and what lies on the stack below the routine. The outermost piece of code runs above
`bottom` slots. -/
inductive Suspended : List Activation → List Frame → List Tagged → Option Ty → Prop where
  | outermost {below : List Tagged} {out : Option Ty} (length : below.length = bottom) :
      Suspended [] [] below out
  | caller {a : Activation} {as : List Activation} {own : List Frame} {u : StackMap} {p : Nat}
      {below frame pending : List Tagged} {ts : List Ty} {t : Ty} (lays : S.Lays a u)
      (framed : S.Cells frame u.frame) (pends : S.Cells pending ts)
      (resumes : u.Ready p (ts ++ [t])) (callers : Suspended as own below u.output) :
      Suspended (a :: as) (own ++ [⟨u.code, p, below.length⟩]) (below ++ frame ++ pending) (some t)

/-- The surroundings in which a piece of code works. -/
structure Context (a : Activation) (as : List Activation) (u : StackMap) (below : List Tagged)
    (own : List Frame) (o : Machine.Aside) : Prop where
  lays : S.Lays a u
  base : o.base = below.length
  frames : o.frames.toList = ground ++ own
  keeps : S.Keeps o
  callers : S.Suspended bottom as own below u.output

/-- A dispatch loop is at a position of the first of some activations, with values as its
frame and the position ask for. The loop began above the frames `ground`. -/
inductive Active : List Activation → Code → Int → Machine → Prop where
  | intro {a : Activation} {as : List Activation} {u : StackMap} {p : Nat}
      {below frame pending : List Tagged} {own : List Frame} {ts : List Ty} {o : Machine.Aside}
      {m : Machine} (context : S.Context bottom ground a as u below own o)
      (tops : m.Tops size (below ++ frame ++ pending) o) (here : u.At p ts)
      (framed : S.Cells frame u.frame) (pends : S.Cells pending ts) : Active (a :: as) u.code p m

/-- A host function has begun. Its result is to take the place of its arguments, and then a
loop is at a position as above. -/
inductive Hosting : List Activation → Code → Int → HostCall → Machine → Prop where
  | intro {a : Activation} {as : List Activation} {u : StackMap} {p : Nat}
      {below frame pending args : List Tagged} {own : List Frame} {ts : List Ty} {out : Ty}
      {o : Machine.Aside} {m : Machine} {r : Routine} (context : S.Context bottom ground a as u below own o)
      (tops : m.Tops size (below ++ frame ++ pending ++ args)
        { o with base := (below ++ frame ++ pending).length })
      (returns : r.type.output? = some out) (resumes : u.Ready p (ts ++ [out]))
      (framed : S.Cells frame u.frame) (pends : S.Cells pending ts) :
      Hosting (a :: as) u.code p ⟨r, (below ++ frame ++ pending).length, o.base⟩ m

/-- A loop is over. Unless the machine is halted there is a slot for the result. -/
structure Ended (m : Machine) : Prop where
  room : bottom ≤ size
  value : m.halted = false → bottom < size
  tagsSize : m.settings.tagged → m.stackTags.size = size
  size : m.stack.size = size
  frames : m.frames.toList = ground
  keeps : S.Keeps m.aside

variable {S size bottom ground}

variable {as : List Activation}

variable {below : List Tagged} {own : List Frame}

theorem Active.of_ready {a : Activation} {u : StackMap} {p : Nat} {frame pending : List Tagged} {ts : List Ty}
    {o : Machine.Aside} {m : Machine} (context : S.Context bottom ground a as u below own o)
    (tops : m.Tops size (below ++ frame ++ pending) o) (ready : u.Ready p ts) (framed : S.Cells frame u.frame)
    (pends : S.Cells pending ts) : S.Active size bottom ground (a :: as) u.code p m := by
  obtain ⟨us, here, hpass⟩ := ready
  exact .intro context tops here framed (pends.pass hpass)

theorem Suspended.bottom_le {out : Option Ty} (h : S.Suspended bottom as own below out) :
    bottom ≤ below.length := by
  induction h with
  | outermost length => omega
  | caller _ _ _ _ _ ih =>
    simp only [List.length_append]
    omega

variable (S size bottom ground)

/-- What a step of a loop at a position comes to. -/
inductive Stepped (result : Slot) (as : List Activation) (code : Code) (p : Nat) (m : Machine) :
    EStateM.Result Fault Machine (List Task × Slot) → Prop where
  | on {q : Int} {m' : Machine} (next : S.Active size bottom ground as code q m')
      (frames : m'.frames.size = m.frames.size) (kept : m.Untouched m') :
      Stepped result as code p m (.ok ([.loop code q ground.length], result) m')
  | into {r : Routine} {target : Code} {m' : Machine} (callee : m.called? code p = some r)
      (next : S.Active size bottom ground (.routine r :: as) target 0 m')
      (frames : m'.frames.size = m.frames.size + 1) (kept : m.Untouched m') :
      Stepped result as code p m (.ok ([.loop target 0 ground.length], result) m')
  | back {caller : Code} {q : Int} {m' : Machine} (next : S.Active size bottom ground as.tail caller q m')
      (frames : m.frames.size = m'.frames.size + 1) (kept : m.Untouched m') :
      Stepped result as code p m (.ok ([.loop caller q ground.length], result) m')
  | host {q : Int} {call : HostCall} {s : HostScript} {m' : Machine}
      (next : S.Hosting size bottom ground as code q call m') (kept : m.Untouched m') :
      Stepped result as code p m (.ok ([.script call s, .loop code q ground.length], result) m')
  | left {m' : Machine} (next : S.Ended size bottom ground m') (kept : m.Untouched m') :
      Stepped result as code p m (.ok ([], result) m')
  | full {m' : Machine} (lacks : (size : Int) < m.demand code p) :
      Stepped result as code p m (.error .outOfRange m')
  | division {op : BinaryCode} {v : Slot} {m' : Machine}
      (fetch : code.instr? p = some (Instr.make (.binary op) .int)) (divides : op = .div ∨ op = .mod)
      (divisor : at? m.stack (m.sp - 1) = some v) (zero : v.toInt = 0) :
      Stepped result as code p m (.error .division m')

/-- What the next step of a loop comes to. -/
abbrev Steps (result : Slot) (as : List Activation) (code : Code) (p : Nat) (m : Machine) : Prop :=
  S.Stepped size bottom ground result as code p m
    (Machine.taskStep result (.loop code p ground.length) m)

variable {S size bottom ground}

namespace Stepped

variable {result : Slot} {as : List Activation} {code : Code} {p level : Nat} {m : Machine}
  {cells : List Tagged} {o : Machine.Aside} {next : Next} {mid : Machine → Prop}
  {post : List Task × Slot → Machine → Prop}

/-- A step by what its instruction takes and how the loop goes on. -/
theorem of_takes_resume (tops : m.Tops size cells o) (running : o.halted = false)
    (hx : Takes size level (Tops size cells o) (Machine.dispatch code p ground.length)
      fun n m' => n = next ∧ mid m')
    (lacks : size < level → (size : Int) < m.demand code p)
    (hnext : Takes size 0 mid (Machine.resume code ground.length result next) post)
    (good : ∀ x m', post x m' → S.Stepped size bottom ground result as code p m (.ok x m')) :
    S.Steps size bottom ground result as code p m := by
  have htask := Machine.takes_loop (fun m h => h.halted_eq.trans running) hx hnext tops
  by_cases hroom : level ≤ size
  · obtain ⟨x, m', hok, hpost⟩ := htask.1 hroom
    rw [Steps, hok]
    exact good x m' hpost
  · obtain ⟨m', herr⟩ := htask.2 (by omega)
    rw [Steps, herr]
    exact .full (lacks (by omega))

/-- A step that calls no host function. -/
theorem of_takes {tasks : List Task} (tops : m.Tops size cells o) (running : o.halted = false)
    (hx : Takes size level (Tops size cells o) (Machine.dispatch code p ground.length)
      fun n m' => n = next ∧ mid m')
    (lacks : size < level → (size : Int) < m.demand code p)
    (hnext : Machine.resume code ground.length result next = pure (tasks, result))
    (good : ∀ m', mid m' → S.Stepped size bottom ground result as code p m (.ok (tasks, result) m')) :
    S.Steps size bottom ground result as code p m := by
  have hresume : Takes size 0 mid (Machine.resume code ground.length result next)
      fun x m' => x = (tasks, result) ∧ mid m' := by
    rw [hnext]
    exact .pure fun m h => ⟨rfl, h⟩
  refine of_takes_resume tops running hx lacks hresume ?_
  rintro x m' ⟨rfl, hmid⟩
  exact good m' hmid

end Stepped

section

variable {result : Slot} {a : Activation} {as : List Activation} {u : StackMap} {p level : Nat}
  {below frame pending : List Tagged} {own : List Frame} {o : Machine.Aside} {m : Machine}
  {ts : List Ty}

variable (S size bottom ground a as u below frame pending own o m) in
/-- A loop that is about to work on some pending values. -/
structure Poised : Prop where
  context : S.Context bottom ground a as u below own o
  tops : m.Tops size (below ++ frame ++ pending) o
  running : o.halted = false
  framed : S.Cells frame u.frame

theorem Context.setGlobal (h : S.Context bottom ground a as u below own o) {n : Nat} {t : Ty}
    (found : S.globals[n]? = some t) {v : Slot} (hv : S.Holds t v) :
    S.Context bottom ground a as u below own (o.setGlobal n v (Kind.ofTy t)) :=
  ⟨h.lays, h.base, h.frames, h.keeps.setGlobal found hv, h.callers⟩

variable {frame' : List Tagged} {o' : Machine.Aside}

/-- A step to a position of the same code. -/
theorem Stepped.goto {cells cells' pending' : List Tagged} {q : Nat} {ts' : List Ty}
    (context : S.Context bottom ground a as u below own o) (tops : m.Tops size cells o) (split : below <+: cells)
    (running : o.halted = false)
    (hx : Takes size level (Tops size cells o) (Machine.dispatch u.code p ground.length) fun n m' =>
      n = .goto q ∧ m'.Tops size cells' o')
    (lacks : size < level → (size : Int) < m.demand u.code p) (split' : cells' = below ++ frame' ++ pending')
    (context' : S.Context bottom ground a as u below own o') (settings : o'.settings = o.settings)
    (ready : u.Ready q ts') (framed : S.Cells frame' u.frame) (pends : S.Cells pending' ts') :
    S.Steps size bottom ground result (a :: as) u.code p m := by
  subst split'
  obtain ⟨above, rfl⟩ := split
  refine .of_takes tops running hx lacks rfl fun m' tops' => ?_
  refine .on (.of_ready context' tops' ready framed pends) ?_ ?_
  · rw [tops'.frames_eq, tops.frames_eq, ← Array.length_toList, ← Array.length_toList,
      context'.frames, context.frames]
  · rw [List.append_assoc] at tops'
    exact tops.untouched tops' context.base settings

variable {rest taken left : List Tagged} {op : Opcode} {k : Kind} {t : Ty} {i : Int32} {n q : Nat} {ts' : List Ty}

/-- A step to a position of the same code, by an instruction that needs no room and puts other values in the place
of some that are pending. -/
theorem Poised.replaces (h : S.Poised size bottom ground a as u below frame (rest ++ taken) own o m)
    (fetch : u.code.instr? p = some (make op k))
    (hx : Takes size 0 (Tops size (below ++ frame ++ rest ++ taken) o) (Machine.execute u.code (p + 1) ground.length op k)
      fun n m' => n = .goto q ∧ m'.Tops size (below ++ frame' ++ rest ++ left) o')
    (context' : S.Context bottom ground a as u below own o') (settings : o'.settings = o.settings)
    (framed : S.Cells frame' u.frame) (goes : u.Ready q ts') (pends : S.Cells (rest ++ left) ts') :
    S.Steps size bottom ground result (a :: as) u.code p m := by
  have tops := h.tops
  rw [← List.append_assoc] at tops
  exact .goto h.context tops (by simp) h.running (dispatch fetch hx)
    (fun hfull => absurd hfull (Nat.not_lt_zero _)) (List.append_assoc ..) context' settings goes framed pends

/-- The same when nothing but the pending values changes. -/
theorem Poised.works (h : S.Poised size bottom ground a as u below frame (rest ++ taken) own o m)
    (fetch : u.code.instr? p = some (make op k))
    (hx : Takes size 0 (Tops size (below ++ frame ++ rest ++ taken) o)
      (Machine.execute u.code (p + 1) ground.length op k)
      fun n m' => n = .goto q ∧ m'.Tops size (below ++ frame ++ rest ++ left) o)
    (goes : u.Ready q ts') (pends : S.Cells (rest ++ left) ts') :
    S.Steps size bottom ground result (a :: as) u.code p m :=
  h.replaces fetch hx h.context rfl h.framed goes pends

/-- A step that pushes a value. -/
theorem Poised.pushes {c : Tagged} (h : S.Poised size bottom ground a as u below frame pending own o m)
    (pends : S.Cells pending ts) (fetch : u.code.instr? p = some (make op k))
    (demand : m.demand u.code p = m.sp + 1)
    (hx : Takes size ((below ++ frame ++ pending).length + 1) (Tops size (below ++ frame ++ pending) o)
      (Machine.execute u.code (p + 1) ground.length op k)
      fun n m' => n = .goto q ∧ m'.Tops size (below ++ frame ++ pending ++ [c]) o)
    (cell : S.Cell c t) (goes : u.Ready q (ts ++ [t])) :
    S.Steps size bottom ground result (a :: as) u.code p m := by
  refine .goto h.context h.tops (by simp) h.running (dispatch fetch hx) (fun hfull => ?_)
    (List.append_assoc ..) h.context rfl goes h.framed (pends.snoc cell)
  rw [demand, h.tops.sp]
  omega

section

variable (h : S.Poised size bottom ground a as u below frame pending own o m)
include h

theorem stepped_push {c : Tagged} {next : Nat} (pends : S.Cells pending ts)
    (fetch : u.code.instr? p = some (make op k)) (constant : op.isPush)
    (pushes : u.code.Pushes p op k c next) (cell : S.Cell c t) (goes : u.Ready next (ts ++ [t])) :
    S.Steps size bottom ground result (a :: as) u.code p m := by
  refine h.pushes pends fetch ?_ (pushes _ _ _ _) cell goes
  cases op with
  | pushImm | pushZero | pushOne | pushNull => simp [Machine.demand, Code.op?, fetch]
  | _ => cases constant

theorem stepped_loadGlobal (pends : S.Cells pending ts)
    (fetch : u.code.instr? p = some (make .loadGlobal (Kind.ofTy t)))
    (operand : u.code.int? ((p : Int) + 1) = some i) (index : i.toInt = n)
    (found : S.globals[n]? = some t) (goes : u.Ready (p + 2) (ts ++ [t])) :
    S.Steps size bottom ground result (a :: as) u.code p m := by
  have keeps := h.context.keeps
  obtain ⟨v, hv, holds⟩ := keeps.globals found
  have cell : S.Cell ⟨v, Kind.ofTy t⟩ t := ⟨rfl, holds⟩
  refine h.pushes pends fetch (by simp [Machine.demand, Code.op?, fetch]) ?_ cell goes
  exact (Machine.takes_operand operand index).read
    ((readHeap hv fun tagged => keeps.tags tagged found).read
      ((push v _).goto (by push_cast; omega)))

theorem stepped_storeGlobal (pends : S.Cells pending (ts ++ [t]))
    (fetch : u.code.instr? p = some (make .storeGlobal (Kind.ofTy t)))
    (operand : u.code.int? ((p : Int) + 1) = some i) (index : i.toInt = n)
    (found : S.globals[n]? = some t) (goes : u.Ready (p + 2) ts) :
    S.Steps size bottom ground result (a :: as) u.code p m := by
  obtain ⟨rest, ⟨v, k⟩, rfl, hrest, ⟨rfl, holds⟩⟩ := pends.split_last
  rw [← List.append_nil rest] at hrest
  refine h.replaces fetch ?_ (h.context.setGlobal found holds) rfl h.framed goes hrest
  rw [List.append_nil]
  exact (Machine.takes_operand operand index).read ((pop v _).read
    ((writeHeap (h.context.keeps.lt_size found) v _).goto (by push_cast; omega)))

theorem stepped_loadLocal (pends : S.Cells pending ts)
    (fetch : u.code.instr? p = some (make .loadLocal (Kind.ofTy t)))
    (operand : u.code.int? ((p : Int) + 1) = some i) (index : i.toInt = n)
    (found : u.frame[n]? = some t) (goes : u.Ready (p + 2) (ts ++ [t])) :
    S.Steps size bottom ground result (a :: as) u.code p m := by
  obtain ⟨⟨v, k⟩, hc, cell⟩ := h.framed.exists_of_getElem? found
  obtain rfl := cell.kind
  have hcell : (below ++ frame ++ pending)[below.length + n]? = some ⟨v, Kind.ofTy t⟩ := by
    rw [List.append_assoc, List.getElem?_append_right (Nat.le_add_right _ _), Nat.add_sub_cancel_left,
      List.getElem?_append_left (List.getElem?_eq_some_iff.1 hc).1, hc]
  refine h.pushes pends fetch (by simp [Machine.demand, Code.op?, fetch]) (.get fun m hm => ?_) cell goes
  refine (Machine.takes_operand operand index).read ?_
  have hslot : m.base + n = (below.length + n : Nat) := by
    rw [hm.base_eq, h.context.base]
    rfl
  rw [hslot]
  exact (readStack hcell).read ((push v _).goto (by push_cast; omega))

theorem stepped_storeLocal (pends : S.Cells pending (ts ++ [t]))
    (fetch : u.code.instr? p = some (make .storeLocal (Kind.ofTy t)))
    (operand : u.code.int? ((p : Int) + 1) = some i) (index : i.toInt = n)
    (found : u.frame[n]? = some t) (goes : u.Ready (p + 2) ts) :
    S.Steps size bottom ground result (a :: as) u.code p m := by
  obtain ⟨rest, ⟨v, k⟩, rfl, hrest, ⟨rfl, holds⟩⟩ := pends.split_last
  have hn : n < frame.length := h.framed.length_eq ▸ (List.getElem?_eq_some_iff.1 found).1
  have hset : (below ++ frame ++ rest).set (below.length + n) ⟨v, Kind.ofTy t⟩ =
      below ++ frame.set n ⟨v, Kind.ofTy t⟩ ++ rest := by
    rw [List.append_assoc, List.set_append_right _ _ (Nat.le_add_right _ _), Nat.add_sub_cancel_left,
      List.set_append_left _ _ hn, List.append_assoc]
  rw [← List.append_nil rest] at hrest
  refine h.replaces fetch (.get fun m hm => ?_) h.context rfl (h.framed.set found ⟨rfl, holds⟩) goes hrest
  refine (Machine.takes_operand operand index).read ((pop v _).read ?_)
  have hslot : m.base + n = (below.length + n : Nat) := by
    rw [hm.base_eq, h.context.base]
    rfl
  have hlt : below.length + n < (below ++ frame ++ rest).length := by
    simp only [List.length_append]
    omega
  rw [hslot, List.append_nil, ← hset]
  refine Takes.goto ((overwrite hlt v _).mono (fun m h => h) fun _ m h => ?_) (by push_cast; omega)
  rw [Tops, List.length_set]
  exact h

theorem stepped_pop (pends : S.Cells pending (ts ++ [t]))
    (fetch : u.code.instr? p = some (make .pop .none)) (goes : u.Ready (p + 1) ts) :
    S.Steps size bottom ground result (a :: as) u.code p m := by
  obtain ⟨rest, c, rfl, hrest, -⟩ := pends.split_last
  rw [← List.append_nil rest] at hrest
  refine h.works fetch ?_ goes hrest
  rw [List.append_nil]
  exact (drop c).goto (by push_cast; rfl)

variable {s c : Ty} {target : Nat}

theorem stepped_unary {op : UnaryCode} (pends : S.Cells pending (ts ++ [s]))
    (fetch : u.code.instr? p = some (make (.unary op) (Kind.ofTy s)))
    (exists_ : op.kinds.contains (Kind.ofTy s)) (kind : Kind.ofTy t = op.resultKind (Kind.ofTy s))
    (plain : t.kind ≠ .function) (goes : u.Ready (p + 1) (ts ++ [t])) :
    S.Steps size bottom ground result (a :: as) u.code p m := by
  obtain ⟨rest, ⟨x, k⟩, rfl, hrest, ⟨rfl, -⟩⟩ := pends.split_last
  obtain ⟨v, hv⟩ := UnaryCode.exists_on? exists_ x
  have cell : S.Cell ⟨v, op.resultKind (Kind.ofTy s)⟩ t := .of_kind kind.symm plain
  refine h.works fetch ?_ goes (hrest.snoc cell)
  have hk := UnaryCode.number_of_kinds exists_
  exact (unary (by rcases hk with hk | hk <;> rw [hk] <;> rfl) hv).goto (by push_cast; rfl)

theorem stepped_binary {op : BinaryCode} (pends : S.Cells pending (ts ++ [s] ++ [s]))
    (fetch : u.code.instr? p = some (make (.binary op) (Kind.ofTy s)))
    (exists_ : op.kinds.contains (Kind.ofTy s)) (kind : Kind.ofTy t = op.resultKind (Kind.ofTy s))
    (plain : t.kind ≠ .function) (goes : u.Ready (p + 1) (ts ++ [t])) :
    S.Steps size bottom ground result (a :: as) u.code p m := by
  obtain ⟨upper, ⟨y, k⟩, rfl, hupper, ⟨rfl, -⟩⟩ := pends.split_last
  obtain ⟨rest, ⟨x, k⟩, rfl, hrest, ⟨rfl, -⟩⟩ := hupper.split_last
  rw [List.append_assoc] at h
  obtain ⟨v, hv⟩ | ⟨hop, hk, hzero⟩ := BinaryCode.exists_on? exists_ x y
  · have cell : S.Cell ⟨v, op.resultKind (Kind.ofTy s)⟩ t := .of_kind kind.symm plain
    refine h.works fetch ?_ goes (hrest.snoc cell)
    rw [← List.append_assoc]
    have hk := BinaryCode.value_of_kinds exists_
    exact (binary (by rcases hk with hk | hk | hk <;> rw [hk] <;> rfl) hv).goto (by push_cast; rfl)
  · have tops := h.tops
    rw [← List.append_assoc, ← List.append_assoc, hk] at tops
    rw [hk] at fetch
    have hexec : Op.Fails (Tops size (below ++ frame ++ rest ++ [⟨x, .int⟩] ++ [⟨y, .int⟩]) o)
        (Machine.execute u.code (p + 1) ground.length (.binary op) .int) .division :=
      (binary_fails hop x hzero).first _
    obtain ⟨m', hfault⟩ :=
      loop_fails h.running (dispatch_fails fetch hexec) m tops
    rw [Steps, hfault]
    exact .division fetch hop tops.at?_last hzero

theorem stepped_select (pends : S.Cells pending (ts ++ [c] ++ [t] ++ [t]))
    (fetch : u.code.instr? p = some (make .select (Kind.ofTy t))) (cond : Kind.ofTy c = .int)
    (goes : u.Ready (p + 1) (ts ++ [t])) : S.Steps size bottom ground result (a :: as) u.code p m := by
  obtain ⟨upper, ⟨y, k⟩, rfl, hupper, ⟨rfl, hy⟩⟩ := pends.split_last
  obtain ⟨middle, ⟨x, k⟩, rfl, hmiddle, ⟨rfl, hx⟩⟩ := hupper.split_last
  obtain ⟨rest, ⟨b, k⟩, rfl, hrest, ⟨rfl, -⟩⟩ := hmiddle.split_last
  have cell : S.Cell ⟨if b.toBool then x else y, Kind.ofTy t⟩ t := by
    refine ⟨rfl, ?_⟩
    split
    · exact hx
    · exact hy
  rw [List.append_assoc, List.append_assoc, cond] at h
  refine h.works fetch ?_ goes (hrest.snoc cell)
  rw [← List.append_assoc, ← List.append_assoc]
  exact (select (Kind.ofTy t) b x y).goto (by push_cast; rfl)

theorem stepped_jump (pends : S.Cells pending ts) (fetch : u.code.instr? p = some (make .jump .none))
    (operand : u.code.int? ((p : Int) + 1) = some i) (address : i.toInt = target) (goes : u.Ready target ts) :
    S.Steps size bottom ground result (a :: as) u.code p m := by
  rw [← List.append_nil pending] at h pends
  exact h.works fetch ((Machine.takes_operand operand address).read (.pure fun m h => ⟨rfl, h⟩)) goes pends

theorem stepped_branch (pends : S.Cells pending (ts ++ [c])) (which : op = .branchTrue ∨ op = .branchFalse)
    (fetch : u.code.instr? p = some (make op .none)) (operand : u.code.int? ((p : Int) + 1) = some i)
    (address : i.toInt = target) (cond : Kind.ofTy c = .int) (goes : u.Ready target ts) (stays : u.Ready (p + 2) ts) :
    S.Steps size bottom ground result (a :: as) u.code p m := by
  obtain ⟨rest, ⟨v, k⟩, rfl, hrest, ⟨rfl, -⟩⟩ := pends.split_last
  rw [cond] at h
  rw [← List.append_nil rest] at hrest
  have hpop : Takes size 0 (Tops size (below ++ frame ++ rest ++ [⟨v, .int⟩]) o) Machine.popInt
      fun x m => x = v.toInt ∧ m.Tops size (below ++ frame ++ rest ++ []) o := by
    rw [List.append_nil]
    exact popInt v
  have hnext : ((p : Int) + 1 + 1) = (p + 2 : Nat) := by push_cast; omega
  by_cases hv : v.toInt = 0 <;> rcases which with rfl | rfl
  case' pos.inl | neg.inr => refine h.works fetch ?_ stays hrest
  case' pos.inr | neg.inl => refine h.works fetch ?_ goes hrest
  all_goals
    exact (Machine.takes_operand operand address).read
      (hpop.read (.pure fun m hm => ⟨by simp [hv, hnext], hm⟩))

end

variable {code : Code} {cells args : List Tagged}

/-- A result is handed back to the caller, or to the host if there is none. -/
theorem Stepped.handBack {above : List Tagged} {sp : Int} {out : Option Ty} {v : Slot}
    (callers : S.Suspended bottom as own below out) (base : o.base = below.length)
    (frames : o.frames.toList = ground ++ own) (keeps : S.Keeps o) (tops : m.Tops size cells o)
    (split : below <+: cells) (running : o.halted = false)
    (hx : ∀ {post : Next → Machine → Prop},
      Takes size (below.length + 1) (Shows size (below ++ above) sp o) (Machine.handBack k ground.length v) post →
        Takes size (below.length + 1) (Tops size cells o) (Machine.dispatch code p ground.length) post)
    (demand : m.demand code p = m.base + 1) (cell : ∀ t, out = some t → S.Cell ⟨v, k⟩ t) :
    S.Steps size bottom ground result (a :: as) code p m := by
  have lacks : size < below.length + 1 → (size : Int) < m.demand code p := by
    rw [demand, tops.base_eq, base]
    omega
  obtain ⟨upper, rfl⟩ := split
  cases callers with
  | outermost length =>
    rw [List.append_nil] at frames
    have outermost : o.frames.size = ground.length := by rw [← frames, Array.length_toList]
    refine .of_takes tops running (hx (handBack_leave base outermost k v)) lacks rfl
      fun m' tops' => .left ?_ (tops.untouched tops' base rfl)
    have hlen := tops'.length_le
    rw [List.length_append, List.length_singleton] at hlen
    refine ⟨by omega, fun _ => by omega, tops'.tagsSize, tops'.size, ?_, ?_⟩
    · rw [tops'.frames_eq, frames]
    · rw [tops'.aside]
      exact keeps
  | @caller a as own u q below frame pending ts t lays framed pends resumes callers =>
    have top : o.frames = (ground ++ own).toArray.push ⟨u.code, q, below.length⟩ := by
      rw [← Array.toList_inj, frames, Array.toList_push, List.append_assoc]
    have inner : ground.length ≤ (ground ++ own).toArray.size := by simp
    refine .of_takes tops running (hx (handBack_move base top inner k v)) lacks rfl
      fun m' tops' => .back ?_ ?_ (tops.untouched tops' base rfl)
    · have context : S.Context bottom ground a as u below own
          { o with frames := (ground ++ own).toArray, base := below.length } :=
        ⟨lays, rfl, by simp, keeps.of_eq rfl rfl rfl rfl, callers⟩
      rw [List.append_assoc _ pending] at tops'
      exact .of_ready context tops' resumes framed (pends.snoc (cell t rfl))
    · rw [tops.frames_eq, top, tops'.frames_eq, Array.size_push]

variable {out : Ty} {r : Routine} {id : Nat} {ins : List Ty}

section

variable (context : S.Context bottom ground a as u below own o)
include context

theorem stepped_ret (tops : m.Tops size (below ++ frame ++ pending) o) (running : o.halted = false)
    (pends : S.Cells pending ([] ++ [out])) (fetch : u.code.instr? p = some (make .ret (Kind.ofTy out)))
    (output : u.output = some out) (value : Kind.ofTy out ≠ .none) :
    S.Steps size bottom ground result (a :: as) u.code p m := by
  obtain ⟨rest, ⟨v, k⟩, rfl, hrest, ⟨rfl, holds⟩⟩ := pends.split_last
  cases hrest
  have hret : Machine.execute u.code (p + 1) ground.length .ret (Kind.ofTy out) =
      Machine.pop (Kind.ofTy out) >>= Machine.handBack (Kind.ofTy out) ground.length := by
    rw [Machine.execute, Machine.returnFrom_eq, Machine.popResult, if_neg value]
  have hx {post : Next → Machine → Prop} (hback : Takes size (below.length + 1)
      (Tops size (below ++ frame) o) (Machine.handBack (Kind.ofTy out) ground.length v) post) :
      Takes size (below.length + 1) (Tops size (below ++ frame ++ [⟨v, Kind.ofTy out⟩]) o)
        (Machine.dispatch u.code p ground.length) post :=
    dispatch fetch (hret ▸ (pop v _).read hback)
  refine .handBack context.callers context.base context.frames context.keeps tops (by simp) running hx
    (by simp [Machine.demand, Code.op?, fetch]) ?_
  rw [output]
  rintro t ⟨⟩
  exact ⟨rfl, holds⟩

/-- A return without a value: of a routine that has none to return, or behind the last
instruction of a top level. -/
theorem stepped_return (tops : m.Tops size (below ++ frame) o) (running : o.halted = false)
    (hx : ∀ {post : Next → Machine → Prop}, Takes size (below.length + 1) (Tops size (below ++ frame) o)
      (Machine.returnFrom .none ground.length) post → Takes size (below.length + 1)
      (Tops size (below ++ frame) o) (Machine.dispatch u.code p ground.length) post)
    (demand : m.demand u.code p = m.base + 1) (void : ∀ t, u.output = some t → Kind.ofTy t = .none) :
    S.Steps size bottom ground result (a :: as) u.code p m := by
  have hreturn : Machine.returnFrom .none ground.length = Machine.handBack .none ground.length .zero :=
    Machine.returnFrom_eq _ _
  exact .handBack context.callers context.base context.frames context.keeps tops (by simp) running
    (fun hback => hx (hreturn ▸ hback)) demand fun t ht => ⟨(void t ht).symm, S.zero t⟩

theorem ended_of_halted
    (tops : m.Tops size (below ++ frame ++ pending) { o with halted := true, frames := o.frames.take ground.length }) :
    S.Ended size bottom ground m := by
  have hlen := tops.length_le
  have hbottom := context.callers.bottom_le
  have htake : (o.frames.take ground.length).toList = o.frames.toList.take ground.length := by simp
  simp only [List.length_append] at hlen
  refine ⟨by omega, fun running => ?_, tops.tagsSize, tops.size, ?_, ?_⟩
  · rw [tops.halted_eq] at running
    cases running
  · rw [tops.frames_eq, htake, context.frames, List.take_left]
  · rw [tops.aside]
    exact context.keeps.of_eq rfl rfl rfl rfl

theorem stepped_halt (tops : m.Tops size (below ++ frame ++ pending) o) (running : o.halted = false)
    (fetch : u.code.instr? p = some (make .halt .none)) :
    S.Steps size bottom ground result (a :: as) u.code p m := by
  have hx : Takes size 0 (Tops size (below ++ frame ++ pending) o)
      (Machine.execute u.code (p + 1) ground.length .halt .none) fun next m' => next = .leave ∧
        m'.Tops size (below ++ frame ++ pending)
          { o with halted := true, frames := o.frames.take ground.length } := by
    refine Takes.after (.modify fun m h => ?_) fun _ => .pure fun m h => ⟨rfl, h⟩
    rw [h.frames_eq]
    exact (h.setFrames (o.frames.take ground.length)).setHalted true
  refine .of_takes tops running (dispatch fetch hx)
    (fun hfull => absurd hfull (Nat.not_lt_zero _)) rfl fun m' tops' =>
      .left (ended_of_halted context tops') ?_
  rw [List.append_assoc] at tops tops'
  exact tops.untouched tops' context.base rfl

/-- Nothing is done for a loop in a halted machine. -/
theorem stepped_halted (tops : m.Tops size (below ++ frame ++ pending) o) (halted : o.halted) :
    S.Steps size bottom ground result (a :: as) code p m := by
  have hx : Takes size 0 (Tops size (below ++ frame ++ pending) o)
      (Machine.taskStep result (.loop code p ground.length)) fun x m' => x = ([], result) ∧
        m'.Tops size (below ++ frame ++ pending)
          { o with halted := true, frames := o.frames.take ground.length } := by
    refine .get fun m h => ?_
    rw [h.halted_eq, halted]
    refine Takes.after (.modify fun m h => ?_) fun _ => .pure fun m h => ⟨rfl, h⟩
    rw [h.frames_eq, ← halted]
    exact h.setFrames _
  obtain ⟨x, m', hok, rfl, tops'⟩ := (hx tops).1 (Nat.zero_le _)
  rw [Steps, hok]
  refine .left (ended_of_halted context tops') ?_
  rw [List.append_assoc] at tops tops'
  exact tops.untouched tops' context.base rfl

end

/-- The frame of a routine holds its arguments and cleared values. -/
theorem cells_frameOf {v : StackMap} (locals : r.locals = v.frame.map Kind.ofTy)
    (inputs : r.type.inputs <+: v.frame) (hargs : S.Cells args r.type.inputs) :
    S.Cells (frameOf r args) v.frame := by
  obtain ⟨rest, hrest⟩ := inputs
  have hcleared : S.Cells (rest.map fun t => ⟨.zero, Kind.ofTy t⟩) rest := by
    rw [Cells, List.forall₂_map_left_iff]
    exact List.forall₂_same.2 fun t _ => ⟨rfl, S.zero t⟩
  have hdrop : (r.locals.drop args.length).map (fun k => (⟨.zero, k⟩ : Tagged)) =
      rest.map fun t => ⟨.zero, Kind.ofTy t⟩ := by
    rw [locals, ← hrest, hargs.length_eq, List.map_append, List.drop_left' (by simp), List.map_map]
    rfl
  rw [frameOf, hdrop, ← hrest]
  exact List.rel_append hargs hcleared

/-- A call of a routine of the type that is pending. -/
theorem Stepped.call {index : Int} (certified : S.Certified) (context : S.Context bottom ground a as u below own o)
    (tops : m.Tops size cells o) (split : below <+: cells) (running : o.halted = false)
    (framed : S.Cells frame u.frame) (hrest : S.Cells rest ts) (hargs : S.Cells args ins)
    (hx : ∀ {level : Nat} {post : Next → Machine → Prop},
      Takes size level (Tops size (below ++ frame ++ rest ++ args) o) (Machine.callRoutine u.code q index) post →
        Takes size level (Tops size cells o) (Machine.dispatch u.code p ground.length) post)
    (found : at? S.exe.routines index = some r) (type : r.type = .function id out ins)
    (callee : m.called? u.code p = some r)
    (demand : m.demand u.code p = (below ++ frame ++ rest).length + r.frameSize) (goes : u.Ready q (ts ++ [out])) :
    S.Steps size bottom ground result (a :: as) u.code p m := by
  have arity : args.length = r.arity := by
    rw [hargs.length_eq, arity, type]
    rfl
  obtain ⟨above, rfl⟩ := split
  cases hbody : r.body with
  | host builtin =>
    have hhost := hx (callRoutine_host context.keeps.exe found hbody u.code q)
    have hresume : Takes size 0 (Tops size (below ++ frame ++ rest ++ args) o)
        (Machine.resume u.code ground.length result (.host r builtin q)) fun x m' =>
          x = ([.script ⟨r, (below ++ frame ++ rest).length, o.base⟩ (builtin (args.map (·.slot))),
            .loop u.code q ground.length], result) ∧
          m'.Tops size (below ++ frame ++ rest ++ args)
            { o with base := (below ++ frame ++ rest).length } :=
      (beginHost arity builtin).read (.pure fun m h => ⟨rfl, h⟩)
    refine .of_takes_resume tops running hhost (fun hfull => absurd hfull (Nat.not_lt_zero _)) hresume ?_
    rintro x m' ⟨rfl, tops'⟩
    have returns : r.type.output? = some out := by rw [type]; rfl
    refine .host (.intro context tops' returns goes framed hrest) ?_
    rw [List.append_assoc, List.append_assoc] at tops'
    exact tops.untouched tops' context.base rfl
  | compiled code? ks =>
    have hlocals : r.locals = ks := by rw [locals, hbody]
    have hsize : r.frameSize = r.locals.length := by rw [frameSize, hbody, hlocals]
    obtain ⟨v, lays, locals, inputs, output⟩ := certified.routine found (by rw [isBuiltin, hbody])
    have hinputs : r.type.inputs = ins := by rw [type]; rfl
    have fits : r.arity ≤ r.locals.length := by
      rw [locals, List.length_map]
      exact inputs.length_le
    have kinds : args.map (·.kind) = r.locals.take args.length := by
      obtain ⟨more, hmore⟩ := inputs
      rw [hargs.kinds_eq, locals, ← hmore, hinputs, List.map_append, List.take_left' (by simp [hargs.length_eq])]
    have hcall := hx (callRoutine_code context.keeps.exe found (certified.code lays) arity fits
      kinds u.code q)
    refine .of_takes tops running hcall (fun hfull => ?_) rfl fun m' tops' => .into callee ?_ ?_ ?_
    · rw [demand, hsize]
      omega
    · have context' : S.Context bottom ground (.routine r) (a :: as) v (below ++ frame ++ rest)
          (own ++ [⟨u.code, q, below.length⟩])
          { o with frames := o.frames.push ⟨u.code, q, o.base⟩, base := (below ++ frame ++ rest).length } := by
        refine ⟨lays, rfl, ?_, context.keeps.of_eq rfl rfl rfl rfl, ?_⟩
        · rw [Array.toList_push, context.frames, context.base, List.append_assoc]
        · have hout : v.output = some out := by
            rw [output, type]
            rfl
          rw [hout]
          exact .caller context.lays framed hrest goes context.callers
      rw [← List.append_nil (_ ++ frameOf r args)] at tops'
      exact .intro context' tops' (certified.start lays) (cells_frameOf locals inputs (hinputs ▸ hargs)) .nil
    · rw [tops'.frames_eq, tops.frames_eq, Array.size_push]
    · rw [List.append_assoc, List.append_assoc] at tops'
      exact tops.untouched tops' context.base rfl

theorem stepped_call (certified : S.Certified) (h : S.Poised size bottom ground a as u below frame pending own o m)
    (pends : S.Cells pending (ts ++ ins)) (fetch : u.code.instr? p = some (make .call .none))
    (operand : u.code.int? ((p : Int) + 1) = some i) (found : at? S.exe.routines i.toInt = some r)
    (type : r.type = .function id out ins) (goes : u.Ready (p + 2) (ts ++ [out])) :
    S.Steps size bottom ground result (a :: as) u.code p m := by
  obtain ⟨context, tops, running, framed⟩ := h
  obtain ⟨rest, args, rfl, hrest, hargs⟩ := pends.split
  rw [← List.append_assoc] at tops
  have hx {level : Nat} {post : Next → Machine → Prop} (h : Takes size level
      (Tops size (below ++ frame ++ rest ++ args) o) (Machine.callRoutine u.code (p + 2 : Nat) i.toInt) post) :
      Takes size level (Tops size (below ++ frame ++ rest ++ args) o)
        (Machine.dispatch u.code p ground.length) post := by
    have hpc : ((p + 2 : Nat) : Int) = p + 1 + 1 := by push_cast; omega
    exact dispatch fetch ((Machine.takes_operand operand rfl).read h)
  have callee : m.called? u.code p = some r := by
    have hroutines : m.routines = S.exe.routines := by rw [Machine.routines, tops.exe_eq, context.keeps.exe]
    simp [Machine.called?, Code.op?, fetch, operand, hroutines, found]
  have demand : m.demand u.code p = (below ++ frame ++ rest).length + r.frameSize := by
    have arity : r.arity = args.length := by rw [hargs.length_eq, arity, type]; rfl
    simp only [Machine.demand, Machine.popped, callee, Code.op?, fetch, Option.bind_some, op?_make,
      Option.elim_some, kind_make, pops, arity, tops.sp, List.length_append]
    omega
  exact .call certified context tops (by simp) running framed hrest hargs hx found type callee demand goes

theorem stepped_callR (certified : S.Certified) (h : S.Poised size bottom ground a as u below frame pending own o m)
    (pends : S.Cells pending (ts ++ ins ++ [.function id out ins]))
    (fetch : u.code.instr? p = some (make .callR .none)) (callee : m.called? u.code p = some r)
    (type : r.type = .function id out ins) (goes : u.Ready (p + 1) (ts ++ [out])) :
    S.Steps size bottom ground result (a :: as) u.code p m := by
  obtain ⟨context, tops, running, framed⟩ := h
  obtain ⟨upper, ⟨v, k⟩, rfl, hupper, ⟨rfl, -⟩⟩ := pends.split_last
  obtain ⟨rest, args, rfl, hrest, hargs⟩ := hupper.split
  rw [← List.append_assoc, ← List.append_assoc] at tops
  have hkind : Kind.ofTy (.function id out ins) = .int := rfl
  have found : at? S.exe.routines v.toInt.toInt = some r := by
    have hroutines : m.routines = S.exe.routines := by rw [Machine.routines, tops.exe_eq, context.keeps.exe]
    simpa [Machine.called?, Code.op?, fetch, tops.at?_last, hroutines] using callee
  have hx {level : Nat} {post : Next → Machine → Prop} (h : Takes size level
      (Tops size (below ++ frame ++ rest ++ args) o)
      (Machine.callRoutine u.code (p + 1 : Nat) v.toInt.toInt) post) :
      Takes size level (Tops size (below ++ frame ++ rest ++ args ++ [⟨v, .int⟩]) o)
        (Machine.dispatch u.code p ground.length) post := by
    have hpc : ((p + 1 : Nat) : Int) = p + 1 := by push_cast; rfl
    exact dispatch fetch ((popInt v).read h)
  have demand : m.demand u.code p = (below ++ frame ++ rest).length + r.frameSize := by
    have arity : r.arity = args.length := by rw [hargs.length_eq, arity, type]; rfl
    simp only [Machine.demand, Machine.popped, callee, Code.op?, fetch, Option.bind_some, op?_make,
      Option.elim_some, kind_make, pops, arity, tops.sp, List.length_append,
      List.length_singleton]
    omega
  exact .call certified context tops (by simp) running framed hrest hargs hx found type callee demand goes

end

variable (S) in
/-- A call through a value at a position goes to a routine of the type that is pending there. -/
def Honest (u : StackMap) (p : Nat) (m : Machine) : Prop :=
  ∀ {ts ins : List Ty} {out : Ty} {id : Nat}, u.At p (ts ++ ins ++ [.function id out ins]) →
    u.code.instr? p = some (Instr.make .callR .none) →
    ∃ r, m.called? u.code p = some r ∧ r.type = .function id out ins

variable {p : Nat} {m : Machine}

/-- Every step of typed code is of one of the sorts. -/
theorem Active.stepped {code : Code} {result : Slot} (certified : S.Certified)
    (active : S.Active size bottom ground as code p m)
    (honest : ∀ {a u}, as.head? = some a → S.Lays a u → Honest u p m) :
    S.Steps size bottom ground result as code p m := by
  generalize hpc : (p : Int) = pc at active
  cases active with
  | @intro a as u q below frame pending own ts o m context tops here framed pends =>
    obtain rfl : p = q := by omega
    cases hhalted : o.halted with
    | true => exact stepped_halted context tops hhalted
    | false =>
      have poised : S.Poised size bottom ground a as u below frame pending own o m :=
        ⟨context, tops, hhalted, framed⟩
      cases certified.admits context.lays here with
      | push fetch constant pushes cell goes =>
        exact stepped_push poised pends fetch constant pushes cell goes
      | loadGlobal fetch operand index found goes =>
        exact stepped_loadGlobal poised pends fetch operand index found goes
      | storeGlobal fetch operand index found goes =>
        exact stepped_storeGlobal poised pends fetch operand index found goes
      | loadLocal fetch operand index found goes =>
        exact stepped_loadLocal poised pends fetch operand index found goes
      | storeLocal fetch operand index found goes =>
        exact stepped_storeLocal poised pends fetch operand index found goes
      | pop fetch goes => exact stepped_pop poised pends fetch goes
      | unary fetch exists_ kind plain goes =>
        exact stepped_unary poised pends fetch exists_ kind plain goes
      | binary fetch exists_ kind plain goes =>
        exact stepped_binary poised pends fetch exists_ kind plain goes
      | select fetch cond goes => exact stepped_select poised pends fetch cond goes
      | jump fetch operand address goes =>
        exact stepped_jump poised pends fetch operand address goes
      | branch which fetch operand address cond goes stays =>
        exact stepped_branch poised pends which fetch operand address cond goes stays
      | call fetch operand found type goes =>
        exact stepped_call certified poised pends fetch operand found type goes
      | callR fetch goes =>
        obtain ⟨r, callee, type⟩ := honest rfl context.lays here fetch
        exact stepped_callR certified poised pends fetch callee type goes
      | ret fetch output value => exact stepped_ret context tops hhalted pends fetch output value
      | retNothing fetch output void =>
        cases pends
        rw [List.append_nil] at tops
        refine stepped_return context tops hhalted (fun h => dispatch fetch h)
          (by simp [Machine.demand, Code.op?, fetch]) ?_
        rw [output]
        rintro t ⟨⟩
        exact void
      | halt fetch => exact stepped_halt context tops hhalted fetch
      | last atEnd output =>
        cases pends
        rw [List.append_nil] at tops
        refine stepped_return context tops hhalted (fun {post} h => ?_) ?_ ?_
        · have hover : Machine.dispatch u.code p ground.length = Machine.returnFrom .none ground.length := by
            rw [Machine.dispatch, if_neg (by omega)]
          rw [hover]
          exact h
        · simp [Machine.demand, Code.op?, Code.instr?_eq_none (Nat.le_of_eq atEnd.symm)]
        · rw [output]
          rintro t ⟨⟩

/-- No instruction takes more than what is pending. -/
theorem Admits.popped_le {u : StackMap} {ts : List Ty} (h : S.Admits u p ts) (here : u.At p ts)
    (loaded : m.exe = some S.exe) (honest : Honest u p m) : m.popped u.code p ≤ ts.length := by
  cases h with
  | @push _ t op k c next fetch constant =>
    cases op with
    | pushImm | pushZero | pushOne | pushNull =>
      rw [Machine.popped_of_not_call fetch nofun nofun]
      exact Nat.zero_le _
    | _ => cases constant
  | loadGlobal fetch | loadLocal fetch | jump fetch | halt fetch =>
    rw [Machine.popped_of_not_call fetch nofun nofun]
    exact Nat.zero_le _
  | storeGlobal fetch | storeLocal fetch | pop fetch | unary fetch | binary fetch | select fetch =>
    rw [Machine.popped_of_not_call fetch nofun nofun]
    simp [pops]
  | branch which fetch =>
    rcases which with rfl | rfl
    · rw [Machine.popped_of_not_call fetch nofun nofun]
      simp [pops]
    · rw [Machine.popped_of_not_call fetch nofun nofun]
      simp [pops]
  | ret fetch output value =>
    rw [Machine.popped_of_not_call fetch nofun nofun, pops, if_neg value]
    exact Nat.le_refl _
  | retNothing fetch =>
    rw [Machine.popped_of_not_call fetch nofun nofun]
    exact Nat.le_refl _
  | @call _ _ _ _ _ r fetch operand found type =>
    have hroutines : m.routines = S.exe.routines := by rw [Machine.routines, loaded]
    have callee : m.called? u.code p = some r := by
      simp only [Machine.called?, Code.op?, fetch, Option.bind_some, op?_make, operand, hroutines]
      exact found
    rw [Machine.popped_eq fetch, callee, Option.elim_some, arity, type, List.length_append]
    exact Nat.add_le_add (Nat.zero_le _) (Nat.le_refl _)
  | callR fetch =>
    obtain ⟨r, callee, type⟩ := honest here fetch
    rw [Machine.popped_eq fetch, callee, Option.elim_some, arity, type]
    simp only [pops, Ty.inputs, List.length_append, List.length_singleton]
    omega
  | last atEnd =>
    simp [Machine.popped, Code.instr?_eq_none (Nat.le_of_eq atEnd.symm)]

end Stage
end Stackwork
