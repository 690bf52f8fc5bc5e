import Mathlib.Data.List.Forall2
import Stackwork.Proofs.Machine.Frames
import Stackwork.Proofs.Machine.Pairs

/-!
# Machines that cannot be told apart

Two machines that show the same face, that is the same memories, registers, program and
objects, but may differ in what no instruction and no host function can see: the frames below
those of the running loops, the tags of slots, and the journal. `Machine.Parity` says what such
a relation has to bear. Everything but the return from a routine and HALT then does the same on
both sides, host functions included.
-/
namespace Stackwork

namespace Machine

/-- What instructions and host functions can tell of a machine, apart from faults. -/
structure Face where
  heap : Array Slot
  stack : Array Slot
  sp : Int
  base : Int
  exe : Option Executable
  objects : Array HostObject
  halted : Bool

def face (m : Machine) : Face := ⟨m.heap, m.stack, m.sp, m.base, m.exe, m.objects, m.halted⟩

/-- A machine that shows another face. -/
def wear (m : Machine) (F : Face) : Machine :=
  { m with heap := F.heap, stack := F.stack, sp := F.sp, base := F.base, exe := F.exe,
           objects := F.objects, halted := F.halted }

variable {d : Nat} {m : Machine}

theorem findCaller_of_outermost (h : m.frames.size = d) : findCaller d m = .ok .leave m := by
  change (if m.frames.size = d then _ else _ : Op Next) m = _
  rw [if_pos h]
  rfl

theorem findCaller_of_none (h : m.frames.back? = none) : findCaller d m = .ok .leave m := by
  by_cases hd : m.frames.size = d
  · exact findCaller_of_outermost hd
  change (if m.frames.size = d then _ else _ : Op Next) m = _
  rw [if_neg hd]
  refine Op.bind_eq_ok.2 ⟨m, m, rfl, ?_⟩
  rw [h]
  rfl

theorem findCaller_of_inner {f : Frame} (h : m.frames.size ≠ d) (hf : m.frames.back? = some f) :
    findCaller d m = .ok (.move f.code f.pc) { m with frames := m.frames.pop, base := f.base } := by
  change (if m.frames.size = d then _ else _ : Op Next) m = _
  rw [if_neg h]
  refine Op.bind_eq_ok.2 ⟨m, m, rfl, ?_⟩
  rw [hf]
  rfl

end Machine

/-- Nothing is asked of positions. -/
theorem handedOn_true : HandedOn fun _ _ => True := ⟨fun _ => trivial, fun _ _ _ => trivial⟩

/-- Two tasks that differ at most in the frame depth of a loop. -/
inductive Task.Like (D : Nat → Nat → Prop) : Task → Task → Prop where
  | loop {d d' : Nat} (code : Code) (pc : Int) (depth : D d d') :
      Like D (.loop code pc d) (.loop code pc d')
  | script (call : HostCall) (rest : HostScript) : Like D (.script call rest) (.script call rest)
  | waiting (call : HostCall) (next : Slot → HostScript) :
      Like D (.waiting call next) (.waiting call next)
  | closeBlock (sp base : Int) : Like D (.closeBlock sp base) (.closeBlock sp base)
  | closeCall (bottom base : Int) : Like D (.closeCall bottom base) (.closeCall bottom base)

open Op (Pairs Steady)

/-- A relation between machines that show the same face, with the frame depths that correspond
to each other. -/
structure Machine.Parity (spare : Prop) (R : Machine → Machine → Prop) (D : Nat → Nat → Prop) :
    Prop where
  face {m n : Machine} (h : R m n) : m.face = n.face
  wear {m n : Machine} (h : R m n) (F : Face) : R (m.wear F) (n.wear F)
  write {m n : Machine} (h : R m n) (line : String) : R (m.write line) (n.write line)
  depth {m n : Machine} (h : R m n) : D m.frames.size n.frames.size
  pushFrame {m n : Machine} (h : R m n) (f : Frame) :
    R { m with frames := m.frames.push f } { n with frames := n.frames.push f }
  readHeap (i : Int) (k : Kind) : Steady spare R (readHeap i k)
  writeHeap (i : Int) (v : Slot) (k : Kind) :
    Steady spare R (writeHeap i v k)
  readStack (i : Int) (k : Kind) : Steady spare R (readStack i k)
  writeStack (i : Int) (v : Slot) (k : Kind) :
    Steady spare R (writeStack i v k)
  enter (r : Routine) : Steady spare R (enter r)
  endHost (call : HostCall) (v : Slot) : Steady spare R (endHost call v)

namespace Machine.Parity

variable {spare : Prop} {R : Machine → Machine → Prop} {D : Nat → Nat → Prop} {m n : Machine}

section

variable (h : Parity spare R D)
include h

theorem sp (hR : R m n) : m.sp = n.sp := congrArg Face.sp (h.face hR)

theorem base (hR : R m n) : m.base = n.base := congrArg Face.base (h.face hR)

theorem halted (hR : R m n) : m.halted = n.halted :=
  congrArg Face.halted (h.face hR)

theorem stack (hR : R m n) : m.stack = n.stack :=
  congrArg Face.stack (h.face hR)

theorem heap (hR : R m n) : m.heap = n.heap := congrArg Face.heap (h.face hR)

theorem objects (hR : R m n) : m.objects = n.objects :=
  congrArg Face.objects (h.face hR)

theorem routines (hR : R m n) : m.routines = n.routines := by
  simp only [Machine.routines, show m.exe = n.exe from congrArg Face.exe (h.face hR)]

/-- Change one part of the face on both sides. -/
theorem change (f : Face → Face) (hR : R m n) : R (m.wear (f m.face)) (n.wear (f n.face)) := by
  rw [← h.face hR]
  exact h.wear hR _

theorem changing (f : Face → Face) :
    Pairs spare R R R Eq (modify fun m => m.wear (f m.face) : Op PUnit)
      (modify fun m => m.wear (f m.face)) :=
  .modify fun _ _ hR => h.change f hR

theorem setBase (base : Int) : Pairs spare R R R Eq (modify fun m => { m with base } : Op PUnit)
      (modify fun m => { m with base }) :=
  h.changing fun F => { F with base }

theorem likeness : Likeness spare R (fun _ => True) fun _ => True where
  base hR := h.base hR
  drop hR := h.change (fun F => { F with sp := F.sp - 1 }) hR
  push v k := .get fun m n hR => by
    rw [h.sp hR]
    exact (h.writeStack _ v k).bindEq fun _ => h.changing fun F => { F with sp := F.sp + 1 }
  pop k := (h.changing fun F => { F with sp := F.sp - 1 }).bindEq fun _ => .get fun m n hR => by
    rw [h.sp hR]
    exact h.readStack _ k
  readHeap _ k := h.readHeap _ k
  writeHeap _ v k := h.writeHeap _ v k
  readStack _ k := h.readStack _ k
  writeStack _ v k := h.writeStack _ v k

theorem putResult (k : Kind) (v : Slot) : Steady spare R (putResult k v) :=
  .get fun m n hR => by
    rw [← h.base hR]
    exact .bindEq (h.writeStack _ _ _) fun _ => h.changing fun F => { F with sp := m.base + 1 }

theorem callRoutine (code : Code) (pc index : Int) :
    Steady spare R (callRoutine code pc index) := by
  refine .get fun m n hR => ?_
  rw [h.routines hR]
  refine .bindEq (.require rfl fun _ _ hR => hR) fun r => ?_
  cases r.body with
  | host builtin => exact .pure rfl
  | compiled target ks =>
    refine .bindEq (.modify fun m n hR => ?_) fun _ => .bindEq (h.enter r) fun base =>
      .bindEq (h.setBase base) fun _ => ?_
    · rw [show (⟨code, pc, n.base⟩ : Frame) = ⟨code, pc, m.base⟩ by rw [h.base hR]]
      exact h.pushFrame hR _
    · cases target with
      | none => exact .fault _ fun _ _ hR => hR
      | some target => exact .pure rfl

/-- What an instruction does that is neither a return nor HALT. -/
theorem work (code : Code) (pc : Int) (d d' : Nat) {i : Instr}
    (hret : i.op? ≠ some .ret) (hhalt : i.op? ≠ some .halt) :
    Pairs spare R R R Eq (work code pc d i) (work code pc d' i) := by
  unfold Machine.work
  cases hop : i.op? with
  | none => exact .pure rfl
  | some op =>
    rw [hop] at hret hhalt
    by_cases hcall : op = .call
    · subst hcall
      exact Likeness.operand fun v _ => h.callRoutine _ _ _
    by_cases hcallR : op = .callR
    · subst hcallR
      exact h.likeness.popInt.bindEq fun _ => h.callRoutine _ _ _
    exact h.likeness.execute d d' _ hcall hcallR (fun e => hret (e ▸ rfl)) (fun e => hhalt (e ▸ rfl))
      (fun _ _ _ => trivial) fun _ _ _ _ _ _ => trivial

/-- A dispatch, given what becomes of trace lines, returns and HALT. -/
theorem dispatch {S : Machine → Machine → Prop} {Q : Next → Next → Prop}
    {code : Code} {pc : Int} {d d' : Nat} (hRS : ∀ m n, R m n → S m n) (hQ : ∀ next, Q next next)
    (htrace : ∀ i, code.instr? pc = some i → Steady spare R (trace code pc i))
    (hret : ∀ k, Pairs spare R R S Q (returnFrom k d) (returnFrom k d'))
    (hhalt : ∀ k, Pairs spare R R S Q (execute code (pc + 1) d .halt k)
      (execute code (pc + 1) d' .halt k)) :
    Pairs spare R R S Q (dispatch code pc d) (dispatch code pc d') := by
  by_cases hpc : pc < code.size
  case neg =>
    unfold Machine.dispatch
    rw [if_neg hpc, if_neg hpc]
    exact hret _
  rw [dispatch_of_lt d hpc, dispatch_of_lt d' hpc]
  refine .found (fun _ _ hR => hR) fun w hw => .bindEq (htrace ⟨w⟩ (by simp [Code.instr?, hw])) fun _ => ?_
  by_cases hr : (Instr.mk w).op? = some .ret
  · simp only [Machine.work, hr]
    exact hret _
  by_cases hh : (Instr.mk w).op? = some .halt
  · simp only [Machine.work, hh]
    exact hhalt _
  exact (h.work code pc d d' hr hh).mono (fun _ _ hR => hR) hRS fun a b hab => hab ▸ hQ a

theorem pushArgs (args : List Slot) (inputs : List Ty) : Steady spare R (pushArgs args inputs) := by
  induction args generalizing inputs with
  | nil => exact .pure rfl
  | cons v vs ih =>
    cases inputs with
    | nil => exact .pure rfl
    | cons t ts => exact (h.likeness.push _ _).bindEq fun _ => ih ts

theorem beginHost (r : Routine) (builtin : Builtin) :
    Pairs spare R R R (Task.Like D) (beginHost r builtin) (beginHost r builtin) := by
  intro m n hR
  have hsp := h.sp hR
  have hstack := h.stack hR
  unfold Machine.beginHost
  refine if hroom : 0 ≤ m.sp - r.arity ∧ m.sp ≤ m.stack.size then ?_ else ?_
  · have hroom' : 0 ≤ n.sp - r.arity ∧ n.sp ≤ n.stack.size := hsp ▸ hstack ▸ hroom
    simp only [if_pos hroom, if_pos hroom']
    refine .ok ?_ (h.change (fun F => { F with base := F.sp - r.arity }) hR)
    rw [hsp, hstack, h.base hR]
    exact .script _ _
  · have hroom' : ¬ (0 ≤ n.sp - r.arity ∧ n.sp ≤ n.stack.size) := hsp ▸ hstack ▸ hroom
    simp only [if_neg hroom, if_neg hroom']
    exact .error hR

/-- Tasks begun on both sides. -/
abbrev Tasks (D : Nat → Nat → Prop) : List Task → List Task → Prop := List.Forall₂ (Task.Like D)

theorem beginBlock (code : Code) :
    Pairs spare R R R (Tasks D) (beginBlock code) (beginBlock code) := by
  intro m n hR
  have hclose : Tasks D [.closeBlock m.sp m.base] [.closeBlock n.sp n.base] := by
    rw [h.sp hR, h.base hR]
    exact .cons (.closeBlock _ _) .nil
  exact .ok (.cons (.loop code 0 (h.depth hR)) hclose)
    (h.change (fun F => { F with halted := false, base := F.sp }) hR)

theorem beginCall (r : Routine) (args : List Slot) :
    Pairs spare R R R (Tasks D) (beginCall r args) (beginCall r args) := by
  refine .bindEq (h.changing fun F => { F with halted := false }) fun _ => .get fun m n hR =>
    .get fun m' n' hR' => .bindEq (h.pushArgs _ _) fun _ => ?_
  have hclose : Tasks D [.closeCall m.sp m'.base] [.closeCall n.sp n'.base] := by
    rw [h.sp hR, h.base hR']
    exact .cons (.closeCall _ _) .nil
  cases r.body with
  | host builtin => exact (h.beginHost r builtin).bind fun t t' ht => .pure (.cons ht hclose)
  | compiled code ks =>
    refine .get fun m n hR => .bindEq (h.enter r) fun base => .bindEq (h.setBase base) fun _ => ?_
    cases code with
    | none => exact .fault _ fun _ _ hR => hR
    | some code => exact .pure (.cons (.loop code 0 (h.depth hR)) hclose)

end

theorem setGlobal?_eq (m : Machine) (index : Int) (v : Slot) : m.setGlobal? index v =
    if 0 ≤ index ∧ index < m.heap.size then
      some (m.wear { m.face with heap := m.face.heap.setIfInBounds index.toNat v })
    else none := rfl

/-- A host function writes a heap slot, and goes on. -/
theorem writeGlobal (h : Parity spare R D) (index : Int) (v : Slot) {α : Type} {Q : α → α → Prop}
    {f : Op α} (hf : Pairs spare R R R Q f f) :
    Pairs spare R R R Q (do set (← require ((← get).setGlobal? index v)); f)
      (do set (← require ((← get).setGlobal? index v)); f) := by
  intro m n hR
  change Op.Alike spare R R Q ((require (m.setGlobal? index v) >>= _) m)
    ((require (n.setGlobal? index v) >>= _) n)
  rw [setGlobal?_eq, setGlobal?_eq, ← h.heap hR]
  by_cases hi : 0 ≤ index ∧ index < m.heap.size
  · rw [if_pos hi, if_pos hi]
    exact hf (h.change (fun F => { F with heap := F.heap.setIfInBounds index.toNat v }) hR)
  · rw [if_neg hi, if_neg hi]
    exact .error hR

theorem scriptStep (h : Parity spare R D) (call : HostCall) (script : HostScript) :
    Pairs spare R R R (Tasks D) (scriptStep call script) (scriptStep call script) := by
  have one (s : HostScript) : Tasks D [.script call s] [.script call s] := .cons (.script _ _) .nil
  cases script with
  | done v => exact (h.endHost _ _).bindEq fun _ => .pure .nil
  | log line next => exact .bindEq (.modify fun _ _ hR => h.write hR line) fun _ => .pure (one _)
  | registers next =>
    refine .get fun m n hR => ?_
    simp only [registers, h.sp hR, h.base hR, h.halted hR]
    exact .pure (one _)
  | object handle next =>
    refine .get fun m n hR => ?_
    simp only [object, h.objects hR]
    exact .pure (one _)
  | stack next =>
    refine .get fun m n hR => ?_
    simp only [liveStack?, h.sp hR, h.stack hR]
    exact .bindEq (.require rfl fun _ _ hR => hR) fun _ => .pure (one _)
  | readGlobal index next =>
    refine .get fun m n hR => ?_
    simp only [global?, h.heap hR]
    exact .bindEq (.require rfl fun _ _ hR => hR) fun _ => .pure (one _)
  | writeGlobal index value next => exact h.writeGlobal index value (.pure (one _))
  | newObject value next =>
    refine .bindEq (x := modifyGet fun m => m.newObject value) (R := R) ?_ fun _ => .pure (one _)
    intro m n hR
    refine .ok ?_ ?_
    · rw [h.objects hR]
    · exact h.change (fun F => { F with objects := F.objects.push value }) hR
  | call index args next =>
    refine .get fun m n hR => ?_
    simp only [callee, h.routines hR]
    split
    · exact .pure (one _)
    · exact (h.beginCall _ _).bind fun ts ts' hts =>
        .pure (List.rel_append hts (.cons (.waiting _ _) .nil))
  | execute code next =>
    exact (h.beginBlock code).bind fun ts ts' hts =>
      .pure (List.rel_append hts (.cons (.waiting _ _) .nil))

theorem endCall (h : Parity spare R D) (bottom base : Int) :
    Steady spare R (endCall bottom base) := by
  refine .get fun m n hR => ?_
  rw [h.halted hR]
  refine .ite Iff.rfl (fun _ => ?_) fun _ => .get fun m n hR => ?_
  · exact .bindEq (.pure rfl) fun _ =>
      .bindEq (h.changing fun F => { F with sp := bottom, base := base }) fun _ => .pure rfl
  · rw [h.stack hR]
    exact .bindEq (.require rfl fun _ _ hR => hR) fun _ =>
      .bindEq (h.changing fun F => { F with sp := bottom, base := base }) fun _ => .pure rfl

/-- What a step leaves behind: tasks that correspond, and one result. -/
def Left (D : Nat → Nat → Prop) (p q : List Task × Slot) : Prop := Tasks D p.1 q.1 ∧ p.2 = q.2

/-- A task that is no loop takes the same step on both sides. -/
theorem taskStep (h : Parity spare R D) {t : Task} (ht : ∀ code pc d, t ≠ .loop code pc d) (v : Slot) :
    Pairs spare R R R (Left D) (taskStep v t) (taskStep v t) := by
  cases t with
  | loop code pc d => exact absurd rfl (ht code pc d)
  | script call rest => exact (h.scriptStep call rest).bind fun ts ts' hts => .pure ⟨hts, rfl⟩
  | waiting call next => exact .pure ⟨.cons (.script _ _) .nil, rfl⟩
  | closeBlock sp base =>
    exact .bindEq (h.changing fun F => { F with sp := sp, base := base }) fun _ => .pure ⟨.nil, rfl⟩
  | closeCall bottom base => exact (h.endCall bottom base).bindEq fun _ => .pure ⟨.nil, rfl⟩

end Machine.Parity
end Stackwork
