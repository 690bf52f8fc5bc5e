import Stackwork.Proofs.Machine.Restoring
import Stackwork.Proofs.Machine.Twins

/-!
# Where the outermost routine of a loop has its frame

A loop may be deep in calls, but when it is back in the code it began with, BASE is what it was
then: the bottom of the call that the loop belongs to, or SP at the beginning of the block. In
between, the value waits in the first frame of the loop, and while a host function is at work,
in what the function has to restore. `Task.Rooted` says so of all loops of a machine at once.
-/
namespace Stackwork

/-- Every code that a host function may come to execute has `P`. -/
def HostScript.Executes (P : Code → Prop) : HostScript → Prop
  | done _ => True
  | log _ next | writeGlobal _ _ next => next.Executes P
  | registers next => ∀ r, (next r).Executes P
  | stack next => ∀ slots, (next slots).Executes P
  | readGlobal _ next => ∀ v, (next v).Executes P
  | newObject _ next => ∀ handle, (next handle).Executes P
  | object _ next => ∀ o, (next o).Executes P
  | call _ _ next => ∀ answer, (next answer).Executes P
  | execute code next => P code ∧ next.Executes P

/-- The code of a block has `P`. -/
def Execution.Executes (P : Code → Prop) : Execution → Prop
  | block code => P code
  | call _ _ => True

/-- A routine that is called is in the function table. -/
def Execution.Found (m : Machine) : Execution → Prop
  | block _ => True
  | call r _ => ∃ index, Machine.at? m.routines index = some r

/-- A call has as many arguments as the routine takes. -/
def Execution.Complete : Execution → Prop
  | block _ => True
  | call r args => args.length = r.arity

namespace Machine

variable {m m' : Machine} {args : List Slot} {r : Routine}

variable {index : Int}

theorem routine_of_callee (h : m.callee index args = .ok r) : at? m.routines index = some r := by
  unfold callee at h
  split at h
  · cases h
  · next found =>
    split at h <;> cases h
    exact found

theorem length_of_callee (h : m.callee index args = .ok r) : args.length = r.arity := by
  unfold callee at h
  split at h
  · cases h
  · split at h <;> cases h
    assumption

/-- Each argument moves SP by one. -/
theorem sp_of_pushArgs {inputs : List Ty} (hlen : args.length = inputs.length)
    (h : pushArgs args inputs m = .ok () m') : m'.sp = m.sp + args.length := by
  induction args generalizing inputs m with
  | nil =>
    cases h
    simp
  | cons v vs ih =>
    cases inputs with
    | nil => simp at hlen
    | cons t ts =>
      obtain ⟨_, m₁, hpush, h₁⟩ := Op.bind_eq_ok.1 h
      have hsp : m₁.sp = m.sp + 1 := by
        obtain ⟨_, _, hget, h₂⟩ := Op.bind_eq_ok.1 hpush
        cases hget
        obtain ⟨_, m₂, hwrite, h₃⟩ := Op.bind_eq_ok.1 h₂
        cases h₃
        unfold writeStack at hwrite
        split at hwrite <;> cases hwrite
        rfl
      have := ih (by simpa using hlen) h₁
      rw [this, hsp, List.length_cons]
      push_cast
      omega

/-- The frame of a routine begins below its arguments. -/
theorem base_of_enter {base : Int} (h : enter r m = .ok base m') : base = m.sp - r.arity := by
  unfold enter at h
  simp only at h
  split at h <;> cases h
  rfl

theorem loopStep_of_halted (h : m.halted = true) (v : Slot) (code : Code) (pc : Int) (d : Nat) :
    taskStep v (.loop code pc d) m = .ok ([], v) { m with frames := m.frames.take d } := by
  refine (EStateM.bind_of_ok rfl).trans ?_
  rw [if_pos h]
  rfl

theorem loopStep_of_running (h : m.halted = false) (v : Slot) (code : Code) (pc : Int) (d : Nat) :
    taskStep v (.loop code pc d) m = (dispatch code pc d >>= resume code d v) m := by
  refine (EStateM.bind_of_ok rfl).trans ?_
  rw [if_neg (by simp [h])]
  refine congrArg (fun f => (dispatch code pc d >>= f) m) (funext fun next => ?_)
  cases next <;> rfl

/-- What a step of a host function comes to: it is done, it goes on, or it begins an execution and
waits. Only the end of the function asks which call it belongs to. -/
inductive ScriptFlow (call : HostCall) (script : HostScript) (m : Machine) : List Task → Machine → Prop where
  | done {v : Slot} {m' : Machine} (last : script = .done v) (ends : endHost call v m = .ok () m') :
      ScriptFlow call script m [] m'
  | again {rest : HostScript} {m' : Machine}
      (same : ∀ call', scriptStep call' script m = .ok [.script call' rest] m')
      (keeps : ∀ P, script.Executes P → rest.Executes P) :
      ScriptFlow call script m [.script call rest] m'
  | begins {x : Execution} {tasks : List Task} {next : Slot → HostScript} {m' : Machine}
      (complete : x.Complete) (begun : x.begin m = .ok tasks m')
      (same : ∀ call', scriptStep call' script m = .ok (tasks ++ [.waiting call' next]) m')
      (found : x.Found m)
      (keeps : ∀ P, script.Executes P → x.Executes P ∧ ∀ v, (next v).Executes P) :
      ScriptFlow call script m (tasks ++ [.waiting call next]) m'

theorem scriptFlow_of_scriptStep {call : HostCall} {script : HostScript} {tasks : List Task}
    (h : scriptStep call script m = .ok tasks m') : ScriptFlow call script m tasks m' := by
  cases script with
  | done v =>
    obtain ⟨_, m₁, ends, h₁⟩ := Op.bind_eq_ok.1 h
    cases h₁
    exact .done rfl ends
  | log line next =>
    cases h
    exact .again (fun _ => rfl) fun _ hP => hP
  | registers next | newObject value next | object handle next =>
    cases h
    exact .again (fun _ => rfl) fun _ hP => hP _
  | stack next | readGlobal index next =>
    obtain ⟨_, _, hget, h₁⟩ := Op.bind_eq_ok.1 h
    cases hget
    obtain ⟨_, _, hreq, h₂⟩ := Op.bind_eq_ok.1 h₁
    cases h₂
    exact .again (fun _ => Op.bind_eq_ok.2 ⟨_, _, rfl, Op.bind_eq_ok.2 ⟨_, _, hreq, rfl⟩⟩)
      fun _ hP => hP _
  | writeGlobal index value next =>
    obtain ⟨_, _, hget, h₁⟩ := Op.bind_eq_ok.1 h
    cases hget
    obtain ⟨_, _, hreq, h₂⟩ := Op.bind_eq_ok.1 h₁
    cases h₂
    exact .again (fun _ => Op.bind_eq_ok.2 ⟨_, _, rfl, Op.bind_eq_ok.2 ⟨_, _, hreq, rfl⟩⟩)
      fun _ hP => hP
  | call index args next =>
    obtain ⟨_, _, hget, h₁⟩ := Op.bind_eq_ok.1 h
    cases hget
    cases hcallee : m.callee index args with
    | error e =>
      simp only [hcallee] at h₁
      cases h₁
      refine .again (fun _ => Op.bind_eq_ok.2 ⟨_, _, rfl, ?_⟩) fun _ hP => hP _
      simp only [hcallee]
      rfl
    | ok r =>
      simp only [hcallee] at h₁
      obtain ⟨ts, m₁, begun, h₂⟩ := Op.bind_eq_ok.1 h₁
      cases h₂
      refine .begins (x := .call r args) (length_of_callee hcallee) begun
        (fun _ => Op.bind_eq_ok.2 ⟨_, _, rfl, ?_⟩) ⟨index, routine_of_callee hcallee⟩
        fun _ hP => ⟨trivial, fun v => hP _⟩
      simp only [hcallee]
      exact Op.bind_eq_ok.2 ⟨_, _, begun, rfl⟩
  | execute code next =>
    obtain ⟨ts, m₁, begun, h₁⟩ := Op.bind_eq_ok.1 h
    cases h₁
    exact .begins (x := .block code) trivial begun (fun _ => Op.bind_eq_ok.2 ⟨_, _, begun, rfl⟩)
      trivial fun _ hP => ⟨hP.1, fun _ => hP.2⟩

end Machine

namespace Task

/-- The BASE of a loop's outermost routine: the one at hand, or that of its first frame. -/
def root (base : Int) : List Frame → Int
  | [] => base
  | f :: _ => f.base

/-- What closes a loop expects its root to be; `seat` is what is expected where nothing does. -/
def Seated (seat root : Int) : List Task → Prop
  | [] => root = seat
  | .closeBlock sp _ :: _ => root = sp
  | .closeCall bottom _ :: _ => root = bottom
  | _ => False

/-- No host function waits for what the task above these comes to. -/
def Unawaited : List Task → Prop
  | .waiting _ _ :: _ => False
  | _ => True

/-- With BASE and the frames as given, every loop has the root that is expected of it. Host
functions wait only for executions, which end with a task that closes them. -/
def Rooted (seat : Int) : Int → List Frame → List Task → Prop
  | _, _, [] => True
  | base, fs, .loop _ _ d :: rest =>
    Seated seat (root base (fs.drop d)) rest ∧ Rooted seat (root base (fs.drop d)) (fs.take d) rest
  | _, fs, .script call _ :: rest => Unawaited rest ∧ Rooted seat call.base fs rest
  | _, fs, .waiting call _ :: rest => Unawaited rest ∧ Rooted seat call.base fs rest
  | _, fs, .closeBlock _ base :: rest => Rooted seat base fs rest
  | _, fs, .closeCall _ base :: rest => Rooted seat base fs rest

variable {seat base base' : Int} {fs : List Frame} {rest : List Task}

variable {b : Int}

/-- Behind a loop BASE no longer matters. -/
theorem Rooted.rebase (hseat : Seated seat b rest) (h : Rooted seat base fs rest) :
    Rooted seat base' fs rest := by
  cases rest with
  | nil => trivial
  | cons t rest =>
    cases t with
    | closeBlock sp base => exact h
    | closeCall bottom base => exact h
    | loop | script | waiting => exact hseat.elim

theorem Unawaited.append {tasks : List Task} (h : Unawaited tasks) (hrest : Unawaited rest) :
    Unawaited (tasks ++ rest) := by
  cases tasks with
  | nil => exact hrest
  | cons t tasks =>
    cases t with
    | waiting => exact h.elim
    | _ => trivial

theorem Seated.unawaited (h : Seated seat b rest) : Unawaited rest := by
  cases rest with
  | nil => trivial
  | cons t rest =>
    cases t with
    | closeBlock | closeCall => trivial
    | loop | script | waiting => exact h.elim

theorem root_append (base : Int) (f : Frame) (fs : List Frame) :
    root base (fs ++ [f]) = root f.base fs := by
  cases fs <;> rfl

end Task

namespace Config

open Machine
open Op (Keeps)

variable {seat : Int}

/-- Every loop of a configuration has the root that is expected of it. -/
def Rooted (seat : Int) (c : Config) : Prop :=
  Task.Rooted seat c.machine.base c.machine.frames.toList c.tasks

variable {m m' : Machine} {tasks rest : List Task}

variable {code : Code} {call : HostCall}

theorem rooted_of_loopStep {pc : Int} {d : Nat} {result result' : Slot} (hle : d ≤ m.frames.toList.length)
    (h : Task.Rooted seat m.base m.frames.toList (.loop code pc d :: rest))
    (hstep : taskStep result (.loop code pc d) m = .ok (tasks, result') m') :
    Task.Rooted seat m'.base m'.frames.toList (tasks ++ rest) := by
  obtain ⟨hseat, hrest⟩ := h
  cases loopFlow_of_taskStep hstep with
  | halt _ _ frames => simpa [frames] using hrest.rebase hseat
  | goto fetch goes same =>
    rw [show m'.frames = m.frames from congrArg Control.frames same,
      show m'.base = m.base from congrArg Control.base same]
    exact ⟨hseat, hrest⟩
  | @host _ _ _ _ m₁ args fetch found body same =>
    have hframes : m₁.frames = m.frames := congrArg Control.frames same
    have hbase : m₁.base = m.base := congrArg Control.base same
    simp only [List.cons_append, List.nil_append, Task.Rooted, hbase, hframes]
    exact ⟨trivial, hseat, hrest⟩
  | enter base fetch found body same =>
    rw [show m'.frames = _ from congrArg Control.frames same, Array.toList_push,
      show m'.base = _ from congrArg Control.base same]
    refine ⟨?_, ?_⟩
    · rw [List.drop_append_of_le_length hle, Task.root_append]
      exact hseat
    · rw [List.drop_append_of_le_length hle, Task.root_append, List.take_append_of_le_length hle]
      exact hrest
  | leave outermost same =>
    rw [show m'.frames = m.frames from congrArg Control.frames same]
    rw [List.take_of_length_le outermost] at hrest
    exact hrest.rebase hseat
  | back frames inner _ left base =>
    rw [frames, List.length_append, List.length_singleton] at hle
    have hlen := Nat.lt_succ_iff.1 (Nat.lt_of_le_of_ne hle inner.symm)
    rw [frames, List.drop_append_of_le_length hlen, Task.root_append] at hseat hrest
    rw [List.take_append_of_le_length hlen] at hrest
    rw [left, base]
    exact ⟨hseat, hrest⟩

/-- An execution begins with a loop that is seated, if the routine gets all of its arguments. -/
theorem rooted_of_beginCall {r : Routine} {args : List Slot} (hlen : args.length = r.arity)
    (h : beginCall r args m = .ok tasks m') (hrest : Task.Rooted seat m.base m.frames.toList rest) :
    Task.Rooted seat m'.base m'.frames.toList (tasks ++ rest) := by
  cases begun_of_beginCall h with
  | @host builtin t m₀ _ body pushed begun =>
    have hcontrol := keeps_pushArgs _ _ pushed
    have hframes : m₀.frames = m.frames := congrArg Control.frames hcontrol
    have hframes' : m'.frames = m₀.frames := congrArg Backdrop.frames (keeps_beginHost _ _ begun)
    obtain ⟨args', rfl, -⟩ := script_of_beginHost begun
    rw [hframes', hframes]
    exact ⟨trivial, hrest⟩
  | @code target ks base m₀ m₁ body pushed entered =>
    have hframes : m₁.frames = m.frames := (congrArg Control.frames (keeps_enter _ entered)).trans
      (congrArg Control.frames (keeps_pushArgs _ _ pushed))
    have hbase : base = m.sp := by
      rw [base_of_enter entered, sp_of_pushArgs hlen pushed, hlen]
      simp
    simp only [hframes, List.cons_append, List.nil_append, Task.Rooted, Array.size_eq_length_toList,
      List.drop_length, List.take_length]
    exact ⟨hbase, hrest⟩

theorem rooted_of_beginBlock (h : beginBlock code m = .ok tasks m')
    (hrest : Task.Rooted seat m.base m.frames.toList rest) :
    Task.Rooted seat m'.base m'.frames.toList (tasks ++ rest) := by
  cases h
  simp only [List.cons_append, List.nil_append, Task.Rooted, Array.size_eq_length_toList,
    List.drop_length, List.take_length]
  exact ⟨rfl, hrest⟩

theorem rooted_of_execution {x : Execution} (hcomplete : x.Complete) (h : x.begin m = .ok tasks m')
    (hrest : Task.Rooted seat m.base m.frames.toList rest) :
    Task.Rooted seat m'.base m'.frames.toList (tasks ++ rest) := by
  cases x with
  | block code => exact rooted_of_beginBlock h hrest
  | call r args => exact rooted_of_beginCall hcomplete h hrest

theorem keeps_tagResult (call : HostCall) (v : Slot) : Keeps control (tagResult call v) := by
  refine .bind .get fun m => .ite ?_ (.pure _)
  unfold writeResult
  cases call.routine.returnKind? with
  | none => exact .fault _
  | some k => exact keeps_writeStack _ _ _

/-- A host function ends with the BASE that it has to restore, and with one slot more than there
were below its arguments. -/
theorem registers_of_endHost {v : Slot} (h : endHost call v m = .ok () m') :
    m'.base = call.base ∧ m'.sp = call.bottom + 1 := by
  rw [endHost_eq] at h
  obtain ⟨_, _, hbase, h₁⟩ := Op.bind_eq_ok.1 h
  cases hbase
  obtain ⟨_, m₁, hwrite, h₂⟩ := Op.bind_eq_ok.1 h₁
  have hm₁ : m₁.base = call.base := congrArg Control.base (keeps_writeStack _ _ _ hwrite)
  obtain ⟨_, m₂, htag, h₃⟩ := Op.bind_eq_ok.1 h₂
  cases h₃
  exact ⟨(congrArg Control.base (keeps_tagResult call v htag)).trans hm₁, rfl⟩

theorem rooted_of_scriptStep {script : HostScript} (h : scriptStep call script m = .ok tasks m')
    (hrest : Task.Unawaited rest ∧ Task.Rooted seat call.base m.frames.toList rest) :
    Task.Rooted seat m'.base m'.frames.toList (tasks ++ rest) := by
  have hframes : m'.frames = m.frames := congrArg Backdrop.frames (gives_scriptStep _ _ _ rfl h).1
  cases scriptFlow_of_scriptStep h with
  | done _ ends =>
    rw [(registers_of_endHost ends).1, hframes]
    exact hrest.2
  | again same =>
    rw [hframes]
    exact hrest
  | @begins x ts next _ complete begun same =>
    rw [List.append_assoc]
    have hwait : Task.Rooted seat m.base m.frames.toList (.waiting call next :: rest) := hrest
    exact rooted_of_execution complete begun hwait

theorem rooted_of_follows {P : Code → Int → Prop} {bottom : List Frame} {c c' : Config}
    (hnested : c.Nested P bottom) (h : c.Rooted seat) (hstep : c.Follows c') : c'.Rooted seat := by
  obtain ⟨m, tasks, result⟩ := c
  cases tasks with
  | nil => cases hstep
  | cons t rest =>
    obtain ⟨tasks, result', m', ht, rfl⟩ := follows_cons hstep
    cases t with
    | loop code pc d => exact rooted_of_loopStep hnested.2.1 h ht
    | script call script =>
      obtain ⟨ts, m₁, hscript, h₁⟩ := Op.bind_eq_ok.1 ht
      cases h₁
      exact rooted_of_scriptStep hscript h
    | waiting call next | closeBlock sp base =>
      cases ht
      exact h
    | closeCall bottom base =>
      have hframes : m'.frames = m.frames :=
        congrArg Backdrop.frames (gives_taskStep (by simp) result _ rfl ht).1
      obtain ⟨rfl, -, hbase⟩ := closeStep_eq .call ht
      rw [Config.Rooted, hframes, hbase]
      exact h

end Config
end Stackwork
