import Stackwork.Proofs.Machine.Control
import Stackwork.Proofs.Machine.Runs

/-!
# Frames along a run

Every dispatch loop works above the frame depth at which it began and gives the frames
below back as it found them, whatever code it runs and whatever host functions do
meanwhile. `Task.Nested` says how the frames of a machine are shared out among its tasks.

The same step shows that a property of positions which holds at the first word of every
code, and which instructions hand on, holds of every position a run ever works at or will
return to (`Config.positions_of_reaches`).
-/
namespace Stackwork

/-- What of a machine no run changes. -/
structure Machine.Fixture where
  settings : Settings
  exe : Option Executable
  heapSize : Nat
  stackSize : Nat
  tagsSize : Nat

/-- What of a machine is changed by calls, returns and HALT only. -/
structure Machine.Backdrop extends Machine.Fixture where
  frames : Array Frame

/-- A loop at the first word of a code, begun at frame depth `d`; or no loop at all. -/
def Task.Fresh (d : Nat) : Task → Prop
  | .loop _ pc depth => pc = 0 ∧ depth = d
  | _ => True

namespace Machine

open Op (Keeps Gives)

def Control.backdrop (c : Control) : Backdrop :=
  ⟨⟨c.settings, c.exe, c.heapSize, c.stackSize, c.tagsSize⟩, c.frames⟩

def backdrop (m : Machine) : Backdrop := m.control.backdrop

def fixture (m : Machine) : Fixture := m.backdrop.toFixture

theorem keeps_backdrop {α : Type} {x : Op α} (h : Keeps control x) : Keeps backdrop x := by
  intro m a m' hx
  simp only [backdrop, h hx]

/-- A host function gets to work with the arguments as its stack bottom. -/
theorem script_of_beginHost {r : Routine} {builtin : Builtin} {t : Task} {m m' : Machine}
    (h : beginHost r builtin m = .ok t m') :
    ∃ args, t = .script ⟨r, m.sp - r.arity, m.base⟩ (builtin args) ∧
      m' = { m with base := m.sp - r.arity } := by
  unfold beginHost at h
  simp only at h
  split at h <;> cases h
  exact ⟨_, rfl, rfl⟩

theorem keeps_beginHost (r : Routine) (builtin : Builtin) : Keeps backdrop (beginHost r builtin) := by
  intro m t m' h
  obtain ⟨args, -, rfl⟩ := script_of_beginHost h
  rfl

theorem keeps_endHost (call : HostCall) (result : Slot) : Keeps backdrop (endHost call result) := by
  refine .bind (.modify fun _ => rfl) fun _ =>
    .bind (keeps_backdrop (keeps_writeStack _ _ _)) fun _ => .bind .get fun m => ?_
  simp only
  split
  · split
    · exact .bind (keeps_backdrop (keeps_writeStack _ _ _)) fun _ => .modify fun _ => rfl
    · exact .bind (.fault _) fun _ => .modify fun _ => rfl
  · exact .modify fun _ => rfl

theorem keeps_pushArgs (args : List Slot) (inputs : List Ty) : Keeps control (pushArgs args inputs) := by
  induction args generalizing inputs with
  | nil => exact .pure ()
  | cons v vs ih =>
    cases inputs with
    | nil => exact .pure ()
    | cons t ts => exact .bind (keeps_push _ _) fun _ => ih ts

theorem keeps_endCall (bottom base : Int) : Keeps backdrop (endCall bottom base) := by
  refine .bind .get fun m => ?_
  simp only
  split
  · exact .bind (.pure _) fun _ => .bind (.modify fun _ => rfl) fun _ => .pure _
  · exact .bind .get fun _ => .bind (.require _) fun _ => .bind (.modify fun _ => rfl) fun _ =>
      .pure _

variable {m m' : Machine} {t : Task}

/-- A call begins with fresh loops only. -/
theorem gives_beginCall (r : Routine) (args : List Slot) (b : Backdrop) :
    Gives backdrop b (fun tasks => ∀ t ∈ tasks, t.Fresh b.frames.size) (beginCall r args) := by
  refine .bind (.modify fun _ => rfl) fun _ => .bind .get fun m₁ => .bind .get fun m₂ =>
    .bind (keeps_backdrop (keeps_pushArgs _ _)) fun _ => ?_
  cases r.body with
  | host builtin =>
    intro m tasks m' hm h
    obtain ⟨t, m₃, ht, h₁⟩ := Op.bind_eq_ok.1 h
    cases h₁
    refine ⟨(keeps_beginHost _ _ ht).trans hm, ?_⟩
    intro t' ht'
    simp only [List.mem_cons, List.not_mem_nil, or_false] at ht'
    rcases ht' with rfl | rfl
    · obtain ⟨_, rfl, -⟩ := script_of_beginHost ht
      trivial
    · trivial
  | compiled code ks =>
    refine .get fun m₃ hm₃ => .bind (keeps_backdrop (keeps_enter r)) fun base =>
      .bind (.modify fun _ => rfl) fun _ => ?_
    cases code with
    | none => exact .fault _
    | some code =>
      refine .pure ?_
      intro t ht
      simp only [List.mem_cons, List.not_mem_nil, or_false] at ht
      rcases ht with rfl | rfl
      · exact ⟨rfl, by rw [← hm₃]; rfl⟩
      · trivial

theorem gives_beginBlock (code : Code) (b : Backdrop) :
    Gives backdrop b (fun tasks => ∀ t ∈ tasks, t.Fresh b.frames.size) (beginBlock code) := by
  intro m tasks m' hm h
  cases h
  subst hm
  simp [Task.Fresh, backdrop, control, Control.backdrop]

theorem keeps_setGlobal (index : Int) (v : Slot) :
    Keeps backdrop (do set (← require ((← get).setGlobal? index v))) := by
  intro m _ m' h
  obtain ⟨_, _, hget, h₁⟩ := Op.bind_eq_ok.1 h
  cases hget
  obtain ⟨m₁, m₂, hreq, h₂⟩ := Op.bind_eq_ok.1 h₁
  obtain ⟨hset, rfl⟩ := Op.require_eq_ok.1 hreq
  cases h₂
  unfold setGlobal? at hset
  split at hset
  · cases hset
    simp [backdrop, control, Control.backdrop]
  · cases hset

/-- A step of a host function begins fresh loops only. -/
theorem gives_scriptStep (call : HostCall) (script : HostScript) (b : Backdrop) :
    Gives backdrop b (fun tasks => ∀ t ∈ tasks, t.Fresh b.frames.size)
      (scriptStep call script) := by
  have one (s : HostScript) : ∀ t ∈ [Task.script call s], t.Fresh b.frames.size := by
    simp [Task.Fresh]
  -- What a host function starts runs above the rest of the function itself.
  have above {tasks : List Task} (h : ∀ t ∈ tasks, t.Fresh b.frames.size) (next : Slot → HostScript) :
      ∀ t ∈ tasks ++ [Task.waiting call next], t.Fresh b.frames.size := by
    simpa [or_imp, forall_and, Task.Fresh] using h
  cases script with
  | done result => exact .bind (keeps_endHost _ _) fun _ => .pure (by simp)
  | log line next => exact .bind (.modify fun _ => rfl) fun _ => .pure (one _)
  | registers next | object handle next => exact .bind .get fun _ => .pure (one _)
  | stack next | readGlobal index next =>
    exact .bind .get fun _ => .bind (.require _) fun _ => .pure (one _)
  | writeGlobal index value next =>
    have := keeps_setGlobal index value
    simp only [scriptStep, ← bind_assoc]
    exact .bind (by simpa only [bind_assoc] using this) fun _ => .pure (one _)
  | newObject value next =>
    refine .bind ?_ fun _ => .pure (one _)
    intro m a m' h
    cases h
    rfl
  | call index args next =>
    refine .bind .get fun m => ?_
    split
    · exact .pure (one _)
    · intro m₁ tasks m' hm h
      obtain ⟨ts, m₂, hts, h₁⟩ := Op.bind_eq_ok.1 h
      cases h₁
      obtain ⟨hm', hfresh⟩ := gives_beginCall _ _ _ hm hts
      exact ⟨hm', above hfresh _⟩
  | execute code next =>
    intro m tasks m' hm h
    obtain ⟨ts, m₁, hts, h₁⟩ := Op.bind_eq_ok.1 h
    cases h₁
    obtain ⟨hm', hfresh⟩ := gives_beginBlock _ _ hm hts
    exact ⟨hm', above hfresh _⟩

/-- A task other than a loop keeps the frames and begins fresh loops only. -/
theorem gives_taskStep (ht : ∀ code pc d, t ≠ .loop code pc d) (result : Slot) (b : Backdrop) :
    Gives backdrop b (fun out => ∀ t ∈ out.1, t.Fresh b.frames.size) (taskStep result t) := by
  cases t with
  | loop code pc d => exact absurd rfl (ht code pc d)
  | script call rest =>
    intro m out m' hm h
    obtain ⟨tasks, m₁, htasks, h₁⟩ := Op.bind_eq_ok.1 h
    cases h₁
    exact gives_scriptStep _ _ _ hm htasks
  | waiting call next => exact .pure (by simp [Task.Fresh])
  | closeBlock sp base => exact .bind (.modify fun _ => rfl) fun _ => .pure (by simp)
  | closeCall bottom base => exact .bind (keeps_endCall _ _) fun _ => .pure (by simp)

/-- Everything a step of a loop that goes well can come to: the loop is over because of a halt, or
it goes on as the dispatch says. -/
inductive LoopFlow (code : Code) (pc : Int) (d : Nat) (m : Machine) : List Task → Machine → Prop where
  | halt {m' : Machine} (halted : m'.halted = true) (fixture : m'.fixture = m.fixture)
      (frames : m'.frames = m.frames.take d) : LoopFlow code pc d m [] m'
  | goto {i : Instr} {pc' : Int} {m' : Machine} (fetch : code.instr? pc = some i)
      (goes : i.valid → Goes code pc i pc') (same : m'.control = m.control) :
      LoopFlow code pc d m [.loop code pc' d] m'
  | host {i : Instr} {index : Int} {r : Routine} {builtin : Builtin} {m₁ : Machine} (args : List Slot)
      (fetch : code.instr? pc = some i) (found : at? m.routines index = some r)
      (body : r.body = .host builtin) (same : m₁.control = m.control) :
      LoopFlow code pc d m [.script ⟨r, m₁.sp - r.arity, m₁.base⟩ (builtin args),
        .loop code (pc + 1 + i.operandWords) d] { m₁ with base := m₁.sp - r.arity }
  | enter {i : Instr} {index : Int} {r : Routine} {target : Code} {m' : Machine} (base : Int)
      (fetch : code.instr? pc = some i) (found : at? m.routines index = some r)
      (body : r.code? = some target)
      (same : m'.control =
        { m.control with frames := m.frames.push ⟨code, pc + 1 + i.operandWords, m.base⟩, base })
      (top : m'.sp = base + r.locals.length) : LoopFlow code pc d m [.loop target 0 d] m'
  | leave {m' : Machine} (outermost : m.frames.toList.length ≤ d) (same : m'.control = m.control)
      (top : m'.sp = m.base + 1) : LoopFlow code pc d m [] m'
  | back {f : Frame} {fs : List Frame} {m' : Machine} (frames : m.frames.toList = fs ++ [f])
      (inner : fs.length + 1 ≠ d) (fixture : m'.fixture = m.fixture)
      (rest : m'.frames.toList = fs) (base : m'.base = f.base) :
      LoopFlow code pc d m [.loop f.code f.pc d] m'

theorem loopFlow_of_taskStep {code : Code} {pc : Int} {d : Nat} {v v' : Slot} {tasks : List Task}
    (h : taskStep v (.loop code pc d) m = .ok (tasks, v') m') : LoopFlow code pc d m tasks m' := by
  obtain ⟨_, _, hget, h₁⟩ := Op.bind_eq_ok.1 h
  cases hget
  simp only at h₁
  split at h₁
  · next hhalted =>
    cases h₁
    exact .halt hhalted rfl rfl
  obtain ⟨next, m₁, hd, h₂⟩ := Op.bind_eq_ok.1 h₁
  cases flow_of_dispatch hd with
  | goto fetch goes same =>
    cases h₂
    exact .goto fetch goes same
  | host fetch found body same =>
    obtain ⟨t, m₂, ht, h₃⟩ := Op.bind_eq_ok.1 h₂
    cases h₃
    obtain ⟨args, rfl, rfl⟩ := script_of_beginHost ht
    exact .host args fetch found body same
  | enter base fetch found body same top =>
    cases h₂
    exact .enter base fetch found body same top
  | leave outermost same top =>
    cases h₂
    exact .leave (by rcases outermost with h | h <;> simp [h]) same top
  | back inner top same =>
    cases h₂
    rw [← Array.getLast?_toList, List.getLast?_eq_some_iff] at top
    obtain ⟨fs, hfs⟩ := top
    refine .back hfs ?_ (congrArg (·.backdrop.toFixture) same) ?_ (congrArg Control.base same)
    · simpa [← Array.length_toList, hfs] using inner
    · rw [show m'.frames = _ from congrArg Control.frames same, Array.toList_pop, hfs, List.dropLast_concat]
  | halt same =>
    cases h₂
    exact .halt (congrArg Control.halted same) (congrArg (·.backdrop.toFixture) same)
      (congrArg Control.frames same)

end Machine

/-- Every loop works above its own frame depth: it is at a position with `P`, so are the
frames above its depth, and those below belong to the tasks under it. At the very bottom
are the frames in `bottom`. -/
def Task.Nested (P : Code → Int → Prop) (bottom : List Frame) : List Frame → List Task → Prop
  | fs, [] => fs = bottom
  | fs, .loop code pc d :: rest =>
    P code pc ∧ d ≤ fs.length ∧ (∀ f ∈ fs.drop d, P f.code f.pc) ∧
      Nested P bottom (fs.take d) rest
  | fs, _ :: rest => Nested P bottom fs rest

/-- A property of positions that holds at the first word of every code and is handed on
from an instruction to where execution goes on behind it. -/
structure HandedOn (P : Code → Int → Prop) : Prop where
  first (code : Code) : P code 0
  next {code : Code} {pc pc' : Int} {i : Instr} (here : P code pc)
    (fetch : code.instr? pc = some i) (goes : i.valid → Goes code pc i pc') : P code pc'

namespace Task

variable {P : Code → Int → Prop} {bottom fs : List Frame} {rest : List Task}

theorem Nested.cons_of_not_loop {t : Task} (ht : ∀ code pc d, t ≠ .loop code pc d) :
    Nested P bottom fs (t :: rest) ↔ Nested P bottom fs rest := by
  cases t with
  | loop code pc d => exact absurd rfl (ht code pc d)
  | _ => exact Iff.rfl

/-- Fresh loops can be put on top. -/
theorem Nested.append (hP : HandedOn P) (h : Nested P bottom fs rest) {tasks : List Task}
    (fresh : ∀ t ∈ tasks, t.Fresh fs.length) : Nested P bottom fs (tasks ++ rest) := by
  induction tasks with
  | nil => exact h
  | cons t tasks ih =>
    have hrest := ih fun t ht => fresh t (List.mem_cons_of_mem _ ht)
    cases t with
    | loop code pc d =>
      obtain ⟨rfl, rfl⟩ := fresh _ List.mem_cons_self
      refine ⟨hP.first code, Nat.le_refl _, by simp, ?_⟩
      rw [List.take_length]
      exact hrest
    | _ => exact hrest

variable {code : Code} {pc : Int} {d : Nat} {f : Frame}

/-- A call puts a frame on top of those of the loop. -/
theorem Nested.push {target : Code} (hP : HandedOn P) (h : Nested P bottom fs (.loop code pc d :: rest))
    (hf : P f.code f.pc) : Nested P bottom (fs ++ [f]) (.loop target 0 d :: rest) := by
  obtain ⟨-, hle, hown, hrest⟩ := h
  refine ⟨hP.first target, by simp; omega, ?_, ?_⟩
  · rw [List.drop_append_of_le_length hle]
    intro g hg
    rcases List.mem_append.1 hg with hg | hg
    · exact hown g hg
    · rw [List.mem_singleton.1 hg]
      exact hf
  · rw [List.take_append_of_le_length hle]
    exact hrest

/-- A return from a frame of the loop takes the frame away. -/
theorem Nested.pop (h : Nested P bottom (fs ++ [f]) (.loop code pc d :: rest))
    (inner : (fs ++ [f]).length ≠ d) : Nested P bottom fs (.loop f.code f.pc d :: rest) := by
  obtain ⟨-, hle, hown, hrest⟩ := h
  simp only [List.length_append, List.length_singleton] at hle inner
  have hd : d ≤ fs.length := by omega
  rw [List.drop_append_of_le_length hd] at hown
  rw [List.take_append_of_le_length hd] at hrest
  exact ⟨hown f (by simp), hd, fun g hg => hown g (List.mem_append_left _ hg), hrest⟩

end Task

namespace Config

open Machine

variable {P : Code → Int → Prop} {bottom : List Frame}

/-- The tasks of a configuration share out its frames, with positions that have `P`. -/
def Nested (P : Code → Int → Prop) (bottom : List Frame) (c : Config) : Prop :=
  Task.Nested P bottom c.machine.frames.toList c.tasks

variable {code : Code} {pc : Int} {d : Nat} {m m' : Machine} {c c' : Config}

theorem nested_of_loopStep (hP : HandedOn P) {result result' : Slot} {tasks rest : List Task}
    (h : Task.Nested P bottom m.frames.toList (.loop code pc d :: rest))
    (hstep : taskStep result (.loop code pc d) m = .ok (tasks, result') m') :
    Task.Nested P bottom m'.frames.toList (tasks ++ rest) := by
  have hown := h
  obtain ⟨hpos, hle, habove, hrest⟩ := h
  cases loopFlow_of_taskStep hstep with
  | halt _ _ frames => simpa [frames] using hrest
  | goto fetch goes same =>
    rw [show m'.frames = m.frames from congrArg Control.frames same]
    exact ⟨hP.next hpos fetch goes, hle, habove, hrest⟩
  | @host i _ _ _ m₁ args fetch found body same =>
    have hframes : m₁.frames = m.frames := congrArg Control.frames same
    simp only [hframes]
    exact ⟨hP.next hpos fetch fun _ => .next, hle, habove, hrest⟩
  | enter base fetch found body same =>
    rw [show m'.frames = _ from congrArg Control.frames same, Array.toList_push]
    exact hown.push hP (hP.next hpos fetch fun _ => .next)
  | leave outermost same =>
    rw [show m'.frames = m.frames from congrArg Control.frames same]
    rwa [List.take_of_length_le outermost] at hrest
  | back frames inner _ left =>
    rw [frames] at hown
    rw [left]
    exact hown.pop (by simpa using inner)

/-- No step changes the program, the settings or the sizes of the memories. -/
theorem fixture_of_follows (h : c.Follows c') : c'.machine.fixture = c.machine.fixture := by
  obtain ⟨m, tasks, result⟩ := c
  cases tasks with
  | nil => cases h
  | cons t rest =>
    obtain ⟨tasks, result', m', ht, rfl⟩ := follows_cons h
    by_cases hloop : ∃ code pc d, t = .loop code pc d
    · obtain ⟨code, pc, d, rfl⟩ := hloop
      cases loopFlow_of_taskStep ht with
      | halt _ fixture | back _ _ fixture => exact fixture
      | goto _ _ same | host _ _ _ _ same | enter _ _ _ _ same | leave _ same =>
        exact congrArg (·.backdrop.toFixture) same
    · have hnot : ∀ code pc d, t ≠ .loop code pc d := fun code pc d e => hloop ⟨code, pc, d, e⟩
      exact congrArg Backdrop.toFixture (gives_taskStep hnot result _ rfl ht).1

theorem fixture_of_reaches (run : c.Reaches c') : c'.machine.fixture = c.machine.fixture := by
  induction run with
  | refl => rfl
  | tail _ hstep ih => exact (fixture_of_follows hstep).trans ih

theorem nested_of_follows (hP : HandedOn P) (h : c.Nested P bottom) (hstep : c.Follows c') :
    c'.Nested P bottom := by
  obtain ⟨m, tasks, result⟩ := c
  cases tasks with
  | nil => cases hstep
  | cons t rest =>
    obtain ⟨tasks, result', m', ht, rfl⟩ := follows_cons hstep
    by_cases hloop : ∃ code pc d, t = .loop code pc d
    · obtain ⟨code, pc, d, rfl⟩ := hloop
      exact nested_of_loopStep hP h ht
    · have hnot : ∀ code pc d, t ≠ .loop code pc d := fun code pc d e => hloop ⟨code, pc, d, e⟩
      obtain ⟨hm, hfresh⟩ := gives_taskStep hnot result _ rfl ht
      have hframes : m'.frames = m.frames := congrArg Backdrop.frames hm
      simp only [Nested, hframes]
      exact ((Task.Nested.cons_of_not_loop hnot).1 h).append hP hfresh

/-- Frames are shared out among the tasks at every moment of a run. -/
theorem nested_of_reaches (hP : HandedOn P) (h : c.Nested P bottom) (run : c.Reaches c') :
    c'.Nested P bottom := by
  induction run with
  | refl => exact h
  | tail _ hstep ih => exact nested_of_follows hP ih hstep

end Config

namespace Machine

variable {P : Code → Int → Prop} {m : Machine} {c : Config}

variable {m' : Machine}

/-- The first configuration of a run that begins with fresh loops. -/
theorem nested_of_begin (hP : HandedOn P) {start : Op (List Task)} {tasks : List Task}
    (gives : ∀ b, Op.Gives backdrop b (fun tasks => ∀ t ∈ tasks, t.Fresh b.frames.size) start)
    (begun : start m = .ok tasks m') :
    Config.Nested P m.frames.toList ⟨m', tasks, .zero⟩ ∧ m'.fixture = m.fixture := by
  obtain ⟨hm, hfresh⟩ := gives _ rfl begun
  have hframes : m'.frames = m.frames := congrArg Backdrop.frames hm
  refine ⟨?_, congrArg Backdrop.toFixture hm⟩
  have hnil : Task.Nested P m.frames.toList m.frames.toList [] := rfl
  simpa [Config.Nested, hframes] using hnil.append hP hfresh

theorem fixture_of_runBlock {fuel : Nat} {code : Code} (h : m.runBlock fuel code = .finished () m') :
    m'.fixture = m.fixture := by
  simp only [runBlock, perform, beginBlock] at h
  split at h
  · next hrun =>
    cases h
    exact Config.fixture_of_reaches (Config.reaches_of_run hrun)
  · cases h
  · cases h

theorem nested_of_visitsBlocks (hP : HandedOn P) {codes : List Code}
    (visit : m.VisitsBlocks codes c) :
    (∃ bottom, c.Nested P bottom) ∧ c.machine.fixture = m.fixture := by
  induction visit with
  | here begun run =>
    obtain ⟨hnested, hfix⟩ := nested_of_begin hP (gives_beginBlock _) begun
    exact ⟨⟨_, Config.nested_of_reaches hP hnested run⟩, (Config.fixture_of_reaches run).trans hfix⟩
  | later done on visit ih => exact ⟨ih.1, ih.2.trans (fixture_of_runBlock done)⟩

/-- Frames are shared out, and program and sizes are those of the start, at every moment
of a run or a call. -/
theorem nested_of_visits (hP : HandedOn P) (visit : m.Visits c) :
    (∃ bottom, c.Nested P bottom) ∧ c.machine.fixture = m.fixture := by
  cases visit with
  | run loaded visit => exact nested_of_visitsBlocks hP visit
  | call found begun run =>
    obtain ⟨hnested, hfix⟩ := nested_of_begin hP (gives_beginCall _ _) begun
    exact ⟨⟨_, Config.nested_of_reaches hP hnested run⟩, (Config.fixture_of_reaches run).trans hfix⟩

end Machine
end Stackwork
