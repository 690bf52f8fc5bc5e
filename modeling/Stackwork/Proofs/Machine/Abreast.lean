import Stackwork.Proofs.Machine.Agreement
import Stackwork.Proofs.Machine.Requests

/-!
# Runs that stay abreast

Two machines that agree below a height take the same steps and agree again, as long as all code at
work names only slots below the height. A `Regime` says what has to be known of codes for this. It
is an invariant of runs: `Task.Held` says it of every loop and every frame, each with the BASE that
it has or will have again. Requests of the host are then answered alike.
-/
namespace Stackwork

open Machine (at? Footing Agree Near Based)

/-- The function table of the common program. -/
def Machine.Footing.routines (f : Footing) : Array Routine := (f.exe.map (·.routines)).getD #[]

theorem Machine.Agree.table {f : Footing} {K : Int} {m n : Machine} (h : Agree f K m n) :
    m.routines = f.routines := by
  unfold Machine.routines Footing.routines
  rw [← h.program]
  cases m.exe <;> rfl

/-- What is known of the codes that are executed on machines that agree. -/
structure Regime (f : Footing) where
  /-- Where the machines agree up to a height, a code can be at work at a position with some BASE. -/
  runs : Int → Code → Int → Int → Prop
  /-- A code can be executed as a block of its own. -/
  blocks : Code → Prop
  covers {K pc b : Int} {code : Code} (floor : f.floor ≤ K) (h : runs K code pc b) :
    Machine.Covers f K code pc b
  mono {K K' pc b : Int} {code : Code} (hK : K ≤ K') (h : runs K code pc b) : runs K' code pc b
  next {K pc pc' b : Int} {code : Code} {i : Instr} (h : runs K code pc b)
    (fetch : code.instr? pc = some i) (goes : i.valid → Goes code pc i pc') : runs K code pc' b
  enter {K b index : Int} {r : Routine} {target : Code} (found : at? f.routines index = some r)
    (body : r.code? = some target) (top : b + r.locals.length ≤ K) : runs K target 0 b
  block {K b : Int} {code : Code} (h : blocks code) (top : b ≤ K) : runs K code 0 b
  host {index : Int} {r : Routine} {builtin : Builtin} (found : at? f.routines index = some r)
    (body : r.body = .host builtin) (args : List Slot) : (builtin args).Executes blocks

variable {f : Footing} {ρ : Regime f} {K K' : Int}

namespace Task

/-- A host function that was called from the host leaves its result where the call looks for it. -/
def Lands (bottom : Int) : List Task → Prop
  | .closeCall b _ :: _ => b = bottom
  | _ => True

/-- Nothing but a host function waits behind an execution. -/
def Awaited : List Task → Prop
  | [] => True
  | .waiting _ _ :: _ => True
  | _ => False

/-- With BASE and the frames as given, all codes keep to the regime, and what SP will be set to is
not above the height. -/
def Held (ρ : Regime f) (K : Int) : Int → List Frame → List Task → Prop
  | _, _, [] => True
  | base, fs, .loop code pc d :: rest =>
    ρ.runs K code pc base ∧ (∀ g ∈ fs.drop d, ρ.runs K g.code g.pc g.base) ∧
      Held ρ K base (fs.take d) rest
  | _, fs, .script call s :: rest =>
    s.Executes ρ.blocks ∧ call.bottom ≤ K ∧ Lands call.bottom rest ∧ Held ρ K call.base fs rest
  | _, fs, .waiting call next :: rest =>
    (∀ v, (next v).Executes ρ.blocks) ∧ call.bottom ≤ K ∧ Lands call.bottom rest ∧
      Held ρ K call.base fs rest
  | _, fs, .closeBlock sp base :: rest => sp ≤ K ∧ Awaited rest ∧ Held ρ K base fs rest
  | _, fs, .closeCall bottom base :: rest => bottom ≤ K ∧ Awaited rest ∧ Held ρ K base fs rest

/-- A call that is over has left its result below the height, unless the machine has halted. -/
def Due (K : Int) (halted : Bool) : List Task → Prop
  | .closeCall bottom _ :: _ => halted = true ∨ bottom < K
  | _ => True

variable {base base' seat : Int} {fs : List Frame} {tasks rest : List Task}

theorem Held.mono (hK : K ≤ K') (h : Held ρ K base fs tasks) : Held ρ K' base fs tasks := by
  induction tasks generalizing base fs with
  | nil => trivial
  | cons t rest ih =>
    cases t with
    | loop code pc d =>
      exact ⟨ρ.mono hK h.1, fun g hg => ρ.mono hK (h.2.1 g hg), ih h.2.2⟩
    | script call script | waiting call next => exact ⟨h.1, Int.le_trans h.2.1 hK, h.2.2.1, ih h.2.2.2⟩
    | closeBlock sp base | closeCall bottom base => exact ⟨Int.le_trans h.1 hK, h.2.1, ih h.2.2⟩

/-- Behind a loop BASE no longer matters. -/
theorem Held.rebase {b : Int} (hseat : Seated seat b rest) (h : Held ρ K base fs rest) :
    Held ρ K base' fs rest := by
  cases rest with
  | nil => trivial
  | cons t rest =>
    cases t with
    | closeBlock sp base => exact h
    | closeCall bottom base => exact h
    | loop | script | waiting => exact hseat.elim

/-- A loop begins above all frames. -/
theorem Held.fresh {code : Code} {frames : Array Frame} (hruns : ρ.runs K code 0 base)
    (h : Held ρ K base frames.toList rest) :
    Held ρ K base frames.toList (.loop code 0 frames.size :: rest) := by
  simp only [Held, Array.size_eq_length_toList, List.drop_length, List.take_length]
  exact ⟨hruns, by simp, h⟩

theorem due_of_closeCall {halted : Bool}
    (h : ∀ bottom base below, tasks = .closeCall bottom base :: below → halted = true ∨ bottom < K) :
    Due K halted tasks := by
  cases tasks with
  | nil => trivial
  | cons t rest =>
    cases t with
    | closeCall bottom base => exact h bottom base rest rfl
    | loop | script | waiting | closeBlock => trivial

theorem Awaited.due (h : Awaited tasks) (halted : Bool) : Due K halted tasks := by
  refine due_of_closeCall fun bottom base below htasks => ?_
  subst htasks
  exact h.elim

end Task

namespace Config

open Machine

/-! ### One step keeps to the regime -/

variable {seat : Int} {m m' : Machine} {new rest : List Task}

variable {v v' : Slot} {bottom : List Frame} {t : Task}

section

variable (htable : m.routines = f.routines)
include htable

theorem held_of_loopStep {code : Code} {pc : Int} {d : Nat} (hle : d ≤ m.frames.toList.length)
    (hroot : Task.Rooted seat m.base m.frames.toList (.loop code pc d :: rest))
    (h : Task.Held ρ K m.base m.frames.toList (.loop code pc d :: rest)) (hK : K ≤ K') (htop : m'.sp ≤ K')
    (hstep : taskStep v (.loop code pc d) m = .ok (new, v') m') :
    Task.Held ρ K' m'.base m'.frames.toList (new ++ rest) ∧ Task.Due K' m'.halted (new ++ rest) := by
  obtain ⟨hseat, -⟩ := hroot
  obtain ⟨hruns, hframes, hrest⟩ := h.mono hK
  -- A loop that is over because of a halt leaves no result.
  have hover {rest : List Task} (hhalted : m'.halted = true) : Task.Due K' m'.halted rest :=
    Task.due_of_closeCall fun _ _ _ _ => .inl hhalted
  cases loopFlow_of_taskStep hstep with
  | halt hhalted _ frames => exact ⟨by simpa [frames] using hrest.rebase hseat, hover hhalted⟩
  | goto fetch goes same =>
    rw [show m'.frames = m.frames from congrArg Control.frames same,
      show m'.base = m.base from congrArg Control.base same]
    exact ⟨⟨ρ.next hruns fetch goes, hframes, hrest⟩, trivial⟩
  | @host i _ _ _ m₁ args fetch found body same =>
    have hframes' : m₁.frames = m.frames := congrArg Control.frames same
    have hbase : m₁.base = m.base := congrArg Control.base same
    have hsp : m₁.sp ≤ K' := htop
    rw [htable] at found
    simp only [hframes', hbase]
    refine ⟨⟨ρ.host found body args, ?_, trivial, ?_⟩, trivial⟩
    · simp only
      omega
    · exact ⟨ρ.next hruns fetch fun _ => .next, hframes, hrest⟩
  | enter base fetch found body same top =>
    rw [htable] at found
    rw [show m'.frames = _ from congrArg Control.frames same, Array.toList_push,
      show m'.base = _ from congrArg Control.base same]
    refine ⟨⟨ρ.enter found body (top ▸ htop), ?_, ?_⟩, trivial⟩
    · rw [List.drop_append_of_le_length hle]
      intro g hg
      rcases List.mem_append.1 hg with hg | hg
      · exact hframes g hg
      · rw [List.mem_singleton.1 hg]
        exact ρ.next hruns fetch fun _ => .next
    · rw [List.take_append_of_le_length hle]
      exact hrest.rebase hseat
  | leave outermost same top =>
    rw [List.take_of_length_le outermost] at hrest
    rw [List.drop_of_length_le outermost] at hseat
    rw [show m'.frames = m.frames from congrArg Control.frames same]
    refine ⟨hrest.rebase hseat, Task.due_of_closeCall fun bottom base below hclose => .inr ?_⟩
    -- The result is where the frame of the outermost routine was.
    subst hclose
    have hbottom : m.base = bottom := hseat
    omega
  | back frames inner _ left base =>
    rw [frames, List.length_append, List.length_singleton] at hle
    have hlen := Nat.lt_succ_iff.1 (Nat.lt_of_le_of_ne hle inner.symm)
    rw [frames, List.drop_append_of_le_length hlen] at hframes
    rw [frames, List.take_append_of_le_length hlen] at hrest
    rw [left, base]
    refine ⟨⟨hframes _ (by simp), fun g hg => hframes g (List.mem_append_left _ hg), ?_⟩, trivial⟩
    exact hrest.rebase hseat

/-- An execution that keeps to the regime begins with tasks that do. -/
theorem held_of_execution {x : Execution} {tasks : List Task}
    (hcomplete : x.Complete) (hfound : x.Found m) (hblocks : x.Executes ρ.blocks)
    (begun : x.begin m = .ok tasks m') (htop : m'.sp ≤ K) (hawaited : Task.Awaited rest)
    (h : Task.Held ρ K m.base m.frames.toList rest) :
    Task.Held ρ K m'.base m'.frames.toList (tasks ++ rest) ∧ Task.Due K m'.halted (tasks ++ rest) := by
  cases x with
  | block code =>
    cases begun
    have htop : m.sp ≤ K := htop
    exact ⟨.fresh (ρ.block hblocks htop) ⟨htop, hawaited, h⟩, trivial⟩
  | call r args =>
    obtain ⟨index, found⟩ := hfound
    rw [htable] at found
    have hlen : args.length = r.arity := hcomplete
    cases begun_of_beginCall begun with
    | @host builtin t m₀ _ body pushed hosted =>
      have hframes : m'.frames = m.frames := (congrArg Backdrop.frames (keeps_beginHost _ _ hosted)).trans
        (congrArg Control.frames (keeps_pushArgs _ _ pushed))
      have hsp := sp_of_pushArgs hlen pushed
      change m₀.sp = m.sp + args.length at hsp
      obtain ⟨args', rfl, rfl⟩ := script_of_beginHost hosted
      have htop : m₀.sp ≤ K := htop
      rw [hframes]
      refine ⟨⟨ρ.host found body args', ?_, ?_, ?_, hawaited, h⟩, trivial⟩
      · simp only
        omega
      · change m.sp = m₀.sp - r.arity
        omega
      · omega
    | @code target ks base m₀ m₁ body pushed entered =>
      have hframes : m₁.frames = m.frames := (congrArg Control.frames (keeps_enter _ entered)).trans
        (congrArg Control.frames (keeps_pushArgs _ _ pushed))
      have hsp := sp_of_pushArgs hlen pushed
      change m₀.sp = m.sp + args.length at hsp
      have hbase : base = m₀.sp - r.arity := base_of_enter entered
      have htop : m₁.sp ≤ K := htop
      rw [sp_of_enter entered] at htop
      have hcode : r.code? = some target := by simp [Routine.code?, body]
      simp only [hframes]
      exact ⟨.fresh (ρ.enter found hcode htop) ⟨by omega, hawaited, h⟩, trivial⟩

theorem held_of_scriptStep {call : HostCall} {script : HostScript}
    (h : Task.Held ρ K m.base m.frames.toList (.script call script :: rest)) (hK : K ≤ K')
    (htop : m'.sp ≤ K') (hstep : scriptStep call script m = .ok new m') :
    Task.Held ρ K' m'.base m'.frames.toList (new ++ rest) ∧ Task.Due K' m'.halted (new ++ rest) := by
  obtain ⟨hscript, hbottom, hlands, hrest⟩ := h.mono hK
  have hframes : m'.frames = m.frames := congrArg Backdrop.frames (gives_scriptStep _ _ _ rfl hstep).1
  cases scriptFlow_of_scriptStep hstep with
  | done _ ends =>
    obtain ⟨hbase, hsp⟩ := registers_of_endHost ends
    rw [hframes, hbase]
    refine ⟨hrest, Task.due_of_closeCall fun bottom base below hclose => .inr ?_⟩
    subst hclose
    have hlands : bottom = call.bottom := hlands
    omega
  | again same keeps =>
    rw [hframes]
    exact ⟨⟨keeps _ hscript, hbottom, hlands, hrest⟩, trivial⟩
  | @begins x tasks next _ complete begun same found keeps =>
    obtain ⟨hblocks, hnext⟩ := keeps _ hscript
    rw [List.append_assoc]
    have hwait : Task.Held ρ K' m.base m.frames.toList (.waiting call next :: rest) :=
      ⟨hnext, hbottom, hlands, hrest⟩
    exact held_of_execution htable complete found hblocks begun htop trivial hwait

/-- A step of the topmost task keeps to the regime. -/
theorem held_of_taskStep
    (hnested : Task.Nested (fun _ _ => True) bottom m.frames.toList (t :: rest))
    (hroot : Task.Rooted seat m.base m.frames.toList (t :: rest))
    (h : Task.Held ρ K m.base m.frames.toList (t :: rest)) (hK : K ≤ K') (htop : m'.sp ≤ K')
    (hstep : taskStep v t m = .ok (new, v') m') :
    Task.Held ρ K' m'.base m'.frames.toList (new ++ rest) ∧ Task.Due K' m'.halted (new ++ rest) := by
  cases t with
  | loop code pc d => exact held_of_loopStep htable hnested.2.1 hroot h hK htop hstep
  | script call script =>
    obtain ⟨new, m₁, hscript, h₁⟩ := Op.bind_eq_ok.1 hstep
    cases h₁
    exact held_of_scriptStep htable h hK htop hscript
  | waiting call next =>
    cases hstep
    obtain ⟨hnext, hrest⟩ := h.mono hK
    exact ⟨⟨hnext v, hrest⟩, trivial⟩
  | closeBlock sp base =>
    cases hstep
    obtain ⟨-, hawaited, hrest⟩ := h.mono hK
    exact ⟨hrest, hawaited.due _⟩
  | closeCall bottom base =>
    have hframes : m'.frames = m.frames :=
      congrArg Backdrop.frames (gives_taskStep (by simp) v _ rfl hstep).1
    obtain ⟨rfl, -, hbase⟩ := closeStep_eq .call hstep
    obtain ⟨-, hawaited, hrest⟩ := h.mono hK
    rw [hframes, hbase]
    exact ⟨hrest, hawaited.due _⟩

end

/-! ### Steps and runs side by side -/

open Op (Pairs Steady)

theorem resume_near (code : Code) (d : Nat) (v : Slot) (next : Next) :
    Steady False (Near f K) (resume code d v next) := by
  cases next with
  | goto | move | leave => exact .pure rfl
  | host r builtin pc => exact .bindEq (Near.beginHost r builtin) fun _ => .pure rfl

/-- On machines that agree, a task that keeps to the regime takes the same step. -/
theorem taskStep_of_agree {n : Machine} (h : Agree f K m n)
    (hheld : Task.Held ρ K m.base m.frames.toList (t :: rest)) (hdue : Task.Due K m.halted (t :: rest))
    (v : Slot) : Op.Alike False (Near f K) (Near f K) Eq (taskStep v t m) (taskStep v t n) := by
  cases t with
  | loop code pc d =>
    cases hhalted : m.halted with
    | true =>
      rw [loopStep_of_halted hhalted, loopStep_of_halted (h.halted ▸ hhalted)]
      exact .ok rfl ⟨K, Int.le_refl K, { h with frames := by rw [h.frames] }⟩
    | false =>
      rw [loopStep_of_running hhalted, loopStep_of_running (h.halted ▸ hhalted)]
      have hcovers := ρ.covers h.floor hheld.1
      exact (Based.dispatch hcovers d).bindEq (fun next => resume_near code d v next) ⟨rfl, h.near⟩
  | script call script =>
    exact ((Near.scriptStep hheld.2.1 script).bindEq fun _ => .pure rfl) h.near
  | waiting call next => exact .ok rfl h.near
  | closeBlock sp base => exact .ok rfl ((h.setSp hheld.1).setBase base).near
  | closeCall bottom base =>
    have hend : Pairs False (Near f K) (fun m' n' => m' = m ∧ n' = n) (Near f K) Eq
        (endCall bottom base) (endCall bottom base) := by
      rintro _ _ ⟨rfl, rfl⟩
      exact h.endCall hheld.1 (hdue.imp_right .inl) base
    exact (hend.bindEq fun _ => .pure rfl) ⟨rfl, rfl⟩

/-- Two runs with the same tasks, all of which keep to a regime, on machines that agree. -/
structure Abreast (ρ : Regime f) (seat : Int) (bottom : List Frame) (c c' : Config) : Prop where
  tasks : c.tasks = c'.tasks
  result : c.result = c'.result
  nested : c.Nested (fun _ _ => True) bottom
  rooted : c.Rooted seat
  agree : ∃ K, Agree f K c.machine c'.machine ∧
    Task.Held ρ K c.machine.base c.machine.frames.toList c.tasks ∧ Task.Due K c.machine.halted c.tasks

theorem progress_of_abreast (c c' : Config) (h : c.Abreast ρ seat bottom c') :
    Progress.Alike False (Near f f.floor) (Abreast ρ seat bottom) c.step c'.step := by
  obtain ⟨m, tasks, v⟩ := c
  obtain ⟨n, _, _⟩ := c'
  obtain ⟨rfl, rfl, hnested, hroot, K, hagree, hheld, hdue⟩ := h
  have near_floor {m n : Machine} (h : Near f K m n) : Near f f.floor m n := h.mono hagree.floor
  cases tasks with
  | nil => exact .finished (near_floor hagree.near)
  | cons t rest =>
    have halike := taskStep_of_agree hagree hheld hdue v
    refine .mono (fun _ _ h => near_floor h) (progress_of_taskStep halike ?_)
    rintro ⟨new, v'⟩ _ m' n' hstep rfl ⟨K', hK', hagree'⟩
    have hfollows : Follows ⟨m, t :: rest, v⟩ ⟨m', new ++ rest, v'⟩ := by
      simp only [Follows, step, hstep]
    refine ⟨rfl, rfl, nested_of_follows handedOn_true hnested hfollows,
      rooted_of_follows hnested hroot hfollows, K', hagree', ?_⟩
    exact held_of_taskStep hagree.table hnested hroot hheld hK' hagree'.top hstep

end Config

namespace Machine

variable {m n : Machine}

/-- An execution that keeps to the regime comes out alike on machines that agree. -/
theorem perform_of_near (ρ : Regime f) {x : Execution} (h : Near f f.floor m n) (hcomplete : x.Complete)
    (hfound : x.Found m) (hblocks : x.Executes ρ.blocks) (fuel : Nat) :
    Outcome.Alike False (Near f f.floor) (m.perform fuel x.begin) (n.perform fuel x.begin) := by
  have hbegin : Op.Alike False (Near f f.floor) (Near f f.floor) Eq (x.begin m) (x.begin n) := by
    cases x with
    | block code => exact Near.beginBlock code h
    | call r args => exact Near.beginCall r args h
  obtain ⟨K, hK, hagree⟩ := h
  refine perform_alike (S := Config.Abreast ρ 0 m.frames.toList) Config.progress_of_abreast fuel
    hbegin ?_
  rintro tasks _ m' n' begun rfl ⟨K', hK', hagree'⟩
  have hroot : Task.Rooted 0 m'.base m'.frames.toList (tasks ++ []) :=
    Config.rooted_of_execution hcomplete begun trivial
  have hheld : Task.Held ρ K' m'.base m'.frames.toList (tasks ++ []) ∧
      Task.Due K' m'.halted (tasks ++ []) :=
    Config.held_of_execution hagree.table hcomplete hfound hblocks begun hagree'.top trivial trivial
  rw [List.append_nil] at hroot hheld
  exact ⟨rfl, rfl, nested_of_execution .zero begun, hroot, K', hagree', hheld⟩

/-- Machines that agree answer a request alike, if the codes that it names can be executed under the
regime. -/
theorem reply_of_near (ρ : Regime f) (h : Near f f.floor m n)
    (hinits : ∀ exe, f.exe = some exe → ∀ code ∈ exe.inits, ρ.blocks code) {q : HostRequest}
    (hblock : ∀ code, q = .execute code → ρ.blocks code) (fuel : Nat) :
    Reply.Alike False (Near f f.floor) (q.reply fuel m) (q.reply fuel n) := by
  have block {m n : Machine} (h : Near f f.floor m n) {code : Code} (hcode : ρ.blocks code) :
      Outcome.Alike False (Near f f.floor) (m.runBlock fuel code) (n.runBlock fuel code) :=
    runBlock_alike (perform_of_near ρ (x := .block code) h trivial trivial hcode fuel)
  obtain ⟨K, hK, hagree⟩ := h
  have h : Near f f.floor m n := ⟨K, hK, hagree⟩
  refine reply_alike hagree.exe (fun code hq => block h (hblock code hq)) (fun exe hexe => ?_) ?_
  · rw [hagree.program] at hexe
    refine runInits_alike (fun m n h => ?_) (fun code hcode m n h => ?_) h
    · obtain ⟨_, -, h⟩ := h
      exact h.halted
    · exact block h (hinits exe hexe code hcode)
  · intro index args r hcallee
    exact perform_of_near ρ (x := .call r args) h (length_of_callee hcallee)
      ⟨index, routine_of_callee hcallee⟩ trivial fuel

end Machine

/-! ### Where all of the memories agree -/

theorem HostScript.executes_of_forall {P : Code → Prop} (h : ∀ code, P code) (s : HostScript) :
    s.Executes P := by
  induction s with
  | done => trivial
  | log line next ih => exact ih
  | registers next ih => exact fun r => ih r
  | stack next ih => exact fun slots => ih slots
  | readGlobal index next ih => exact fun v => ih v
  | writeGlobal index value next ih => exact ih
  | newObject value next ih => exact fun handle => ih handle
  | object handle next ih => exact fun o => ih o
  | call index args next ih => exact fun answer => ih answer
  | execute code next ih => exact ⟨h code, ih⟩

/-- Whatever is executed, it cannot tell machines apart that agree on the whole stack. -/
def Regime.whole (f : Footing) (hstack : f.shape.stack ≤ f.floor) (hheap : f.shape.heap ≤ f.tags) :
    Regime f where
  runs _ _ _ _ := True
  blocks _ := True
  covers hK _ :=
    { base := by omega
      global := fun _ _ _ _ => by omega
      named := fun _ _ _ _ => by omega }
  mono _ _ := trivial
  next _ _ _ := trivial
  enter _ _ _ := trivial
  block _ _ := trivial
  host _ _ _ := HostScript.executes_of_forall (fun _ => trivial) _

namespace Machine

/-- What a machine has in common with itself. -/
def footing (m : Machine) : Footing where
  shape := m.shape
  exe := m.exe
  tags := m.heap.size
  floor := max m.stack.size m.sp

theorem near_self (m : Machine) : Near m.footing m.footing.floor m m := by
  refine ⟨_, Int.le_refl _, ?_⟩
  exact
    { shape := rfl, tagged := rfl, program := rfl, exe := rfl, heap := rfl, objects := rfl, frames := rfl
      sp := rfl, base := rfl, halted := rfl, stack := .refl _ _, stackTags := fun _ => .refl _ _
      heapTags := fun _ => .refl _ _, floor := Int.le_refl _, top := Int.le_max_right .. }

/-- No request changes the shape of a machine, whether it is answered or ends in a fault. -/
theorem shape_of_reply {m m' : Machine} {fuel : Nat} {q : HostRequest} {o : Outcome Slot}
    (hreply : q.reply fuel m = .ok o) (ho : (∃ v, o = .finished v m') ∨ ∃ e, o = .faulted e m') :
    m'.shape = m.shape := by
  have hself : Reply.Alike False (Near m.footing m.footing.floor) (q.reply fuel m) (q.reply fuel m) :=
    reply_of_near (Regime.whole m.footing (Int.le_max_left ..) (Nat.le_refl _)) m.near_self
      (fun _ _ _ _ => trivial) (fun _ _ => trivial) fuel
  rw [hreply] at hself
  obtain ⟨_, -, hagree⟩ : Near m.footing m.footing.floor m' m' := by
    rcases ho with ⟨v, rfl⟩ | ⟨e, rfl⟩
    · cases hself with
      | answered h => cases h with
        | finished h => exact h
    · cases hself with
      | answered h => cases h with
        | faulted h => exact h
        | spared h => exact h.elim
  exact hagree.shape

end Machine
end Stackwork
