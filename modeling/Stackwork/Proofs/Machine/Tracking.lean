import Stackwork.Proofs.Machine.Frames
import Stackwork.Proofs.Machine.Stepping

/-!
# Runs of typed code

A run is followed together with the pieces of code that are at work in it, innermost first. The
steps of its own dispatch loop are typed ones. What a host function does is not looked into: it
is assumed to give the frames and the slots below its arguments back as it found them
(`Stage.Returns`), and nothing else is asked of it. Then the run is at a typed position whenever
its own loop is on top, and it never fails for a reason other than the two of a typed step.
-/
namespace Stackwork

open Op (Takes)
open Machine (Tops Shows at?)

namespace Config

/-- The pieces of code at work behind a step from `c` to `c'`. The run works above `rest` tasks,
its dispatch loop therefore above one more. -/
def worksOn (rest : Nat) (c c' : Config) (as : List Activation) : List Activation :=
  match c.tasks with
  | .loop code pc _ :: _ =>
    if c.tasks.length = rest + 2 ∧ c'.tasks.length = rest + 2 then
      if c.machine.frames.size < c'.machine.frames.size then
        (c.machine.called? code pc.toNat).toList.map .routine ++ as
      else if c'.machine.frames.size < c.machine.frames.size then as.tail
      else as
    else as
  | _ => as

/-- A run above `rest` tasks leads from `c₀`, where the pieces of code `as₀` are at work, to
another configuration, by way of configurations with the property `along`. -/
inductive Tracks (along : List Activation → Config → Prop) (rest : Nat) (as₀ : List Activation)
    (c₀ : Config) : List Activation → Config → Prop where
  | start : Tracks along rest as₀ c₀ as₀ c₀
  | step {as : List Activation} {c c' : Config} (before : Tracks along rest as₀ c₀ as c)
      (here : along as c) (within : rest < c.tasks.length) (next : c.Follows c') :
      Tracks along rest as₀ c₀ (c.worksOn rest c' as) c'

/-- A run leads to another configuration while there are more than `rest` tasks. -/
inductive Within (rest : Nat) (c₀ : Config) : Config → Prop where
  | start : Within rest c₀ c₀
  | step {c c' : Config} (before : Within rest c₀ c) (within : rest < c.tasks.length)
      (next : c.Follows c') : Within rest c₀ c'

/-- The host function `call` begins, called by the loop of a run above `rest` tasks or, at the
very start, by the host. The tasks `own` go on behind it. -/
inductive Enters (rest : Nat) (c₀ : Config) (call : HostCall) (own : List Task) : Config → Prop where
  | first {s : HostScript} (top : c₀.tasks = .script call s :: own) : Enters rest c₀ call own c₀
  | called {c h : Config} {code : Code} {pc : Int} {d : Nat} {below : List Task} {s : HostScript}
      (run : c₀.Within rest c) (loop : c.tasks = .loop code pc d :: below)
      (depth : below.length = rest + 1) (next : c.Follows h) (top : h.tasks = .script call s :: own) :
      Enters rest c₀ call own h

variable {rest : Nat} {c₀ c : Config}

theorem within_of_tracks {along : List Activation → Config → Prop} {as₀ as : List Activation}
    (h : Tracks along rest as₀ c₀ as c) : c₀.Within rest c := by
  induction h with
  | start => exact .start
  | step _ _ within next ih => exact ih.step within next

theorem step_eq_faulted {m m' : Machine} {t : Task} {rest : List Task} {result : Slot} {f : Fault}
    (h : step ⟨m, t :: rest, result⟩ = .faulted f m') : Machine.taskStep result t m = .error f m' := by
  simp only [step] at h
  split at h
  · cases h
  · next herr =>
    cases h
    exact herr

theorem reaches_of_within (h : c₀.Within rest c) : c₀.Reaches c := by
  induction h with
  | start => exact .refl
  | step _ _ next ih => exact ih.tail next

theorem fixture_of_within (h : c₀.Within rest c) : c.machine.fixture = c₀.machine.fixture :=
  fixture_of_reaches (reaches_of_within h)

/-- A step may fail: at an integer division by zero, at an instruction for which the stack is
too small, or at the end of a host function whose result has no room. -/
inductive MayFault (c : Config) : Fault → Prop where
  | division {code : Code} {p depth : Nat} {rest : List Task} {op : BinaryCode} {v : Slot}
      (top : c.tasks = .loop code p depth :: rest)
      (fetch : code.instr? p = some (Instr.make (.binary op) .int)) (divides : op = .div ∨ op = .mod)
      (divisor : at? c.machine.stack (c.machine.sp - 1) = some v) (zero : v.toInt = 0) :
      MayFault c .division
  | full {code : Code} {p depth : Nat} {rest : List Task} (top : c.tasks = .loop code p depth :: rest)
      (lacks : (c.machine.stack.size : Int) < c.machine.demand code p) : MayFault c .outOfRange
  | fullHost {call : HostCall} {v : Slot} {rest : List Task}
      (top : c.tasks = .script call (.done v) :: rest)
      (lacks : (c.machine.stack.size : Int) < call.bottom + 1) : MayFault c .outOfRange

end Config

/-- A host function at work, or waiting. -/
def Task.IsOf (call : HostCall) : Task → Prop
  | .script call' _ | .waiting call' _ => call' = call
  | _ => False

/-- What puts SP and BASE back when a loop above `bottom` slots is over. -/
def Task.Closes (bottom : Nat) : Task → Prop
  | .closeBlock sp _ => sp = bottom
  | .closeCall sp _ => sp = bottom
  | _ => False

variable {call : HostCall} {m m' : Machine}

/-- A step of a host function ends it, or leaves it at the bottom of what it has begun. -/
theorem Machine.scriptStep_cases {s : HostScript} {tasks : List Task} (h : scriptStep call s m = .ok tasks m') :
    (∃ v, s = .done v ∧ tasks = [] ∧ endHost call v m = .ok () m') ∨
      ∃ above t, tasks = above ++ [t] ∧ t.IsOf call := by
  cases s with
  | done v =>
    obtain ⟨_, m₁, hend, h₁⟩ := Op.bind_eq_ok.1 h
    cases h₁
    exact .inl ⟨v, rfl, rfl, hend⟩
  | log line next | registers next | object handle next | newObject value next =>
    obtain ⟨_, _, -, h₁⟩ := Op.bind_eq_ok.1 h
    cases h₁
    exact .inr ⟨[], _, rfl, rfl⟩
  | stack next | readGlobal index next =>
    obtain ⟨_, _, -, h₁⟩ := Op.bind_eq_ok.1 h
    obtain ⟨_, _, -, h₂⟩ := Op.bind_eq_ok.1 h₁
    cases h₂
    exact .inr ⟨[], _, rfl, rfl⟩
  | writeGlobal index value next =>
    obtain ⟨_, _, -, h₁⟩ := Op.bind_eq_ok.1 h
    obtain ⟨_, _, -, h₂⟩ := Op.bind_eq_ok.1 h₁
    obtain ⟨_, _, -, h₃⟩ := Op.bind_eq_ok.1 h₂
    cases h₃
    exact .inr ⟨[], _, rfl, rfl⟩
  | call index args next =>
    obtain ⟨m₁, _, -, h₁⟩ := Op.bind_eq_ok.1 h
    cases hcallee : m₁.callee index args with
    | error e =>
      rw [hcallee] at h₁
      cases h₁
      exact .inr ⟨[], _, rfl, rfl⟩
    | ok r =>
      rw [hcallee] at h₁
      obtain ⟨tasks, _, -, h₂⟩ := Op.bind_eq_ok.1 h₁
      cases h₂
      exact .inr ⟨tasks, _, rfl, rfl⟩
  | execute code next =>
    obtain ⟨tasks, _, -, h₁⟩ := Op.bind_eq_ok.1 h
    cases h₁
    exact .inr ⟨tasks, _, rfl, rfl⟩

variable {v result : Slot}

theorem Machine.taskStep_done (h : endHost call v m = .ok () m') :
    taskStep result (.script call (.done v)) m = .ok ([], result) m' := by
  have hscript : scriptStep call (.done v) m = .ok [] m' := EStateM.bind_of_ok h
  exact EStateM.bind_of_ok hscript

theorem Machine.taskStep_done_error {f : Fault} (h : endHost call v m = .error f m') :
    taskStep result (.script call (.done v)) m = .error f m' := by
  have hscript : scriptStep call (.done v) m = .error f m' := EStateM.bind_of_error h
  exact EStateM.bind_of_error hscript

/-- There is a result to take, unless the call was halted. -/
theorem Machine.exists_endCall {bottom : Nat} (base : Int) (value : m.halted = false → bottom < m.stack.size) :
    ∃ v, endCall bottom base m = .ok v { m with sp := bottom, base } := by
  have hend : Takes 0 0 (fun n => n = m) (endCall bottom base)
      fun _ n => n = { m with sp := bottom, base } := by
    refine .get fun n hn => ?_
    subst hn
    have hclose (v : Slot) : Takes 0 0 (fun n' => n' = n) (do
        modify fun m => { m with sp := (bottom : Int), base }
        return v) fun _ n' => n' = { n with sp := bottom, base } :=
      Takes.after (.modify fun m h => h ▸ rfl) fun _ => .pure fun m h => h
    by_cases hhalted : n.halted
    · rw [if_pos hhalted]
      exact (Takes.pure fun m h => ⟨rfl, h⟩).read (hclose .zero)
    · obtain ⟨v, hv⟩ : ∃ v, at? n.stack bottom = some v := by
        exact ⟨_, Array.getElem?_eq_getElem (value (by simpa using hhalted))⟩
      rw [if_neg hhalted]
      refine .get fun n' hn' => ?_
      subst hn'
      exact (Takes.require hv).read (hclose v)
  obtain ⟨v, m', hok, rfl⟩ := (hend rfl).1 (Nat.le_refl _)
  exact ⟨v, hok⟩

/-- What is below BASE is still known when it was not touched. -/
theorem Machine.Shows.of_untouched {size : Nat} {cells above : List Tagged} {sp : Int} {o : Aside} {h : Machine}
    (shows_ : h.Shows size (cells ++ above) sp o) (base : o.base = cells.length)
    (fixture : m.fixture = h.fixture) (untouched : h.Untouched m) : m.Shows size cells m.sp m.aside := by
  have hsettings : m.settings = h.settings := congrArg Fixture.settings fixture
  have hsame (i : Nat) (hi : i < cells.length) := untouched i (by rw [shows_.base_eq, base]; omega)
  have hcell {i : Nat} (hi : i < cells.length) : (cells ++ above)[i]? = some cells[i] := by
    rw [List.getElem?_append_left hi, List.getElem?_eq_getElem hi]
  refine ⟨fun tagged => ?_, ?_, ?_, fun tagged => ?_, rfl, rfl⟩
  · rw [hsettings] at tagged
    exact (congrArg Fixture.tagsSize fixture).trans (shows_.tagsSize tagged)
  · exact (congrArg Fixture.stackSize fixture).trans shows_.size
  · rw [List.prefix_iff_getElem?]
    intro i hi
    rw [List.length_map] at hi
    rw [Array.getElem?_toList, (hsame i hi).1, shows_.stack_eq (hcell hi), List.getElem_map]
  · rw [hsettings] at tagged
    rw [List.prefix_iff_getElem?]
    intro i hi
    rw [List.length_map] at hi
    rw [Array.getElem?_toList, (hsame i hi).2 tagged, shows_.stackTags_eq tagged (hcell hi), List.getElem_map]

namespace Stage

variable (S : Stage)

/-- A machine that code of the program can run on. -/
structure Fit (m : Machine) : Prop where
  upright : m.Upright
  keeps : S.Keeps m.aside

/-- What the host function `call` leaves behind that began in the machine `h` and returns `v`:
the frames, the slots below its arguments and the kinds of the globals are what they were, and
globals and the result are values of their types. -/
structure Leaves (call : HostCall) (h : Machine) (v : Slot) (m : Machine) : Prop where
  frames : m.frames = h.frames
  slots : h.Untouched m
  tags : ∀ i < S.globals.length, m.heapTags[i]? = h.heapTags[i]?
  globals : ∀ {i : Nat} {t : Ty} {v : Slot}, S.globals[i]? = some t → m.heap[i]? = some v → S.Holds t v
  result : ∀ t, call.routine.type.output? = some t → S.Holds t v

/-- The host function `call` that begins at `h` does not fail, and behind it the tasks `own` go
on in a machine as it should be left. -/
def Returns (call : HostCall) (own : List Task) (h : Config) : Prop :=
  ∀ c, h.Within own.length c → own.length < c.tasks.length →
    (∀ f m, c.step = .faulted f m → ∃ v, c.tasks = .script call (.done v) :: own) ∧
    ∀ v, c.tasks = .script call (.done v) :: own → S.Leaves call h.machine v c.machine

/-- All host functions that a run calls return. -/
def HostsReturn (rest : Nat) (c₀ : Config) : Prop :=
  ∀ call own h, c₀.Enters rest call own h → S.Returns call own h

variable (size bottom : Nat) (ground : List Frame) (close : Task) (rest : List Task)

/-- A run whose own loop is on top, or that is closing, or over. -/
inductive Own : List Activation → List Task → Machine → Prop where
  | loop {as : List Activation} {code : Code} {pc : Int} {m : Machine}
      (active : S.Active size bottom ground as code pc m) :
      Own as (.loop code pc ground.length :: close :: rest) m
  | closing {as : List Activation} {m : Machine} (ended : S.Ended size bottom ground m) :
      Own as (close :: rest) m
  | done {as : List Activation} {m : Machine} (fit : S.Fit m) (same : m.stack.size = size) : Own as rest m

/-- A host function that begins in the machine `h` and gives everything back ends well, unless
there is no room for its result. -/
def Hosted (as : List Activation) (own : List Task) (call : HostCall) (h : Machine) : Prop :=
  ∀ (m : Machine) (v : Slot), m.fixture = h.fixture → S.Leaves call h v m →
    (∃ m', Machine.endHost call v m = .ok () m' ∧ S.Own size bottom ground close rest as own m') ∨
      (m.stack.size : Int) < call.bottom + 1 ∧ ∃ m', Machine.endHost call v m = .error .outOfRange m'

/-- What is known of every configuration of a run. -/
inductive Sound : List Activation → Config → Prop where
  | own {as : List Activation} {c : Config} (h : S.Own size bottom ground close rest as c.tasks c.machine) :
      Sound as c
  | inside {as : List Activation} {c h : Config} {call : HostCall} {own above : List Task} {t : Task}
      (deep : rest.length < own.length) (hosted : S.Hosted size bottom ground close rest as own call h.machine)
      (returns : S.Returns call own h) (run : h.Within own.length c)
      (form : c.tasks = above ++ t :: own) (bottommost : t.IsOf call) : Sound as c

variable {S size bottom ground close rest}

variable {call : HostCall} {h m : Machine} {as : List Activation} {code : Code} {pc : Int} {c c' : Config}

variable {v : Slot} {n : Nat} {cells args : List Tagged} {sp base : Int} {o : Machine.Aside} {r : Routine}
  {out : Ty}

theorem Leaves.keeps (leaves : S.Leaves call h v m) (fixture : m.fixture = h.fixture) (keeps : S.Keeps h.aside) :
    S.Keeps m.aside where
  exe := (congrArg Machine.Fixture.exe fixture).trans keeps.exe
  globals {i t} ht := by
    have hheap : m.heap.size = h.heap.size := congrArg Machine.Fixture.heapSize fixture
    have hlt : i < m.heap.size := hheap ▸ keeps.lt_size ht
    exact ⟨m.heap[i], Array.getElem?_eq_getElem hlt, leaves.globals ht (Array.getElem?_eq_getElem hlt)⟩
  tags tagged {i t} ht := by
    have hsettings : m.settings = h.settings := congrArg Machine.Fixture.settings fixture
    have tagged : h.settings.tagged := hsettings ▸ tagged
    exact (leaves.tags i (List.getElem?_eq_some_iff.1 ht).1).trans (keeps.tags tagged ht)

theorem Active.exists_position (h : S.Active size bottom ground as code pc m) : ∃ p : Nat, pc = p := by
  cases h
  exact ⟨_, rfl⟩

theorem Active.size_eq (h : S.Active size bottom ground as code pc m) : m.stack.size = size := by
  cases h with
  | intro _ tops => exact tops.size

/-- Only steps of the own loop change what is at work. -/
theorem worksOn_eq (h : ∀ code pc d below, c.tasks = .loop code pc d :: below → below.length ≠ n + 1) :
    c.worksOn n c' as = as := by
  unfold Config.worksOn
  split
  · next code pc d below htasks =>
    have := h code pc d below htasks
    rw [htasks, List.length_cons, if_neg (by omega)]
  · rfl

theorem worksOn_own {d : Nat} {below : List Task} (top : c.tasks = .loop code pc d :: below)
    (depth : below.length = n + 1) (stays : c'.tasks.length = n + 2) : c.worksOn n c' as =
      if c.machine.frames.size < c'.machine.frames.size then
        (c.machine.called? code pc.toNat).toList.map .routine ++ as
      else if c'.machine.frames.size < c.machine.frames.size then as.tail
      else as := by
  simp [Config.worksOn, top, depth, stays]

/-- The result of a host function takes the place of its arguments, if there is room. -/
theorem Leaves.endHost (leaves : S.Leaves ⟨r, cells.length, base⟩ h v m)
    (shows_ : h.Shows size (cells ++ args) sp o) (bottom : o.base = cells.length)
    (fixture : m.fixture = h.fixture) (returns : r.type.output? = some out) :
    (∃ m', Machine.endHost ⟨r, cells.length, base⟩ v m = .ok () m' ∧
      m'.Tops size (cells ++ [⟨v, Kind.ofTy out⟩]) { m.aside with base }) ∨
      (m.stack.size : Int) < cells.length + 1 ∧
        ∃ m', Machine.endHost ⟨r, cells.length, base⟩ v m = .error .outOfRange m' := by
  have kind : r.returnKind? = some (Kind.ofTy out) := by rw [Routine.returnKind?, returns]; rfl
  have shows' := shows_.of_untouched bottom fixture leaves.slots
  have hsize : m.stack.size = size := shows'.size
  rw [← List.append_nil cells] at shows'
  have hend := Machine.Cells.endHost kind base v shows'
  by_cases hroom : cells.length + 1 ≤ size
  · obtain ⟨_, m', hok, tops⟩ := hend.1 hroom
    exact .inl ⟨m', hok, tops⟩
  · obtain ⟨m', herr⟩ := hend.2 (by omega)
    exact .inr ⟨by omega, m', herr⟩

/-- A host function that was called by a loop. -/
theorem Hosting.hosted {q : Int} (hosting : S.Hosting size bottom ground as code q call h) :
    S.Hosted size bottom ground close rest as (.loop code q ground.length :: close :: rest) call h := by
  cases hosting with
  | @intro a as u p below frame pending args own ts out o m r context tops returns resumes framed pends =>
    intro m' v fixture leaves
    have hkeeps : S.Keeps h.aside := tops.aside ▸ context.keeps.of_eq rfl rfl rfl rfl
    have keeps := leaves.keeps fixture hkeeps
    rcases leaves.endHost tops rfl fixture returns with ⟨m'', hok, tops'⟩ | full
    · have context' : S.Context bottom ground a as u below own { m'.aside with base := o.base } := by
        refine ⟨context.lays, context.base, ?_, keeps.of_eq rfl rfl rfl rfl, context.callers⟩
        rw [← context.frames]
        exact congrArg _ (leaves.frames.trans tops.frames_eq)
      rw [List.append_assoc] at tops'
      have pends' := pends.snoc (⟨rfl, leaves.result out returns⟩ : S.Cell ⟨v, Kind.ofTy out⟩ out)
      exact .inl ⟨m'', hok, .loop (.of_ready context' tops' resumes framed pends')⟩
    · exact .inr full

/-- A host function that was called by the host. -/
theorem hosted_of_host (shows_ : h.Shows size (cells ++ args) sp o) (length : cells.length = bottom)
    (hbase : o.base = cells.length) (frames : o.frames.toList = ground) (keeps : S.Keeps o)
    (returns : r.type.output? = some out) :
    S.Hosted size bottom ground close rest as (close :: rest) ⟨r, cells.length, base⟩ h := by
  intro m v fixture leaves
  have hkeeps := leaves.keeps fixture (shows_.aside ▸ keeps)
  rcases leaves.endHost shows_ hbase fixture returns with ⟨m', hok, tops⟩ | full
  · have hlen := tops.length_le
    rw [List.length_append, List.length_singleton] at hlen
    refine .inl ⟨m', hok, .closing ⟨by omega, fun _ => by omega, tops.tagsSize, tops.size, ?_, ?_⟩⟩
    · rw [tops.frames_eq, ← frames, ← shows_.frames_eq, ← leaves.frames]
      rfl
    · rw [tops.aside]
      exact hkeeps.of_eq rfl rfl rfl rfl
  · exact .inr full

/-- Behind the end of a loop the registers are put back. -/
theorem Ended.taskStep_close (ended : S.Ended size bottom ground m) (closes : close.Closes bottom)
    (result : Slot) :
    ∃ x m', Machine.taskStep result close m = .ok ([], x) m' ∧ S.Fit m' ∧ m'.stack.size = size := by
  have fit (base : Int) : S.Fit { m with sp := bottom, base } := by
    refine ⟨⟨Int.natCast_nonneg _, ?_, fun tagged => ?_⟩, ended.keeps.of_eq rfl rfl rfl rfl⟩
    · have := ended.room
      have := ended.size
      simp only
      omega
    · exact (ended.tagsSize tagged).trans ended.size.symm
  cases close with
  | closeBlock sp base =>
    obtain rfl : sp = bottom := closes
    exact ⟨_, _, rfl, fit base, ended.size⟩
  | closeCall b base =>
    obtain rfl : b = bottom := closes
    obtain ⟨v, hv⟩ := Machine.exists_endCall base fun running => ended.size ▸ ended.value running
    have hstep : Machine.taskStep result (.closeCall bottom base) m =
        .ok ([], v) { m with sp := bottom, base } := by
      exact EStateM.bind_of_ok hv
    exact ⟨v, _, hstep, fit base, ended.size⟩
  | loop | script | waiting => cases closes

variable (S rest) in
/-- Where the own loop of a run is at a call through a value, the value is a function of the type
that is pending. -/
def HonestAt (as : List Activation) (c : Config) : Prop :=
  ∀ {code : Code} {p d : Nat} {below : List Task} {a : Activation} {u : StackMap},
    c.tasks = .loop code p d :: below → below.length = rest.length + 1 → as.head? = some a →
    S.Lays a u → Honest u p c.machine

theorem Own.step_loop {result : Slot} (certified : S.Certified)
    (active : S.Active size bottom ground as code pc m)
    (honest : S.HonestAt rest as ⟨m, .loop code pc ground.length :: close :: rest, result⟩)
    (next : Config.Follows ⟨m, .loop code pc ground.length :: close :: rest, result⟩ c')
    (hosts : ∀ call s own, c'.tasks = .script call s :: own → S.Returns call own c') :
    S.Sound size bottom ground close rest
      (Config.worksOn rest.length ⟨m, .loop code pc ground.length :: close :: rest, result⟩ c' as) c' := by
  obtain ⟨p, rfl⟩ := active.exists_position
  obtain ⟨tasks, result', m', hstep, rfl⟩ := Config.follows_cons next
  have stepped : S.Steps size bottom ground result as code p m :=
    active.stepped certified fun ha hu => honest rfl rfl ha hu
  rw [Steps, hstep] at stepped
  cases stepped with
  | on next frames kept =>
    rw [worksOn_own rfl rfl rfl, if_neg (Nat.lt_irrefl _ <| frames ▸ ·), if_neg (Nat.lt_irrefl _ <| frames ▸ ·)]
    exact .own (.loop next)
  | into callee next frames kept =>
    rw [worksOn_own rfl rfl rfl, if_pos (by simp only; omega), Int.toNat_natCast, callee]
    exact .own (.loop next)
  | back next frames kept =>
    rw [worksOn_own rfl rfl rfl, if_neg (by simp only; omega), if_pos (by simp only; omega)]
    exact .own (.loop next)
  | @host q call s m' next kept =>
    have hsame : Config.worksOn rest.length ⟨m, .loop code p ground.length :: close :: rest, result⟩
        ⟨m', [.script call s, .loop code q ground.length] ++ close :: rest, result⟩ as = as := by
      simp [Config.worksOn]
    have deep : rest.length < (Task.loop code q ground.length :: close :: rest).length := by
      simp only [List.length_cons]
      omega
    rw [hsame]
    exact .inside deep next.hosted (hosts call s _ rfl) .start (List.nil_append _).symm rfl
  | left next kept => exact .own (.closing next)

/-- A step inside a host function. -/
theorem Sound.step_inside {h : Config} {own above : List Task} {t : Task}
    (hosted : S.Hosted size bottom ground close rest as own call h.machine) (returns : S.Returns call own h)
    (run : h.Within own.length c) (deep : rest.length < own.length) (form : c.tasks = above ++ t :: own)
    (bottommost : t.IsOf call) (next : c.Follows c') : S.Sound size bottom ground close rest as c' := by
  have hdeep : own.length < c.tasks.length := by
    rw [form, List.length_append, List.length_cons]
    omega
  have run' := run.step hdeep next
  obtain ⟨m, tasks, result⟩ := c
  obtain rfl : tasks = above ++ t :: own := form
  cases above with
  | cons y above =>
    obtain ⟨tasks, result', m', -, rfl⟩ := Config.follows_cons next
    exact .inside deep hosted returns run' (List.append_assoc tasks above (t :: own)).symm bottommost
  | nil =>
    obtain ⟨tasks, result', m', hstep, rfl⟩ := Config.follows_cons next
    cases t with
    | waiting call' next' =>
      cases hstep
      exact .inside deep hosted returns run' (List.nil_append _).symm bottommost
    | script call' s =>
      obtain rfl : call' = call := bottommost
      obtain ⟨tasks, m₁, hscript, h₁⟩ := Op.bind_eq_ok.1 hstep
      cases h₁
      rcases Machine.scriptStep_cases hscript with ⟨v, rfl, rfl, hend⟩ | ⟨above, t, rfl, ht⟩
      · have leaves := (returns _ run hdeep).2 v rfl
        rcases hosted m v (Config.fixture_of_within run) leaves with ⟨m₂, hok, hown⟩ | ⟨-, m₂, herr⟩
        · rw [hend] at hok
          cases hok
          exact .own hown
        · rw [hend] at herr
          cases herr
      · exact .inside deep hosted returns run' (List.append_assoc above [t] own) ht
    | loop | closeBlock | closeCall => cases bottommost

/-- Every step of a run leads on soundly. -/
theorem Sound.step (certified : S.Certified) (closes : close.Closes bottom)
    (sound : S.Sound size bottom ground close rest as c) (within : rest.length < c.tasks.length)
    (honest : S.HonestAt rest as c)
    (hosts : ∀ call s own code pc d below, c.tasks = .loop code pc d :: below →
      below.length = rest.length + 1 → c'.tasks = .script call s :: own → S.Returns call own c')
    (next : c.Follows c') : S.Sound size bottom ground close rest (c.worksOn rest.length c' as) c' := by
  cases sound with
  | own h =>
    obtain ⟨m, tasks, result⟩ := c
    cases h with
    | loop active =>
      exact Own.step_loop certified active honest next fun call s own => hosts call s own _ _ _ _ rfl rfl
    | closing ended =>
      obtain ⟨x, m', hclose, fit, same⟩ := ended.taskStep_close closes result
      obtain ⟨tasks, result', m'', hstep, rfl⟩ := Config.follows_cons next
      rw [hclose] at hstep
      cases hstep
      exact .own (.done fit same)
    | done => exact absurd within (Nat.lt_irrefl _)
  | inside deep hosted returns run form bottommost =>
    rw [worksOn_eq]
    · exact step_inside hosted returns run deep form bottommost next
    · intro code pc d below htop hlen
      rw [form] at htop
      rename_i above t
      cases above with
      | nil =>
        cases htop
        exact bottommost
      | cons y above =>
        have hbelow : above ++ t :: _ = below := (List.cons.inj htop).2
        rw [← hbelow, List.length_append, List.length_cons] at hlen
        omega

/-- Every configuration of a run is sound. -/
theorem sound_of_tracks {along : List Activation → Config → Prop} {as₀ : List Activation} {c₀ : Config}
    (certified : S.Certified) (closes : close.Closes bottom)
    (start : S.Sound size bottom ground close rest as₀ c₀) (hosts : S.HostsReturn rest.length c₀)
    (honest : ∀ as c, along as c → S.HonestAt rest as c) (h : Config.Tracks along rest.length as₀ c₀ as c) :
    S.Sound size bottom ground close rest as c := by
  induction h with
  | start => exact start
  | step before here within next ih =>
    refine ih.step certified closes within (honest _ _ here) ?_ next
    intro call s own code pc d below loop depth top
    exact hosts call own _ (.called (Config.within_of_tracks before) loop depth next top)

/-- A step that fails, fails for one of the reasons. -/
theorem Sound.mayFault {f : Fault} (certified : S.Certified) (closes : close.Closes bottom)
    (sound : S.Sound size bottom ground close rest as c) (within : rest.length < c.tasks.length)
    (honest : S.HonestAt rest as c) (fails : c.step = .faulted f m') : c.MayFault f := by
  cases sound with
  | own h =>
    obtain ⟨m, tasks, result⟩ := c
    cases h with
    | @loop code pc _ active =>
      obtain ⟨p, rfl⟩ := active.exists_position
      have stepped : S.Steps size bottom ground result as code p m :=
        active.stepped certified fun ha hu => honest rfl rfl ha hu
      have htask : Machine.taskStep result (.loop code p ground.length) m = .error f m' :=
        Config.step_eq_faulted fails
      rw [Steps, htask] at stepped
      cases stepped with
      | full lacks => exact .full rfl (by rw [active.size_eq]; exact lacks)
      | division fetch divides divisor zero => exact .division rfl fetch divides divisor zero
    | closing ended =>
      obtain ⟨x, m'', hclose, -, -⟩ := ended.taskStep_close closes result
      have htask := Config.step_eq_faulted fails
      rw [hclose] at htask
      cases htask
    | done => exact absurd within (Nat.lt_irrefl _)
  | @inside h call own above t deep hosted returns run form bottommost =>
    have hdeep : own.length < c.tasks.length := by
      rw [form, List.length_append, List.length_cons]
      omega
    obtain ⟨hfault, hdone⟩ := returns c run hdeep
    obtain ⟨v, hv⟩ := hfault f m' fails
    have leaves := hdone v hv
    obtain ⟨m, tasks, result⟩ := c
    obtain rfl : tasks = _ := hv
    have htask := Config.step_eq_faulted fails
    rcases hosted m v (Config.fixture_of_within run) leaves with
      ⟨m₂, hok, -⟩ | ⟨lacks, m₂, herr⟩
    · rw [Machine.taskStep_done hok] at htask
      cases htask
    · rw [Machine.taskStep_done_error herr] at htask
      cases htask
      exact .fullHost rfl lacks

end Stage
end Stackwork
