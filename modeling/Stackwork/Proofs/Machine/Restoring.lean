import Stackwork.Proofs.Machine.Parity

/-!
# Registers behind an execution

An execution is a block of code that is run, or a routine that is called, at the top level or
by a host function at work. Whatever the code and however it ends, by a return, at its end, or
by HALT at any depth, SP, BASE and the frames are afterwards what they were before, and at no
moment in between are there fewer frames.

The frames follow from `Task.Nested`. SP and BASE are put back by the last task of the
execution, which stays where it is until everything above it is over (`Config.Restores`).
-/
namespace Stackwork

/-- What can be executed. -/
inductive Execution where
  /-- A code, as a block of its own. -/
  | block (code : Code)
  /-- A routine, with arguments. -/
  | call (r : Routine) (args : List Slot)

/-- Begin an execution: the tasks to run. -/
def Execution.begin : Execution → Op (List Task)
  | block code => Machine.beginBlock code
  | call r args => Machine.beginCall r args

/-- The registers of a machine are those of another, and so are all of its frames. -/
structure Machine.Restored (m m' : Machine) : Prop where
  sp : m'.sp = m.sp
  base : m'.base = m.base
  frames : m'.frames = m.frames

/-- A task that puts back SP and BASE. -/
inductive Task.Restores (sp base : Int) : Task → Prop where
  | block : Restores sp base (.closeBlock sp base)
  | call : Restores sp base (.closeCall sp base)

namespace Config

variable {m : Machine} {tasks : List Task} {v : Slot} {c : Config} {sp base : Int}

/-- Tasks at work on top of others: either they still are, or they have come to their end and
the others have gone on. -/
theorem reaches_above {rest : List Task} (h : Reaches ⟨m, tasks ++ rest, v⟩ c) :
    (∃ m' ts v', c = ⟨m', ts ++ rest, v'⟩ ∧ Reaches ⟨m, tasks, v⟩ ⟨m', ts, v'⟩) ∨
      ∃ m' v', Reaches ⟨m, tasks, v⟩ ⟨m', [], v'⟩ ∧ Reaches ⟨m', rest, v'⟩ c := by
  induction h with
  | refl => exact .inl ⟨m, tasks, v, rfl, .refl⟩
  | tail _ hstep ih =>
    rcases ih with ⟨m', ts, v', rfl, hrun⟩ | ⟨m', v', hend, hrun⟩
    · cases ts with
      | nil => exact .inr ⟨m', v', hrun, .single hstep⟩
      | cons t ts =>
        obtain ⟨new, v'', m'', ht, rfl⟩ := follows_cons hstep
        refine .inl ⟨m'', new ++ ts, v'', by rw [List.append_assoc]; rfl, hrun.tail ?_⟩
        simp only [Follows, step, ht]
    · exact .inr ⟨m', v', hend, hrun.tail hstep⟩

variable {m' : Machine} {v' : Slot} {c' : Config}

/-- What tasks come to alone, they come to on top of others. -/
theorem Reaches.above {ts : List Task} (h : Reaches ⟨m, tasks, v⟩ ⟨m', ts, v'⟩) (rest : List Task) :
    Reaches ⟨m, tasks ++ rest, v⟩ ⟨m', ts ++ rest, v'⟩ := by
  suffices hall : ∀ c, Reaches ⟨m, tasks, v⟩ c →
      Reaches ⟨m, tasks ++ rest, v⟩ ⟨c.machine, c.tasks ++ rest, c.result⟩ from hall _ h
  intro c hc
  induction hc with
  | refl => exact .refl
  | @tail c _ _ hstep ih =>
    refine ih.tail ?_
    obtain ⟨n, tasks, w⟩ := c
    cases tasks with
    | nil => cases hstep
    | cons t ts =>
      obtain ⟨new, w', n', ht, rfl⟩ := follows_cons hstep
      simp only [Follows, List.cons_append, step, ht, List.append_assoc]

/-- The last task puts back SP and BASE; when no task is left, they are put back. -/
def Restores (sp base : Int) (c : Config) : Prop :=
  (∃ ts t, c.tasks = ts ++ [t] ∧ t.Restores sp base) ∨
    (c.tasks = [] ∧ c.machine.sp = sp ∧ c.machine.base = base)

/-- A closing task is over in one step, with SP and BASE put back. -/
theorem closeStep_eq {t : Task} (ht : t.Restores sp base)
    (h : Machine.taskStep v t m = .ok (tasks, v') m') : tasks = [] ∧ m'.sp = sp ∧ m'.base = base := by
  cases ht with
  | block =>
    cases h
    exact ⟨rfl, rfl, rfl⟩
  | call =>
    obtain ⟨w, m₁, hend, hpure⟩ := Op.bind_eq_ok.1 h
    cases hpure
    obtain ⟨m₂, _, hget, hread⟩ := Op.bind_eq_ok.1 hend
    cases hget
    simp only at hread
    split at hread
    · cases hread
      exact ⟨rfl, rfl, rfl⟩
    · obtain ⟨_, _, hget, hrest⟩ := Op.bind_eq_ok.1 hread
      cases hget
      obtain ⟨_, m₃, -, hput⟩ := Op.bind_eq_ok.1 hrest
      cases hput
      exact ⟨rfl, rfl, rfl⟩

theorem restores_of_follows (h : c.Restores sp base) (hstep : c.Follows c') : c'.Restores sp base := by
  obtain ⟨m, tasks, v⟩ := c
  rcases h with ⟨ts, t, htasks, ht⟩ | ⟨htasks, -, -⟩
  · obtain rfl : tasks = ts ++ [t] := htasks
    cases ts with
    | nil =>
      obtain ⟨new, v', m', hnew, rfl⟩ := follows_cons hstep
      obtain ⟨rfl, hsp, hbase⟩ := closeStep_eq ht hnew
      exact .inr ⟨rfl, hsp, hbase⟩
    | cons t' ts =>
      obtain ⟨new, v', m', -, rfl⟩ := follows_cons hstep
      exact .inl ⟨new ++ ts, t, (List.append_assoc _ _ _).symm, ht⟩
  · obtain rfl : tasks = [] := htasks
    cases hstep

theorem restores_of_reaches (h : c.Restores sp base) (run : c.Reaches c') : c'.Restores sp base := by
  induction run with
  | refl => exact h
  | tail _ hstep ih => exact restores_of_follows ih hstep

end Config

namespace Machine

open Op (Pairs Steady Keeps)

/-- One machine, with at least the given frames. -/
def AtLeast (fs : List Frame) (m n : Machine) : Prop := m = n ∧ fs <+: m.frames.toList

section AtLeast

variable {α : Type} {fs : List Frame}

/-- An operation that leaves the frames alone, whether it goes well or not. -/
theorem pairs_atLeast {x : Op α} (hok : ∀ m a m', x m = .ok a m' → m'.frames = m.frames)
    (herr : ∀ m f m', x m = .error f m' → m'.frames = m.frames) :
    Steady False (AtLeast fs) x := by
  rintro m n ⟨rfl, hfs⟩
  cases h : x m with
  | ok a m' => exact .ok rfl ⟨rfl, (hok m a m' h).symm ▸ hfs⟩
  | error f m' => exact .error ⟨rfl, (herr m f m' h).symm ▸ hfs⟩

theorem atLeast_get {x : Machine → Op α} {R : Machine → Machine → Prop} {Q : α → α → Prop}
    (h : ∀ m, Pairs False (AtLeast fs) (AtLeast fs) R Q (x m) (x m)) :
    Pairs False (AtLeast fs) (AtLeast fs) R Q (get >>= x) (get >>= x) :=
  .get fun m n hmn => by
    obtain ⟨rfl, -⟩ := hmn
    exact h m

theorem atLeast_require (a? : Option α) : Steady False (AtLeast fs) (require a?) :=
  .require rfl fun _ _ h => h

theorem atLeast_modify {f : Machine → Machine} (hf : ∀ m, m.frames.toList <+: (f m).frames.toList) :
    Pairs False (AtLeast fs) (AtLeast fs) (AtLeast fs) Eq (modify f : Op PUnit) (modify f) :=
  .modify fun m n hmn => by
    obtain ⟨rfl, hfs⟩ := hmn
    exact ⟨rfl, hfs.trans (hf m)⟩

theorem atLeast_writeStack (i : Int) (v : Slot) (k : Kind) :
    Steady False (AtLeast fs) (writeStack i v k) := by
  refine pairs_atLeast (fun m a m' h => congrArg Control.frames (keeps_writeStack _ _ _ h)) ?_
  intro m f m' h
  unfold writeStack at h
  split at h <;> cases h
  rfl

theorem atLeast_writeHeap (i : Int) (v : Slot) (k : Kind) :
    Steady False (AtLeast fs) (writeHeap i v k) := by
  refine pairs_atLeast (fun m a m' h => congrArg Control.frames (keeps_writeHeap _ _ _ h)) ?_
  intro m f m' h
  unfold writeHeap at h
  split at h <;> cases h
  rfl

theorem atLeast_checkTag (region : Region) (i : Int) (held wanted : Kind) :
    Steady False (AtLeast fs) (checkTag region i held wanted) :=
  .ite Iff.rfl (fun _ => .fault _ fun _ _ h => h) fun _ => .pure rfl

theorem atLeast_readStack (i : Int) (k : Kind) : Steady False (AtLeast fs) (readStack i k) :=
  atLeast_get fun _ => (atLeast_require _).bindEq fun _ => atLeast_get fun _ =>
    .ite Iff.rfl (fun _ => atLeast_get fun _ => (atLeast_require _).bindEq fun _ =>
        (atLeast_checkTag _ _ _ _).bindEq fun _ => .pure rfl)
      fun _ => .pure rfl

theorem atLeast_readHeap (i : Int) (k : Kind) : Steady False (AtLeast fs) (readHeap i k) :=
  atLeast_get fun _ => (atLeast_require _).bindEq fun _ => atLeast_get fun _ =>
    .ite Iff.rfl (fun _ => atLeast_get fun _ => (atLeast_require _).bindEq fun _ =>
        (atLeast_checkTag _ _ _ _).bindEq fun _ => .pure rfl)
      fun _ => .pure rfl

theorem atLeast_enter (r : Routine) : Steady False (AtLeast fs) (enter r) := by
  refine pairs_atLeast (fun m a m' h => congrArg Control.frames (keeps_enter _ h)) ?_
  intro m f m' h
  unfold enter at h
  simp only at h
  split at h <;> cases h
  rfl

theorem atLeast_endHost (call : HostCall) (v : Slot) :
    Steady False (AtLeast fs) (endHost call v) := by
  refine .bindEq (atLeast_modify fun _ => List.prefix_rfl) fun _ =>
    .bindEq (atLeast_writeStack _ _ _) fun _ => atLeast_get fun m => ?_
  refine .ite Iff.rfl (fun _ => ?_) fun _ => atLeast_modify fun _ => List.prefix_rfl
  cases call.routine.returnKind? with
  | none => exact .bindEq (Pairs.fault _ fun _ _ h => h) fun _ => atLeast_modify fun _ => List.prefix_rfl
  | some k => exact .bindEq (atLeast_writeStack _ _ _) fun _ => atLeast_modify fun _ => List.prefix_rfl

theorem parity_atLeast (fs : List Frame) : Parity False (AtLeast fs) fun _ _ => True where
  face h := h.1 ▸ rfl
  wear h _ := ⟨h.1 ▸ rfl, h.2⟩
  write h _ := ⟨h.1 ▸ rfl, h.2⟩
  depth _ := trivial
  pushFrame h f := ⟨h.1 ▸ rfl, h.2.trans ⟨[f], Array.toList_push.symm⟩⟩
  readHeap := atLeast_readHeap
  writeHeap := atLeast_writeHeap
  readStack := atLeast_readStack
  writeStack := atLeast_writeStack
  enter := atLeast_enter
  endHost := atLeast_endHost

/-- A return takes a frame away only when nothing can go wrong any more. -/
theorem atLeast_returnFrom (k : Kind) (d : Nat) :
    Pairs False (AtLeast fs) (AtLeast fs) (fun _ _ => True) Eq (returnFrom k d) (returnFrom k d) := by
  rw [returnFrom_eq]
  refine .bindEq (R := AtLeast fs)
    (.ite Iff.rfl (fun _ => .pure rfl) fun _ => (parity_atLeast fs).likeness.pop k)
    fun v => .bindEq ((parity_atLeast fs).putResult k v) fun _ => atLeast_get fun m => ?_
  refine .ite Iff.rfl (fun _ _ _ _ => .ok rfl trivial) fun _ => atLeast_get fun m => ?_
  cases m.frames.back? with
  | none | some f => exact fun _ _ _ => .ok rfl trivial

theorem atLeast_dispatch (code : Code) (pc : Int) (d : Nat) :
    Pairs False (AtLeast fs) (AtLeast fs) (fun _ _ => True) Eq (dispatch code pc d)
      (dispatch code pc d) :=
  (parity_atLeast fs).dispatch (fun _ _ _ => trivial) (fun _ => rfl)
    (fun _ _ => atLeast_get fun _ => .ite Iff.rfl (fun _ => atLeast_modify fun _ => List.prefix_rfl)
      fun _ => .pure rfl)
    (fun _ => atLeast_returnFrom _ _) fun _ _ _ _ => .ok rfl trivial

end AtLeast

variable {v : Slot} {m m' m₁ : Machine} {tasks : List Task} {x : Execution}

/-- A fault never comes with fewer frames. -/
theorem frames_of_fault {t : Task} {f : Fault} (h : taskStep v t m = .error f m') :
    m.frames.toList <+: m'.frames.toList := by
  -- What is known of both sides of a pair is used on two copies of one machine.
  have of_alike {α : Type} {R : Machine → Machine → Prop} {Q : α → α → Prop}
      {x : EStateM.Result Fault Machine α} {y : EStateM.Result Fault Machine α}
      (hxy : Op.Alike False (AtLeast m.frames.toList) R Q x y) (hx : x = .error f m') :
      m.frames.toList <+: m'.frames.toList := by
    cases hxy with
    | ok => cases hx
    | error rel =>
      cases hx
      exact rel.2
    | spared h => exact h.elim
  have start : AtLeast m.frames.toList m m := ⟨rfl, List.prefix_rfl⟩
  by_cases hloop : ∃ code pc d, t = .loop code pc d
  · obtain ⟨code, pc, d, rfl⟩ := hloop
    obtain hget | ⟨_, _, hget, h₁⟩ := Op.bind_eq_error.1 h
    · cases hget
    cases hget
    simp only at h₁
    split at h₁
    · cases h₁
    obtain hd | ⟨next, m₁, hd, h₂⟩ := Op.bind_eq_error.1 h₁
    · exact of_alike (atLeast_dispatch code pc d start) hd
    cases next with
    | goto pc | move code pc | leave => cases h₂
    | host r builtin pc =>
      obtain hhost | ⟨_, _, -, h₃⟩ := Op.bind_eq_error.1 h₂
      · cases flow_of_dispatch hd with
        | host fetch found body same =>
          have hframes : m₁.frames = m.frames := congrArg Control.frames same
          have start₁ : AtLeast m.frames.toList m₁ m₁ := ⟨rfl, hframes ▸ List.prefix_rfl⟩
          exact of_alike ((parity_atLeast _).beginHost r builtin start₁) hhost
      · cases h₃
  · have hnot : ∀ code pc d, t ≠ .loop code pc d := fun code pc d e => hloop ⟨code, pc, d, e⟩
    exact of_alike ((parity_atLeast _).taskStep hnot v start) h

/-- How a call from the host begins: the arguments are pushed, and a host function gets to work or
code gets its frame. -/
inductive CallBegun (r : Routine) (args : List Slot) (m : Machine) : List Task → Machine → Prop where
  | host {builtin : Builtin} {t : Task} {m₀ m' : Machine} (body : r.body = .host builtin)
      (pushed : pushArgs args r.type.inputs { m with halted := false } = .ok () m₀)
      (begun : beginHost r builtin m₀ = .ok t m') :
      CallBegun r args m [t, .closeCall m.sp m.base] m'
  | code {target : Code} {ks : List Kind} {base : Int} {m₀ m₁ : Machine}
      (body : r.body = .compiled (some target) ks)
      (pushed : pushArgs args r.type.inputs { m with halted := false } = .ok () m₀)
      (entered : enter r m₀ = .ok base m₁) :
      CallBegun r args m [.loop target 0 m.frames.size, .closeCall m.sp m.base] { m₁ with base }

theorem begun_of_beginCall {r : Routine} {args : List Slot} (h : beginCall r args m = .ok tasks m') :
    CallBegun r args m tasks m' := by
  obtain ⟨_, _, hhalted, h₁⟩ := Op.bind_eq_ok.1 h
  cases hhalted
  obtain ⟨_, _, hget, h₂⟩ := Op.bind_eq_ok.1 h₁
  cases hget
  obtain ⟨_, _, hget, h₃⟩ := Op.bind_eq_ok.1 h₂
  cases hget
  obtain ⟨_, m₀, pushed, h₄⟩ := Op.bind_eq_ok.1 h₃
  cases body : r.body with
  | host builtin =>
    simp only [body] at h₄
    obtain ⟨t, m₁, begun, h₅⟩ := Op.bind_eq_ok.1 h₄
    cases h₅
    exact .host body pushed begun
  | compiled code ks =>
    simp only [body] at h₄
    obtain ⟨_, _, hget, h₅⟩ := Op.bind_eq_ok.1 h₄
    cases hget
    obtain ⟨base, m₁, entered, h₆⟩ := Op.bind_eq_ok.1 h₅
    obtain ⟨_, _, hbase, h₇⟩ := Op.bind_eq_ok.1 h₆
    cases hbase
    have hframes : m₀.frames = m.frames := congrArg Control.frames (keeps_pushArgs _ _ pushed)
    cases code with
    | none => cases h₇
    | some code =>
      cases h₇
      rw [hframes]
      exact .code body pushed entered

/-- Loops of an execution are nested above the frames that were there before. -/
theorem nested_of_execution (v : Slot) (begun : x.begin m = .ok tasks m₁) :
    Config.Nested (fun _ _ => True) m.frames.toList ⟨m₁, tasks, v⟩ := by
  cases x with
  | block code => exact (nested_of_begin handedOn_true (gives_beginBlock code) begun).1
  | call r args => exact (nested_of_begin handedOn_true (gives_beginCall r args) begun).1

/-- The last task of an execution puts back the registers it was begun with. -/
theorem restores_of_execution (v : Slot) (begun : x.begin m = .ok tasks m₁) :
    Config.Restores m.sp m.base ⟨m₁, tasks, v⟩ := by
  cases x with
  | block code =>
    cases begun
    exact .inl ⟨[_], _, rfl, .block⟩
  | call r args =>
    cases begun_of_beginCall begun with
    | @host _ t => exact .inl ⟨[t], _, rfl, .call⟩
    | code => exact .inl ⟨[_], _, rfl, .call⟩

/-- At every moment of an execution all frames that were there before still are. -/
theorem prefix_of_nested {P : Code → Int → Prop} {bottom fs : List Frame}
    (h : Task.Nested P bottom fs tasks) : bottom <+: fs := by
  induction tasks generalizing fs with
  | nil => exact h ▸ List.prefix_rfl
  | cons t tasks ih =>
    cases t with
    | loop code pc d => exact (ih h.2.2.2).trans (List.take_prefix d fs)
    | script | waiting | closeBlock | closeCall => exact ih h

theorem restored_of_reaches {v' : Slot} (begun : x.begin m = .ok tasks m₁)
    (run : Config.Reaches ⟨m₁, tasks, v⟩ ⟨m', [], v'⟩) : m.Restored m' := by
  have hframes := Config.nested_of_reaches handedOn_true (nested_of_execution v begun) run
  obtain ⟨ts, t, htasks, -⟩ | ⟨-, hsp, hbase⟩ :=
    Config.restores_of_reaches (restores_of_execution v begun) run
  · simp at htasks
  · exact ⟨hsp, hbase, Array.toList_inj.1 hframes⟩

theorem restored_of_perform {fuel : Nat} (h : m.perform fuel x.begin = .finished v m') :
    m.Restored m' := by
  unfold perform at h
  split at h
  · next begun => exact restored_of_reaches begun (Config.reaches_of_run h)
  · cases h

/-- An execution begun by `m` on top of other tasks is not over, and it has all the frames that
`m` had, even where it faults. -/
structure Inside (m : Machine) (rest : List Task) (c : Config) : Prop where
  tasks : ∃ t ts, c.tasks = t :: ts ++ rest
  frames : m.frames.toList <+: c.machine.frames.toList
  faulted {f : Fault} {m' : Machine} (h : c.step = .faulted f m') :
    m.frames.toList <+: m'.frames.toList

/-- However a block of code or a call of a routine ends, SP, BASE and the frames are afterwards
what they were before. So it is for executions that a host function begins, on top of the tasks
that wait for it; and as long as one is not over, no frame from before it is missing. -/
theorem execution_restores (m : Machine) :
    (∀ fuel code m', m.runBlock fuel code = .finished () m' → m.Restored m') ∧
    (∀ fuel index args v m', m.call fuel index args = .ok (.finished v m') → m.Restored m') ∧
    ∀ (x : Execution) tasks m₁, x.begin m = .ok tasks m₁ →
      ∀ rest v c, Config.Reaches ⟨m₁, tasks ++ rest, v⟩ c →
        m.Inside rest c ∨ ∃ m' v', m.Restored m' ∧
          Config.Reaches ⟨m₁, tasks ++ rest, v⟩ ⟨m', rest, v'⟩ ∧ Config.Reaches ⟨m', rest, v'⟩ c := by
  refine ⟨fun fuel code m' h => ?_, fun fuel index args v m' h => ?_, ?_⟩
  · unfold runBlock at h
    split at h
    · next hperform =>
      cases h
      exact restored_of_perform (x := .block code) hperform
    · cases h
    · cases h
  · unfold call at h
    cases hcallee : m.callee index args with
    | error e =>
      rw [hcallee] at h
      cases h
    | ok r =>
      rw [hcallee] at h
      exact restored_of_perform (x := .call r args) (Except.ok.inj h)
  · intro x tasks m₁ begun rest v c run
    rcases Config.reaches_above run with ⟨m', ts, v', rfl, hrun⟩ | ⟨m', v', hend, hrun⟩
    · cases ts with
      | nil => exact .inr ⟨m', v', restored_of_reaches begun hrun, hrun.above rest, .refl⟩
      | cons t ts =>
        have hframes : m.frames.toList <+: m'.frames.toList :=
          prefix_of_nested (Config.nested_of_reaches handedOn_true (nested_of_execution v begun) hrun)
        refine .inl ⟨⟨t, ts, rfl⟩, hframes, fun {f m''} hfault => hframes.trans ?_⟩
        simp only [List.cons_append, Config.step] at hfault
        split at hfault
        · cases hfault
        · next herror =>
          cases hfault
          exact frames_of_fault herror
    · exact .inr ⟨m', v', restored_of_reaches begun hend, hend.above rest, hrun⟩

/-- A routine that calls a host function, which runs a block that halts. -/
def halting : Executable where
  name := "halting"
  routines := #[
    ⟨"stop", .function 5 (.prim 0 .void) [], 0, .host fun _ => .execute ⟨#[0x63]⟩ (.done .zero)⟩,
    ⟨"outer", .function 6 (.prim 0 .void) [], 1, .compiled (some ⟨#[0x60, 0, 0x01]⟩) []⟩]

/-- HALT inside a block that a host function runs inside a call, on a machine that has a frame
and a stack of its own: the call is over, and both are as they were. -/
theorem execution_restores_halting : ∃ (m m' : Machine) (v : Slot),
    m.exe = some halting ∧ m.sp = 3 ∧ m.base = 2 ∧ m.frames = #[⟨⟨#[]⟩, 0, 1⟩] ∧
      m.call 20 1 [] = .ok (.finished v m') ∧ m'.halted = true ∧ m.Restored m' := by
  have finishes : ∃ m' v, { new 4 8 {} with
        exe := some halting, sp := 3, base := 2, frames := #[⟨⟨#[]⟩, 0, 1⟩] }.call 20 1 [] =
      .ok (.finished v m') ∧ m'.halted = true := ⟨_, _, rfl, rfl⟩
  obtain ⟨m', v, hcall, hhalted⟩ := finishes
  exact ⟨_, m', v, rfl, rfl, rfl, rfl, hcall, hhalted, (execution_restores _).2.1 _ _ _ _ _ hcall⟩

end Machine
end Stackwork
